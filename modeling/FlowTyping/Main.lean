import FlowTyping.CommandLine.Run
import Std.Time.Format

namespace FlowTyping.CommandLine

def machine : Host IO where
  clock := return UInt64.ofNat ((← IO.monoNanosNow) / 1000)
  stamp := return text ((← Std.Time.PlainDateTime.now).format "uuuuMMdd-HHmmss")
  write path content := do
    match String.fromUTF8? path.toByteArray with
    | none => return .unopened
    | some path =>
      match ← (IO.FS.Handle.mk path .write).toBaseIO with
      | .error _ => return .unopened
      | .ok file =>
        match ← (file.write content.toByteArray).toBaseIO with
        | .error _ => return .unfinished
        | .ok _ => return .finished
  duration := Metrics.millis

end FlowTyping.CommandLine

open FlowTyping CommandLine in
def main (args : List String) : IO UInt32 := do
  let outcome ← program machine (some (text (toString (← IO.appPath)))) (args.map text)
  (← IO.getStdout).write outcome.out.toByteArray
  (← IO.getStderr).write outcome.err.toByteArray
  return outcome.code
