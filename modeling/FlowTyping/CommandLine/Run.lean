import FlowTyping.TypeExpr.OfType
import FlowTyping.CommandLine.Parse
import FlowTyping.CommandLine.Usage
import FlowTyping.Property
import FlowTyping.Spelling

namespace FlowTyping.CommandLine

inductive Writing
  | unopened
  | unfinished
  | finished

/-- A file that is known to have been opened counts as written. -/
instance : Coe Bool Writing := ⟨fun opened => if opened then .finished else .unopened⟩

structure Host (m : Type → Type) where
  /-- The time in microseconds since some moment. -/
  clock : m UInt64
  stamp : m Text
  write : (path content : Text) → m Writing
  /-- Writes a number of microseconds as milliseconds. -/
  duration : UInt64 → Text

def logFile (dir stamp stem : Text) : Text :=
  dir ++ (if dir.isEmpty || dir.getLast? = some 0x2f then [] else text "/") ++ stamp ++ text "-" ++
    stem ++ text ".log"

variable {m : Type → Type} [Monad m]

def writeLog (h : Host m) (dir stem content : Text) : m (Except Fault Text) := do
  let path := logFile dir (← h.stamp) stem
  match ← h.write path content with
  | .unopened => return .error (.unwritableLog path)
  | .unfinished => return .error (.unfinishedLog path)
  | .finished => return .ok path

def foldSpellings (o : Options) : TypeM (List Ty × Ty) := do
  let r : Resolvers := {}
  let members ← TypeM.ofExcept (Spelling.readAll o.types)
  let t ← r.unite members
  let t ← r.widen o.optional t
  let t ← match o.property with
    | some key => r.property t (.named key)
    | none => pure t
  return (members, t)

def logText (g : Graph) (members : List Ty) (result : Text) : Text :=
  members.flatMap (fun t => text "member " ++ g.print t ++ text "\n") ++
    text "result " ++ result ++ text "\n"

/-- Runs the fold and gives the text to be printed, or the fault, and the store that it leaves.
The time of the fold is counted also when it ends in a fault, and nothing is printed unless the
log was written. -/
def run (h : Host m) (o : Options) (store : Store) : m (Except Fault Text × Store) := do
  let start ← h.clock
  let (folded, store) := (foldSpellings o).run store
  let elapsed := (← h.clock) - start
  let metrics := store.metrics.addTime Metrics.foldStage elapsed
  match folded with
  | .error f => return (.error f, { store with metrics })
  | .ok (members, t) =>
    let metrics := metrics.setGauge Metrics.graphNodes (UInt64.ofNat store.graph.size)
    let metrics := metrics.setCounter Metrics.spelledMembers (UInt64.ofNat members.length)
    let store := { store with metrics }
    let printed := store.graph.print t
    let output := printed ++ text "\n"
    if o.logTypes then
      match ← writeLog h o.logPath (text "types") (logText store.graph members printed) with
      | .error f => return (.error f, store)
      | .ok _ => return (.ok output, store)
    else return (.ok output, store)

def metricsReport (o : Options) (duration : UInt64 → Text) (metrics : Metrics) : Text :=
  if !o.metrics then []
  else match o.format with
    | .json => metrics.summaryJson duration ++ text "\n"
    | .text =>
      metrics.summary duration ++
        metrics.hints.flatMap fun hint => text "hint: " ++ hint ++ text "\n"

structure Outcome where
  code : UInt32
  out : Text := []
  err : Text := []
deriving DecidableEq

def faultLine (f : Fault) : Text :=
  text "tyflow: " ++ text f.category.label ++ text ": " ++ f.report ++ text "\n"

def program (h : Host m) (path : Option Text) (args : List Text) : m Outcome := do
  let parsed := parse args
  match parsed.refusal with
  | some e => return { code := 2, err := e.line ++ usage path }
  | none =>
    if parsed.options.help then return { code := 0, out := usage path }
    else
      match ← run h parsed.options {} with
      | (.error f, _) => return { code := 2, err := faultLine f }
      | (.ok output, store) =>
        return { code := 0, out := output ++ metricsReport parsed.options h.duration store.metrics }

end FlowTyping.CommandLine
