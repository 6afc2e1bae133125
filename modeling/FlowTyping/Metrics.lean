import FlowTyping.Tally

namespace FlowTyping

structure Metrics where
  /-- Microseconds spent in each stage. -/
  stages : Tally := {}
  counters : Tally := {}
  gauges : Tally := {}
deriving DecidableEq

namespace Metrics

def unionsBuilt : Text := text "ty.unions_built"
def errorEscalations : Text := text "ty.escalations.error"
def anyEscalations : Text := text "ty.escalations.any"
def unknownEscalations : Text := text "ty.escalations.unknown"
def instancesUnwrapped : Text := text "ty.instances_unwrapped"
def graphNodes : Text := text "ty.arena_nodes"
def scopesPushed : Text := text "analyzer.scopes.pushed"
def mergedBindings : Text := text "analyzer.scopes.merged_bindings"
def diagnostics : Text := text "analyzer.diagnostics"
def spelledMembers : Text := text "cli.members"
def foldStage : Text := text "fold"

def count (m : Metrics) (key : Text) (n : UInt64) : Metrics :=
  { m with counters := m.counters.add key n }

def setCounter (m : Metrics) (key : Text) (n : UInt64) : Metrics :=
  { m with counters := m.counters.set key n }

def setGauge (m : Metrics) (key : Text) (n : UInt64) : Metrics :=
  { m with gauges := m.gauges.set key n }

def addTime (m : Metrics) (stage : Text) (micros : UInt64) : Metrics :=
  { m with stages := m.stages.add stage micros }

def millis (micros : UInt64) : Text :=
  let rest := Text.ofNat (micros.toNat % 1000)
  Text.ofNat (micros.toNat / 1000) ++ text "." ++ List.replicate (3 - rest.length) 0x30 ++ rest

def decimal (n : UInt64) : Text := Text.ofNat n.toNat

def hints (m : Metrics) : List Text :=
  let built := m.counters.get unionsBuilt
  let widened := m.counters.get anyEscalations + m.counters.get unknownEscalations
  (if 0 < m.counters.get diagnostics then [text "analysis_diagnostics_present"] else []) ++
  (if 0 < m.counters.get errorEscalations then [text "precision_lost_to_error"] else []) ++
  (if 0 < built + widened then
    [text (if built < widened then "mostly_widened" else "mostly_precise")]
  else [])

def entryLine (key : Text) (mark : String) (value : Text) : Text :=
  text "  " ++ key ++ text mark ++ value ++ text "\n"

def summary (m : Metrics) (duration : UInt64 → Text) : Text :=
  text "== Metrics ==\n" ++
  m.stages.entries.flatMap (fun (k, v) => entryLine k ": " (duration v ++ text " ms")) ++
  m.counters.entries.flatMap (fun (k, v) => entryLine k " = " (decimal v)) ++
  m.gauges.entries.flatMap (fun (k, v) => entryLine k " ~ " (decimal v))

/-- A JSON object with one line for each entry. Keys are written as they are. -/
def jsonObject (name : String) (value : UInt64 → Text) (t : Tally) : Text :=
  let lines := t.entries.map fun (k, v) => text "\n    \"" ++ k ++ text "\": " ++ value v
  text "  \"" ++ text name ++ text "\": \x7b" ++ Text.join (text ",") lines ++
    text (if t.entries.isEmpty then "\x7d" else "\n  \x7d")

def summaryJson (m : Metrics) (duration : UInt64 → Text) : Text :=
  let hints := m.hints.map fun h => text "\"" ++ h ++ text "\""
  text "\x7b\n" ++ jsonObject "stages_ms" duration m.stages ++ text ",\n" ++
    jsonObject "counters" decimal m.counters ++ text ",\n" ++
    jsonObject "gauges" decimal m.gauges ++ text ",\n  \"hints\": [" ++
    Text.join (text ", ") hints ++ text "]\n\x7d\n"

end Metrics

end FlowTyping
