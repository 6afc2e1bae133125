import FlowTyping.Text

namespace FlowTyping.CommandLine

inductive MetricsFormat
  | text
  | json
deriving DecidableEq, Repr

structure Options where
  types : List Text := []
  help : Bool := false
  metrics : Bool := false
  format : MetricsFormat := .text
  optional : Bool := false
  property : Option Text := none
  logPath : Text := []
  logTypes : Bool := false
deriving DecidableEq

inductive UsageError
  | missingValue (metavar flag : String)
  | unexpectedValue (flag : String)
  | emptyProperty
  | emptyLogPath
  | unknownFormat (value : Text)
  | unknownOption (arg : Text)
  | noSpellings
  | logTypesWithoutPath
deriving DecidableEq

def UsageError.message : UsageError → Text
  | .missingValue metavar flag =>
    text "missing " ++ text metavar ++ text " after '" ++
      text flag ++ text "'"
  | .unexpectedValue flag =>
    text "option '" ++ text flag ++ text "' takes no value"
  | .emptyProperty => text "empty property key"
  | .emptyLogPath => text "empty log directory"
  | .unknownFormat value =>
    text "unknown metrics format '" ++ value ++
      text "' (expected json or text)"
  | .unknownOption arg => text "unknown option '" ++ arg ++ text "'"
  | .noSpellings => text "no type spellings given"
  | .logTypesWithoutPath => text "--log-types requires --log-path=<dir>"

def UsageError.line (e : UsageError) : Text :=
  text "tyflow: error: " ++ e.message ++ text "\n"

end FlowTyping.CommandLine
