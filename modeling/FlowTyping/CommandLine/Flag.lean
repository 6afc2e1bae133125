import FlowTyping.CommandLine.Options

namespace FlowTyping.CommandLine

inductive Flag
  | help
  | optional
  | property
  | logPath
  | logTypes
  | metrics
deriving DecidableEq, Repr

inductive Arity
  | none
  | required
  | optional
deriving DecidableEq, Repr

namespace Flag

def all : List Flag := [.help, .optional, .property, .logPath, .logTypes, .metrics]

def name : Flag → String
  | .help => "--help"
  | .optional => "--optional"
  | .property => "--property"
  | .logPath => "--log-path"
  | .logTypes => "--log-types"
  | .metrics => "--metrics"

def alias? : Flag → Option String
  | .help => some "-h"
  | _ => none

def arity : Flag → Arity
  | .property | .logPath => .required
  | .metrics => .optional
  | _ => .none

def metavar : Flag → String
  | .property => "key"
  | .logPath => "dir"
  | .metrics => "format"
  | _ => ""

def summary : Flag → String
  | .help => "Print this help and exit"
  | .optional => "Widen the result with undefined"
  | .property => "Print the type of reading <key> from the result"
  | .logPath => "Directory where logs are written"
  | .logTypes => "Write the folded members to a types log (requires --log-path)"
  | .metrics => "Print metrics summary, json or text (default: text)"

def spelling (f : Flag) : String :=
  (f.alias?.elim "" (· ++ ", ")) ++ f.name ++
    match f.arity with
    | .none => ""
    | .required => "=<" ++ f.metavar ++ ">"
    | .optional => "[=<" ++ f.metavar ++ ">]"

inductive Form
  | bare
  | valued (value : Text)
deriving DecidableEq

def form? (f : Flag) (arg : Text) : Option Form :=
  let name := text f.name
  if arg = name || f.alias?.any (fun a => arg = text a) then some .bare
  else if (name ++ text "=").isPrefixOf arg then some (.valued (arg.drop (name.length + 1)))
  else .none

def recognize (arg : Text) : Option (Flag × Form) :=
  all.findSome? fun f => (f.form? arg).map (f, ·)

/-- The options after a flag has been applied, and the reason when it is refused. The metrics are on
even if their format is not known. -/
def apply (f : Flag) (value : Option Text) (o : Options) : Options × Option UsageError :=
  match f with
  | .help => ({ o with help := true }, .none)
  | .optional => ({ o with optional := true }, .none)
  | .property =>
    match value.getD [] with
    | [] => (o, some .emptyProperty)
    | v => ({ o with property := some v }, .none)
  | .logPath =>
    match value.getD [] with
    | [] => (o, some .emptyLogPath)
    | v => ({ o with logPath := v }, .none)
  | .logTypes => ({ o with logTypes := true }, .none)
  | .metrics =>
    let o := { o with metrics := true }
    match value with
    | .none => ({ o with format := .text }, .none)
    | some v =>
      if v = text "text" then ({ o with format := .text }, .none)
      else if v = text "json" then ({ o with format := .json }, .none)
      else (o, some (.unknownFormat v))

end Flag

/-- What became of a token read as a flag. `tookNext` says that the next token was its value. -/
inductive Reading
  | unmatched
  | accepted (options : Options) (tookNext : Bool)
  | refused (reason : UsageError) (options : Options) (tookNext : Bool)
deriving DecidableEq

def Reading.ofApply (tookNext : Bool) : Options × Option UsageError → Reading
  | (o, .none) => .accepted o tookNext
  | (o, some e) => .refused e o tookNext

def readFlag (arg : Text) (next : Option Text) (o : Options) : Reading :=
  match Flag.recognize arg with
  | .none => .unmatched
  | some (f, .bare) =>
    match f.arity with
    | .required =>
      match next with
      | .none => .refused (.missingValue f.metavar f.name) o false
      | some v => .ofApply true (f.apply v o)
    | _ => .ofApply false (f.apply .none o)
  | some (f, .valued v) =>
    match f.arity with
    | .none => .refused (.unexpectedValue f.name) o false
    | _ => .ofApply false (f.apply v o)

end FlowTyping.CommandLine
