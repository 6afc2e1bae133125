import FlowTyping.Kind
import FlowTyping.Text

namespace FlowTyping

inductive Fault.Category
  | config
  | invariant
deriving DecidableEq, Repr

def Fault.Category.label : Fault.Category → String
  | .config => "error"
  | .invariant => "internal error"

inductive Fault
  | payloadKind (kind : Kind)
  | missingNode
  | rejectedMember (kind : Kind)
  | rootPopped
  | rootDiscarded
  | unsupportedForm
  | emptySpelling
  | unterminatedString (spelling : Text)
  | unknownSpelling (spelling : Text)
  | unwritableLog (path : Text)
  /-- The file was opened, but not all of the log could be written to it. -/
  | unfinishedLog (path : Text)
  /-- Opening instantiations did not come to an end within the limit. -/
  | unendingInstance
  /-- A fault raised by a resolver or another part outside this library. -/
  | raised (category : Fault.Category) (message : Text)
deriving DecidableEq

namespace Fault

def category : Fault → Category
  | .emptySpelling | .unterminatedString _ | .unknownSpelling _ | .unwritableLog _
  | .unfinishedLog _ => .config
  | .raised c _ => c
  | _ => .invariant

def message : Fault → Text
  | .payloadKind k => text "Ty::of called with payload kind: " ++ text k.name
  | .missingNode => text "Ty::node called with null node"
  | .rejectedMember k =>
    text "UnionType::add received a " ++ text k.name ++
      text " member; it must be handled by UnionTypeBuilder"
  | .rootPopped => text "scope stack underflow: the root scope cannot be popped"
  | .rootDiscarded => text "scope stack underflow: the root scope cannot be discarded"
  | .unsupportedForm => text "dispatch: no visit for node kind ?"
  | .emptySpelling => text "empty type spelling"
  | .unterminatedString s => text "unterminated string literal in type spelling: " ++ s
  | .unknownSpelling s => text "unknown type spelling '" ++ s ++ text "'"
  | .unwritableLog p => text "cannot open log file for write: " ++ p
  | .unfinishedLog p => text "failed to write log file: " ++ p
  | .unendingInstance => text "generic instance does not end"
  | .raised _ m => m

/-- The message as it is reported: it ends before its first zero byte. -/
def report (f : Fault) : Text := f.message.untilNul

end Fault

end FlowTyping
