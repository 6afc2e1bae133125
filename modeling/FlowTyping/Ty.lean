import FlowTyping.Kind
import FlowTyping.Number.Basic
import FlowTyping.Text

/-!
Types as values. A type is a word, a literal or a reference to a node of a type graph. Two
references are the same value exactly when they lead to the same node; whether two nodes describe
the same type is a question to the graph.
-/

namespace FlowTyping

abbrev SymbolId := UInt32

abbrev NodeId := Nat

inductive Ty
  | simple (s : Simple)
  | string (value : Text)
  | number (value : Number)
  | bigint (digits : Text)
  | symbol (id : SymbolId)
  | boolean (value : Bool)
  | node (id : NodeId)
deriving DecidableEq

namespace Ty

@[match_pattern] abbrev never : Ty := .simple .never
@[match_pattern] abbrev error : Ty := .simple .error
@[match_pattern] abbrev any : Ty := .simple .any
@[match_pattern] abbrev unknown : Ty := .simple .unknown
@[match_pattern] abbrev undefined : Ty := .simple .undefined

def node? : Ty → Option NodeId
  | .node i => some i
  | _ => none

end Ty

inductive PropertyKey
  | named (name : Text)
  | symbol (id : SymbolId)
deriving DecidableEq

def PropertyKey.toText : PropertyKey → Text
  | .named name => name
  | .symbol id => text "[symbol#" ++ Text.ofNat id.toNat ++ text "]"

end FlowTyping
