import FlowTyping.Equality
import FlowTyping.Fault

namespace FlowTyping.Members

/-- Adds a shape unless it is equal to one already there. A set that is keyed by the hash of types
keeps the same shapes wherever equal shapes hash alike. -/
def addShape (g : Graph) (u : Members) (i : NodeId) : Members :=
  if u.shapes.any (fun j => g.equal (.node i) (.node j)) then u
  else { u with shapes := u.shapes ++ [i] }

def addSimple (u : Members) : Simple → Except Fault Members
  | .object => .ok { u with object := true }
  | .void => .ok { u with void := true }
  | .null => .ok { u with null := true }
  | .undefined => .ok { u with undefined := true }
  | .string => .ok { u with strings := .every }
  | .number => .ok { u with numbers := .every }
  | .bigint => .ok { u with bigints := .every }
  | .symbol => .ok { u with symbols := .every }
  | .boolean => .ok { u with hasTrue := true, hasFalse := true }
  | s => .error (.rejectedMember (.simple s))

def addNode (g : Graph) (u : Members) (i : NodeId) : Except Fault Members :=
  match g.shape i with
  | .record _ | .callable _ _ _ | .interface _ _ | .intersection _ => .ok (u.addShape g i)
  | .unresolved _ => .ok { u with unresolved := u.unresolved ++ [i] }
  | s => .error (.rejectedMember s.kind)

/-- Adds a type to the members. A union is flat, and what would make it pointless (`never`, `any`,
…) is dealt with before, so types of those kinds are refused. -/
def add (g : Graph) (u : Members) : Ty → Except Fault Members
  | .simple s => u.addSimple s
  | .string v => .ok { u with strings := u.strings.insert v }
  | .number v => .ok { u with numbers := u.numbers.insert v }
  | .bigint v => .ok { u with bigints := u.bigints.insert v }
  | .symbol v => .ok { u with symbols := u.symbols.insert v }
  | .boolean true => .ok { u with hasTrue := true }
  | .boolean false => .ok { u with hasFalse := true }
  | .node i => u.addNode g i

end FlowTyping.Members
