import FlowTyping.Number.Rounding
import FlowTyping.Resolvers
import FlowTyping.Text.Utf16

namespace FlowTyping.Resolvers

variable {m : Type → Type} [Monad m] [MonadLiftT TypeM m] [MonadExceptOf Fault m] [MonadFold m]

def slotType (r : Resolvers m) (slot : Option Slot) (missing : Ty) : m Ty :=
  match slot with
  | some s => r.widen s.optional s.type
  | none => return missing

def intersectionSlot (g : Graph) (key : PropertyKey) : Ty → Option Slot
  | .node i =>
    match g.shape i with
    | .record slots | .interface _ slots => Shape.findSlot key slots
    | _ => none
  | _ => none

def callableProperty (params : List Param) (key : PropertyKey) : Ty :=
  if key = .named (text "length") then .number (.ofNat (Shape.requiredParams params))
  else if key = .named (text "name") then .simple .string
  else .unknown

/-- A property of a string literal. Its length counts UTF-16 units, if the text has any. -/
def stringProperty (value : Text) (key : PropertyKey) : Ty :=
  if key = .named (text "length") then
    match Text.utf16Length value with
    | some n => .number (.ofNat n)
    | none => .simple .number
  else .unknown

def simpleProperty (s : Simple) (key : PropertyKey) : Ty :=
  match s with
  | .never | .null | .undefined | .void => .never
  | .error | .any | .unknown => .simple s
  | .string => if key = .named (text "length") then .simple .number else .unknown
  | _ => .unknown

/-- The built-in answer for a receiver that is neither a union nor an instantiation. A key that
several members of an intersection define is not modelled. -/
def memberProperty (r : Resolvers m) (receiver : Ty) (key : PropertyKey) : m Ty :=
  match receiver with
  | .simple s => return simpleProperty s key
  | .string value => return stringProperty value key
  | .node i => do
    let g ← TypeM.graph
    match g.shape i with
    | .generic _ _ _ | .intrinsic _ => return .error
    | .record slots => r.slotType (Shape.findSlot key slots) .undefined
    | .interface _ slots | .nameSpace _ slots => r.slotType (Shape.findSlot key slots) .unknown
    | .intersection members =>
      match members.filterMap (intersectionSlot g key) with
      | [slot] => r.slotType (some slot) .unknown
      | _ => return .unknown
    | .callable _ params _ => return callableProperty params key
    | _ => return .unknown
  | _ => return .unknown

/-- Folds what `read` says of each type. Every type is read, also when the fold is already
decided. -/
def uniteReads (r : Resolvers m) (read : Ty → m Ty) (ts : List Ty) : m Ty := do
  let f ← ts.foldlM (fun f t => do r.addTo f (← read t)) .never
  MonadFold.finish f

def builtinProperty (r : Resolvers m) (receiver : Ty) (key : PropertyKey) : m Ty := do
  match ← Fold.settle r.unwrap r.limit receiver with
  | .node i =>
    match (← TypeM.graph).shape i with
    | .union u => r.uniteReads (r.memberProperty · key) u.toList
    | _ => r.memberProperty (.node i) key
  | t => r.memberProperty t key

def property (r : Resolvers m) (receiver : Ty) (key : PropertyKey) : m Ty :=
  match r.property? with
  | some read => read receiver key
  | none => r.builtinProperty receiver key

def unionProperty (r : Resolvers m) (u : Members) (key : PropertyKey) : m Ty :=
  r.uniteReads (r.property · key) u.toList

end FlowTyping.Resolvers
