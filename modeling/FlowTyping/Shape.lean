import FlowTyping.Members

namespace FlowTyping

structure Slot where
  key : PropertyKey
  type : Ty
  optional : Bool
deriving DecidableEq

structure Param where
  name : Text
  type : Ty
  optional : Bool
deriving DecidableEq

inductive Role
  | call
  | construct
deriving DecidableEq, Repr

inductive Shape
  | union (members : Members)
  | record (slots : List Slot)
  | callable (role : Role) (params : List Param) (returns : Ty)
  | interface (name : Text) (slots : List Slot)
  | intersection (members : List Ty)
  | nameSpace (name : Text) (slots : List Slot)
  | generic (name : Text) (params : List NodeId) (body : Ty)
  | intrinsic (name : Text)
  | instantiation (origin : Option NodeId) (args : List Ty)
  | unresolved (name : Text)
deriving DecidableEq

namespace Shape

def kind : Shape → Kind
  | .union _ => .union
  | .record _ => .record
  | .callable .call _ _ => .function
  | .callable .construct _ _ => .construct
  | .interface _ _ => .interface
  | .intersection _ => .intersection
  | .nameSpace _ _ => .nameSpace
  | .generic _ _ _ => .generic
  | .intrinsic _ => .intrinsic
  | .instantiation _ _ => .instantiation
  | .unresolved _ => .unresolved

theorem exists_union_of_kind {s : Shape} (hs : s.kind = .union) : ∃ u, s = .union u := by
  cases s with
  | union u => exact ⟨u, rfl⟩
  | callable role => cases role <;> cases hs
  | _ => cases hs

theorem exists_unresolved_of_kind {s : Shape} (hs : s.kind = .unresolved) :
    ∃ name, s = .unresolved name := by
  cases s with
  | unresolved name => exact ⟨name, rfl⟩
  | callable role => cases role <;> cases hs
  | _ => cases hs

theorem exists_instantiation_of_kind {s : Shape} (hs : s.kind = .instantiation) :
    ∃ origin args, s = .instantiation origin args := by
  cases s with
  | instantiation origin args => exact ⟨origin, args, rfl⟩
  | callable role => cases role <;> cases hs
  | _ => cases hs

/-- The types a shape is made of, in order. A generic is opened only through its instantiations, so
its body is not one of them. -/
def children : Shape → List Ty
  | .union u => u.toList
  | .record slots => slots.map (·.type)
  | .callable _ params returns => params.map (·.type) ++ [returns]
  | .interface _ slots => slots.map (·.type)
  | .intersection members => members
  | .nameSpace _ slots => slots.map (·.type)
  | .generic _ _ _ => []
  | .intrinsic _ => []
  | .instantiation _ args => args
  | .unresolved _ => []

def refillSlots (slots : List Slot) (types : List Ty) : List Slot :=
  List.zipWith (fun s t => { s with type := t }) slots types

def refillParams (params : List Param) (types : List Ty) : List Param :=
  List.zipWith (fun p t => { p with type := t }) params types

/-- The shape whose first children are the given types and which has no others yet. A signature
whose result is not given returns `void`. -/
def refill (types : List Ty) : Shape → Shape
  | .record slots => .record (refillSlots slots types)
  | .callable role params _ =>
    .callable role (refillParams params types) (types[params.length]?.getD (.simple .void))
  | .interface name slots => .interface name (refillSlots slots types)
  | .intersection _ => .intersection types
  | .nameSpace name slots => .nameSpace name (refillSlots slots types)
  | .instantiation origin _ => .instantiation origin types
  | s => s

def findSlot (key : PropertyKey) (slots : List Slot) : Option Slot := slots.find? (·.key == key)

def slots? : Shape → Option (List Slot)
  | .record slots => some slots
  | .interface _ slots => some slots
  | .nameSpace _ slots => some slots
  | _ => none

def requiredParams (params : List Param) : Nat := params.countP (!·.optional)

end Shape

end FlowTyping
