import FlowTyping.Resolvers

/-!
Scopes: a stack of frames with the types that names have at the current point of a program. Every
write lands in the top frame; when the frame is popped, its overrides of names from further down
are merged into the frame below, according to how often the popped frame may have run.
-/

namespace FlowTyping

inductive ScopeKind
  /-- The body runs exactly once. -/
  | normal
  /-- The body may or may not run. -/
  | indeterminate
  /-- The body runs any number of times. -/
  | loop
  /-- A frame of no particular kind; its body counts as run once. -/
  | other
deriving DecidableEq, Repr

namespace ScopeKind

def name : ScopeKind → String
  | .normal => "normal"
  | .indeterminate => "indeterminate"
  | .loop => "loop"
  | .other => "?"

def ofIndex : Nat → ScopeKind
  | 0 => .normal
  | 1 => .indeterminate
  | 2 => .loop
  | _ => .other

end ScopeKind

/-- One frame: every binding written while it was on top, newest first, and the names declared in
it. -/
structure Frame where
  kind : ScopeKind
  bindings : List (Text × Ty) := []
  declared : List Text := []
deriving DecidableEq

namespace Frame

def replaceIn (name : Text) (t : Ty) : List (Text × Ty) → List (Text × Ty)
  | [] => []
  | (n, u) :: rest => if n = name then (n, t) :: rest else (n, u) :: replaceIn name t rest

def bind (f : Frame) (name : Text) (t : Ty) : Frame :=
  { f with bindings :=
      if (f.bindings.lookup name).isSome then replaceIn name t f.bindings
      else (name, t) :: f.bindings }

def declare (f : Frame) (name : Text) (t : Ty) : Frame :=
  let f := f.bind name t
  if name ∈ f.declared then f else { f with declared := name :: f.declared }

def overrides (f : Frame) : List (Text × Ty) := f.bindings.filter fun (n, _) => n ∉ f.declared

end Frame

structure ScopeStack where
  top : Frame
  below : List Frame
deriving DecidableEq

namespace ScopeStack

def initial : ScopeStack := ⟨{ kind := .normal }, []⟩

def frames (s : ScopeStack) : List Frame := s.top :: s.below

def depth (s : ScopeStack) : Nat := s.frames.length

def push (s : ScopeStack) (kind : ScopeKind) : ScopeStack := ⟨{ kind }, s.frames⟩

def lookup (s : ScopeStack) (name : Text) : Option Ty :=
  s.frames.findSome? (·.bindings.lookup name)

def isDeclared (s : ScopeStack) (name : Text) : Bool := s.frames.any (name ∈ ·.declared)

def bind (s : ScopeStack) (name : Text) (t : Ty) : ScopeStack := { s with top := s.top.bind name t }

def declare (s : ScopeStack) (name : Text) (t : Ty) : ScopeStack :=
  { s with top := s.top.declare name t }

def assign? (s : ScopeStack) (name : Text) (t : Ty) : Option ScopeStack :=
  if s.isDeclared name then some (s.bind name t) else none

def drop? (s : ScopeStack) : Option ScopeStack :=
  match s.below with
  | [] => none
  | parent :: rest => some ⟨parent, rest⟩

end ScopeStack

/-- The type of a binding in the frame below once a frame is popped: `before` is its type there, and
`after` its type at the end of the popped frame. -/
def Resolvers.mergeBinding (r : Resolvers) (kind : ScopeKind) (before : Option Ty) (after : Ty) :
    TypeM Ty :=
  match kind with
  | .normal | .other => return after
  | .indeterminate | .loop => r.unite [before.getD .undefined, after]

structure Scopes where
  stack : ScopeStack := .initial
  store : Store := {}

abbrev ScopeM := ExceptT Fault (StateM Scopes)

namespace ScopeM

def ofTypeM {α : Type} (m : TypeM α) : ScopeM α := fun s =>
  let (a, store) := m s.store
  (a, { s with store })

def modifyStack (f : ScopeStack → ScopeStack) : ScopeM Unit :=
  modify fun s => { s with stack := f s.stack }

def mergeAll (r : Resolvers) (kind : ScopeKind) : List (Text × Ty) → ScopeM Unit
  | [] => return ()
  | (name, after) :: rest => do
    let before := (← get).stack.lookup name
    let merged ← ofTypeM (r.mergeBinding kind before after)
    modifyStack (·.bind name merged)
    mergeAll r kind rest

/-- Pops the top frame and merges its overrides; the result is their number. The frame is gone also
when a merge ends in a fault. -/
def pop (r : Resolvers) : ScopeM Nat := do
  let stack := (← get).stack
  match stack.drop? with
  | none => throw .rootPopped
  | some rest =>
    modifyStack fun _ => rest
    mergeAll r stack.top.kind stack.top.overrides
    return stack.top.overrides.length

def discard : ScopeM Unit := do
  match (← get).stack.drop? with
  | none => throw .rootDiscarded
  | some rest => modifyStack fun _ => rest

end ScopeM

end FlowTyping
