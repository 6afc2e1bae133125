import FlowTyping.Substitution

namespace FlowTyping

structure Resolvers (m : Type → Type := TypeM) where
  property? : Option (Ty → PropertyKey → m Ty) := none
  instance? : Option (NodeId → m Ty) := none
  /-- How many instantiations may be opened one inside another, or one after another, before the
  attempt is given up. A few generics are enough for a chain of thousands, so the default is far
  above what a store has room for. -/
  limit : Nat := Nat.pow 2 62

namespace Resolvers

variable {m : Type → Type} [Monad m] [MonadLiftT TypeM m] [MonadExceptOf Fault m] [MonadFold m]

def unwrapWithin (r : Resolvers m) : Nat → NodeId → m Ty
  | 0, _ => throw .unendingInstance
  | depth + 1, i => do
    TypeM.count Metrics.instancesUnwrapped
    match r.instance? with
    | some resolve => resolve i
    | none => Substitution.instantiate (Fold.add (r.unwrapWithin depth) r.limit) i

def unwrap (r : Resolvers m) (i : NodeId) : m Ty := r.unwrapWithin r.limit i

def addTo (r : Resolvers m) (f : Fold) (t : Ty) : m Fold := Fold.add r.unwrap r.limit f t

/-- Folds the types into one. No type at all gives `undefined`, and a single type is its own
fold. -/
def unite (r : Resolvers m) : List Ty → m Ty
  | [] => return .undefined
  | [t] => return t
  | ts => do MonadFold.finish (← ts.foldlM r.addTo .never)

def widen (r : Resolvers m) (optional : Bool) (t : Ty) : m Ty :=
  if optional then r.unite [.undefined, t] else return t

end Resolvers

end FlowTyping
