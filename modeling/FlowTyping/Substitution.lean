import FlowTyping.Fold
import FlowTyping.Mentions

/-!
Substitution: the body of a generic with its placeholders replaced by the arguments of an
instantiation. Only nodes from which a placeholder can be reached are copied, each once, so that
sharing and cycles come out as they were. Unions are folded anew.
-/

namespace FlowTyping

/-- Arguments for placeholders; of two for the same one the first in the list counts. -/
abbrev Bindings := List (NodeId × Ty)

abbrev Images := List (NodeId × Ty)

namespace Bindings

/-- Pairs each parameter with the argument at its position, or with `unknown` when there is none.
Of a parameter listed twice the last position counts. -/
def ofArgs (params : List NodeId) (args : List Ty) : Bindings :=
  (params.zipIdx.map fun (p, k) => (p, args[k]?.getD .unknown)).reverse

def binds (b : Bindings) (i : NodeId) : Bool := (b.lookup i).isSome

end Bindings

abbrev SubstT (m : Type → Type) := StateT Images m

namespace Substitution

variable {m : Type → Type} [Monad m] [MonadLiftT TypeM m] [MonadExceptOf Fault m] [MonadFold m]

def fillChildren (subst : Ty → SubstT m Ty) (copy : NodeId) (s : Shape) :
    List Ty → List Ty → SubstT m Unit
  | [], _ => return ()
  | t :: ts, done => do
    let image ← subst t
    let done := done ++ [image]
    TypeM.fill copy (s.refill done)
    fillChildren subst copy s ts done

def foldMembers (subst : Ty → SubstT m Ty) (add : Fold → Ty → m Fold) :
    List Ty → Fold → SubstT m Fold
  | [], f => return f
  | t :: ts, f => do
    let image ← subst t
    foldMembers subst add ts (← add f image)

/-- The image of a type. A copy is remembered before its children are replaced, a union after it has
been folded. -/
def image (b : Bindings) (add : Fold → Ty → m Fold) : Nat → Ty → SubstT m Ty
  | 0, _ => throw .unendingInstance
  | fuel + 1, t =>
    match t with
    | .node i => do
      let g ← (TypeM.graph : TypeM Graph)
      match g.shape i with
      | .unresolved _ => return (b.lookup i).getD t
      | s =>
        match (← get).lookup i with
        | some t' => return t'
        | none =>
          if !g.mentions b.binds t then return t
          match s with
          | .union u =>
            let f ← foldMembers (image b add fuel) add u.toList .never
            let t' ← (MonadFold.finish f : m Ty)
            modify ((i, t') :: ·)
            return t'
          | s =>
            let copy ← (TypeM.alloc (s.refill []) : TypeM NodeId)
            modify ((i, .node copy) :: ·)
            fillChildren (image b add fuel) copy s s.children []
            return .node copy
    | t => return t

/-- The depth of a substitution: every second step enters a node for the first time. -/
def depth (g : Graph) : Nat := 2 * g.size + 3

def instantiate (add : Fold → Ty → m Fold) (i : NodeId) : m Ty := do
  let g ← TypeM.graph
  match g.shape i with
  | .instantiation (some origin) args =>
    match g.shape origin with
    | .generic _ params body =>
      (image (Bindings.ofArgs params args) add (depth g) body).run' []
    | _ => return .error
  | _ => return .error

end Substitution

end FlowTyping
