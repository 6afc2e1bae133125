import FlowTyping.Members.Add
import FlowTyping.Store

/-!
Folds: accumulators that take any number of types and end in one. A fold only moves upwards, from
nothing through a union of members to one of the three answers that absorb all others.
-/

namespace FlowTyping

inductive Fold
  | never
  | compound (members : Members)
  | error
  | any
  | unknown
deriving DecidableEq

namespace Fold

def isTerminal : Fold → Bool
  | .error | .any | .unknown => true
  | _ => false

def members : Fold → Members
  | .compound u => u
  | _ => {}

/-- Takes in a type that is not an instantiation and not a union. What has no place in a union turns
the fold into `error`. -/
def absorbMember (g : Graph) (f : Fold) (t : Ty) : Except Fault Fold :=
  if f.isTerminal then .ok f
  else match g.kind t with
    | .simple .error | .generic | .intrinsic | .nameSpace => .ok .error
    | .simple .any => .ok .any
    | .simple .unknown => .ok .unknown
    | .simple .never => .ok f
    | _ => (f.members.add g t).map .compound

def absorb (g : Graph) (f : Fold) (t : Ty) : Except Fault Fold :=
  match t with
  | .node i =>
    match g.shape i with
    | .union u => u.toList.foldlM (absorbMember g) f
    | _ => absorbMember g f t
  | _ => absorbMember g f t

section

variable {m : Type → Type} [Monad m] [MonadLiftT TypeM m] [MonadExceptOf Fault m]

def settle (unwrap : NodeId → m Ty) : Nat → Ty → m Ty
  | 0, _ => throw .unendingInstance
  | fuel + 1, t =>
    match t with
    | .node i => do
      match (← TypeM.graph).shape i with
      | .instantiation _ _ => settle unwrap fuel (← unwrap i)
      | _ => return t
    | t => return t

/-- Takes in any type, opening instantiations through `unwrap`. A terminal fold opens nothing. -/
def add (unwrap : NodeId → m Ty) (fuel : Nat) (f : Fold) (t : Ty) : m Fold := do
  if f.isTerminal then return f
  let t ← settle unwrap fuel t
  TypeM.ofExcept (f.absorb (← TypeM.graph) t)

end

def build : Fold → TypeM Ty
  | .never => return .never
  | .error => return .error
  | .any => return .any
  | .unknown => return .unknown
  | .compound u =>
    match u.toList with
    | [t] => return t
    | _ => return .node (← TypeM.alloc (.union u))

def tally (g : Graph) (t : Ty) : TypeM Unit :=
  match g.kind t with
  | .union => TypeM.count Metrics.unionsBuilt
  | .simple .error => TypeM.count Metrics.errorEscalations
  | .simple .any => TypeM.count Metrics.anyEscalations
  | .simple .unknown => TypeM.count Metrics.unknownEscalations
  | _ => return ()

def finish (f : Fold) : TypeM Ty := do
  let t ← f.build
  tally (← TypeM.graph) t
  return t

end Fold

/-- A monad that operations on types run in, with its own way to end a fold. -/
class MonadFold (m : Type → Type) where
  finish : Fold → m Ty

instance : MonadFold TypeM := ⟨Fold.finish⟩

end FlowTyping
