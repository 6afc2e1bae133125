import FlowTyping.Graph

/-!
Equality of types: whether two types describe the same values, however their nodes were allocated.
Cycles end because a pair that is still being compared further up is taken to be equal.
-/

namespace FlowTyping

namespace Shape

def pairwise {α : Type} (r : α → α → Bool) : List α → List α → Bool
  | [], [] => true
  | a :: as, b :: bs => r a b && pairwise r as bs
  | _, _ => false

def sameSlot (same : Ty → Ty → Bool) (a b : Slot) : Bool :=
  a.key == b.key && a.optional == b.optional && same a.type b.type

def sameParam (same : Ty → Ty → Bool) (a b : Param) : Bool :=
  a.optional == b.optional && same a.type b.type

/-- Equal flags and literals, as many shapes, and each shape of `a` equal to some shape of `b`.
Placeholders are the same one by one. -/
def sameMembers (same : Ty → Ty → Bool) (a b : Members) : Bool :=
  a.object == b.object && a.void == b.void && a.null == b.null && a.undefined == b.undefined &&
  a.hasTrue == b.hasTrue && a.hasFalse == b.hasFalse &&
  a.strings.same b.strings && a.numbers.same b.numbers &&
  a.bigints.same b.bigints && a.symbols.same b.symbols &&
  a.shapes.length == b.shapes.length &&
  a.shapes.all (fun i => b.shapes.any fun j => same (.node i) (.node j)) &&
  a.unresolved == b.unresolved

/-- One step of equality between the shapes of two different nodes, with `same` for the types
inside. Placeholders and generics are equal only to themselves. -/
def sameWith (same : Ty → Ty → Bool) : Shape → Shape → Bool
  | .union a, .union b => sameMembers same a b
  | .record a, .record b => pairwise (sameSlot same) a b
  | .callable r ps t, .callable s qs u => r == s && same t u && pairwise (sameParam same) ps qs
  | .interface m a, .interface n b => m == n && pairwise (sameSlot same) a b
  | .intersection a, .intersection b => pairwise same a b
  | .nameSpace m a, .nameSpace n b => m == n && pairwise (sameSlot same) a b
  | .intrinsic m, .intrinsic n => m == n
  | .instantiation f as, .instantiation g bs => f == g && pairwise same as bs
  | _, _ => false

end Shape

namespace Graph

def unassumed (g : Graph) (assumed : List (NodeId × NodeId)) : List (NodeId × NodeId) :=
  ((List.range g.size).flatMap fun i => (List.range g.size).map fun j => (i, j)).filter
    (· ∉ assumed)

theorem length_unassumed_cons_lt (g : Graph) {assumed : List (NodeId × NodeId)} {i j : NodeId}
    (hij : i < g.size ∧ j < g.size) (h : (i, j) ∉ assumed) :
    (g.unassumed ((i, j) :: assumed)).length < (g.unassumed assumed).length := by
  have : g.unassumed ((i, j) :: assumed) = (g.unassumed assumed).filter (· ≠ (i, j)) := by
    simp [unassumed, List.filter_filter]
  rw [this, List.length_filter_lt_length_iff_exists]
  exact ⟨(i, j), by simp [unassumed, hij, h]⟩

/-- Equality below a list of assumed pairs. A reference that leads nowhere is equal only to
itself. -/
def walk (g : Graph) (assumed : List (NodeId × NodeId)) (a b : Ty) : Bool :=
  match a, b with
  | .node i, .node j =>
    if i = j then true
    else if _assumed : (i, j) ∈ assumed then true
    else if _present : i < g.size ∧ j < g.size then
      (g.shape i).sameWith (g.walk ((i, j) :: assumed)) (g.shape j)
    else false
  | a, b => a == b
termination_by (g.unassumed assumed).length
decreasing_by exact g.length_unassumed_cons_lt _present _assumed

def equal (g : Graph) (a b : Ty) : Bool := g.walk [] a b

def equalNodes (g : Graph) (i j : NodeId) : Bool :=
  i == j || (g.shape i).sameWith (g.walk []) (g.shape j)

def equalMembers (g : Graph) (a b : Members) : Bool := Shape.sameMembers (g.walk []) a b

end Graph

end FlowTyping
