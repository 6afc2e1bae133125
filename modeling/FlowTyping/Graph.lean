import FlowTyping.Shape

namespace FlowTyping

structure Graph where
  shapes : Array Shape := #[]

namespace Graph

def size (g : Graph) : Nat := g.shapes.size

/-- The shape of a node. A reference that leads nowhere reads as a nameless placeholder. -/
def shape (g : Graph) (i : NodeId) : Shape := g.shapes.getD i (.unresolved [])

theorem shape_of_size_le {g : Graph} {i : NodeId} (h : g.size ≤ i) :
    g.shape i = .unresolved [] := by
  simp_all [shape, size]

theorem lt_size_of_shape {g : Graph} {i : NodeId} {s : Shape} (h : g.shape i = s)
    (hs : s ≠ .unresolved []) : i < g.size :=
  Nat.lt_of_not_le fun hi => hs (h.symm.trans (shape_of_size_le hi))

def kind (g : Graph) : Ty → Kind
  | .simple s => .simple s
  | .string _ => .stringLiteral
  | .number _ => .numericLiteral
  | .bigint _ => .bigintLiteral
  | .symbol _ => .uniqueSymbol
  | .boolean _ => .booleanLiteral
  | .node i => (g.shape i).kind

def push (g : Graph) (s : Shape) : Graph := ⟨g.shapes.push s⟩

def replace (g : Graph) (i : NodeId) (s : Shape) : Graph := ⟨g.shapes.setIfInBounds i s⟩

@[simp] theorem size_push (g : Graph) (s : Shape) : (g.push s).size = g.size + 1 := by
  simp [push, size]

@[simp] theorem shape_push_size (g : Graph) (s : Shape) : (g.push s).shape g.size = s := by
  simp [push, shape, size]

theorem shape_push_of_lt {g : Graph} {i : NodeId} (s : Shape) (hi : i < g.size) :
    (g.push s).shape i = g.shape i := by
  rw [size] at hi
  simp [push, shape, Array.getElem_push, hi, Nat.lt_succ_of_lt hi]

@[simp] theorem size_replace (g : Graph) (i : NodeId) (s : Shape) :
    (g.replace i s).size = g.size := by
  simp [replace, size]

theorem shape_replace_self {g : Graph} {i : NodeId} (s : Shape) (hi : i < g.size) :
    (g.replace i s).shape i = s := by
  rw [size] at hi
  simp [replace, shape, hi]

theorem shape_replace_of_ne {g : Graph} {i k : NodeId} (s : Shape) (hk : k ≠ i) :
    (g.replace i s).shape k = g.shape k := by
  simp [replace, shape, hk.symm]

theorem replace_push (g : Graph) (s s' : Shape) : (g.push s).replace g.size s' = g.push s' := by
  apply congrArg Graph.mk
  apply Array.ext
  · simp [push]
  · intro i hi hi'
    simp only [push, size, Array.getElem_push]
    split <;> grind

def children (g : Graph) : Ty → List Ty
  | .node i => (g.shape i).children
  | _ => []

end Graph

end FlowTyping
