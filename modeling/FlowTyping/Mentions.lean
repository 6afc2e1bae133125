import FlowTyping.Graph

namespace FlowTyping.Graph

def unseenWork (g : Graph) (seen : List NodeId) : List NodeId → Nat
  | [] => 0
  | i :: nodes =>
    (if i ∈ seen then 0 else (g.shape i).children.length + 1) + g.unseenWork seen nodes

theorem unseenWork_cons_le (g : Graph) (i : NodeId) (seen nodes : List NodeId) :
    g.unseenWork (i :: seen) nodes ≤ g.unseenWork seen nodes := by
  induction nodes with
  | nil => exact Nat.le_refl _
  | cons k nodes ih =>
    by_cases hk : k ∈ seen <;> by_cases hki : k = i <;> simp_all [unseenWork]
    omega

theorem unseenWork_cons_lt (g : Graph) {i : NodeId} {seen nodes : List NodeId} (h : i ∉ seen)
    (hi : i ∈ nodes) :
    (g.shape i).children.length + g.unseenWork (i :: seen) nodes < g.unseenWork seen nodes := by
  induction nodes with
  | nil => simp at hi
  | cons k nodes ih =>
    have hle := g.unseenWork_cons_le i seen nodes
    by_cases hki : k = i
    · subst hki
      simp_all [unseenWork]
      omega
    · have hlt := ih (by simp_all [eq_comm])
      by_cases hk : k ∈ seen <;> simp_all [unseenWork]
      omega

def searchWork (g : Graph) (todo : List Ty) (seen : List NodeId) : Nat :=
  g.unseenWork seen (List.range g.size) + todo.length

/-- Depth-first search for a placeholder that is `bound`, through the types from left to right. A
node seen before is not entered again. -/
def search (g : Graph) (bound : NodeId → Bool) (todo : List Ty) (seen : List NodeId) : Bool :=
  match todo with
  | [] => false
  | .node i :: rest =>
    match _shape : g.shape i with
    | .unresolved _ => bound i || g.search bound rest seen
    | s =>
      if _seen : i ∈ seen then g.search bound rest seen
      else g.search bound (s.children ++ rest) (i :: seen)
  | _ :: rest => g.search bound rest seen
termination_by g.searchWork todo seen
decreasing_by
  · simp [searchWork]
  · simp [searchWork]
  · simp only [searchWork, ← _shape, List.length_append, List.length_cons]
    by_cases hi : i < g.size
    · have hlt := g.unseenWork_cons_lt _seen (List.mem_range.2 hi)
      omega
    · have hle := g.unseenWork_cons_le i seen (List.range g.size)
      rw [shape_of_size_le (Nat.le_of_not_lt hi)]
      simp only [Shape.children, List.length_nil]
      omega
  · simp [searchWork]

def mentions (g : Graph) (bound : NodeId → Bool) (t : Ty) : Bool := g.search bound [t] []

end FlowTyping.Graph
