import FlowTyping.Graph
import Mathlib.Logic.Relation

namespace FlowTyping.Graph

variable {g h : Graph} {a b c : Ty} {i : NodeId}

/-- `b` is one of the types that `a` is made of. -/
def Child (g : Graph) (a b : Ty) : Prop := b ∈ g.children a

abbrev Reaches (g : Graph) : Ty → Ty → Prop := Relation.ReflTransGen g.Child

theorem child_node : g.Child (.node i) b ↔ b ∈ (g.shape i).children := Iff.rfl

theorem child_of_union {u : Members} (hi : g.shape i = .union u) (ha : a ∈ u.toList) :
    g.Child (.node i) a := by
  rw [child_node, hi]
  exact ha

theorem kind_of_union {u : Members} (hi : g.shape i = .union u) : g.kind (.node i) = .union :=
  congrArg Shape.kind hi

theorem exists_union_of_kind (ha : g.kind a = .union) :
    ∃ i u, a = .node i ∧ g.shape i = .union u := by
  cases a with
  | node i =>
    obtain ⟨u, hi⟩ := Shape.exists_union_of_kind ha
    exact ⟨i, u, rfl, hi⟩
  | _ => cases ha

theorem Child.exists_node (hab : g.Child a b) : ∃ i, a = .node i ∧ b ∈ (g.shape i).children := by
  cases a with
  | node i => exact ⟨i, rfl, hab⟩
  | _ => cases hab

theorem Reaches.mem_of_closed {S : Ty → Prop} (hS : ∀ x, S x → ∀ y, g.Child x y → S y) (ha : S a)
    (hab : g.Reaches a b) : S b := by
  induction hab with
  | refl => exact ha
  | tail _ hxy ih => exact hS _ ih _ hxy

/-- A reference leads to a node of the graph. Words and literals refer to none. -/
def Has (g : Graph) : Ty → Prop
  | .node i => i < g.size
  | _ => True

theorem has_of_not_node (ha : a.node? = none) : g.Has a := by
  cases a with
  | node i => cases ha
  | _ => trivial

theorem kind_ne_union_of_not_node (ha : a.node? = none) : g.kind a ≠ .union := by
  cases a with
  | node i => cases ha
  | _ => simp [kind]

theorem kind_ne_instantiation_of_not_node (ha : a.node? = none) : g.kind a ≠ .instantiation := by
  cases a with
  | node i => cases ha
  | _ => simp [kind]

def Closed (g : Graph) : Prop := ∀ a b, g.Child a b → g.Has b

theorem Reaches.has (hg : g.Closed) (ha : g.Has a) (hab : g.Reaches a b) : g.Has b :=
  hab.mem_of_closed (fun x _ y hxy => hg x y hxy) ha

theorem Closed.push {s : Shape} (hg : g.Closed) (hs : ∀ t ∈ s.children, g.Has t) :
    (g.push s).Closed := by
  have hgrow (t : Ty) (ht : g.Has t) : (g.push s).Has t := by
    cases t with
    | node k => simpa [Has] using Nat.lt_succ_of_lt ht
    | _ => trivial
  intro a b hab
  obtain ⟨i, rfl, hb⟩ := hab.exists_node
  rcases Nat.lt_trichotomy i g.size with hi | rfl | hi
  · rw [shape_push_of_lt s hi] at hb
    exact hgrow b (hg _ b (child_node.2 hb))
  · rw [shape_push_size] at hb
    exact hgrow b (hs b hb)
  · rw [shape_of_size_le (by rw [size_push]; exact hi)] at hb
    cases hb

@[simp] theorem has_replace {s : Shape} : (g.replace i s).Has a ↔ g.Has a := by
  cases a with
  | node k => simp [Has]
  | _ => exact Iff.rfl

theorem kind_replace {s : Shape} (hi : i < g.size) (hs : s.kind = g.kind (.node i)) (a : Ty) :
    (g.replace i s).kind a = g.kind a := by
  cases a with
  | node k =>
    by_cases hk : k = i
    · rw [hk, kind, shape_replace_self s hi, hs]
    · rw [kind, shape_replace_of_ne s hk, kind]
  | _ => rfl

theorem Closed.replace {s : Shape} (hg : g.Closed) (hi : i < g.size)
    (hs : ∀ t ∈ s.children, g.Has t) : (g.replace i s).Closed := by
  intro a b hab
  obtain ⟨k, rfl, hb⟩ := hab.exists_node
  rw [has_replace]
  by_cases hk : k = i
  · rw [hk, shape_replace_self s hi] at hb
    exact hs b hb
  · rw [shape_replace_of_ne s hk] at hb
    exact hg _ b (child_node.2 hb)

/-- `h` looks like `g` from a type: all nodes that can be reached have the same shapes. -/
def AgreesAt (g h : Graph) (t : Ty) : Prop := ∀ i, g.Reaches t (.node i) → h.shape i = g.shape i

namespace AgreesAt

theorem of_reaches (ha : g.AgreesAt h a) (hab : g.Reaches a b) : g.AgreesAt h b :=
  fun i hi => ha i (hab.trans hi)

theorem child_iff (ha : g.AgreesAt h a) : h.Child a b ↔ g.Child a b := by
  cases a with
  | node i => rw [child_node, child_node, ha i .refl]
  | _ => exact Iff.rfl

theorem reaches_iff (ha : g.AgreesAt h a) : h.Reaches a b ↔ g.Reaches a b := by
  constructor
  · intro hab
    induction hab with
    | refl => exact .refl
    | tail _ hxy ih => exact ih.tail ((ha.of_reaches ih).child_iff.1 hxy)
  · intro hab
    induction hab with
    | refl => exact .refl
    | tail hax hxy ih => exact ih.tail ((ha.of_reaches hax).child_iff.2 hxy)

theorem symm (ha : g.AgreesAt h a) : h.AgreesAt g a :=
  fun i hi => (ha i (ha.reaches_iff.1 hi)).symm

theorem kind_eq (ha : g.AgreesAt h a) : h.kind a = g.kind a := by
  cases a with
  | node i => exact congrArg Shape.kind (ha i .refl)
  | _ => rfl

end AgreesAt

/-- `h` has the nodes of `g`, with the same shapes, and perhaps more. -/
structure Extends (g h : Graph) : Prop where
  size_le : g.size ≤ h.size
  shape_eq : ∀ i < g.size, h.shape i = g.shape i

namespace Extends

theorem refl (g : Graph) : g.Extends g := ⟨Nat.le_refl _, fun _ _ => rfl⟩

theorem trans {k : Graph} (hgh : g.Extends h) (hhk : h.Extends k) : g.Extends k where
  size_le := Nat.le_trans hgh.size_le hhk.size_le
  shape_eq i hi := (hhk.shape_eq i (Nat.lt_of_lt_of_le hi hgh.size_le)).trans (hgh.shape_eq i hi)

theorem push (g : Graph) (s : Shape) : g.Extends (g.push s) :=
  ⟨by simp, fun _ hi => shape_push_of_lt s hi⟩

theorem replace (hgh : g.Extends h) (hi : g.size ≤ i) (s : Shape) : g.Extends (h.replace i s) where
  size_le := by simpa using hgh.size_le
  shape_eq k hk := by
    rw [shape_replace_of_ne s (Nat.ne_of_lt (Nat.lt_of_lt_of_le hk hi)), hgh.shape_eq k hk]

theorem has (hgh : g.Extends h) (ha : g.Has a) : h.Has a := by
  cases a with
  | node i => exact Nat.lt_of_lt_of_le ha hgh.size_le
  | _ => trivial

theorem kind_eq (hgh : g.Extends h) (ha : g.Has a) : h.kind a = g.kind a := by
  cases a with
  | node i => exact congrArg Shape.kind (hgh.shape_eq i ha)
  | _ => rfl

theorem agreesAt (hgh : g.Extends h) (hg : g.Closed) (ha : g.Has a) : g.AgreesAt h a :=
  fun i hi => hgh.shape_eq i (hi.has hg ha)

end Extends

end FlowTyping.Graph
