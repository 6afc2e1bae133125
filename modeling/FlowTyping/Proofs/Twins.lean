import FlowTyping.Proofs.EqualityLaws
import FlowTyping.Proofs.MembersCollection

/-!
Two graphs side by side. A world pairs nodes of one graph with nodes of the other that look alike,
with paired nodes inside. Types that are paired are told apart from others in the same way in both
graphs.
-/

namespace FlowTyping

/-- Pairs of nodes, the first of one graph and the second of another. -/
abbrev World := NodeId → NodeId → Prop

inductive World.Pairs (W : World) : Ty → Ty → Prop
  | node {i j : NodeId} (hij : W i j) : Pairs W (.node i) (.node j)
  | word {t : Ty} (ht : t.node? = none) : Pairs W t t

def World.insert (W : World) (i j : NodeId) : World := fun x y => W x y ∨ x = i ∧ y = j

namespace World

variable {W W' : World} {a b : Ty} {i j : NodeId}

@[simp] theorem pairs_node : W.Pairs (.node i) (.node j) ↔ W i j := by
  constructor
  · intro h
    cases h with
    | node hij => exact hij
    | word ht => cases ht
  · exact .node

theorem Pairs.mono (hW : ∀ i j, W i j → W' i j) (h : W.Pairs a b) : W'.Pairs a b := by
  cases h with
  | node hij => exact .node (hW _ _ hij)
  | word ht => exact .word ht

theorem Pairs.flip (h : W.Pairs a b) : World.Pairs (flip W) b a := by
  cases h with
  | node hij => exact .node hij
  | word ht => exact .word ht

end World

namespace Shape

variable {R : Ty → Ty → Prop} {s t : Shape}

def isOpaque : Shape → Bool
  | .unresolved _ | .generic _ _ _ => true
  | _ => false

structure Twin (R : Ty → Ty → Prop) (s t : Shape) : Prop where
  there : s.Fits R t
  back : t.Fits (flip R) s

theorem Fits.not_isOpaque (h : s.Fits R t) : s.isOpaque = false ∧ t.isOpaque = false := by
  cases h <;> exact ⟨rfl, rfl⟩

theorem Twin.flip (h : s.Twin R t) : t.Twin (flip R) s := ⟨h.back, h.there⟩

theorem Twin.imp {S : Ty → Ty → Prop} (hRS : ∀ x y, R x y → S x y) (h : s.Twin R t) :
    s.Twin S t :=
  ⟨h.there.imp fun x _ y _ => hRS x y, h.back.imp fun x _ y _ => hRS y x⟩

theorem Fits.refl (hs : s.isOpaque = false) (hR : ∀ x ∈ s.children, R x x) : s.Fits R s := by
  have hslots (slots : List Slot) (h : ∀ x ∈ slots.map (·.type), R x x) :
      List.Forall₂ (Slot.Fits R) slots slots :=
    List.forall₂_same.2 fun x hx => ⟨rfl, rfl, h _ (List.mem_map_of_mem hx)⟩
  cases s with
  | union u =>
    have hagree {α : Type} (l : Literals α) : l.Agree l := ⟨rfl, rfl, fun _ => .rfl⟩
    refine .union ⟨rfl, rfl, rfl, rfl, rfl, rfl, hagree _, hagree _, hagree _, hagree _, rfl, ?_, rfl⟩
    exact fun i hi => ⟨i, hi, hR _ (Members.node_mem_toList.2 (.inl hi))⟩
  | record slots => exact .record (hslots slots hR)
  | callable role params returns =>
    refine .callable (hR _ (by simp [children])) (List.forall₂_same.2 fun p hp => ⟨rfl, hR _ ?_⟩)
    exact List.mem_append_left _ (List.mem_map_of_mem hp)
  | interface name slots => exact .interface (hslots slots hR)
  | intersection members => exact .intersection (List.forall₂_same.2 hR)
  | nameSpace name slots => exact .nameSpace (hslots slots hR)
  | intrinsic name => exact .intrinsic
  | instantiation origin args => exact .instantiation (List.forall₂_same.2 hR)
  | generic | unresolved => cases hs

theorem Twin.refl (hs : s.isOpaque = false) (hR : ∀ x ∈ s.children, R x x) : s.Twin R s :=
  ⟨.refl hs hR, .refl hs hR⟩

end Shape

namespace Graph

variable {W W' : World} {g g' h h' k : Graph} {a a' b b' : Ty} {i j : NodeId} {s t : Shape}

/-- Two nodes that look alike in their graphs, with paired types inside. -/
inductive Looks (W : World) (g h : Graph) : NodeId → NodeId → Prop
  | same {i : NodeId} (hopq : (g.shape i).isOpaque = true) (hi : h.shape i = g.shape i) :
      Looks W g h i i
  | twin {i j : NodeId} (hij : (g.shape i).Twin W.Pairs (h.shape j)) : Looks W g h i j

structure Twins (W : World) (g h : Graph) : Prop where
  lt : ∀ i j, W i j → i < g.size ∧ j < h.size
  looks : ∀ i j, W i j → Looks W g h i j

namespace Looks

theorem flip (hij : Looks W g h i j) : Looks (flip W) h g j i := by
  cases hij with
  | same hopq hi => exact .same (hi ▸ hopq) hi.symm
  | twin hij => exact .twin (hij.flip.imp fun x y hxy => World.Pairs.flip hxy)

theorem mono (hW : ∀ i j, W i j → W' i j) (hi : g'.shape i = g.shape i)
    (hj : h'.shape j = h.shape j) (hij : Looks W g h i j) : Looks W' g' h' i j := by
  cases hij with
  | same hopq hs => exact .same (hi ▸ hopq) (hj.trans (hs.trans hi.symm))
  | twin hij => exact .twin (hi ▸ hj ▸ hij.imp fun x y => World.Pairs.mono hW)

theorem kind_eq (hij : Looks W g h i j) : h.kind (.node j) = g.kind (.node i) := by
  cases hij with
  | same _ hi => exact congrArg Shape.kind hi
  | twin hij => exact hij.there.kind_eq.symm

theorem instantiation {origin : Option NodeId} {args : List Ty} (hij : Looks W g h i j)
    (hi : g.shape i = .instantiation origin args) :
    ∃ args', h.shape j = .instantiation origin args' ∧ List.Forall₂ W.Pairs args args' := by
  cases hij with
  | same hopq => simp [hi, Shape.isOpaque] at hopq
  | twin hij =>
    have hfits := hij.there
    rw [hi] at hfits
    generalize h.shape j = s at hfits
    cases hfits with
    | instantiation hargs => exact ⟨_, rfl, hargs⟩

end Looks

namespace Twins

theorem flip (ht : Twins W g h) : Twins (flip W) h g :=
  ⟨fun i j hij => (ht.lt j i hij).symm, fun i j hij => (ht.looks j i hij).flip⟩

theorem has (ht : Twins W g h) (hab : W.Pairs a b) : g.Has a ∧ h.Has b := by
  cases hab with
  | node hij => exact ht.lt _ _ hij
  | word ha => exact ⟨has_of_not_node ha, has_of_not_node ha⟩

theorem kind_eq (ht : Twins W g h) (hab : W.Pairs a b) : h.kind b = g.kind a := by
  cases hab with
  | node hij => exact (ht.looks _ _ hij).kind_eq
  | word ha => cases a <;> first | rfl | cases ha

theorem looks_of_fits {R : Ty → Ty → Prop} (ht : Twins W g h) (hij : W i j)
    (hi : (g.shape i).Fits R s ∨ s.Fits R (g.shape i)) :
    (g.shape i).Twin W.Pairs (h.shape j) := by
  cases ht.looks i j hij with
  | same hopq =>
    rcases hi with hi | hi
    · simp [hi.not_isOpaque.1] at hopq
    · simp [hi.not_isOpaque.2] at hopq
  | twin hij => exact hij

theorem similar (ht : Twins W g h) (ha : W.Pairs a a') (hb : W.Pairs b b') (hab : g.Similar a b) :
    h.Similar a' b' := by
  -- A simulation in one graph is carried over to the other along the pairs.
  let R : Ty → Ty → Prop := fun x' y' => ∃ x y, W.Pairs x x' ∧ W.Pairs y y' ∧ g.Similar x y
  refine ⟨R, ?_, a, b, ha, hb, hab⟩
  rintro x' y' ⟨x, y, hx, hy, hxy⟩
  cases hx with
  | word hword =>
    obtain rfl := hxy.eq_of_not_node hword
    cases hy with
    | node => cases hword
    | word => exact .same _
  | @node i i' hi =>
    obtain ⟨j, rfl⟩ := hxy.exists_node
    cases hy with
    | word hword => cases hword
    | @node _ j' hj =>
      cases hxy.alike with
      | same =>
        cases ht.looks i i' hi with
        | same hopq =>
          cases ht.looks i j' hj with
          | same => exact .same _
          | twin hij => simp [hij.there.not_isOpaque.1] at hopq
        | twin hii =>
          have hjj := ht.looks_of_fits hj (.inl hii.there)
          exact .fits (hii.back.trans (fun x y z hxy hyz => ⟨y, y, hxy, hyz, .refl g y⟩) hjj.there)
      | fits hij =>
        have hii := ht.looks_of_fits hi (.inl hij)
        have hjj := ht.looks_of_fits hj (.inr hij)
        have hleft := hii.back.trans (T := fun x' y => ∃ x, W.Pairs x x' ∧ g.Similar x y)
          (fun x y z hxy hyz => ⟨y, hxy, hyz⟩) hij
        exact .fits (hleft.trans (fun x y z ⟨w, hwx, hwy⟩ hyz => ⟨w, y, hwx, hyz, hwy⟩) hjj.there)

theorem similar_iff (ht : Twins W g h) (ha : W.Pairs a a') (hb : W.Pairs b b') :
    g.Similar a b ↔ h.Similar a' b' :=
  ⟨ht.similar ha hb, ht.flip.similar ha.flip hb.flip⟩

theorem mono (ht : Twins W g h) (hg : g.Extends g') (hh : h.Extends h') : Twins W g' h' where
  lt i j hij := ⟨(ht.lt i j hij).1.trans_le hg.size_le, (ht.lt i j hij).2.trans_le hh.size_le⟩
  looks i j hij := (ht.looks i j hij).mono (fun _ _ => id) (hg.shape_eq i (ht.lt i j hij).1)
    (hh.shape_eq j (ht.lt i j hij).2)

theorem similar_of_extends (ht : Twins W g h) (hg : g.Extends k) (hh : h.Extends k)
    (hab : W.Pairs a b) : k.Similar a b := by
  refine ⟨W.Pairs, fun x y hxy => ?_, hab⟩
  cases hxy with
  | word => exact .same _
  | @node i j hij =>
    cases (ht.mono hg hh).looks i j hij with
    | same => exact .same _
    | twin hij => exact .fits hij.there

theorem push (ht : Twins W g h) (hst : s.Twin W.Pairs t) :
    Twins (W.insert g.size h.size) (g.push s) (h.push t) := by
  have hW (i j : NodeId) (hij : W i j) : W.insert g.size h.size i j := .inl hij
  constructor
  · rintro i j (hij | ⟨rfl, rfl⟩)
    · obtain ⟨hi, hj⟩ := ht.lt i j hij
      rw [size_push, size_push]
      exact ⟨Nat.lt_succ_of_lt hi, Nat.lt_succ_of_lt hj⟩
    · simp
  · rintro i j (hij | ⟨rfl, rfl⟩)
    · obtain ⟨hi, hj⟩ := ht.lt i j hij
      exact (ht.looks i j hij).mono hW (shape_push_of_lt s hi) (shape_push_of_lt t hj)
    · refine .twin ?_
      rw [shape_push_size, shape_push_size]
      exact hst.imp fun x y => World.Pairs.mono hW

theorem replace (ht : Twins W g h) (hij : W i j) (hi : ∀ y, W i y → y = j)
    (hj : ∀ x, W x j → x = i) (hst : s.Twin W.Pairs t) :
    Twins W (g.replace i s) (h.replace j t) := by
  obtain ⟨hlt, hlt'⟩ := ht.lt i j hij
  constructor
  · simpa only [size_replace] using ht.lt
  · intro x y hxy
    by_cases hx : x = i
    · subst hx
      obtain rfl := hi y hxy
      refine .twin ?_
      rwa [shape_replace_self s hlt, shape_replace_self t hlt']
    · have hy : y ≠ j := fun hy => hx (hj x (hy ▸ hxy))
      exact (ht.looks x y hxy).mono (fun _ _ => id) (shape_replace_of_ne s hx)
        (shape_replace_of_ne t hy)

end Twins

def likeness (g : Graph) : World :=
  fun i j => i < g.size ∧ j < g.size ∧ g.Similar (.node i) (.node j)

theorem Similar.pairs {x y : Ty} (hxy : g.Similar x y) (hx : g.Has x) (hy : g.Has y) :
    g.likeness.Pairs x y := by
  cases x with
  | node i =>
    obtain ⟨j, rfl⟩ := hxy.exists_node
    exact .node ⟨hx, hy, hxy⟩
  | _ =>
    obtain rfl := hxy.eq_of_not_node rfl
    exact .word rfl

theorem twins_likeness (hg : g.Closed) (hsymm : ∀ a b, g.Similar a b → g.Similar b a) :
    Twins g.likeness g g := by
  have hchild {i : NodeId} {x : Ty} (hx : x ∈ (g.shape i).children) : g.Has x := hg (.node i) x hx
  refine ⟨fun i j hij => ⟨hij.1, hij.2.1⟩, fun i j ⟨hi, hj, hij⟩ => ?_⟩
  cases hij.alike with
  | same =>
    cases hopq : (g.shape i).isOpaque with
    | true => exact .same hopq rfl
    | false => exact .twin (.refl hopq fun x hx => (Similar.refl g x).pairs (hchild hx) (hchild hx))
  | fits hfits =>
    have hback := hsymm _ _ hij
    cases hback.alike with
    | same => exact .twin ⟨hfits.imp fun x hx y hy hxy => hxy.pairs (hchild hx) (hchild hy),
        hfits.imp fun x hx y hy hxy => (hsymm _ _ hxy).pairs (hchild hy) (hchild hx)⟩
    | fits hfits' =>
      exact .twin ⟨hfits.imp fun x hx y hy hxy => hxy.pairs (hchild hx) (hchild hy),
        hfits'.imp fun x hx y hy hxy => (hsymm _ _ hxy).pairs (hchild hy) (hchild hx)⟩

end Graph

end FlowTyping
