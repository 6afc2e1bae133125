import FlowTyping.Proofs.Similarity
import Mathlib.Data.List.Nodup
import Mathlib.Data.Fintype.EquivFin
import Mathlib.Order.WellFounded

namespace FlowTyping

variable {R S T : Ty → Ty → Prop} {g : Graph} {a b c : Ty} {i j : NodeId} {u v : Members}

namespace Literals

variable {α : Type} {l m n : Literals α}

theorem Agree.symm (h : l.Agree m) : m.Agree l :=
  ⟨h.1.symm, h.2.1.symm, fun v => (h.2.2 v).symm⟩

theorem Agree.trans (hl : l.Agree m) (hm : m.Agree n) : l.Agree n :=
  ⟨hl.1.trans hm.1, hl.2.1.trans hm.2.1, fun v => (hl.2.2 v).trans (hm.2.2 v)⟩

end Literals

theorem forall₂_trans {α : Type} {r s q : α → α → Prop} (hq : ∀ a b c, r a b → s b c → q a c)
    {as bs cs : List α} (h : List.Forall₂ r as bs) (h' : List.Forall₂ s bs cs) :
    List.Forall₂ q as cs := by
  induction h generalizing cs with
  | nil =>
    cases h'
    exact .nil
  | cons hab _ ih =>
    cases h' with
    | cons hbc h' => exact .cons (hq _ _ _ hab hbc) (ih h')

theorem Slot.Fits.trans (hT : ∀ x y z, R x y → S y z → T x z) (a b c : Slot) (h : a.Fits R b)
    (h' : b.Fits S c) : a.Fits T c :=
  ⟨h.1.trans h'.1, h.2.1.trans h'.2.1, hT _ _ _ h.2.2 h'.2.2⟩

theorem Slot.Fits.symm (a b : Slot) (h : b.Fits (flip R) a) : a.Fits R b :=
  ⟨h.1.symm, h.2.1.symm, h.2.2⟩

theorem Param.Fits.trans (hT : ∀ x y z, R x y → S y z → T x z) (a b c : Param) (h : a.Fits R b)
    (h' : b.Fits S c) : a.Fits T c :=
  ⟨h.1.trans h'.1, hT _ _ _ h.2 h'.2⟩

theorem Members.Fits.trans (hT : ∀ x y z, R x y → S y z → T x z) {w : Members} (h : u.Fits R v)
    (h' : v.Fits S w) : u.Fits T w where
  object := h.object.trans h'.object
  void := h.void.trans h'.void
  null := h.null.trans h'.null
  undefined := h.undefined.trans h'.undefined
  hasTrue := h.hasTrue.trans h'.hasTrue
  hasFalse := h.hasFalse.trans h'.hasFalse
  strings := h.strings.trans h'.strings
  numbers := h.numbers.trans h'.numbers
  bigints := h.bigints.trans h'.bigints
  symbols := h.symbols.trans h'.symbols
  count := h.count.trans h'.count
  covered := by
    intro i hi
    obtain ⟨j, hj, hij⟩ := h.covered i hi
    obtain ⟨k, hk, hjk⟩ := h'.covered j hj
    exact ⟨k, hk, hT _ _ _ hij hjk⟩
  unresolved := h.unresolved.trans h'.unresolved

theorem Shape.Fits.trans (hT : ∀ x y z, R x y → S y z → T x z) {s t w : Shape} (h : s.Fits R t)
    (h' : t.Fits S w) : s.Fits T w := by
  cases h with
  | union h =>
    cases h' with
    | union h' => exact .union (h.trans hT h')
  | record h =>
    cases h' with
    | record h' => exact .record (forall₂_trans (Slot.Fits.trans hT) h h')
  | callable ht h =>
    cases h' with
    | callable ht' h' => exact .callable (hT _ _ _ ht ht') (forall₂_trans (Param.Fits.trans hT) h h')
  | interface h =>
    cases h' with
    | interface h' => exact .interface (forall₂_trans (Slot.Fits.trans hT) h h')
  | intersection h =>
    cases h' with
    | intersection h' => exact .intersection (forall₂_trans hT h h')
  | nameSpace h =>
    cases h' with
    | nameSpace h' => exact .nameSpace (forall₂_trans (Slot.Fits.trans hT) h h')
  | intrinsic =>
    cases h' with
    | intrinsic => exact .intrinsic
  | instantiation h =>
    cases h' with
    | instantiation h' => exact .instantiation (forall₂_trans hT h h')

theorem Shape.Fits.symm {s t : Shape} (h : s.Fits R t)
    (hS : ∀ x ∈ s.children, ∀ y ∈ t.children, R x y → S y x)
    (hcovered : ∀ u v, s = .union u → t = .union v →
      ∀ j ∈ v.shapes, ∃ i ∈ u.shapes, R (.node i) (.node j)) : t.Fits S s := by
  have hflip : s.Fits (flip S) t := h.imp hS
  cases hflip with
  | @union u v h' =>
    refine .union ⟨h'.object.symm, h'.void.symm, h'.null.symm, h'.undefined.symm, h'.hasTrue.symm,
      h'.hasFalse.symm, h'.strings.symm, h'.numbers.symm, h'.bigints.symm, h'.symbols.symm,
      h'.count.symm, fun j hj => ?_, h'.unresolved.symm⟩
    obtain ⟨i, hi, hij⟩ := hcovered u v rfl rfl j hj
    exact ⟨i, hi, hS _ (Members.node_mem_toList.2 (.inl hi)) _
      (Members.node_mem_toList.2 (.inl hj)) hij⟩
  | record h' => exact .record (h'.flip.imp Slot.Fits.symm)
  | callable ht h' => exact .callable ht (h'.flip.imp fun x y hxy => ⟨hxy.1.symm, hxy.2⟩)
  | interface h' => exact .interface (h'.flip.imp Slot.Fits.symm)
  | intersection h' => exact .intersection h'.flip
  | nameSpace h' => exact .nameSpace (h'.flip.imp Slot.Fits.symm)
  | intrinsic => exact .intrinsic
  | instantiation h' => exact .instantiation h'.flip

theorem Members.Fits.exists_perm (h : u.Fits R v) (hu : u.shapes.Nodup)
    (honce : ∀ x ∈ u.shapes, ∀ x' ∈ u.shapes, ∀ y ∈ v.shapes, R (.node x) (.node y) →
      R (.node x') (.node y) → x = x') :
    ∃ f : NodeId → NodeId,
      (∀ x ∈ u.shapes, R (.node x) (.node (f x))) ∧ (u.shapes.map f).Perm v.shapes := by
  choose! f hf hRf using h.covered
  refine ⟨f, hRf, ?_⟩
  have hnodup : (u.shapes.map f).Nodup := by
    refine hu.map_on fun x hx x' hx' hxx' => ?_
    exact honce x hx x' hx' (f x) (hf x hx) (hRf x hx) (hxx' ▸ hRf x' hx')
  have hsub : u.shapes.map f ⊆ v.shapes := by
    intro y hy
    obtain ⟨x, hx, rfl⟩ := List.mem_map.1 hy
    exact hf x hx
  exact (hnodup.subperm hsub).perm_of_length_le (by simp [h.count])

def Shape.unionShapes : Shape → List NodeId
  | .union u => u.shapes
  | _ => []

namespace Graph

theorem Similar.trans (hab : g.Similar a b) (hbc : g.Similar b c) : g.Similar a c := by
  refine Similar.of_upTo (R := fun x z => ∃ y, g.Similar x y ∧ g.Similar y z) ?_ ⟨b, hab, hbc⟩
  rintro x z ⟨y, hxy, hyz⟩
  cases hxy.alike with
  | same => exact hyz.alike.imp fun _ _ => .inr
  | fits h =>
    cases hyz.alike with
    | same => exact hxy.alike.imp fun _ _ => .inr
    | fits h' => exact .fits (h.trans (fun x y z hxy hyz => .inl ⟨y, hxy, hyz⟩) h')

def Covers (g : Graph) (i : NodeId) : Prop :=
  ∀ j u v, g.shape i = .union u → g.shape j = .union v → g.Similar (.node i) (.node j) →
    ∀ y ∈ v.shapes, ∃ x ∈ u.shapes, g.Similar (.node x) (.node y)

theorem Similar.symm_of_covers (ha : ∀ i, g.Reaches a (.node i) → g.Covers i)
    (hab : g.Similar a b) : g.Similar b a := by
  refine Similar.of_upTo
    (R := fun y x => (∀ i, g.Reaches x (.node i) → g.Covers i) ∧ g.Similar x y) ?_ ⟨ha, hab⟩
  rintro y x ⟨hx, hxy⟩
  cases hxy.alike with
  | same => exact .same _
  | @fits i j h =>
    refine .fits (h.symm (fun c hc d _ hcd => .inl ⟨fun k hk => ?_, hcd⟩) fun u v hu hv => ?_)
    · exact hx k (.head hc hk)
    · exact hx i .refl j u v hu hv hxy

/-- In every union no shape is equal to one that was there before it. -/
def DistinctShapes (g : Graph) : Prop :=
  ∀ i u, g.shape i = .union u →
    u.shapes.Pairwise fun x y => g.equal (.node y) (.node x) = false

instance (g : Graph) : Decidable g.DistinctShapes :=
  decidable_of_iff
    (∀ i < g.size, (g.shape i).unionShapes.Pairwise fun x y =>
      g.equal (.node y) (.node x) = false) (by
    constructor
    · intro h i u hi
      simpa [hi, Shape.unionShapes] using h i (lt_size_of_shape hi (by simp))
    · intro h i _
      cases hi : g.shape i with
      | union u => exact h i u hi
      | _ => exact .nil)

/-- No two shapes of the union are both equal to one shape of a union that it is equal to. -/
def MatchesOnce (g : Graph) (i : NodeId) : Prop :=
  ∀ j u v, g.shape i = .union u → g.shape j = .union v → g.equal (.node i) (.node j) = true →
    ∀ x ∈ u.shapes, ∀ x' ∈ u.shapes, ∀ y ∈ v.shapes, g.equal (.node x) (.node y) = true →
      g.equal (.node x') (.node y) = true → x = x'

def Unlike (h : Graph) (shapes : List NodeId) : Prop :=
  shapes.Pairwise fun x y => ¬ h.Similar (.node y) (.node x)

namespace Unlike

variable {shapes : List NodeId}

theorem eq (hs : g.Unlike shapes) {x y : NodeId} (hx : x ∈ shapes) (hy : y ∈ shapes)
    (hxy : g.Similar (.node x) (.node y)) (hyx : g.Similar (.node y) (.node x)) : x = y := by
  refine List.Pairwise.forall_of_forall_of_flip
    (R := fun x y => g.Similar (.node x) (.node y) → g.Similar (.node y) (.node x) → x = y)
    (fun _ _ _ _ => rfl) ?_ ?_ hx hy hxy hyx
  · exact hs.imp fun hne _ hyx => absurd hyx hne
  · exact hs.imp fun hne hyx _ => absurd hyx hne

theorem nodup (hs : g.Unlike shapes) : shapes.Nodup := by
  refine hs.imp fun {x y} hne hxy => ?_
  subst hxy
  exact hne (.refl g _)

end Unlike

theorem DistinctShapes.unlike (hd : g.DistinctShapes) (hi : g.shape i = .union u) :
    g.Unlike u.shapes :=
  (hd i u hi).imp equal_eq_false_iff.1

theorem MatchesOnce.exists_perm (hm : g.MatchesOnce i) (hd : g.DistinctShapes)
    (hi : g.shape i = .union u) (hj : g.shape j = .union v) (hij : g.Similar (.node i) (.node j)) :
    ∃ f : NodeId → NodeId, (∀ x ∈ u.shapes, g.Similar (.node x) (.node (f x))) ∧
      (u.shapes.map f).Perm v.shapes := by
  have honce := hm j u v hi hj (equal_iff.2 hij)
  simp only [equal_iff] at honce
  exact ((similar_union_iff hi hj).1 hij).exists_perm (hd.unlike hi).nodup honce

theorem MatchesOnce.covers (hm : g.MatchesOnce i) (hd : g.DistinctShapes) : g.Covers i := by
  intro j u v hi hj hij y hy
  obtain ⟨f, hf, hperm⟩ := hm.exists_perm hd hi hj hij
  obtain ⟨x, hx, rfl⟩ := List.mem_map.1 (hperm.mem_iff.2 hy)
  exact ⟨x, hx, hf x hx⟩

theorem matchesOnce_of_symm (hd : g.DistinctShapes)
    (hsymm : ∀ u, g.shape i = .union u → ∀ x ∈ u.shapes, ∀ b, g.Similar (.node x) b →
      g.Similar b (.node x)) : g.MatchesOnce i := by
  intro j u v hi _ _ x hx x' hx' y _ hxy hx'y
  rw [equal_iff] at hxy hx'y
  exact (hd.unlike hi).eq hx hx' (hxy.trans (hsymm u hi x' hx' _ hx'y))
    (hx'y.trans (hsymm u hi x hx _ hxy))

/-- Equality is symmetric exactly on the graphs in which every union is matched one to one. -/
theorem equal_symm_iff_matchesOnce (hd : g.DistinctShapes) :
    (∀ a b, g.equal a b = g.equal b a) ↔ ∀ i, g.MatchesOnce i := by
  constructor
  · intro hsymm i
    refine matchesOnce_of_symm hd fun u _ x _ b hxb => ?_
    rw [← equal_iff, ← hsymm, equal_iff]
    exact hxb
  · intro hm a b
    have hsymm (a b : Ty) (hab : g.Similar a b) : g.Similar b a :=
      hab.symm_of_covers fun i _ => (hm i).covers hd
    rw [Bool.eq_iff_iff, equal_iff, equal_iff]
    exact ⟨hsymm a b, hsymm b a⟩

/-- Three unions over the records `{ k: U }`, `{ k: W }`, `{ k: V }` and `{ m: string }`: `U` is the
union of the first two, `W` of the first and the last, `V` of the third and the last. Both shapes of
`U` are equal to `{ k: V }`, so `U` is equal to `V`, but nothing in `U` is equal to
`{ m: string }`. -/
def lopsided : Graph :=
  let k (i : NodeId) : Shape := .record [⟨.named (text "k"), .node i, false⟩]
  ⟨#[k 4, k 5, k 6, .record [⟨.named (text "m"), .simple .string, false⟩],
    .union { shapes := [0, 1] }, .union { shapes := [0, 3] }, .union { shapes := [2, 3] }]⟩

theorem lopsided_not_matchesOnce :
    lopsided.DistinctShapes ∧ lopsided.equal (.node 0) (.node 1) = false ∧
      lopsided.equal (.node 4) (.node 6) = true ∧ lopsided.equal (.node 6) (.node 4) = false ∧
      ¬ ∀ i, lopsided.MatchesOnce i := by
  have hdistinct : lopsided.DistinctShapes := by decide +kernel
  have huv : lopsided.equal (.node 4) (.node 6) = true := by decide +kernel
  have hvu : lopsided.equal (.node 6) (.node 4) = false := by decide +kernel
  refine ⟨hdistinct, by decide +kernel, huv, hvu, fun hm => ?_⟩
  have hsymm := (equal_symm_iff_matchesOnce hdistinct).2 hm (.node 4) (.node 6)
  rw [huv, hvu] at hsymm
  cases hsymm

theorem lopsided_equal_not_symm :
    (∀ i < lopsided.size, (lopsided.shape i).unionShapes.Pairwise fun x y =>
      lopsided.equal (.node x) (.node y) = false ∧ lopsided.equal (.node y) (.node x) = false) ∧
    ¬ ∀ a b, lopsided.equal a b = lopsided.equal b a := by
  have huv : lopsided.equal (.node 4) (.node 6) = true := by decide +kernel
  have hvu : lopsided.equal (.node 6) (.node 4) = false := by decide +kernel
  refine ⟨by decide +kernel, fun hsymm => ?_⟩
  have := hsymm (.node 4) (.node 6)
  rw [huv, hvu] at this
  cases this

/-- No union can be reached from its own members. -/
def UnionsAcyclic (g : Graph) : Prop :=
  ∀ i u, g.shape i = .union u → ∀ t ∈ u.toList, ¬ g.Reaches t (.node i)

theorem UnionsAcyclic.of_rank (rank : Ty → Nat)
    (hrank : ∀ i < g.size, ∀ t ∈ (g.shape i).children,
      rank t ≤ rank (.node i) ∧ ((g.shape i).kind = .union → rank t < rank (.node i))) :
    g.UnionsAcyclic := by
  intro i u hi t ht hti
  have hstep (x y : Ty) (hxy : g.Child x y) : rank y ≤ rank x := by
    obtain ⟨k, rfl, hy⟩ := hxy.exists_node
    refine (hrank k (lt_size_of_shape rfl fun hk => ?_) y hy).1
    rw [hk] at hy
    cases hy
  have hle : rank (.node i) ≤ rank t :=
    hti.mem_of_closed (S := fun x => rank x ≤ rank t)
      (fun x hx y hxy => (hstep x y hxy).trans hx) le_rfl
  have hlt : rank t < rank (.node i) := by
    refine (hrank i (lt_size_of_shape hi (by simp)) t ?_).2 ?_ <;> rw [hi]
    · exact ht
    · rfl
  omega

def Within (g : Graph) (k i : NodeId) : Prop :=
  ∃ u, g.shape i = .union u ∧ ∃ t ∈ u.toList, g.Reaches t (.node k)

theorem UnionsAcyclic.wellFounded (ha : g.UnionsAcyclic) :
    WellFounded fun k i : Fin g.size => g.Within k i := by
  have : IsTrans (Fin g.size) fun k i => g.Within k i := by
    refine ⟨fun l k i ⟨w, hk, s, hs, hsl⟩ ⟨u, hi, t, ht, htk⟩ => ⟨u, hi, t, ht, htk.trans ?_⟩⟩
    exact .head (child_node.2 (by rw [hk]; exact hs)) hsl
  have : Std.Irrefl fun k i : Fin g.size => g.Within k i :=
    ⟨fun i ⟨u, hi, t, ht, hti⟩ => ha i u hi t ht hti⟩
  exact Finite.wellFounded_of_trans_of_irrefl _

theorem UnionsAcyclic.matchesOnce (ha : g.UnionsAcyclic) (hd : g.DistinctShapes) (i : NodeId) :
    g.MatchesOnce i := by
  have habsent (k : NodeId) (hk : ¬ k < g.size) : g.MatchesOnce k := by
    intro j u v hu
    rw [shape_of_size_le (Nat.le_of_not_lt hk)] at hu
    cases hu
  have hpresent (k : Fin g.size) : g.MatchesOnce k := by
    induction k using ha.wellFounded.induction with
    | _ i ih =>
      refine matchesOnce_of_symm hd fun u hi x hx b hxb => hxb.symm_of_covers fun k hk => ?_
      have hwithin : g.Within k i := ⟨u, hi, .node x, Members.node_mem_toList.2 (.inl hx), hk⟩
      by_cases hks : k < g.size
      · exact (ih ⟨k, hks⟩ hwithin).covers hd
      · exact (habsent k hks).covers hd
  by_cases hi : i < g.size
  · exact hpresent ⟨i, hi⟩
  · exact habsent i hi

end Graph

end FlowTyping
