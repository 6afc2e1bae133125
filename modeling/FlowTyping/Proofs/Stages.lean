import FlowTyping.Proofs.FoldAlgebra
import FlowTyping.Proofs.ToldApart

/-!
The stages of a substitution in which unions may lie on cycles. A copy that is still open changes
until it is filled, so what a fold saw of it holds for good only where nothing open can be reached.
-/

namespace FlowTyping.Substitution

variable {g h h' : Graph} {b : Bindings} {root c t x y : Ty} {S S' : List NodeId} {μ ν ν' : Images}
  {i j k : NodeId} {u : Members}

/-- The images of nodes that are no unions. Each of them is a copy and is made once. -/
def copies (g : Graph) (μ : Images) : Images := μ.filter fun p => g.kind (.node p.1) ≠ .union

theorem copies_cons_of_union (hj : g.kind (.node j) = .union) (t : Ty) (μ : Images) :
    copies g ((j, t) :: μ) = copies g μ :=
  List.filter_cons_of_neg (by simpa using hj)

theorem copies_cons (hj : g.kind (.node j) ≠ .union) (t : Ty) (μ : Images) :
    copies g ((j, t) :: μ) = (j, t) :: copies g μ :=
  List.filter_cons_of_pos (by simpa using hj)

theorem lookup_copies (hi : g.kind (.node i) ≠ .union) (μ : Images) :
    (copies g μ).lookup i = μ.lookup i := by
  induction μ with
  | nil => rfl
  | cons p μ ih =>
    obtain ⟨j, t⟩ := p
    by_cases hj : g.kind (.node j) = .union
    · have hij : i ≠ j := fun hij => hi (hij ▸ hj)
      rw [copies_cons_of_union hj, ih, lookup_cons_of_ne hij]
    · rw [copies_cons hj]
      by_cases hij : i = j
      · subst hij
        rw [List.lookup_cons_self, List.lookup_cons_self]
      · rw [lookup_cons_of_ne hij, lookup_cons_of_ne hij, ih]

def Open (S : List NodeId) (ν : Images) (k : NodeId) : Prop := ∃ i ∈ S, ν.lookup i = some (.node k)

def Frozen (S : List NodeId) (ν : Images) (h : Graph) (x : Ty) : Prop :=
  h.Has x ∧ ∀ k, h.Reaches x (.node k) → ¬ Open S ν k

/-- The two are the same, or similar for good. -/
def Meets (S : List NodeId) (ν : Images) (h : Graph) (x y : Ty) : Prop :=
  x = y ∨ Frozen S ν h x ∧ Frozen S ν h y ∧ h.Similar x y

def StemsFrom (g : Graph) (ν : Images) (c y : Ty) : Prop :=
  g.Has y ∨ ∃ i k, y = .node k ∧ ν.lookup i = some (.node k) ∧ g.Reaches c (.node i)

def Stems (g : Graph) (ν : Images) (h : Graph) (c y : Ty) : Prop :=
  StemsFrom g ν c y ∨ ∃ k v, y = .node k ∧ h.shape k = .union v ∧ ∀ z ∈ v.toList, StemsFrom g ν c z

/-- What stands for the type `c` once its image has been asked for. The image of a union has one
part for the image of each of its shapes. -/
structure Filled (g : Graph) (b : Bindings) (S : List NodeId) (ν : Images) (h : Graph)
    (c y : Ty) : Prop where
  known : ∀ x ∈ g.parts c, Known g b ν x
  plain : g.kind c ≠ .union → y = img g b ν c
  parts : ∀ j u, c = .node j → g.shape j = .union u → ∀ m ∈ u.shapes,
    ∃ z ∈ h.parts y, Meets S ν h (img g b ν (.node m)) z
  stems : Stems g ν h c y
  has : h.Has y

/-- A copy of the node `i`: it shows its children one after another, and all of them in the end. -/
structure Copied (g : Graph) (b : Bindings) (root : Ty) (S : List NodeId) (ν : Images) (h : Graph)
    (i k : NodeId) : Prop where
  affected : Affected g b i
  reached : g.Reaches root (.node i)
  size_le : g.size ≤ k
  lt_size : k < h.size
  shown : ∃ shown types, shown <+: (g.shape i).children ∧ (g.shape i).lead <+: shown ∧
    List.Forall₂ (Filled g b S ν h) shown types ∧ h.shape k = (g.shape i).refill types ∧
    (i ∉ S → shown = (g.shape i).children)

/-- A substitution with the images `μ` in the graph `h` and the copies for the nodes `S` open. -/
structure Stage (g : Graph) (b : Bindings) (root : Ty) (S : List NodeId) (μ : Images)
    (h : Graph) : Prop where
  ext : g.Extends h
  closed : h.Closed
  copy : ∀ i t, (copies g μ).lookup i = some t →
    ∃ k, t = .node k ∧ g.kind (.node i) ≠ .union ∧ Copied g b root S (copies g μ) h i k
  inj : ∀ i j t, (copies g μ).lookup i = some t → (copies g μ).lookup j = some t → i = j
  union : ∀ i t, g.kind (.node i) = .union → μ.lookup i = some t →
    Filled g b S (copies g μ) h (.node i) t
  under : ∀ i ∈ S, ((copies g μ).lookup i).isSome

/-- From one stage to a later one: copies stay, and only the shapes of open copies change. -/
structure Later (g : Graph) (b : Bindings) (S : List NodeId) (ν : Images) (h : Graph)
    (S' : List NodeId) (ν' : Images) (h' : Graph) : Prop where
  lookup : ∀ i t, ν.lookup i = some t → ν'.lookup i = some t
  affected : ∀ i t, ν'.lookup i = some t → Affected g b i
  isOpen : ∀ k < h.size, Open S' ν' k → Open S ν k
  size_le : h.size ≤ h'.size
  kind_eq : ∀ k < h.size, h'.kind (.node k) = h.kind (.node k)
  shape_eq : ∀ k < h.size, h.kind (.node k) = .union ∨ ¬ Open S ν k → h'.shape k = h.shape k

namespace Later

theorem has (hl : Later g b S ν h S' ν' h') (hx : h.Has x) : h'.Has x := by
  cases x with
  | node k => exact Nat.lt_of_lt_of_le hx hl.size_le
  | _ => trivial

theorem grows (hl : Later g b S ν h S' ν' h') : Grows ν h ν' h := ⟨hl.lookup, .refl h⟩

theorem img_eq (hl : Later g b S ν h S' ν' h') (hx : Known g b ν x) :
    img g b ν' x = img g b ν x :=
  hl.grows.img_eq hl.affected hx

theorem kindOf (hl : Later g b S ν h S' ν' h') (hx : h.Has x) : h'.kind x = h.kind x := by
  cases x with
  | node k => exact hl.kind_eq k hx
  | _ => rfl

theorem parts_eq (hl : Later g b S ν h S' ν' h') (hx : h.Has x) : h'.parts x = h.parts x := by
  by_cases hunion : h.kind x = .union
  · cases x with
    | node k => simp only [Graph.parts, hl.shape_eq k hx (.inl hunion)]
    | _ => rfl
  · rw [Graph.parts_of_kind_ne hunion, Graph.parts_of_kind_ne]
    rwa [hl.kindOf hx]

theorem agreesAt (hl : Later g b S ν h S' ν' h') (hc : h.Closed) (hx : Frozen S ν h x) :
    h.AgreesAt h' x := by
  intro k hk
  exact hl.shape_eq k (hk.has hc hx.1) (.inr (hx.2 k hk))

theorem frozen (hl : Later g b S ν h S' ν' h') (hc : h.Closed) (hx : Frozen S ν h x) :
    Frozen S' ν' h' x := by
  refine ⟨hl.has hx.1, fun k hk hopen => ?_⟩
  rw [(hl.agreesAt hc hx).reaches_iff] at hk
  exact hx.2 k hk (hl.isOpen k (hk.has hc hx.1) hopen)

theorem meets (hl : Later g b S ν h S' ν' h') (hc : h.Closed) (hxy : Meets S ν h x y) :
    Meets S' ν' h' x y := by
  rcases hxy with rfl | ⟨hx, hy, hxy⟩
  · exact .inl rfl
  · exact .inr ⟨hl.frozen hc hx, hl.frozen hc hy,
      (hl.agreesAt hc hx).similar (hl.agreesAt hc hy) hxy⟩

theorem stemsFrom (hl : Later g b S ν h S' ν' h') (hy : StemsFrom g ν c y) :
    StemsFrom g ν' c y := by
  rcases hy with hy | ⟨i, k, hk, hi, hci⟩
  · exact .inl hy
  · exact .inr ⟨i, k, hk, hl.lookup i _ hi, hci⟩

theorem stems (hl : Later g b S ν h S' ν' h') (hy : Stems g ν h c y) : Stems g ν' h' c y := by
  rcases hy with hy | ⟨k, v, hk, hv, hmembers⟩
  · exact .inl (hl.stemsFrom hy)
  · refine .inr ⟨k, v, hk, ?_, fun z hz => hl.stemsFrom (hmembers z hz)⟩
    rw [hl.shape_eq k (Graph.lt_size_of_shape hv (by simp)) (.inl (Graph.kind_of_union hv)), hv]

theorem filled (hl : Later g b S ν h S' ν' h') (hc : h.Closed) (hy : Filled g b S ν h c y) :
    Filled g b S' ν' h' c y where
  known x hx := hl.grows.known (hy.known x hx)
  plain hunion := by
    have hknown : Known g b ν c := hy.known c (by simp [Graph.parts_of_kind_ne hunion])
    rw [hl.img_eq hknown]
    exact hy.plain hunion
  parts j u hj hu m hm := by
    subst hj
    have hmem : .node m ∈ g.parts (.node j) := by
      simp only [Graph.parts, hu]
      exact Members.node_mem_toList.2 (.inl hm)
    obtain ⟨z, hz, hmeets⟩ := hy.parts j u rfl hu m hm
    rw [hl.parts_eq hy.has, hl.img_eq (hy.known _ hmem)]
    exact ⟨z, hz, hl.meets hc hmeets⟩
  stems := hl.stems hy.stems
  has := hl.has hy.has

theorem copied (hl : Later g b S ν h S' ν' h') (hc : h.Closed) (hS : i ∉ S' → i ∉ S)
    (hshape : h'.shape k = h.shape k) (hk : Copied g b root S ν h i k) :
    Copied g b root S' ν' h' i k where
  affected := hk.affected
  reached := hk.reached
  size_le := hk.size_le
  lt_size := Nat.lt_of_lt_of_le hk.lt_size hl.size_le
  shown := by
    obtain ⟨shown, types, hinit, hlead, hfilled, htypes, hall⟩ := hk.shown
    exact ⟨shown, types, hinit, hlead, hfilled.imp fun _ _ => hl.filled hc, hshape.trans htypes,
      fun hi => hall (hS hi)⟩

theorem of_extends (hext : h.Extends h')
    (hlookup : ∀ i t, ν.lookup i = some t → ν'.lookup i = some t)
    (haff : ∀ i t, ν'.lookup i = some t → Affected g b i)
    (hopen : ∀ k < h.size, Open S' ν' k → Open S ν k) : Later g b S ν h S' ν' h' where
  lookup := hlookup
  affected := haff
  isOpen := hopen
  size_le := hext.size_le
  kind_eq _ hk := hext.kind_eq hk
  shape_eq k hk _ := hext.shape_eq k hk

end Later

theorem filled_word (ht : t.node? = none) : Filled g b S ν h t t where
  known x hx i hi := by
    rw [Graph.parts_of_kind_ne (Graph.kind_ne_union_of_not_node ht), List.mem_singleton] at hx
    subst hx hi
    cases ht
  plain _ := (img_of_not_node ht).symm
  parts j u hj := by
    subst hj
    cases ht
  stems := .inl (.inl (Graph.has_of_not_node ht))
  has := Graph.has_of_not_node ht

theorem StemsFrom.of_reaches (hct : g.Reaches c t) (hy : StemsFrom g ν t y) :
    StemsFrom g ν c y := by
  rcases hy with hy | ⟨i, k, hk, hi, hti⟩
  · exact .inl hy
  · exact .inr ⟨i, k, hk, hi, hct.trans hti⟩

theorem Stems.of_reaches (hct : g.Reaches c t) (hy : Stems g ν h t y) : Stems g ν h c y := by
  rcases hy with hy | ⟨k, v, hk, hv, hmembers⟩
  · exact .inl (hy.of_reaches hct)
  · exact .inr ⟨k, v, hk, hv, fun z hz => (hmembers z hz).of_reaches hct⟩

/-- What is assumed of a body `root` and of the arguments put into it: members of a union one of
which leads back to the union are told apart by how they begin. -/
structure Terms (g : Graph) (b : Bindings) (root : Ty) : Prop where
  closed : g.Closed
  has_root : g.Has root
  sorted : ∀ i u, g.shape i = .union u → u.Sorted g
  args : ∀ i t, b.lookup i = some t →
    g.Has t ∧ g.kind t ≠ .instantiation ∧ Fold.escalation g t = none
  apart : ∀ j u, g.Reaches root (.node j) → g.shape j = .union u → ∀ m ∈ u.shapes, ∀ m' ∈ u.shapes,
    m ≠ m' → g.Reaches (.node m) (.node j) ∨ g.Reaches (.node m') (.node j) →
    (g.shape m).ToldApart (g.shape m')

namespace Stage

theorem affected (hst : Stage g b root S μ h) (i : NodeId) (t : Ty)
    (hi : (copies g μ).lookup i = some t) : Affected g b i := by
  obtain ⟨k, -, -, hk⟩ := hst.copy i t hi
  exact hk.affected

theorem img_of_copy (hst : Stage g b root S μ h) (hi : (copies g μ).lookup i = some t) :
    img g b (copies g μ) (.node i) = t := by
  rw [img_of_ne_unresolved (hst.affected i t hi).1, hi, Option.getD_some]

theorem img_cases (hst : Stage g b root S μ h) (hT : Terms g b root) (hc : g.Has c) :
    g.Has (img g b (copies g μ) c) ∨ ∃ i k, c = .node i ∧ g.kind c ≠ .union ∧
      img g b (copies g μ) c = .node k ∧ (copies g μ).lookup i = some (.node k) ∧
      Copied g b root S (copies g μ) h i k := by
  cases c with
  | node i =>
    by_cases hi : g.kind (.node i) = .unresolved
    · rw [img_of_unresolved hi]
      cases hl : b.lookup i with
      | none => exact .inl hc
      | some a => exact .inl (hT.args i a hl).1
    · cases hl : (copies g μ).lookup i with
      | none =>
        rw [img_of_ne_unresolved hi, hl]
        exact .inl hc
      | some a =>
        obtain ⟨k, rfl, hunion, hk⟩ := hst.copy i a hl
        exact .inr ⟨i, k, rfl, hunion, hst.img_of_copy hl, hl, hk⟩
  | _ => exact .inl trivial

theorem stemsFrom_img (hst : Stage g b root S μ h) (hT : Terms g b root) (hc : g.Has c) :
    StemsFrom g (copies g μ) c (img g b (copies g μ) c) := by
  rcases hst.img_cases hT hc with hhas | ⟨i, k, rfl, -, hk, hl, -⟩
  · exact .inl hhas
  · exact .inr ⟨i, k, hk, hl, .refl⟩

theorem has_img (hst : Stage g b root S μ h) (hT : Terms g b root) (hc : g.Has c) :
    h.Has (img g b (copies g μ) c) := by
  rcases hst.img_cases hT hc with hhas | ⟨i, k, rfl, -, hk, -, hcopied⟩
  · exact hst.ext.has hhas
  · rw [hk]
    exact hcopied.lt_size

theorem filled_img (hst : Stage g b root S μ h) (hT : Terms g b root) (hc : g.Has c)
    (hunion : g.kind c ≠ .union) (hknown : Known g b (copies g μ) c) :
    Filled g b S (copies g μ) h c (img g b (copies g μ) c) where
  known x hx := by
    rw [Graph.parts_of_kind_ne hunion, List.mem_singleton] at hx
    exact hx ▸ hknown
  plain _ := rfl
  parts j u hj hu := by
    subst hj
    exact absurd (Graph.kind_of_union hu) hunion
  stems := .inl (hst.stemsFrom_img hT hc)
  has := hst.has_img hT hc

theorem stems_child (hst : Stage g b root S μ h) (hT : Terms g b root)
    (hx : Stems g (copies g μ) h c x) (hxy : h.Child x y) : Stems g (copies g μ) h c y := by
  rcases hx with (hhas | ⟨i, k, rfl, hi, hci⟩) | ⟨k, v, rfl, hv, hmembers⟩
  · exact .inl (.inl (hT.closed x y ((hst.ext.agreesAt hT.closed hhas).child_iff.1 hxy)))
  · obtain ⟨_, ⟨⟩, hunion, hk⟩ := hst.copy i _ hi
    obtain ⟨shown, types, hinit, -, hfilled, hshape, -⟩ := hk.shown
    rw [Graph.child_node, hshape] at hxy
    rcases Shape.children_refill hunion hxy with hy | rfl
    · obtain ⟨n, hn, rfl⟩ := List.getElem_of_mem hy
      have hn' : n < shown.length := hfilled.length_eq ▸ hn
      have hchild : g.Child (.node i) shown[n] := hinit.subset (List.getElem_mem hn')
      exact (hfilled.get hn' hn).stems.of_reaches (hci.tail hchild)
    · exact .inl (.inl trivial)
  · rw [Graph.child_node, hv] at hxy
    exact .inl (hmembers y hxy)

theorem frozen_of_stems (hst : Stage g b root S μ h) (hT : Terms g b root) (hhas : h.Has x)
    (hx : Stems g (copies g μ) h c x) (hS : ∀ i ∈ S, ¬ g.Reaches c (.node i)) :
    Frozen S (copies g μ) h x := by
  refine ⟨hhas, fun k hk ⟨i, hi, hl⟩ => ?_⟩
  obtain ⟨_, ⟨⟩, hunion, hcopied⟩ := hst.copy i _ hl
  have hstems : Stems g (copies g μ) h c (.node k) :=
    hk.mem_of_closed (fun _ hx _ => hst.stems_child hT hx) hx
  rcases hstems with (hlt | ⟨j, _, ⟨⟩, hj, hcj⟩) | ⟨_, v, ⟨⟩, hv, -⟩
  · exact absurd hlt (Nat.not_lt.2 hcopied.size_le)
  · exact hS i hi (hst.inj j i _ hj hl ▸ hcj)
  · obtain ⟨shown, types, -, -, -, hshape, -⟩ := hcopied.shown
    apply hunion
    rw [Graph.kind, ← Shape.kind_refill _ types, ← hshape, hv]
    rfl

theorem start (hT : Terms g b root) : Stage g b root [] [] g where
  ext := .refl g
  closed := hT.closed
  copy i t hi := by cases hi
  inj i j t hi := by cases hi
  union i t hi hl := by cases hl
  under i hi := by cases hi

theorem later (hst : Stage g b root S μ h) (hext : h.Extends h') :
    Later g b S (copies g μ) h S (copies g μ) h' :=
  .of_extends hext (fun _ _ => id) hst.affected fun _ _ => id

theorem remember (hst : Stage g b root S μ h) (hext : h.Extends h') (hclosed : h'.Closed)
    (hj : g.kind (.node j) = .union) (ht : Filled g b S (copies g μ) h' (.node j) t) :
    Stage g b root S ((j, t) :: μ) h' := by
  have hl := hst.later hext
  refine ⟨hst.ext.trans hext, hclosed, ?_, ?_, ?_, ?_⟩ <;> rw [copies_cons_of_union hj]
  · intro i a hi
    obtain ⟨k, rfl, hunion, hk⟩ := hst.copy i a hi
    exact ⟨k, rfl, hunion, hl.copied hst.closed id (hext.shape_eq k hk.lt_size) hk⟩
  · exact hst.inj
  · intro i a hi ha
    rcases lookup_cons_cases ha with ⟨rfl, rfl⟩ | ⟨-, ha⟩
    · exact ht
    · exact hl.filled hst.closed (hst.union i a hi ha)
  · exact hst.under

theorem enter (hst : Stage g b root S μ h) (haff : Affected g b j)
    (hroot : g.Reaches root (.node j)) (hunion : g.kind (.node j) ≠ .union)
    (hj : μ.lookup j = none) :
    Stage g b root (j :: S) ((j, .node h.size) :: μ)
      (h.push ((g.shape j).refill (g.shape j).lead)) := by
  let h' : Graph := h.push ((g.shape j).refill (g.shape j).lead)
  have hext : h.Extends h' := .push _ _
  have hnone : (copies g μ).lookup j = none := (lookup_copies hunion μ).trans hj
  have hkeep (i : NodeId) (t : Ty) (hi : (copies g μ).lookup i = some t) :
      i ≠ j ∧ List.lookup i ((j, .node h.size) :: copies g μ) = some t := by
    have hij : i ≠ j := fun hij => by simp [hij, hnone] at hi
    exact ⟨hij, by rw [lookup_cons_of_ne hij, hi]⟩
  have hl : Later g b S (copies g μ) h (j :: S) ((j, .node h.size) :: copies g μ) h' := by
    refine .of_extends hext (fun i t hi => (hkeep i t hi).2) (fun i t hi => ?_) fun k hk => ?_
    · rcases lookup_cons_cases hi with ⟨rfl, -⟩ | ⟨-, hi⟩
      · exact haff
      · exact hst.affected i t hi
    · rintro ⟨i, hi, hik⟩
      rcases lookup_cons_cases hik with ⟨-, hnode⟩ | ⟨hij, hik⟩
      · cases hnode
        exact absurd hk (Nat.lt_irrefl _)
      · exact ⟨i, (List.mem_cons.1 hi).resolve_left hij, hik⟩
  have hclosed : h'.Closed := by
    refine hst.closed.push fun t ht => ?_
    rcases Shape.children_refill hunion ht with ht | rfl
    · exact Graph.has_of_not_node (Shape.node?_of_mem_lead ht)
    · trivial
  refine ⟨hst.ext.trans hext, hclosed, ?_, ?_, ?_, ?_⟩ <;> rw [copies_cons hunion]
  · intro i t hi
    rcases lookup_cons_cases hi with ⟨rfl, rfl⟩ | ⟨hij, hi⟩
    · refine ⟨h.size, rfl, hunion, haff, hroot, hst.ext.size_le, by simp, ?_⟩
      refine ⟨(g.shape i).lead, (g.shape i).lead, Shape.lead_isPrefix _, List.prefix_rfl, ?_,
        Graph.shape_push_size _ _, by simp⟩
      exact List.forall₂_same.2 fun t ht => filled_word (Shape.node?_of_mem_lead ht)
    · obtain ⟨k, rfl, hunion', hk⟩ := hst.copy i t hi
      exact ⟨k, rfl, hunion', hl.copied hst.closed (by simp) (hext.shape_eq k hk.lt_size) hk⟩
  · intro i i' t hi hi'
    have hfresh {m : NodeId} (hm : (copies g μ).lookup m = some (.node h.size)) : False := by
      obtain ⟨_, ⟨⟩, -, hk⟩ := hst.copy m _ hm
      exact absurd hk.lt_size (Nat.lt_irrefl _)
    rcases lookup_cons_cases hi with ⟨rfl, rfl⟩ | ⟨-, hold⟩
    · rcases lookup_cons_cases hi' with ⟨rfl, -⟩ | ⟨-, hold'⟩
      · rfl
      · exact (hfresh hold').elim
    · rcases lookup_cons_cases hi' with ⟨rfl, rfl⟩ | ⟨-, hold'⟩
      · exact (hfresh hold).elim
      · exact hst.inj i i' t hold hold'
  · intro i t hi ht
    have hij : i ≠ j := fun hij => hunion (hij ▸ hi)
    rw [lookup_cons_of_ne hij] at ht
    exact hl.filled hst.closed (hst.union i t hi ht)
  · intro i hi
    rcases List.mem_cons.1 hi with rfl | hi
    · simp
    · obtain ⟨t, ht⟩ := Option.isSome_iff_exists.1 (hst.under i hi)
      simp [(hkeep i t ht).2]

theorem fill {shown types : List Ty} (hst : Stage g b root S μ h) (hj : j ∈ S)
    (hk : (copies g μ).lookup j = some (.node k)) (hinit : shown ++ [c] <+: (g.shape j).children)
    (hlead : (g.shape j).lead <+: shown)
    (hshown : List.Forall₂ (Filled g b S (copies g μ) h) shown types)
    (hc : Filled g b S (copies g μ) h c y) :
    Later g b S (copies g μ) h S (copies g μ)
        (h.replace k ((g.shape j).refill (types ++ [y]))) ∧
      Stage g b root S μ (h.replace k ((g.shape j).refill (types ++ [y]))) := by
  obtain ⟨_, ⟨⟩, hunion, hcopied⟩ := hst.copy j _ hk
  let s : Shape := (g.shape j).refill (types ++ [y])
  have hlt := hcopied.lt_size
  have hkind : s.kind = h.kind (.node k) := by
    obtain ⟨_, types', -, -, -, hshape, -⟩ := hcopied.shown
    rw [Graph.kind, hshape, Shape.kind_refill, Shape.kind_refill]
  have hother {l : NodeId} (hl : l ≠ k) : (h.replace k s).shape l = h.shape l :=
    Graph.shape_replace_of_ne s hl
  have hl : Later g b S (copies g μ) h S (copies g μ) (h.replace k s) := by
    refine ⟨fun _ _ => id, hst.affected, fun _ _ => id, by simp, fun l _ => ?_, fun l _ hl => ?_⟩
    · exact Graph.kind_replace hlt hkind _
    · apply hother
      rintro rfl
      rcases hl with hl | hl
      · rw [← hkind, Shape.kind_refill] at hl
        exact hunion hl
      · exact hl ⟨j, hj, hk⟩
  have hfilled : List.Forall₂ (Filled g b S (copies g μ) h) (shown ++ [c]) (types ++ [y]) :=
    List.rel_append hshown (.cons hc .nil)
  refine ⟨hl, hst.ext.replace hcopied.size_le s, hst.closed.replace hlt fun t ht => ?_, ?_, hst.inj,
    fun i t hi ht => hl.filled hst.closed (hst.union i t hi ht), hst.under⟩
  · rcases Shape.children_refill hunion ht with ht | rfl
    · obtain ⟨n, hn, rfl⟩ := List.getElem_of_mem ht
      exact (hfilled.get (hfilled.length_eq ▸ hn) hn).has
    · trivial
  · intro i t hi
    by_cases hij : i = j
    · subst hij
      rw [hk] at hi
      cases hi
      refine ⟨k, rfl, hunion, hcopied.affected, hcopied.reached, hcopied.size_le,
        by simpa using hlt, shown ++ [c], types ++ [y], hinit, hlead.trans (List.prefix_append _ _),
        hfilled.imp fun _ _ => hl.filled hst.closed, Graph.shape_replace_self s hlt,
        fun hi => absurd hj hi⟩
    · obtain ⟨l, rfl, hunion', hcopied'⟩ := hst.copy i t hi
      refine ⟨l, rfl, hunion', hl.copied hst.closed id (hother ?_) hcopied'⟩
      rintro rfl
      exact hij (hst.inj i j _ hi hk)

theorem leave {types : List Ty} (hst : Stage g b root (j :: S) μ h)
    (hk : (copies g μ).lookup j = some (.node k))
    (hfilled : List.Forall₂ (Filled g b (j :: S) (copies g μ) h) (g.shape j).children types)
    (hshape : h.shape k = (g.shape j).refill types) : Stage g b root S μ h := by
  have hl : Later g b (j :: S) (copies g μ) h S (copies g μ) h := by
    refine .of_extends (.refl h) (fun _ _ => id) hst.affected ?_
    rintro k - ⟨i, hi, hik⟩
    exact ⟨i, List.mem_cons_of_mem j hi, hik⟩
  refine ⟨hst.ext, hst.closed, fun i t hi => ?_, hst.inj,
    fun i t hi ht => hl.filled hst.closed (hst.union i t hi ht),
    fun i hi => hst.under i (List.mem_cons_of_mem j hi)⟩
  obtain ⟨l, rfl, hunion, hcopied⟩ := hst.copy i t hi
  by_cases hij : i = j
  · subst hij
    rw [hk] at hi
    cases hi
    exact ⟨k, rfl, hunion, hcopied.affected, hcopied.reached, hcopied.size_le, hcopied.lt_size,
      (g.shape i).children, types, List.prefix_rfl, Shape.lead_isPrefix _,
      hfilled.imp fun _ _ => hl.filled hst.closed, hshape, fun _ => rfl⟩
  · exact ⟨l, rfl, hunion, hl.copied hst.closed (by simp [hij]) rfl hcopied⟩

end Stage

end FlowTyping.Substitution
