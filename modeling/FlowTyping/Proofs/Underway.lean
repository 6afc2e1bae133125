import FlowTyping.Proofs.Builder
import FlowTyping.Proofs.RecursiveUnions

namespace FlowTyping

variable {g h h' : Graph} {t : Ty} {s : Shape} {i : NodeId} {f : Fold}

namespace Graph

theorem lt_size_of_kind {k : Kind} (hi : g.kind (.node i) = k) (hk : k ≠ .unresolved) :
    i < g.size := by
  refine lt_size_of_shape rfl fun hs => hk ?_
  rw [← hi, kind, hs]
  rfl

theorem Closed.has_arg {o : Option NodeId} {args : List Ty} (hg : g.Closed)
    (hi : g.shape i = .instantiation o args) (ht : t ∈ args) : g.Has t :=
  hg (.node i) t (by rwa [child_node, hi])

theorem Extends.kindsStay (hgh : g.Extends h) : g.KindsStay h :=
  ⟨hgh.size_le, fun _ hi => hgh.kind_eq hi⟩

namespace KindsStay

theorem kindOf (hgh : g.KindsStay h) (ht : g.Has t) : h.kind t = g.kind t := by
  cases t with
  | node i => exact hgh.kind_eq i ht
  | _ => rfl

theorem replace (hi : i < g.size) (hs : s.kind = g.kind (.node i)) :
    g.KindsStay (g.replace i s) :=
  ⟨by simp, fun _ _ => kind_replace hi hs _⟩

theorem admits (hgh : g.KindsStay h) (hs : g.Admits s) : h.Admits s := by
  obtain ⟨hchildren, hbody, hflat⟩ := hs
  refine ⟨fun x hx => hgh.has (hchildren x hx), fun x hx => hgh.has (hbody x hx), fun x hx => ?_⟩
  cases s with
  | union u =>
    rw [hgh.kindOf (hchildren x hx)]
    exact hflat x hx
  | _ => cases hx

end KindsStay

theorem admits_of_kind_ne (hs : s.kind ≠ .union) (hgeneric : s.kind ≠ .generic)
    (hchildren : ∀ x ∈ s.children, g.Has x) : g.Admits s := by
  refine ⟨hchildren, ?_, ?_⟩ <;> cases s <;> simp_all [Shape.kind, Shape.body?, Shape.unionMembers]

namespace WellFormed

theorem admits (hg : g.WellFormed) (i : NodeId) : g.Admits (g.shape i) := by
  have hchildren (x : Ty) (hx : x ∈ (g.shape i).children) : g.Has x := hg.closed (.node i) x hx
  cases hi : g.shape i with
  | union u =>
    rw [hi] at hchildren
    exact ⟨hchildren, by simp [Shape.body?], hg.flat i u hi⟩
  | generic name params body =>
    refine ⟨by simp [Shape.children], ?_, by simp [Shape.unionMembers]⟩
    rintro x ⟨⟩
    exact hg.bodies i name params _ hi
  | callable role =>
    rw [hi] at hchildren
    exact admits_of_kind_ne (by cases role <;> simp [Shape.kind])
      (by cases role <;> simp [Shape.kind]) hchildren
  | _ =>
    rw [hi] at hchildren
    exact admits_of_kind_ne (by simp [Shape.kind]) (by simp [Shape.kind]) hchildren

theorem push (hg : g.WellFormed) (hs : g.Admits s) : (g.push s).WellFormed := by
  have hkinds : g.KindsStay (g.push s) := .push g s
  refine wellFormed_of_admits fun i hi => hkinds.admits ?_
  rw [size_push] at hi
  rcases Nat.lt_succ_iff_lt_or_eq.1 hi with hi | rfl
  · rw [shape_push_of_lt s hi]
    exact hg.admits i
  · rwa [shape_push_size]

theorem replace (hg : g.WellFormed) (hi : i < g.size) (hkind : s.kind = g.kind (.node i))
    (hs : g.Admits s) : (g.replace i s).WellFormed := by
  have hkinds : g.KindsStay (g.replace i s) := .replace hi hkind
  refine wellFormed_of_admits fun k _ => hkinds.admits ?_
  by_cases hk : k = i
  · rwa [hk, shape_replace_self s hi]
  · rw [shape_replace_of_ne s hk]
    exact hg.admits k

end WellFormed

end Graph

namespace Fold.Proper

theorem kind_ne (hf : f.Proper g) (ht : t ∈ f.members.toList) :
    g.kind t ≠ .union ∧ g.kind t ≠ .instantiation :=
  Kind.ne_of_isMember (hf.reached.sorted.isMember ht)

theorem absorb (hf : f.Proper g) (hg : g.WellFormed) (ht : g.Has t)
    (hopen : g.kind t ≠ .instantiation) : ∃ f', f.absorb g t = .ok f' ∧ f'.Proper g := by
  rw [absorb_eq_foldlM]
  exact hf.foldlM (fun x hx => (Graph.reaches_of_mem_parts hx).has hg.closed ht)
    (hg.flat.absorbable hopen)

theorem wellFormed_push (hf : f.Proper g) (hg : g.WellFormed) :
    (g.push (.union f.members)).WellFormed :=
  hg.push ⟨fun _ hx => hf.has_of_mem hx, by simp [Shape.body?], fun _ hx => hf.kind_ne hx⟩

theorem finish {st : Store} (hf : f.Proper st.graph) :
    ∃ t st', f.finish.Returns st t st' ∧
      (st'.graph = st.graph ∨ st'.graph = st.graph.push (.union f.members)) ∧
      st'.graph.Has t ∧ st'.graph.kind t ≠ .instantiation := by
  obtain ⟨t, st', hfinish, hends, hcases⟩ := f.finish_returns st
  refine ⟨t, st', hfinish, ?_⟩
  rcases hcases with ⟨hgraph, ht⟩ | ⟨hgraph, rfl⟩
  · rw [hgraph] at hends ⊢
    refine ⟨.inl rfl, ?_, hends.kind_ne hf.reached⟩
    rcases ht with ht | ht
    · exact Graph.has_of_not_node ht
    · exact hf.has_of_mem ht
  · rw [hgraph]
    refine ⟨.inr rfl, by simp [Graph.Has], ?_⟩
    rw [Graph.kind_of_union (Graph.shape_push_size _ _)]
    simp

theorem add_returns {st : Store} (hf : f.Proper st.graph) (hg : st.graph.WellFormed)
    (ht : st.graph.Has t) (hopen : st.graph.kind t ≠ .instantiation) (unwrap : NodeId → TypeM Ty)
    (n : Nat) : ∃ f', (Fold.add unwrap (n + 1) f t).Returns st f' st ∧ f'.Proper st.graph := by
  obtain ⟨f', hadd, hf'⟩ := hf.absorb hg ht hopen
  exact ⟨f', Fold.add_returns unwrap n hopen hadd, hf'⟩

end Fold.Proper

namespace Substitution

variable {b : Bindings} {root c y : Ty} {S : List NodeId} {μ ν ν' : Images} {j k : NodeId}

structure Basis (g : Graph) (b : Bindings) (root : Ty) : Prop where
  well : g.WellFormed
  has_root : g.Has root
  args : ∀ i t, b.lookup i = some t → g.Has t

/-- What stands in the place of the type `c`: its image, or for a union some type that need not be
opened. -/
structure Delivers (g : Graph) (b : Bindings) (ν : Images) (h : Graph) (c y : Ty) : Prop where
  has : h.Has y
  plain : g.kind c ≠ .union → Known g b ν c ∧ y = img g b ν c
  union : g.kind c = .union → h.kind y ≠ .instantiation

theorem Delivers.mono (hlookup : ∀ i t, ν.lookup i = some t → ν'.lookup i = some t)
    (haff : ∀ i t, ν'.lookup i = some t → Affected g b i) (hkinds : h.KindsStay h')
    (hy : Delivers g b ν h c y) : Delivers g b ν' h' c y where
  has := hkinds.has hy.has
  plain hunion := by
    obtain ⟨hknown, rfl⟩ := hy.plain hunion
    have hgrows : Grows ν h ν' h := ⟨hlookup, .refl h⟩
    exact ⟨hgrows.known hknown, (hgrows.img_eq haff hknown).symm⟩
  union hunion := by
    rw [hkinds.kindOf hy.has]
    exact hy.union hunion

/-- A substitution with the images `μ` in the graph `h`, in which the copies for the nodes `S` are
not yet filled. -/
structure Underway (g : Graph) (b : Bindings) (root : Ty) (S : List NodeId) (μ : Images)
    (h : Graph) : Prop where
  ext : g.Extends h
  well : h.WellFormed
  affected : ∀ i t, (copies g μ).lookup i = some t → Affected g b i
  entry : ∀ i t, (copies g μ).lookup i = some t →
    g.kind (.node i) ≠ .union ∧ g.Reaches root (.node i)
  copy : ∀ i t, (copies g μ).lookup i = some t →
    ∃ k, t = .node k ∧ g.size ≤ k ∧ k < h.size ∧ h.kind (.node k) = g.kind (.node i)
  inj : ∀ i j t, (copies g μ).lookup i = some t → (copies g μ).lookup j = some t → i = j
  union : ∀ i t, g.kind (.node i) = .union → μ.lookup i = some t →
    h.Has t ∧ h.kind t ≠ .instantiation
  under : ∀ i ∈ S, ((copies g μ).lookup i).isSome
  filled : ∀ i k, (copies g μ).lookup i = some (.node k) → i ∉ S → ∃ types,
    List.Forall₂ (Delivers g b (copies g μ) h) (g.shape i).children types ∧
      h.shape k = (g.shape i).refill types

theorem Affected.kind_ne_generic (hj : Affected g b j) : g.kind (.node j) ≠ .generic := by
  intro hgeneric
  obtain ⟨c, hc⟩ := hj.exists_child
  cases hs : g.shape j with
  | callable role =>
    rw [Graph.kind, hs] at hgeneric
    cases role <;> cases hgeneric
  | generic =>
    rw [hs] at hc
    cases hc
  | _ =>
    rw [Graph.kind, hs] at hgeneric
    cases hgeneric

namespace Underway

theorem start (hb : Basis g b root) : Underway g b root [] [] g where
  ext := .refl g
  well := hb.well
  affected i t hi := by cases hi
  entry i t hi := by cases hi
  copy i t hi := by cases hi
  inj i j t hi := by cases hi
  union i t hi hl := by cases hl
  under i hi := by cases hi
  filled i k hi := by cases hi

theorem img_of_copy (hu : Underway g b root S μ h) (hi : (copies g μ).lookup i = some t) :
    img g b (copies g μ) (.node i) = t := by
  rw [img_of_ne_unresolved (hu.affected i t hi).1, hi, Option.getD_some]

theorem has_img (hu : Underway g b root S μ h) (hb : Basis g b root) (hc : g.Has c) :
    h.Has (img g b (copies g μ) c) := by
  cases c with
  | node i =>
    by_cases hi : g.kind (.node i) = .unresolved
    · rw [img_of_unresolved hi]
      cases hl : b.lookup i with
      | none => exact hu.ext.has hc
      | some a => exact hu.ext.has (hb.args i a hl)
    · cases hl : (copies g μ).lookup i with
      | none =>
        rw [img_of_ne_unresolved hi, hl]
        exact hu.ext.has hc
      | some a =>
        rw [hu.img_of_copy hl]
        obtain ⟨k, rfl, -, hk, -⟩ := hu.copy i a hl
        exact hk
  | _ => trivial

theorem delivers_img (hu : Underway g b root S μ h) (hb : Basis g b root) (hc : g.Has c)
    (hunion : g.kind c ≠ .union) (hknown : Known g b (copies g μ) c) :
    Delivers g b (copies g μ) h c (img g b (copies g μ) c) :=
  ⟨hu.has_img hb hc, fun _ => ⟨hknown, rfl⟩, fun h => absurd h hunion⟩

theorem later (hu : Underway g b root S μ h) (hext : h.Extends h') (hwell : h'.WellFormed) :
    Underway g b root S μ h' where
  ext := hu.ext.trans hext
  well := hwell
  affected := hu.affected
  entry := hu.entry
  copy i t hi := by
    obtain ⟨k, rfl, hgk, hk, hkind⟩ := hu.copy i t hi
    exact ⟨k, rfl, hgk, hk.trans_le hext.size_le, (hext.kindsStay.kind_eq k hk).trans hkind⟩
  inj := hu.inj
  union i t hi hl := by
    obtain ⟨hhas, hkind⟩ := hu.union i t hi hl
    exact ⟨hext.has hhas, hext.kind_eq hhas ▸ hkind⟩
  under := hu.under
  filled i k hi hiS := by
    obtain ⟨types, htypes, hshape⟩ := hu.filled i k hi hiS
    obtain ⟨_, ⟨⟩, -, hk, -⟩ := hu.copy i _ hi
    exact ⟨types, htypes.imp fun _ _ => .mono (fun _ _ => id) hu.affected hext.kindsStay,
      (hext.shape_eq k hk).trans hshape⟩

theorem remember (hu : Underway g b root S μ h) (hj : g.kind (.node j) = .union) (ht : h.Has t)
    (hopen : h.kind t ≠ .instantiation) : Underway g b root S ((j, t) :: μ) h := by
  have hcopies := copies_cons_of_union hj t μ
  refine ⟨hu.ext, hu.well, hcopies ▸ hu.affected, hcopies ▸ hu.entry, hcopies ▸ hu.copy,
    hcopies ▸ hu.inj, fun i a hi ha => ?_, hcopies ▸ hu.under, hcopies ▸ hu.filled⟩
  rcases lookup_cons_cases ha with ⟨-, rfl⟩ | ⟨-, ha⟩
  · exact ⟨ht, hopen⟩
  · exact hu.union i a hi ha

theorem enter (hu : Underway g b root S μ h) (haff : Affected g b j)
    (hroot : g.Reaches root (.node j)) (hunion : g.kind (.node j) ≠ .union)
    (hj : μ.lookup j = none) :
    Underway g b root (j :: S) ((j, .node h.size) :: μ) (h.push ((g.shape j).refill [])) := by
  have hnone : (copies g μ).lookup j = none := (lookup_copies hunion μ).trans hj
  have hkind : (h.push ((g.shape j).refill [])).kind (.node h.size) = g.kind (.node j) := by
    rw [Graph.kind, Graph.shape_push_size, Shape.kind_refill, Graph.kind]
  have hwell : (h.push ((g.shape j).refill [])).WellFormed := by
    refine hu.well.push (Graph.admits_of_kind_ne ?_ ?_ fun x hx => ?_)
    · rwa [Shape.kind_refill]
    · rw [Shape.kind_refill]
      exact haff.kind_ne_generic
    · rcases Shape.children_refill hunion hx with hx | rfl
      · cases hx
      · trivial
  have hlater := hu.later (.push h _) hwell
  have hfresh {m : NodeId} : (copies g μ).lookup m ≠ some (.node h.size) := by
    intro hm
    obtain ⟨_, ⟨⟩, -, hk, -⟩ := hu.copy m _ hm
    exact Nat.lt_irrefl _ hk
  have hkeep (i : NodeId) (t : Ty) (hi : (copies g μ).lookup i = some t) :
      List.lookup i ((j, .node h.size) :: copies g μ) = some t := by
    rw [lookup_cons_of_ne (fun hij => by simp [hij, hnone] at hi), hi]
  have haffected (i : NodeId) (t : Ty)
      (hi : List.lookup i ((j, .node h.size) :: copies g μ) = some t) : Affected g b i := by
    rcases lookup_cons_cases hi with ⟨rfl, -⟩ | ⟨-, hi⟩
    · exact haff
    · exact hu.affected i t hi
  have hunions (i : NodeId) (t : Ty) (hi : g.kind (.node i) = .union)
      (ht : List.lookup i ((j, .node h.size) :: μ) = some t) :
      (h.push ((g.shape j).refill [])).Has t ∧
        (h.push ((g.shape j).refill [])).kind t ≠ .instantiation := by
    rw [lookup_cons_of_ne fun hij : i = j => hunion (hij ▸ hi)] at ht
    exact hlater.union i t hi ht
  refine ⟨hlater.ext, hwell, ?_, ?_, ?_, ?_, hunions, ?_, ?_⟩ <;> rw [copies_cons hunion]
  · exact haffected
  · intro i t hi
    rcases lookup_cons_cases hi with ⟨rfl, -⟩ | ⟨-, hi⟩
    · exact ⟨hunion, hroot⟩
    · exact hu.entry i t hi
  · intro i t hi
    rcases lookup_cons_cases hi with ⟨rfl, rfl⟩ | ⟨-, hi⟩
    · exact ⟨h.size, rfl, hu.ext.size_le, by simp, hkind⟩
    · exact hlater.copy i t hi
  · intro i i' t hi hi'
    rcases lookup_cons_cases hi with ⟨rfl, rfl⟩ | ⟨-, hold⟩
    · rcases lookup_cons_cases hi' with ⟨rfl, -⟩ | ⟨-, hold'⟩
      · rfl
      · exact absurd hold' hfresh
    · rcases lookup_cons_cases hi' with ⟨rfl, rfl⟩ | ⟨-, hold'⟩
      · exact absurd hold hfresh
      · exact hu.inj i i' t hold hold'
  · intro i hi
    rcases List.mem_cons.1 hi with rfl | hi
    · simp
    · obtain ⟨t, ht⟩ := Option.isSome_iff_exists.1 (hu.under i hi)
      simp [hkeep i t ht]
  · intro i k hi hiS
    rw [List.mem_cons, not_or] at hiS
    rcases lookup_cons_cases hi with ⟨rfl, -⟩ | ⟨-, hi⟩
    · exact absurd rfl hiS.1
    · obtain ⟨types, htypes, hshape⟩ := hlater.filled i k hi hiS.2
      exact ⟨types, htypes.imp fun _ _ => .mono hkeep haffected (.refl _), hshape⟩

theorem kindsStay_fill (hu : Underway g b root S μ h)
    (hk : (copies g μ).lookup j = some (.node k)) (types : List Ty) :
    h.KindsStay (h.replace k ((g.shape j).refill types)) := by
  obtain ⟨_, ⟨⟩, -, hlt, hkind⟩ := hu.copy j _ hk
  exact .replace hlt (by rw [Shape.kind_refill, hkind, Graph.kind])

theorem fill {shown types : List Ty} (hu : Underway g b root S μ h) (hj : j ∈ S)
    (hk : (copies g μ).lookup j = some (.node k))
    (htypes : List.Forall₂ (Delivers g b (copies g μ) h) shown types) :
    Underway g b root S μ (h.replace k ((g.shape j).refill types)) := by
  obtain ⟨hunion, -⟩ := hu.entry j _ hk
  obtain ⟨_, ⟨⟩, hgk, hlt, hkind⟩ := hu.copy j _ hk
  have hkinds := hu.kindsStay_fill hk types
  refine ⟨hu.ext.replace hgk _, ?_, hu.affected, hu.entry, fun i t hi => ?_, hu.inj,
    fun i t hi hl => ?_, hu.under, fun i l hi hiS => ?_⟩
  · refine hu.well.replace hlt (by rw [Shape.kind_refill, hkind, Graph.kind])
      (Graph.admits_of_kind_ne ?_ ?_ fun x hx => ?_)
    · rwa [Shape.kind_refill]
    · rw [Shape.kind_refill]
      exact (hu.affected j _ hk).kind_ne_generic
    · rcases Shape.children_refill hunion hx with hx | rfl
      · obtain ⟨n, hn, rfl⟩ := List.getElem_of_mem hx
        exact (htypes.get (htypes.length_eq ▸ hn) hn).has
      · trivial
  · obtain ⟨l, rfl, hgl, hl, hlkind⟩ := hu.copy i t hi
    exact ⟨l, rfl, hgl, by simpa using hl, (hkinds.kind_eq l hl).trans hlkind⟩
  · obtain ⟨hhas, hopen⟩ := hu.union i t hi hl
    exact ⟨hkinds.has hhas, hkinds.kindOf hhas ▸ hopen⟩
  · obtain ⟨types', htypes', hshape⟩ := hu.filled i l hi hiS
    refine ⟨types', htypes'.imp fun _ _ => .mono (fun _ _ => id) hu.affected hkinds, ?_⟩
    rw [Graph.shape_replace_of_ne, hshape]
    rintro rfl
    exact hiS (hu.inj i j _ hi hk ▸ hj)

theorem leave {types : List Ty} (hu : Underway g b root (j :: S) μ h)
    (hk : (copies g μ).lookup j = some (.node k))
    (htypes : List.Forall₂ (Delivers g b (copies g μ) h) (g.shape j).children types)
    (hshape : h.shape k = (g.shape j).refill types) : Underway g b root S μ h where
  ext := hu.ext
  well := hu.well
  affected := hu.affected
  entry := hu.entry
  copy := hu.copy
  inj := hu.inj
  union := hu.union
  under i hi := hu.under i (List.mem_cons_of_mem j hi)
  filled i l hi hiS := by
    by_cases hij : i = j
    · subst hij
      rw [hk] at hi
      cases hi
      exact ⟨types, htypes, hshape⟩
    · exact hu.filled i l hi (by simp [hij, hiS])

theorem instantiation_cases (hu : Underway g b root S μ h) (hc : g.Has c)
    (hy : Delivers g b (copies g μ) h c y) (hopen : h.kind y = .instantiation) :
    (∃ p, c = .node p ∧ b.lookup p = some y) ∨
      g.kind c = .instantiation ∧ (y = c ∨ ∃ q, c = .node q ∧ (copies g μ).lookup q = some y) := by
  have hunion : g.kind c ≠ .union := fun hunion => hy.union hunion hopen
  obtain ⟨-, rfl⟩ := hy.plain hunion
  cases c with
  | node i =>
    by_cases hi : g.kind (.node i) = .unresolved
    · rw [img_of_unresolved hi] at hopen ⊢
      cases hl : b.lookup i with
      | some a => exact .inl ⟨i, rfl, hl⟩
      | none =>
        rw [hl, Option.getD_none, hu.ext.kind_eq hc, hi] at hopen
        cases hopen
    · cases hl : (copies g μ).lookup i with
      | none =>
        rw [img_of_ne_unresolved hi, hl, Option.getD_none] at hopen ⊢
        exact .inr ⟨hu.ext.kind_eq hc ▸ hopen, .inl rfl⟩
      | some a =>
        rw [hu.img_of_copy hl] at hopen ⊢
        obtain ⟨k, rfl, -, -, hkind⟩ := hu.copy i a hl
        exact .inr ⟨hkind ▸ hopen, .inr ⟨i, rfl, hl⟩⟩
  | _ => cases hopen

end Underway

end Substitution

end FlowTyping
