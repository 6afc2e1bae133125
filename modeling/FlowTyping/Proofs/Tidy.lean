import FlowTyping.Proofs.SubstitutionLaws
import FlowTyping.Proofs.Twins

namespace FlowTyping.Graph

variable {g h h' : Graph} {O O' : List NodeId} {t x : Ty} {i k : NodeId} {s : Shape} {u : Members}

structure Clear (h : Graph) (O : List NodeId) (t : Ty) : Prop where
  has : h.Has t
  avoids : ∀ k ∈ O, ¬ h.Reaches t (.node k)

namespace Clear

theorem word (ht : t.node? = none) : h.Clear O t := by
  refine ⟨has_of_not_node ht, fun k _ hk => ?_⟩
  rcases Relation.ReflTransGen.cases_head hk with rfl | ⟨c, hc, -⟩
  · cases ht
  · obtain ⟨i, rfl, -⟩ := hc.exists_node
    cases ht

theorem of_reaches (hh : h.Closed) (ht : h.Clear O t) (hx : h.Reaches t x) : h.Clear O x :=
  ⟨hx.has hh ht.has, fun k hk hxk => ht.avoids k hk (hx.trans hxk)⟩

theorem of_subset (hO : O' ⊆ O) (ht : h.Clear O t) : h.Clear O' t :=
  ⟨ht.has, fun k hk => ht.avoids k (hO hk)⟩

theorem congr (hagree : h.AgreesAt h' t) (hhas : h'.Has t) (ht : h.Clear O t) : h'.Clear O t :=
  ⟨hhas, fun k hk hx => ht.avoids k hk (hagree.reaches_iff.1 hx)⟩

theorem mono (hh : h.Closed) (hext : h.Extends h') (ht : h.Clear O t) : h'.Clear O t :=
  ht.congr (hext.agreesAt hh ht.has) (hext.has ht.has)

theorem push (hh : h.Closed) (s : Shape) (ht : h.Clear O t) : (h.push s).Clear (h.size :: O) t := by
  obtain ⟨hhas, havoids⟩ := ht.mono hh (.push h s)
  refine ⟨hhas, fun k hk hx => ?_⟩
  rcases List.mem_cons.1 hk with rfl | hk
  · have hagree : h.AgreesAt (h.push s) t := (Extends.push h s).agreesAt hh ht.has
    exact absurd ((hagree.reaches_iff.1 hx).has hh ht.has) (Nat.lt_irrefl _)
  · exact havoids k hk hx

theorem agreesAt_replace (hk : k ∈ O) (s : Shape) (ht : h.Clear O t) :
    h.AgreesAt (h.replace k s) t := by
  intro i hi
  refine shape_replace_of_ne s fun hik => ht.avoids k hk ?_
  exact hik ▸ hi

theorem replace (hk : k ∈ O) (s : Shape) (ht : h.Clear O t) : (h.replace k s).Clear O t :=
  ht.congr (ht.agreesAt_replace hk s) (has_replace.2 ht.has)

theorem not_mem (ht : h.Clear O (.node i)) : i ∉ O := fun hi => ht.avoids i hi .refl

end Clear

theorem distinct_of_agreesAt
    (hu : ∀ i u, h'.shape i = .union u → h.shape i = .union u ∧ h.AgreesAt h' (.node i))
    (hd : h.DistinctShapes) : h'.DistinctShapes := by
  intro i u hi
  obtain ⟨hi, hagree⟩ := hu i u hi
  have hmember (x : NodeId) (hx : x ∈ u.shapes) : h.AgreesAt h' (.node x) :=
    hagree.of_reaches (.single (child_of_union hi (Members.node_mem_toList.2 (.inl hx))))
  refine (hd i u hi).imp_of_mem fun {x y} hx hy hxy => ?_
  rwa [(hmember y hy).equal_eq (hmember x hx)]

theorem covers_of_agreesAt
    (hu : ∀ i u, h'.shape i = .union u → h.shape i = .union u ∧ h.AgreesAt h' (.node i))
    (hc : ∀ i, h.Covers i) (i : NodeId) : h'.Covers i := by
  intro j u v hi hj hij y hy
  obtain ⟨hi, hagree⟩ := hu i u hi
  obtain ⟨hj, hagree'⟩ := hu j v hj
  obtain ⟨x, hx, hxy⟩ := hc i j u v hi hj (hagree.symm.similar hagree'.symm hij) y hy
  have hx' := child_of_union hi (Members.node_mem_toList.2 (.inl hx))
  have hy' := child_of_union hj (Members.node_mem_toList.2 (.inl hy))
  exact ⟨x, hx, (hagree.of_reaches (.single hx')).similar (hagree'.of_reaches (.single hy')) hxy⟩

def OriginIn (g : Graph) (s : Shape) : Prop :=
  ∀ o args, s = .instantiation (some o) args → o < g.size

/-- A graph that has grown from `g`, with the nodes `O` still open. -/
structure Tidy (g : Graph) (O : List NodeId) (h : Graph) : Prop where
  base : g.Extends h
  closed : h.Closed
  origins : ∀ i, g.OriginIn (h.shape i)
  pending : ∀ i < h.size, h.kind (.node i) = .unresolved → i < g.size
  sorted : ∀ i u, h.shape i = .union u → u.Sorted h
  many : ∀ i u, g.size ≤ i → h.shape i = .union u → 2 ≤ u.toList.length
  distinct : h.DistinctShapes
  covers : ∀ i, h.Covers i
  clear : ∀ i u, h.shape i = .union u → h.Clear O (.node i)
  opens : ∀ k ∈ O, g.size ≤ k ∧ k < h.size

namespace Tidy

theorem symm (hh : Tidy g O h) {a b : Ty} (hab : h.Similar a b) : h.Similar b a :=
  hab.symm_of_covers fun i _ => hh.covers i

theorem of_subset (hO : O' ⊆ O) (hh : Tidy g O h) : Tidy g O' h :=
  { hh with
    clear := fun i u hi => (hh.clear i u hi).of_subset hO
    opens := fun k hk => hh.opens k (hO hk) }

theorem clear_base (hg : g.Closed) (hh : Tidy g O h) (ht : g.Has t) : h.Clear O t := by
  have hagree := hh.base.agreesAt hg ht
  refine ⟨hh.base.has ht, fun k hk hx => ?_⟩
  exact absurd ((hagree.reaches_iff.1 hx).has hg ht) (Nat.not_lt.2 (hh.opens k hk).1)

theorem absorbable (hh : Tidy g O h) (ht : h.kind t ≠ .instantiation) : h.Absorbable t := by
  have hflat : h.Flat := fun i u hi x hx => Kind.ne_of_isMember ((hh.sorted i u hi).isMember hx)
  exact hflat.absorbable ht

end Tidy

theorem lt_size_of_push {j : NodeId} (hj : j < (h.push s).size) (hne : j ≠ h.size) : j < h.size := by
  rw [size_push] at hj
  exact Nat.lt_of_le_of_ne (Nat.le_of_lt_succ hj) hne

theorem shape_push_union {j : NodeId} (hj : (h.push s).shape j = .union u) :
    h.shape j = .union u ∧ j < h.size ∨ j = h.size ∧ s = .union u := by
  by_cases hne : j = h.size
  · exact .inr ⟨hne, by rwa [hne, shape_push_size] at hj⟩
  · have hlt := lt_size_of_push (lt_size_of_shape hj (by simp)) hne
    exact .inl ⟨shape_push_of_lt s hlt ▸ hj, hlt⟩

structure Fresh (h : Graph) (O : List NodeId) (u : Members) : Prop where
  sorted : u.Sorted h
  clear : ∀ x ∈ u.toList, h.Clear O x
  distinct : h.Unlike u.shapes

namespace Tidy

theorem members_has (hh : Tidy g O h) (hi : h.shape i = .union u) (hx : x ∈ u.toList) : h.Has x :=
  hh.closed _ _ (child_of_union hi hx)

theorem fresh (hh : Tidy g O h) (hi : h.shape i = .union u) : Fresh h O u := by
  refine ⟨hh.sorted i u hi, fun x hx => ?_, hh.distinct.unlike hi⟩
  exact (hh.clear i u hi).of_reaches hh.closed (.single (child_of_union hi hx))

theorem covers_push_union (hh : Tidy g O h) (hu : Fresh h O u)
    (hd : (h.push (.union u)).DistinctShapes) (i : NodeId) : (h.push (.union u)).Covers i := by
  have hext : h.Extends (h.push (.union u)) := .push h _
  refine (matchesOnce_of_symm hd fun v hi x hx b hxb => ?_).covers hd
  have hfresh : Fresh h O v := by
    rcases shape_push_union hi with ⟨hi, -⟩ | ⟨-, ⟨⟩⟩
    · exact hh.fresh hi
    · exact hu
  have hhas : h.Has (.node x) := (hfresh.clear _ (Members.node_mem_toList.2 (.inl hx))).has
  cases hxb.alike with
  | same => exact .refl _ _
  | @fits _ j hfits =>
    -- a value shape is like no union, so that the other node was there before too
    have hne : j ≠ h.size := by
      rintro rfl
      rw [shape_push_size] at hfits
      have hvalue := hfresh.sorted.shapes x hx
      rw [← hext.kind_eq hhas, kind, hfits.kind_eq] at hvalue
      cases hvalue
    have hj : h.Has (.node j) := lt_size_of_push (lt_size_of_fits hfits).2 hne
    have hx := hext.agreesAt hh.closed hhas
    have hj := hext.agreesAt hh.closed hj
    exact hj.similar hx (hh.symm (hx.symm.similar hj.symm hxb))

theorem push (hh : Tidy g O h) (hres : s.kind ≠ .unresolved) (hs : ∀ t ∈ s.children, h.Has t)
    (horigin : g.OriginIn s) (hu : ∀ u, s = .union u → Fresh h O u)
    (hmany : ∀ u, s = .union u → 2 ≤ u.toList.length) : Tidy g O (h.push s) := by
  have hext : h.Extends (h.push s) := .push h s
  have hagree {x : Ty} (hx : h.Has x) : h.AgreesAt (h.push s) x := hext.agreesAt hh.closed hx
  have hdistinct : (h.push s).DistinctShapes := by
    intro j v hj
    have hfresh : Fresh h O v := by
      rcases shape_push_union hj with ⟨hj, -⟩ | ⟨-, hs⟩
      · exact hh.fresh hj
      · exact hu v hs
    refine hfresh.distinct.imp_of_mem fun {x y} hx hy hxy => ?_
    have hx := hagree (hfresh.clear _ (Members.node_mem_toList.2 (.inl hx))).has
    have hy := hagree (hfresh.clear _ (Members.node_mem_toList.2 (.inl hy))).has
    rwa [hy.equal_eq hx, equal_eq_false_iff]
  refine ⟨hh.base.trans hext, hh.closed.push hs, fun j => ?_, fun j hj hkind => ?_,
    fun j v hj => ?_, fun j v hle hj => ?_, hdistinct, fun j => ?_, fun j v hj => ?_,
    fun k hk => ?_⟩
  · rcases Nat.lt_trichotomy j h.size with hj | rfl | hj
    · rw [shape_push_of_lt s hj]
      exact hh.origins j
    · rwa [shape_push_size]
    · rw [shape_of_size_le (by rw [size_push]; exact hj)]
      intro o args ho
      cases ho
  · by_cases hne : j = h.size
    · rw [kind, hne, shape_push_size] at hkind
      exact absurd hkind hres
    · have hlt : h.Has (.node j) := lt_size_of_push hj hne
      exact hh.pending j hlt (hext.kind_eq hlt ▸ hkind)
  · rcases shape_push_union hj with ⟨hj, -⟩ | ⟨-, hs⟩
    · exact (hh.sorted j v hj).of_kind_eq fun i hi => hext.kind_eq (hh.members_has hj hi)
    · exact (hu v hs).sorted.of_kind_eq fun i hi => hext.kind_eq ((hu v hs).clear _ hi).has
  · rcases shape_push_union hj with ⟨hj, -⟩ | ⟨-, hs⟩
    · exact hh.many j v hle hj
    · exact hmany v hs
  · cases s with
    | union u => exact hh.covers_push_union (hu u rfl) hdistinct j
    | _ =>
      refine covers_of_agreesAt (fun j v hj => ?_) hh.covers j
      rcases shape_push_union hj with ⟨hj, hlt⟩ | ⟨-, hs⟩
      · exact ⟨hj, hagree hlt⟩
      · cases hs
  · rcases shape_push_union hj with ⟨hj, -⟩ | ⟨rfl, rfl⟩
    · exact (hh.clear j v hj).mono hh.closed hext
    · refine ⟨by simp [Has], fun k hk hx => ?_⟩
      rcases Relation.ReflTransGen.cases_head hx with hx | ⟨c, hc, hck⟩
      · cases hx
        exact Nat.lt_irrefl _ (hh.opens _ hk).2
      · rw [child_node, shape_push_size] at hc
        exact (((hu v rfl).clear c hc).mono hh.closed hext).avoids k hk hck
  · obtain ⟨hle, hlt⟩ := hh.opens k hk
    exact ⟨hle, hlt.trans_le hext.size_le⟩

theorem push_union (hh : Tidy g O h) (hu : Fresh h O u) (hmany : 2 ≤ u.toList.length) :
    Tidy g O (h.push (.union u)) := by
  refine hh.push (by simp [Shape.kind]) (fun x hx => (hu.clear x hx).has) (fun o args ho => ?_)
    (fun v hv => ?_) fun v hv => ?_
  · cases ho
  · cases hv
    exact hu
  · cases hv
    exact hmany

theorem push_open (hh : Tidy g O h) (hunion : s.kind ≠ .union) (hres : s.kind ≠ .unresolved)
    (hs : ∀ t ∈ s.children, h.Has t) (horigin : g.OriginIn s) :
    Tidy g (h.size :: O) (h.push s) := by
  have hnone (v : Members) (hv : s = .union v) : False := hunion (hv ▸ rfl)
  have hpush := hh.push hres hs horigin (fun v hv => (hnone v hv).elim) fun v hv =>
    (hnone v hv).elim
  refine { hpush with clear := fun j v hj => ?_, opens := fun k hk => ?_ }
  · rcases shape_push_union hj with ⟨hj, -⟩ | ⟨-, hv⟩
    · exact (hh.clear j v hj).push hh.closed s
    · exact (hnone v hv).elim
  · rcases List.mem_cons.1 hk with rfl | hk
    · exact ⟨hh.base.size_le, by simp⟩
    · exact hpush.opens k hk

theorem replace (hh : Tidy g O h) (hk : k ∈ O) (hkind : s.kind = h.kind (.node k))
    (hs : ∀ t ∈ s.children, h.Has t) (horigin : g.OriginIn s) : Tidy g O (h.replace k s) := by
  obtain ⟨hle, hlt⟩ := hh.opens k hk
  have hkinds := kind_replace hlt hkind
  have hshape {j : NodeId} {v : Members} (hj : (h.replace k s).shape j = .union v) :
      h.shape j = .union v := by
    by_cases hjk : j = k
    · -- an open node is no union
      subst hjk
      have hunion : h.kind (.node j) = .union := by
        rw [← hkind, ← shape_replace_self s hlt, hj]
        rfl
      obtain ⟨w, hw⟩ := Shape.exists_union_of_kind hunion
      exact absurd hk (hh.clear j w hw).not_mem
    · rwa [shape_replace_of_ne s hjk] at hj
  have hsame (j : NodeId) (v : Members) (hj : (h.replace k s).shape j = .union v) :
      h.shape j = .union v ∧ h.AgreesAt (h.replace k s) (.node j) :=
    ⟨hshape hj, (hh.clear j v (hshape hj)).agreesAt_replace hk s⟩
  refine ⟨hh.base.replace hle s, hh.closed.replace hlt hs, fun j => ?_, fun j hj hres => ?_,
    fun j v hj => ?_, fun j v hle hj => hh.many j v hle (hshape hj),
    distinct_of_agreesAt hsame hh.distinct, covers_of_agreesAt hsame hh.covers,
    fun j v hj => (hh.clear j v (hshape hj)).replace hk s, fun j hj => ?_⟩
  · by_cases hjk : j = k
    · rwa [hjk, shape_replace_self s hlt]
    · rw [shape_replace_of_ne s hjk]
      exact hh.origins j
  · rw [size_replace] at hj
    exact hh.pending j hj (hkinds _ ▸ hres)
  · exact (hh.sorted j v (hshape hj)).of_kind_eq fun i _ => hkinds _
  · rw [size_replace]
    exact hh.opens j hj

end Tidy

/-- Graphs in which no union lies on a cycle and the shapes of each union are pairwise unequal. All
references lead somewhere, and unions are made by adding. -/
structure Regular (g : Graph) : Prop where
  wellFormed : g.WellFormed
  origins : ∀ i, g.OriginIn (g.shape i)
  sorted : ∀ i u, g.shape i = .union u → u.Sorted g
  acyclic : g.UnionsAcyclic
  distinct : g.DistinctShapes

def Orderly (g : Graph) : Shape → Prop
  | .union u => (∀ i ∈ u.shapes, (g.kind (.node i)).isValueShape = true) ∧
      ∀ i ∈ u.unresolved, g.kind (.node i) = .unresolved
  | .instantiation (some o) _ => o < g.size
  | _ => True

instance (g : Graph) : DecidablePred g.Orderly
  | .union _ => inferInstanceAs (Decidable (_ ∧ _))
  | .instantiation (some o) _ => inferInstanceAs (Decidable (o < g.size))
  | .instantiation none _ | .record _ | .callable _ _ _ | .interface _ _ | .intersection _
  | .nameSpace _ _ | .generic _ _ _ | .intrinsic _ | .unresolved _ => .isTrue trivial

theorem Regular.of_shapes (hshapes : ∀ i < g.size, g.Admits (g.shape i) ∧ g.Orderly (g.shape i))
    (hacyclic : g.UnionsAcyclic) (hdistinct : g.DistinctShapes) : g.Regular where
  wellFormed := wellFormed_of_admits fun i hi => (hshapes i hi).1
  origins i o args hi := by
    have horderly := (hshapes i (lt_size_of_shape hi (by simp))).2
    rwa [hi] at horderly
  sorted i u hi := by
    have horderly := (hshapes i (lt_size_of_shape hi (by simp))).2
    rw [hi] at horderly
    exact ⟨horderly.1, horderly.2⟩
  acyclic := hacyclic
  distinct := hdistinct

theorem Regular.tidy (hg : g.Regular) : Tidy g [] g where
  base := .refl g
  closed := hg.wellFormed.closed
  origins := hg.origins
  pending _ hi _ := hi
  sorted := hg.sorted
  many _ _ hle hi := absurd (lt_size_of_shape hi (by simp)) (Nat.not_lt.2 hle)
  distinct := hg.distinct
  covers i := (hg.acyclic.matchesOnce hg.distinct i).covers hg.distinct
  clear i u hi := ⟨lt_size_of_shape hi (by simp), by simp⟩
  opens := by simp

end FlowTyping.Graph
