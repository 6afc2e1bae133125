import FlowTyping.Proofs.Placeholders
import FlowTyping.Proofs.PlainFolds
import FlowTyping.Proofs.UnionReads

namespace FlowTyping

open FlowTyping.Graph (Tidy Paired Meets)

variable {g h h' h₁ h₂ : Graph} {W : World} {r : Resolvers} {read : Ty → TypeM Ty}
  {key : PropertyKey} {x x₁ x₂ y z z₁ z₂ t : Ty} {i : NodeId} {u : Members}
  {xs ts ms ys rs : List Ty} {zss : List (List Ty)} {f k : Fold} {st s s₁ : Store}

namespace Graph

theorem Extends.plainAt_iff (hext : h.Extends h') (hh : h.Closed) (ht : h.Has t) :
    h'.PlainAt t ↔ h.PlainAt t := by
  rw [PlainAt, PlainAt, (hext.agreesAt hh ht).parts_eq]
  refine forall₂_congr fun p hp => ?_
  rw [hext.kind_eq ((reaches_of_mem_parts hp).has hh ht)]

theorem PlainAt.kind_ne (ht : h.PlainAt t) : h.kind t ≠ .instantiation := by
  intro hopen
  have hunion : h.kind t ≠ .union := by simp [hopen]
  have hplain := ht t (by simp [parts_of_kind_ne hunion])
  exact (Kind.ne_of_isPlain hplain).1 hopen

theorem PlainAt.escalation (ht : h.PlainAt t) : ∀ p ∈ h.parts t, Fold.escalation h p = none :=
  fun p hp => Fold.escalation_of_isPlain (ht p hp)

theorem plainAt_word (ht : t.node? = none) (hplain : h.PlainAt t) : h'.PlainAt t := by
  cases t with
  | node i => cases ht
  | _ => simpa [PlainAt, parts, kind] using hplain

theorem Paired.exists_part (hp : Paired g [] W h₁ h₂) (hz : W.Pairs z₁ z₂) (hy : y ∈ h₂.parts z₂) :
    ∃ x ∈ h₁.parts z₁, W.Pairs x y := by
  have hkind := hp.twins.kind_eq hz
  by_cases hunion : h₁.kind z₁ = .union
  · obtain ⟨i, u, rfl, hi⟩ := exists_union_of_kind hunion
    obtain ⟨j, v, rfl, hj⟩ := exists_union_of_kind (hkind.trans hunion)
    simp only [parts, hi, hj] at hy ⊢
    have huv := hp.twins.members (World.pairs_node.1 hz) hi hj
    obtain ⟨x, hx, hyx⟩ := huv.flip.exists_pairs
      (fun k hk => hp.flip.pending (hp.right.fresh hj) hk) hy
    exact ⟨x, hx, hyx.flip⟩
  · rw [parts_of_kind_ne (hkind ▸ hunion), List.mem_singleton] at hy
    exact ⟨z₁, by simp [parts_of_kind_ne hunion], hy ▸ hz⟩

theorem Paired.plainAt (hp : Paired g [] W h₁ h₂) (hz : W.Pairs z₁ z₂) (hplain : h₁.PlainAt z₁) :
    h₂.PlainAt z₂ := by
  intro y hy
  obtain ⟨x, hx, hxy⟩ := hp.exists_part hz hy
  rw [hp.twins.kind_eq hxy]
  exact hplain x hx

theorem Tidy.many_of_base (hh : Tidy g [] h)
    (hmany : ∀ i u, g.shape i = .union u → 2 ≤ u.toList.length) (i : NodeId) (u : Members)
    (hi : h.shape i = .union u) : 2 ≤ u.toList.length := by
  rcases Nat.lt_or_ge i g.size with hlt | hge
  · exact hmany i u (hh.base.shape_eq i hlt ▸ hi)
  · exact hh.many i u hge hi

theorem exists_mem_parts (hmany : ∀ i u, g.shape i = .union u → 2 ≤ u.toList.length) (t : Ty) :
    ∃ p, p ∈ g.parts t := by
  by_cases hunion : g.kind t = .union
  · obtain ⟨i, u, rfl, hi⟩ := exists_union_of_kind hunion
    have hlen := hmany i u hi
    simp only [parts, hi]
    exact List.exists_mem_of_length_pos (by omega)
  · exact ⟨t, by simp [parts_of_kind_ne hunion]⟩

theorem quiet_of_plainAt (hh : Tidy g [] h) (ht : h.PlainAt t) : h.Quiet t := by
  have hnever : Fold.never.Holds .never [] := ⟨rfl, rfl, rfl⟩
  obtain ⟨k, _, hk, -, hholds⟩ := hnever.foldlM fun p hp =>
    ⟨(hh.absorbable ht.kind_ne p hp).1, (hh.absorbable ht.kind_ne p hp).2, ht.escalation p hp⟩
  exact ⟨k, Fold.absorb_eq_foldlM.trans hk, hholds.goesOn⟩

/-- The types `zs` fold to the type `y`. -/
structure FoldsTo (h : Graph) (zs : List Ty) (y : Ty) : Prop where
  has : ∀ z ∈ zs, h.Has z
  absorbable : ∀ z ∈ zs, h.Absorbable z
  fold : ∃ k, zs.foldlM (Fold.absorb h) .never = .ok k ∧ k.Reached h ∧ k.EndsIn h y

theorem foldlM_absorb_extends (hh : h.Closed) (hext : h.Extends h') (hhas : ∀ y ∈ ys, h.Has y)
    (hys : ∀ y ∈ ys, h.Absorbable y) :
    ys.foldlM (Fold.absorb h') .never = ys.foldlM (Fold.absorb h) .never :=
  Fold.foldlM_absorb_congr hys (fun y hy => hext.agreesAt hh (hhas y hy))
    (by simp [Fold.members, Members.node_mem_toList])

namespace FoldsTo

theorem has_node (hh : h.Closed) (hy : FoldsTo h ys y)
    (hk : ys.foldlM (Fold.absorb h) .never = .ok k) {j : NodeId}
    (hj : .node j ∈ k.members.toList) : h.Has (.node j) := by
  obtain ⟨k', hk', hnodes⟩ := Fold.foldlM_absorb_ok (f := .never) hy.absorbable
  obtain rfl : k = k' := by simpa using hk.symm.trans hk'
  rcases hnodes j hj with hj | ⟨z, hz, hj⟩
  · simp [Fold.members, Members.node_mem_toList] at hj
  · exact (reaches_of_mem_parts hj).has hh (hy.has z hz)

theorem mono (hh : h.Closed) (hext : h.Extends h') (hy : FoldsTo h ys y) : FoldsTo h' ys y := by
  obtain ⟨k, hk, hreached, hends⟩ := hy.fold
  have hagree (z : Ty) (hz : z ∈ ys) : h.AgreesAt h' z := hext.agreesAt hh (hy.has z hz)
  refine ⟨fun z hz => hext.has (hy.has z hz), fun z hz => (hagree z hz).absorbable
    (hy.absorbable z hz), k, ?_, fun u hu => ?_, hends.imp fun i u hi => ?_⟩
  · rw [foldlM_absorb_extends hh hext hy.has hy.absorbable, hk]
  · subst hu
    obtain ⟨hsorted, hne⟩ := hreached u rfl
    exact ⟨hsorted.of_kind_eq fun i hi => hext.kind_eq (hy.has_node hh hk hi), hne⟩
  · rw [hext.shape_eq i (lt_size_of_shape hi (by simp)), hi]

theorem has_result (hh : h.Closed) (hy : FoldsTo h ys y) : h.Has y := by
  obtain ⟨k, hk, -, hends⟩ := hy.fold
  rcases hends.cases with hnode | hmem | ⟨i, rfl, hi⟩
  · exact has_of_not_node hnode
  · cases y with
    | node j => exact hy.has_node hh hk hmem
    | _ => trivial
  · exact lt_size_of_shape hi (by simp)

theorem kind_ne (hy : FoldsTo h ys y) : h.kind y ≠ .instantiation := by
  obtain ⟨k, -, hreached, hends⟩ := hy.fold
  exact hends.kind_ne hreached

theorem foldlM_flatten (hzss : List.Forall₂ (FoldsTo h) zss rs) (f : Fold) :
    rs.foldlM (Fold.absorb h) f = zss.flatten.foldlM (Fold.absorb h) f := by
  induction hzss generalizing f with
  | nil => rfl
  | @cons zs y zss rs hy _ ih =>
    obtain ⟨k, hk, hreached, hends⟩ := hy.fold
    have hsame : [y].foldlM (Fold.absorb h) f = (zs ++ []).foldlM (Fold.absorb h) f :=
      Fold.foldlM_absorb_endsIn hy.absorbable hk hreached hends f
    rw [← List.singleton_append, List.foldlM_append, hsame, List.append_nil, List.flatten_cons,
      List.foldlM_append]
    exact bind_congr ih

theorem flatten (hzss : List.Forall₂ (FoldsTo h) zss rs)
    (hk : rs.foldlM (Fold.absorb h) .never = .ok k) (hreached : k.Reached h) (hy : k.EndsIn h y) :
    FoldsTo h zss.flatten y where
  has z hz := by
    obtain ⟨zs, hzs, hz⟩ := List.mem_flatten.1 hz
    obtain ⟨x, -, hx⟩ := exists_of_forall₂ hzss hzs
    exact hx.has z hz
  absorbable z hz := by
    obtain ⟨zs, hzs, hz⟩ := List.mem_flatten.1 hz
    obtain ⟨x, -, hx⟩ := exists_of_forall₂ hzss hzs
    exact hx.absorbable z hz
  fold := ⟨k, foldlM_flatten hzss .never ▸ hk, hreached, hy⟩

theorem self (hh : Tidy g [] h) (hmany : ∀ i u, h.shape i = .union u → 2 ≤ u.toList.length)
    (hy : h.Has y) (hplain : h.PlainAt y) : FoldsTo h [y] y := by
  obtain ⟨k, hk, hends⟩ := Fold.exists_endsIn hh hmany hplain.kind_ne hplain.escalation
  have habsorbable := hh.absorbable hplain.kind_ne
  have hfold : (h.parts y).foldlM (Fold.absorbMember h) .never = .ok k :=
    Fold.absorb_eq_foldlM ▸ hk
  refine ⟨by simpa using hy, by simpa using habsorbable, k, ?_,
    (Fold.reached_never h).foldlM habsorbable hfold, hends⟩
  simpa using hk

end FoldsTo

end Graph

theorem Fold.exists_sound (hh : Tidy g [] h)
    (hts : ∀ t ∈ ts, h.Has t ∧ h.kind t ≠ .instantiation) (hf : f.Sound h []) :
    ∃ k, ts.foldlM (Fold.absorb h) f = .ok k ∧ k.Sound h [] := by
  induction ts generalizing f with
  | nil => exact ⟨f, rfl, hf⟩
  | cons t ts ih =>
    obtain ⟨hhas, hopen⟩ := hts t (by simp)
    obtain ⟨k₁, -, hk₁, -, -, hfresh, -⟩ :=
      (Meets.diagonal (g := g) hhas).takenAlike hh.diagonal hopen
    obtain ⟨habsorb, hsound⟩ := hf.absorb hh hopen hk₁ hfresh
    obtain ⟨k, hk, hk'⟩ := ih (fun t ht => hts t (by simp [ht])) hsound
    refine ⟨k, ?_, hk'⟩
    rw [List.foldlM_cons, habsorb]
    exact hk

namespace Resolvers

theorem Answered.later {h'' : Graph} (hext : h'.Extends h'') (hx : Answered g r read h h' x z) :
    Answered g r read h h'' x z := by
  obtain ⟨s, s', hs, hrun, hs', hquiet, hhas, hopen, hlater⟩ := hx
  exact ⟨s, s', hs, hrun, hs', hquiet, hhas, hopen, hlater.trans hext⟩

theorem Answered.has (hx : Answered g r read h h' x z) : h'.Has z := by
  obtain ⟨s, s', -, -, -, -, hhas, -, hlater⟩ := hx
  exact hlater.has hhas

def Readable (g : Graph) (r : Resolvers) (read : Ty → TypeM Ty) (x : Ty) : Prop :=
  g.Has x ∧ ∃ h z, Answered g r read g h x z ∧ h.PlainAt z

def Direct (g : Graph) (read : Ty → TypeM Ty) (x : Ty) : Prop :=
  ∃ s t s', From g g s ∧ (read x).Returns s t s' ∧ s'.graph.PlainAt t

theorem Readable.plainAt (hg : g.Regular) (hr : r.instance? = none)
    (hread : Graph.Lockstep g read) (hx : Readable g r read x)
    (hz : Answered g r read g h x z) : h.PlainAt z := by
  obtain ⟨hhas, h₀, z₀, hz₀, hplain⟩ := hx
  have hp := Paired.start hg hg.tidy hg.tidy
  obtain ⟨W, k₁, k₂, hp', hpairs, hk₁, hk₂⟩ :=
    hz₀.paired hg hr hread hp (hp.meets_base hg.wellFormed.closed hhas) hz
  obtain ⟨hhas₁, hhas₂⟩ := hp'.twins.has hpairs
  rw [hk₁.plainAt_iff hp'.left.closed hhas₁] at hplain
  rw [hk₂.plainAt_iff hp'.right.closed hhas₂]
  exact hp'.plainAt hpairs hplain

theorem Readable.not_lostOn {o : Except Fault Fold} (hg : g.Regular) (hr : r.instance? = none)
    (hread : Graph.Lockstep g read) (hx : Readable g r read x) (hh : Tidy g [] h) :
    ¬ LostOn g r read h x o := by
  obtain ⟨hhas, h₀, z₀, hz₀, -⟩ := hx
  have hp := Paired.start hg hg.tidy hh
  exact hz₀.not_lostOn hg hr hread hp (hp.meets_base hg.wellFormed.closed hhas)

theorem Direct.returns (hg : g.Regular) (hread : Graph.Lockstep g read) (hhas : g.Has x)
    (hx : Direct g read x) (hst : Tidy g [] st.graph) :
    ∃ t s, (read x).Returns st t s ∧ From g st.graph s ∧ s.graph.Has t ∧ s.graph.PlainAt t := by
  obtain ⟨s₀, t₀, s₀', hs₀, hrun₀, hplain⟩ := hx
  have hp := Paired.start hg hs₀.tidy hst
  have hmeets := hp.meets_base hg.wellFormed.closed hhas
  cases hread [] _ _ _ _ _ hp hmeets with
  | unending hm₁ => exact absurd hm₁ hrun₀.ne_error
  | @returns t₁ s₁ t₂ s₂ hm₁ hm₂ hends =>
    obtain ⟨rfl, rfl⟩ := hrun₀.unique hm₁
    obtain ⟨W, hgrown, hp', ht⟩ := hends
    exact ⟨t₂, s₂, hm₂, ⟨hgrown.right, hp'.right⟩, ht.right.has, hp'.plainAt ht.pairs hplain⟩

theorem answer_of_plainAt (hlimit : 0 < r.limit) (hrun : (read x).Returns st t s)
    (ht : s.graph.PlainAt t) : (r.answer read x).Returns st t s :=
  hrun.bind (Fold.settle_of_pos hlimit ht.kind_ne)

theorem answered_of_plainAt (hlimit : 0 < r.limit) (hst : Tidy g [] st.graph)
    (hrun : (read x).Returns st t s) (hs : From g st.graph s) (hhas : s.graph.Has t)
    (ht : s.graph.PlainAt t) : Answered g r read st.graph s.graph x t :=
  ⟨st, s, ⟨.refl _, hst⟩, answer_of_plainAt hlimit hrun ht, hs, Graph.quiet_of_plainAt hs.tidy ht,
    hhas, ht.kind_ne, .refl _⟩

structure ReadsOff (g : Graph) (r : Resolvers) (key : PropertyKey) (st : Store) (x y : Ty)
    (s : Store) (zs : List Ty) : Prop where
  run : (r.builtinProperty x key).Returns st y s
  start : From g st.graph s
  answers : List.Forall₂ (Answered g r (r.memberProperty · key) st.graph s.graph)
    (st.graph.parts x) zs
  folds : s.graph.FoldsTo zs y

structure Receives (g : Graph) (r : Resolvers) (read : Ty → TypeM Ty) (h : Graph) (x : Ty) : Prop
    where
  has : h.Has x
  opened : h.kind x ≠ .instantiation
  parts : ∀ p ∈ h.parts x, Readable g r read p
  direct : h.kind x ≠ .union → Direct g read x

theorem Receives.readsOff (hg : g.Regular) (hr : r.instance? = none) (hlimit : 0 < r.limit)
    (hmany : ∀ i u, g.shape i = .union u → 2 ≤ u.toList.length) (hst : Tidy g [] st.graph)
    (hx : Receives g r (r.memberProperty · key) st.graph x) :
    ∃ y s zs, ReadsOff g r key st x y s zs := by
  have hread := memberProperty_lockstep hg hr key
  have hsettle : (Fold.settle r.unwrap r.limit x).Returns st x st :=
    Fold.settle_of_pos hlimit hx.opened
  by_cases hunion : st.graph.kind x = .union
  · obtain ⟨i, u, rfl, hi⟩ := Graph.exists_union_of_kind hunion
    have hparts : st.graph.parts (.node i) = u.toList := by simp only [Graph.parts, hi]
    rcases uniteReads_cases hg hr hread hst fun x => hst.members_has hi with
      ⟨k, s, y, s', hk, hrun, hends, hext, hs'⟩ | ⟨o, s', -, -, -, p, hp, hlost⟩
    · obtain ⟨hreached, zs, hzs, hfold, hquiet⟩ := hk.later hext
      have hhas (z : Ty) (hz : z ∈ zs) : s'.graph.Has z := by
        obtain ⟨p, -, hp⟩ := exists_of_forall₂ hzs.flip hz
        exact hext.has (Answered.has hp)
      refine ⟨y, s', zs, ?_, ⟨hk.start.ext.trans hext, hs'⟩, ?_, hhas, fun z hz p hp => ?_, k, ?_,
        hreached, hends⟩
      · exact (run_builtinProperty_union hsettle hi).trans hrun
      · rw [hparts]
        exact hzs.imp fun _ _ h => h.later hext
      · obtain ⟨hunion, hopen, -⟩ := hquiet p (List.mem_flatMap.2 ⟨z, hz, hp⟩)
        exact ⟨hunion, hopen⟩
      · rw [Fold.foldlM_absorb_eq, hfold]
    · exact absurd hlost ((hx.parts p (hparts ▸ hp)).not_lostOn hg hr hread hst)
  · have hparts := Graph.parts_of_kind_ne hunion
    have hhas := (hx.parts x (by simp [hparts])).1
    obtain ⟨t, s, hrun, hs, ht, hplain⟩ := (hx.direct hunion).returns hg hread hhas hst
    refine ⟨t, s, [t], (run_builtinProperty hsettle hunion).trans hrun, hs, ?_, ?_⟩
    · rw [hparts]
      exact .cons (answered_of_plainAt hlimit hst hrun hs ht hplain) .nil
    · exact .self hs.tidy (hs.tidy.many_of_base hmany) ht hplain

theorem Gathered.plainAt (hk : Gathered g r read h xs .never k s) (hext : s.graph.Extends h')
    (hends : k.EndsIn h' t) (ht : h'.PlainAt t) (hx : x ∈ xs) :
    ∃ z, Answered g r read h h' x z ∧ h'.PlainAt z := by
  -- The fold has kept all placeholders, and nothing in it has escalated.
  obtain ⟨hreached, zs, hzs, hfold, hquiet⟩ := hk.later hext
  obtain ⟨z, hz, hanswer⟩ := exists_of_forall₂ hzs hx
  refine ⟨z, hanswer.later hext, fun p hp => ?_⟩
  replace hp : p ∈ zs.flatMap h'.parts := List.mem_flatMap.2 ⟨z, hz, hp⟩
  obtain ⟨hunion, hopen, hnone⟩ := hquiet p hp
  refine Fold.isPlain_of_escalation hopen (fun hres => ?_) hnone
  obtain ⟨j, rfl⟩ : ∃ j, p = .node j := by
    cases p with
    | node j => exact ⟨j, rfl⟩
    | _ => cases hres
  have hnever : Fold.never.Holds .never [] := ⟨rfl, rfl, rfl⟩
  obtain ⟨k', k₀, hk', -, hholds⟩ := hnever.foldlM hquiet
  obtain rfl : k = k' := by simpa using hfold.symm.trans hk'
  have hj : j ∈ k.members.unresolved := by
    rw [hholds.members]
    exact List.mem_filterMap.2 ⟨.node j, hp, if_pos hres⟩
  cases k with
  | compound u =>
    have hmem : .node j ∈ h'.parts t := by
      rw [hends.parts_eq hreached]
      exact Members.node_mem_toList.2 (.inr hj)
    exact (Kind.ne_of_isPlain (ht _ hmem)).2 hres
  | _ => cases hj

theorem receives_of_property (hg : g.Regular) (hr : r.instance? = none) (hlimit : 0 < r.limit)
    (hst : st.graph = g) (hx : g.Has x) (hplain : g.PlainAt x)
    (hrun : (r.builtinProperty x key).Returns st t s) (ht : s.graph.PlainAt t) :
    Receives g r (r.memberProperty · key) g x := by
  subst hst
  have hread := memberProperty_lockstep hg hr key
  have hsettle : (Fold.settle r.unwrap r.limit x).Returns st x st :=
    Fold.settle_of_pos hlimit hplain.kind_ne
  by_cases hunion : st.graph.kind x = .union
  · refine ⟨hx, hplain.kind_ne, ?_, fun h => absurd hunion h⟩
    obtain ⟨i, u, rfl, hi⟩ := Graph.exists_union_of_kind hunion
    have hparts : st.graph.parts (.node i) = u.toList := by simp only [Graph.parts, hi]
    have hrun' := (run_builtinProperty_union hsettle hi).symm.trans hrun
    rw [hparts]
    rcases uniteReads_cases hg hr hread hg.tidy fun x => hg.tidy.members_has hi with
      ⟨k, s₁, y, s', hk, hret, hends, hext, hs'⟩ | ⟨o, s', hloss, hlost, -⟩
    · obtain ⟨rfl, rfl⟩ := hret.unique hrun'
      intro p hp
      obtain ⟨z, hz, hplain⟩ := hk.plainAt hext hends ht hp
      exact ⟨hg.tidy.members_has hi hp, s'.graph, z, hz, hplain⟩
    · -- a loss is not plain
      exfalso
      have hword : lostType o = .ok t := congrArg Prod.fst (Eq.trans (Eq.symm hlost) hrun')
      cases o with
      | error e => cases hword
      | ok k =>
        cases hword
        cases k with
        | never | compound => cases hloss
        | _ => cases ht _ (List.mem_singleton.2 rfl)
  · have hparts := Graph.parts_of_kind_ne hunion
    have hrun' := (run_builtinProperty hsettle hunion).symm.trans hrun
    have hstart : From st.graph st.graph st := ⟨.refl _, hg.tidy⟩
    obtain ⟨hs, hhas⟩ : From st.graph st.graph s ∧ s.graph.Has t := by
      rcases lockstep_cases hread hg.tidy hx with ⟨t', s', hret, hs, hhas⟩ | ⟨s', hret, -⟩
      · obtain ⟨rfl, rfl⟩ := hret.unique hrun'
        exact ⟨hs, hhas⟩
      · exact absurd hret (TypeM.Returns.ne_error hrun')
    refine ⟨hx, hplain.kind_ne, fun p hp => ?_, fun _ => ⟨st, t, s, hstart, hrun', ht⟩⟩
    rw [hparts, List.mem_singleton] at hp
    subst hp
    exact ⟨hx, s.graph, t, answered_of_plainAt hlimit hg.tidy hrun' hs hhas ht, ht⟩

theorem Receives.mono (hg : g.Regular) (hext : g.Extends h) (hx : Receives g r read g x) :
    Receives g r read h x where
  has := hext.has hx.has
  opened := hext.kind_eq hx.has ▸ hx.opened
  parts p hp := hx.parts p ((hext.agreesAt hg.wellFormed.closed hx.has).parts_eq ▸ hp)
  direct hunion := hx.direct (hext.kind_eq hx.has ▸ hunion)

theorem mapM_readsOff (hg : g.Regular) (hr : r.instance? = none) (hlimit : 0 < r.limit)
    (hmany : ∀ i u, g.shape i = .union u → 2 ≤ u.toList.length) (hst : Tidy g [] st.graph)
    (hms : ∀ m ∈ ms, Receives g r (r.memberProperty · key) g m) :
    ∃ rs s zss, (ms.mapM (r.builtinProperty · key)).Returns st rs s ∧ From g st.graph s ∧
      List.Forall₂ (List.Forall₂ (Answered g r (r.memberProperty · key) g s.graph))
        (ms.map g.parts) zss ∧
      List.Forall₂ s.graph.FoldsTo zss rs := by
  induction ms generalizing st with
  | nil => exact ⟨[], st, [], .pure _ _, ⟨.refl _, hst⟩, .nil, .nil⟩
  | cons m ms ih =>
    have hm := hms m (by simp)
    obtain ⟨y, s₁, zs, hreads⟩ := (hm.mono hg hst.base).readsOff hg hr hlimit hmany hst
    obtain ⟨rs, s, zss, hrun, hs, hanswers, hfolds⟩ := ih hreads.start.tidy fun m hm =>
      hms m (by simp [hm])
    refine ⟨y :: rs, s, zs :: zss, ?_, hreads.start.trans hs, .cons ?_ hanswers,
      .cons (hreads.folds.mono hreads.start.tidy.closed hs.ext) hfolds⟩
    · rw [List.mapM_cons]
      exact hreads.run.bind (hrun.bind (.pure _ _))
    · rw [← (hst.base.agreesAt hg.wellFormed.closed hm.has).parts_eq]
      exact hreads.answers.imp fun _ _ h => (h.mono hst.base).later hs.ext

theorem unite_sound (hlimit : 0 < r.limit) (hst : Tidy g [] st.graph) (hlen : 2 ≤ ts.length)
    (hts : ∀ t ∈ ts, st.graph.Has t ∧ st.graph.kind t ≠ .instantiation) :
    ∃ k t s, ts.foldlM (Fold.absorb st.graph) .never = .ok k ∧ k.Sound st.graph [] ∧
      (r.unite ts).Returns st t s ∧ k.EndsIn s.graph t ∧ From g st.graph s := by
  obtain ⟨k, hk, hsound⟩ := Fold.exists_sound hst hts (Fold.sound_never _ _)
  have hid : (ts.map id).foldlM (Fold.absorb st.graph) .never = .ok k := by rwa [List.map_id]
  obtain ⟨st', hrun, hgraph⟩ := foldlM_addTo_returns
    (fun t ht => opens_of_kind_ne hlimit (hts t ht).2) hid
  rw [← hgraph] at hst hsound
  obtain ⟨t, s, hfinish, hends, hext, hs⟩ := hsound.finish hst
  refine ⟨k, t, s, hk, hgraph ▸ hsound, ?_, hends, hgraph ▸ hext, hs⟩
  match ts, hlen with
  | a :: b :: ts, _ => exact hrun.bind hfinish

/-! ### The answers about words -/

theorem Answered.eq_of_pure {w : Ty} (hlimit : 0 < r.limit) (hx : read x = pure w)
    (hw : w.node? = none) (hz : Answered g r read h h' x z) : z = w := by
  obtain ⟨s, s', -, hrun, -⟩ := hz
  have hret : (r.answer read x).Returns s w s := by
    rw [answer, hx]
    exact (TypeM.Returns.pure w s).bind
      (Fold.settle_of_pos hlimit (Graph.kind_ne_instantiation_of_not_node hw))
  exact (hrun.unique hret).1

theorem Readable.not_unknown (hlimit : 0 < r.limit) (hx : read x = pure .unknown) :
    ¬ Readable g r read x := by
  rintro ⟨-, h, z, hz, hplain⟩
  obtain rfl := hz.eq_of_pure hlimit hx rfl
  cases hplain _ (List.mem_singleton.2 rfl)

theorem Readable.direct (hg : g.Regular) (hlimit : 0 < r.limit) (hx : x.node? = none)
    (hreadable : Readable g r (r.memberProperty · key) x) :
    Direct g (r.memberProperty · key) x := by
  obtain ⟨w, hread, hw⟩ := memberProperty_word r key hx
  obtain ⟨-, h, z, hz, hplain⟩ := hreadable
  obtain rfl := hz.eq_of_pure hlimit hread hw
  refine ⟨{ graph := g }, z, { graph := g }, ⟨.refl _, hg.tidy⟩, ?_, Graph.plainAt_word hw hplain⟩
  simp only [hread]
  exact .pure _ _

theorem stringProperty_length (v : Text) :
    (∃ n, stringProperty v (.named (text "length")) = .number n) ∨
      stringProperty v (.named (text "length")) = .simple .number := by
  rw [stringProperty, if_pos rfl]
  cases Text.utf16Length v with
  | some n => exact .inl ⟨_, rfl⟩
  | none => exact .inr rfl

theorem Readable.eq_string (hlimit : 0 < r.limit)
    (hx : Readable g r (r.memberProperty · key) x) (hwhole : x.whole? = some y) :
    y = .simple .string ∧ key = .named (text "length") ∧ ∃ v, x = .string v := by
  cases x with
  | string v =>
    cases hwhole
    refine ⟨rfl, ?_, v, rfl⟩
    by_contra hkey
    refine Readable.not_unknown hlimit ?_ hx
    simp [memberProperty, stringProperty, hkey]
  | number | bigint | symbol => exact absurd hx (Readable.not_unknown hlimit rfl)
  | _ => cases hwhole

/-! ### Answers about some of the types -/

theorem Answered.congr (hg : g.Regular) (hr : r.instance? = none) (hread : Graph.Lockstep g read)
    (hx₁ : g.Has x₁) (hx₂ : g.Has x₂) (hx : g.Similar x₁ x₂)
    (hz₁ : Answered g r read g h x₁ z₁) (hz₂ : Answered g r read g h x₂ z₂) : h.Similar z₁ z₂ := by
  have hmeets : Meets g [] g.likeness g x₁ g x₂ :=
    ⟨hx.pairs hx₁ hx₂, Graph.clear_nil hx₁, Graph.clear_nil hx₂⟩
  exact hz₁.similar hg hr hread (.start hg hg.tidy hg.tidy) hmeets hz₂ (.refl _) (.refl _)

section Answers

variable {ps ds zs ws : List Ty} (hg : g.Regular) (hr : r.instance? = none)
  (hps : List.Forall₂ (Answered g r (r.memberProperty · key) g h) ps zs)
  (hds : List.Forall₂ (Answered g r (r.memberProperty · key) g h) ds ws)
  (hreadable : ∀ d ∈ ds, Readable g r (r.memberProperty · key) d) (hsub : ps ⊆ ds)
  (hleft : ∀ d ∈ ds, d = .never ∨ ∃ p ∈ ps, g.Similar d p ∨ d.whole? = some p)

include hg hr hds hreadable in
theorem plain_answers (hy : h.FoldsTo ws y) :
    ∀ q ∈ ws.flatMap h.parts, h.kind q ≠ .union ∧ (h.kind q).isPlain = true := by
  intro q hq
  obtain ⟨w, hw, hq⟩ := List.mem_flatMap.1 hq
  obtain ⟨d, hd, hanswer⟩ := exists_of_forall₂ hds.flip hw
  have hplain := (hreadable d hd).plainAt hg hr (memberProperty_lockstep hg hr key) hanswer
  exact ⟨(hy.absorbable w hw q hq).1, hplain q hq⟩

include hg hr hps hds hreadable hsub in
theorem covered_answers : h.Covered (zs.flatMap h.parts) (ws.flatMap h.parts) := by
  refine Graph.Covered.parts fun z hz => ?_
  obtain ⟨p, hp, hanswer⟩ := exists_of_forall₂ hps.flip hz
  obtain ⟨w, hw, hanswer'⟩ := exists_of_forall₂ hds (hsub hp)
  have hhas := (hreadable p (hsub hp)).1
  exact ⟨w, hw, Answered.congr hg hr (memberProperty_lockstep hg hr key) hhas hhas (.refl g p)
    hanswer hanswer'⟩

include hg hr hps hds hreadable hsub hleft in
/-- What is answered about a type that is left out is there already, or adds nothing to the fold:
only strings are left out for their kind, and their lengths go with the length of that. -/
theorem covered_or_dropped (hlimit : 0 < r.limit) {q : Ty} (hq : q ∈ ws.flatMap h.parts) :
    (∃ q' ∈ zs.flatMap h.parts, h.Similar q q') ∨ q = .never ∨
      (∃ v, q = .number v) ∧ .simple .number ∈ zs.flatMap h.parts := by
  obtain ⟨w, hw, hq⟩ := List.mem_flatMap.1 hq
  obtain ⟨d, hd, hanswer⟩ := exists_of_forall₂ hds.flip hw
  rcases hleft d hd with rfl | ⟨p, hp, hdp⟩
  · obtain rfl : w = .never := Answered.eq_of_pure hlimit rfl rfl hanswer
    exact .inr (.inl (List.mem_singleton.1 hq))
  obtain ⟨z, hz, hanswer'⟩ := exists_of_forall₂ hps hp
  rcases hdp with hdp | hwhole
  · have hwz : h.Similar w z :=
      Answered.congr hg hr (memberProperty_lockstep hg hr key) (hreadable d hd).1
        (hreadable p (hsub hp)).1 hdp hanswer hanswer'
    have hcover : h.Covered [w] [z] := by simpa [Graph.Covered] using hwz
    obtain ⟨q', hq', hsim⟩ := hcover.parts q (by simpa using hq)
    exact .inl ⟨q', List.mem_flatMap.2 ⟨z, hz, by simpa using hq'⟩, hsim⟩
  · obtain ⟨rfl, rfl, v, rfl⟩ := (hreadable d hd).eq_string hlimit hwhole
    obtain rfl : z = .simple .number := hanswer'.eq_of_pure hlimit rfl rfl
    have hnumber : .simple .number ∈ zs.flatMap h.parts :=
      List.mem_flatMap.2 ⟨_, hz, List.mem_singleton.2 rfl⟩
    rcases stringProperty_length v with ⟨n, hn⟩ | hn
    · obtain rfl : w = .number n := Answered.eq_of_pure hlimit (congrArg pure hn) rfl hanswer
      exact .inr (.inr ⟨⟨n, List.mem_singleton.1 hq⟩, hnumber⟩)
    · obtain rfl : w = .simple .number :=
        Answered.eq_of_pure hlimit (congrArg pure hn) rfl hanswer
      exact .inl ⟨_, hnumber, List.mem_singleton.1 hq ▸ .refl h _⟩

include hg hr hps hds hreadable hsub hleft in
theorem similar_of_answers (hlimit : 0 < r.limit) (hh : Tidy g [] h) (hx : h.FoldsTo zs x)
    (hy : h.FoldsTo ws y) : h.Similar x y := by
  obtain ⟨k, hk, hreached, hends⟩ := hx.fold
  obtain ⟨k', hk', -, hends'⟩ := hy.fold
  rw [Fold.foldlM_absorb_eq] at hk hk'
  have halike : k.Alike h k' := by
    refine Fold.alike_of_dropped (fun _ _ => hh.symm) (fun q hq => ?_)
      (covered_answers hg hr hps hds hreadable hsub)
      (fun q hq => covered_or_dropped hg hr hps hds hreadable hsub hleft hlimit hq) hk hk'
    rcases List.mem_append.1 hq with hq | hq
    · exact plain_answers hg hr hps (fun p hp => hreadable p (hsub hp)) hx q hq
    · exact plain_answers hg hr hds hreadable hy q hq
  exact halike.similar hreached hends hends'

end Answers

/-! ### The fold of several types -/

section Parts

variable (hg : g.Regular) (hmany : ∀ i u, g.shape i = .union u → 2 ≤ u.toList.length)
  (hms : ∀ m ∈ ms, g.Has m ∧ g.PlainAt m)

include hg hms in
theorem part_of_plain {d : Ty} (hd : d ∈ ms.flatMap g.parts) :
    g.Has d ∧ g.kind d ≠ .union ∧ (g.kind d).isPlain = true := by
  obtain ⟨m, hm, hd⟩ := List.mem_flatMap.1 hd
  obtain ⟨hhas, hplain⟩ := hms m hm
  exact ⟨(Graph.reaches_of_mem_parts hd).has hg.wellFormed.closed hhas,
    (hg.tidy.absorbable hplain.kind_ne d hd).1, hplain d hd⟩

include hg hmany hms in
theorem mem_of_collects_single (hbool : ∀ b, .boolean b ∉ ms.flatMap g.parts)
    (hu : u.Collects g ((ms.flatMap g.parts).filter (· ≠ .never)))
    (hone : u.toList = [.node i]) : .node i ∈ ms := by
  -- A union has two members, which cannot both come down to one node.
  have hbool' (b : Bool) : .boolean b ∉ (ms.flatMap g.parts).filter (· ≠ .never) :=
    fun hb => hbool b (List.mem_of_mem_filter hb)
  have hi : .node i ∈ ms.flatMap g.parts :=
    List.mem_of_mem_filter (hu.mem_of_mem_toList hbool' (by simp [hone]))
  obtain ⟨m, hm, him⟩ := List.mem_flatMap.1 hi
  by_cases hunion : g.kind m = .union
  · exfalso
    obtain ⟨j, w, rfl, hj⟩ := Graph.exists_union_of_kind hunion
    have hw := hg.tidy.fresh hj
    have hd {d : Ty} (hd : d ∈ w.toList) : d ∈ ms.flatMap g.parts := by
      refine List.mem_flatMap.2 ⟨.node j, hm, ?_⟩
      simpa only [Graph.parts, hj] using hd
    have hpending : w.unresolved = [] := by
      refine List.eq_nil_iff_forall_not_mem.2 fun l hl => ?_
      have hplain := (part_of_plain hg hms (hd (Members.node_mem_toList.2 (.inr hl)))).2.2
      exact (Kind.ne_of_isPlain hplain).2 (hw.sorted.unresolved l hl)
    have hsub : w.toList ⊆ (ms.flatMap g.parts).filter (· ≠ .never) := by
      intro d hdw
      refine List.mem_filter.2 ⟨hd hdw, ?_⟩
      rw [decide_eq_true_iff]
      rintro rfl
      cases hw.sorted.isMember hdw
    have hle := hu.length_le_one hg.wellFormed.closed (fun _ _ => hg.tidy.symm) hbool' hone
      (part_of_plain hg hms hi).1 hw hpending hsub
    have hlen := hmany j w hj
    omega
  · rw [Graph.parts_of_kind_ne hunion, List.mem_singleton] at him
    exact him ▸ hm

include hg hmany hms in
theorem parts_of_fold (hne : ms ≠ []) (hbool : ∀ b, .boolean b ∉ ms.flatMap g.parts)
    (hk : ms.foldlM (Fold.absorb g) .never = .ok k) (hreached : k.Reached h)
    (hx : k.EndsIn h x) :
    h.parts x ⊆ ms.flatMap g.parts ∧
      (∀ d ∈ ms.flatMap g.parts, d = .never ∨
        ∃ p ∈ h.parts x, g.Similar d p ∨ d.whole? = some p) ∧
      (h.kind x ≠ .union → x.node? = none ∨ x ∈ ms) := by
  have hkinds (d : Ty) (hd : d ∈ ms.flatMap g.parts) : g.kind d ≠ .union ∧
      g.kind d ≠ .instantiation ∧ g.kind d ≠ .unresolved :=
    ⟨(part_of_plain hg hms hd).2.1, Kind.ne_of_isPlain (part_of_plain hg hms hd).2.2⟩
  have hnone (d : Ty) (hd : d ∈ ms.flatMap g.parts) : Fold.escalation g d = none :=
    Fold.escalation_of_isPlain (part_of_plain hg hms hd).2.2
  rw [Fold.foldlM_absorb_eq] at hk
  rcases Fold.foldlM_collects hkinds hnone with ⟨hall, hrun⟩ | ⟨-, u, hrun, hu⟩
  · obtain rfl : k = .never := by simpa using hk.symm.trans hrun
    obtain rfl : x = .never := hx
    refine ⟨fun p hp => ?_, fun d hd => .inl (hall d hd), fun _ => .inl rfl⟩
    obtain ⟨m, hm⟩ := List.exists_mem_of_ne_nil ms hne
    obtain ⟨d, hd⟩ := Graph.exists_mem_parts hmany m
    have hd := List.mem_flatMap.2 ⟨m, hm, hd⟩
    rw [List.mem_singleton.1 hp, ← hall d hd]
    exact hd
  · obtain rfl : k = .compound u := by simpa using hk.symm.trans hrun
    rw [hx.parts_eq hreached]
    have hbool' (b : Bool) : .boolean b ∉ (ms.flatMap g.parts).filter (· ≠ .never) :=
      fun hb => hbool b (List.mem_of_mem_filter hb)
    refine ⟨fun p hp => List.mem_of_mem_filter (hu.mem_of_mem_toList hbool' hp), fun d hd => ?_,
      fun hunion => ?_⟩
    · refine or_iff_not_imp_left.2 fun hnever => ?_
      have hmember : (g.kind d).isMember = true := by
        rcases Fold.part_cases (hkinds d hd).1 (hkinds d hd).2.1 with rfl | ⟨e, he⟩ | ⟨hmember, -⟩
        · exact absurd rfl hnever
        · simp [hnone d hd] at he
        · exact hmember
      exact hu.exists_member hbool' hmember (List.mem_filter.2 ⟨hd, by simpa using hnever⟩)
    · have hone : u.toList = [x] := by
        by_cases hlen : u.toList.length = 1
        · obtain ⟨m, hm⟩ := List.length_eq_one_iff.1 hlen
          simp only [Fold.EndsIn, hm] at hx
          rw [hm, hx]
        · obtain ⟨i, rfl, hi⟩ := hx.exists_union hlen
          exact absurd (Graph.kind_of_union hi) hunion
      cases x with
      | node i => exact .inr (mem_of_collects_single hg hmany hms hbool hu hone)
      | _ => exact .inl rfl

end Parts

theorem limit_pos (hrun : (r.builtinProperty x key).Returns st t s) : 0 < r.limit := by
  refine Nat.pos_of_ne_zero fun hzero => ?_
  have herror : (r.builtinProperty x key).run.run st = (.error .unendingInstance, st) := by
    rw [builtinProperty, hzero]
    exact ExceptT.run_bind_of_error rfl
  exact hrun.ne_error herror

theorem receives_of_fold (hg : g.Regular) (hlimit : 0 < r.limit)
    (hms : ∀ m ∈ ms, Receives g r (r.memberProperty · key) g m)
    (hext : g.Extends h) (hk : k.Sound h []) (hx : k.EndsIn h x)
    (hparts : h.parts x ⊆ ms.flatMap g.parts)
    (hsingle : h.kind x ≠ .union → x.node? = none ∨ x ∈ ms) :
    Receives g r (r.memberProperty · key) h x := by
  have hreadable (p : Ty) (hp : p ∈ h.parts x) : Readable g r (r.memberProperty · key) p := by
    obtain ⟨m, hm, hpm⟩ := List.mem_flatMap.1 (hparts hp)
    exact (hms m hm).parts p hpm
  refine ⟨?_, hx.kind_ne hk.reached, hreadable, fun hunion => ?_⟩
  · rcases hx.cases with hnode | hmem | ⟨i, rfl, hi⟩
    · exact Graph.has_of_not_node hnode
    · exact (hk.fresh.clear x hmem).has
    · exact Graph.lt_size_of_shape hi (by simp)
  · rcases hsingle hunion with hword | hmem
    · exact (hreadable x (by simp [Graph.parts_of_kind_ne hunion])).direct hg hlimit hword
    · exact (hms x hmem).direct (hext.kind_eq (hms x hmem).has ▸ hunion)

/-- Reading a property of a fold gives the fold of what is read of the types. -/
theorem property_unite (hproperty : r.property? = none) (hr : r.instance? = none)
    (hg : st.graph.Regular)
    (hmany : ∀ i u, st.graph.shape i = .union u → 2 ≤ u.toList.length) (hlen : 2 ≤ ms.length)
    (hms : ∀ m ∈ ms, st.graph.Has m ∧ st.graph.PlainAt m)
    (hreads : ∀ m ∈ ms, ∃ t s, (r.property m key).Returns st t s ∧ s.graph.PlainAt t) :
    ∃ u st₁ t st₂ rs st₃ t' st₄, (r.unite ms).Returns st u st₁ ∧
      (r.property u key).Returns st₁ t st₂ ∧ (ms.mapM (r.property · key)).Returns st₂ rs st₃ ∧
      (r.unite rs).Returns st₃ t' st₄ ∧ st₄.graph.equal t t' = true := by
  simp only [property, hproperty] at hreads ⊢
  have hne : ms ≠ [] := by
    rintro rfl
    cases hlen
  obtain ⟨m₀, hm₀⟩ := List.exists_mem_of_ne_nil ms hne
  obtain ⟨t₀, s₀, hrun₀, -⟩ := hreads m₀ hm₀
  have hlimit := limit_pos hrun₀
  have hreceives (m : Ty) (hm : m ∈ ms) :
      Receives st.graph r (r.memberProperty · key) st.graph m := by
    obtain ⟨t, s, hrun, ht⟩ := hreads m hm
    exact receives_of_property hg hr hlimit rfl (hms m hm).1 (hms m hm).2 hrun ht
  have hreadable (d : Ty) (hd : d ∈ ms.flatMap st.graph.parts) :
      Readable st.graph r (r.memberProperty · key) d := by
    obtain ⟨m, hm, hdm⟩ := List.mem_flatMap.1 hd
    exact (hreceives m hm).parts d hdm
  have hbool (b : Bool) (hb : .boolean b ∈ ms.flatMap st.graph.parts) : False :=
    Readable.not_unknown (x := .boolean b) hlimit rfl (hreadable _ hb)
  -- fold first, and read then
  obtain ⟨k, u, st₁, hk, hsound, hunite, hends, hst₁⟩ :=
    unite_sound hlimit hg.tidy hlen fun m hm => ⟨(hms m hm).1, (hms m hm).2.kind_ne⟩
  replace hsound := hsound.congr hst₁.ext.size_le fun x hx =>
    hst₁.ext.agreesAt hg.wellFormed.closed hx.has
  obtain ⟨hsub, hleft, hsingle⟩ :=
    parts_of_fold hg hmany hms hne hbool hk hsound.reached hends
  obtain ⟨t, st₂, zs, hread⟩ :=
    (receives_of_fold hg hlimit hreceives hst₁.ext hsound hends hsub hsingle).readsOff hg hr hlimit
      hmany hst₁.tidy
  -- read first, and fold then
  obtain ⟨rs, st₃, zss, hmap, hst₃, hanswers, hfolds⟩ :=
    mapM_readsOff hg hr hlimit hmany hread.start.tidy hreceives
  have hrs (y : Ty) (hy : y ∈ rs) :
      st₃.graph.Has y ∧ st₃.graph.kind y ≠ .instantiation := by
    obtain ⟨zs, -, hzs⟩ := exists_of_forall₂ hfolds.flip hy
    exact ⟨Graph.FoldsTo.has_result hst₃.tidy.closed hzs, Graph.FoldsTo.kind_ne hzs⟩
  have hlen' : 2 ≤ rs.length := by
    rw [← hfolds.length_eq, ← hanswers.length_eq, List.length_map]
    exact hlen
  obtain ⟨k', t', st₄, hk', hsound', hunite', hends', hst₄⟩ :=
    unite_sound hlimit hst₃.tidy hlen' hrs
  refine ⟨u, st₁, t, st₂, rs, st₃, t', st₄, hunite, hread.run, hmap, hunite', ?_⟩
  have hext₂ : st₂.graph.Extends st₄.graph := hst₃.ext.trans hst₄.ext
  have hzs : List.Forall₂ (Answered st.graph r (r.memberProperty · key) st.graph st₄.graph)
      (st₁.graph.parts u) zs :=
    hread.answers.imp fun _ _ h => (h.mono hst₁.ext).later hext₂
  have hws : List.Forall₂ (Answered st.graph r (r.memberProperty · key) st.graph st₄.graph)
      (ms.flatMap st.graph.parts) zss.flatten := by
    rw [List.flatMap]
    exact (List.rel_flatten hanswers).imp fun _ _ h => h.later hst₄.ext
  have hfold : rs.foldlM (Fold.absorb st₄.graph) .never = .ok k' := by
    rw [← hk']
    exact Graph.foldlM_absorb_extends hst₃.tidy.closed hst₄.ext (fun y hy => (hrs y hy).1)
      fun y hy => hst₃.tidy.absorbable (hrs y hy).2
  replace hsound' := hsound'.congr hst₄.ext.size_le fun x hx =>
    hst₄.ext.agreesAt hst₃.tidy.closed hx.has
  have ht' : st₄.graph.FoldsTo zss.flatten t' :=
    .flatten (hfolds.imp fun _ _ h => h.mono hst₃.tidy.closed hst₄.ext) hfold hsound'.reached hends'
  have ht : st₄.graph.FoldsTo zs t := hread.folds.mono hread.start.tidy.closed hext₂
  exact Graph.equal_iff.2
    (similar_of_answers hg hr hzs hws hreadable hsub hleft hlimit hst₄.tidy ht ht')

def lengths : Graph :=
  let slots : List Slot := [⟨.named (text "length"), .number (.ofNat 3), true⟩]
  ⟨#[.record slots, .record slots, .union { undefined := true, shapes := [1] }]⟩

theorem lengths_property_unite :
    lengths.Regular ∧
      ∃ u st₁ t st₂ rs st₃ t' st₄,
        (({} : Resolvers).unite [.string (text "ab"), .node 0, .simple .string, .node 2]).Returns
          { graph := lengths } u st₁ ∧
        (({} : Resolvers).property u (.named (text "length"))).Returns st₁ t st₂ ∧
        ([.string (text "ab"), .node 0, .simple .string, .node 2].mapM
          (({} : Resolvers).property · (.named (text "length")))).Returns st₂ rs st₃ ∧
        (({} : Resolvers).unite rs).Returns st₃ t' st₄ ∧ st₄.graph.equal t t' = true := by
  have hregular : lengths.Regular :=
    .of_shapes (by decide) (.of_rank (fun t => t.node?.elim 0 (· / 2)) (by decide))
      (by decide +kernel)
  have hmany (i : NodeId) (u : Members) (hi : lengths.shape i = .union u) :
      2 ≤ u.toList.length := by
    have hshapes : ∀ i < lengths.size, (lengths.shape i).kind = .union →
        2 ≤ (lengths.shape i).children.length := by decide
    have hlen := hshapes i (Graph.lt_size_of_shape hi (by simp))
    rw [hi] at hlen
    exact hlen rfl
  refine ⟨hregular, property_unite rfl rfl hregular hmany (by decide) (by decide) ?_⟩
  simp only [List.forall_mem_cons]
  refine ⟨⟨_, _, rfl, ?_⟩, ⟨_, _, rfl, ?_⟩, ⟨_, _, rfl, ?_⟩, ⟨_, _, rfl, ?_⟩, by simp⟩ <;> decide

end Resolvers

end FlowTyping
