import FlowTyping.Proofs.HashLaws
import FlowTyping.Proofs.Placeholders
import FlowTyping.Proofs.UnionReads

namespace FlowTyping

open FlowTyping.Graph (Tidy Paired Meets Ends)

variable {g h h₁ h₂ : Graph} {W : World} {r : Resolvers} {read : Ty → TypeM Ty} {key : PropertyKey}
  {x y a b : Ty} {i : NodeId} {xs ys zs ws : List Ty} {u v : Members} {f k : Fold}
  {st st₁ s s₁ s₂ : Store} {o : Except Fault Fold}

namespace Members

theorem Twin.exists_perm (ht : Graph.Twins W h₁ h₂) (hu : h₁.Unlike u.shapes)
    (hbase : ∀ i ∈ u.unresolved, W i i) (huv : u.Twin W v) :
    ∃ ys, ys.Perm v.toList ∧ List.Forall₂ W.Pairs u.toList ys := by
  have honce : ∀ x ∈ u.shapes, ∀ x' ∈ u.shapes, ∀ y ∈ v.shapes, W.Pairs (.node x) (.node y) →
      W.Pairs (.node x') (.node y) → x = x' := fun x hx x' hx' y _ hxy hxy' =>
    hu.eq hx hx' ((ht.similar_iff hxy hxy').2 (.refl _ _)) ((ht.similar_iff hxy' hxy).2 (.refl _ _))
  obtain ⟨f, hpairs, hperm⟩ := huv.there.exists_perm hu.nodup honce
  refine ⟨({ u with shapes := u.shapes.map f } : Members).toList, ?_, ?_⟩
  · have hfits : ({ u with shapes := u.shapes.map f } : Members).Fits (fun _ _ => True) v :=
      { huv.there with
        count := by rw [← huv.there.count, List.length_map]
        covered := fun i hi => ⟨i, hperm.subset hi, trivial⟩ }
    simpa using hfits.toList_perm id (hperm.map _)
  · rw [toList_eq, toList_eq { u with shapes := u.shapes.map f }]
    refine List.rel_append ?_ (List.rel_append ?_ ?_)
    · exact List.forall₂_same.2 fun t ht => .word (node?_of_mem_words ht)
    · rw [List.forall₂_map_left_iff, List.map_map, List.forall₂_map_right_iff]
      exact List.forall₂_same.2 hpairs
    · rw [List.forall₂_map_left_iff, List.forall₂_map_right_iff]
      exact List.forall₂_same.2 fun i hi => .node (hbase i hi)

end Members

namespace Resolvers

def IsLost : Except Fault Ty → Prop
  | .ok t => t = .error ∨ t = .any ∨ t = .unknown
  | .error e => e = .unendingInstance

theorem isLost_lostType (ho : IsLoss o) : IsLost (lostType o) := by
  cases o with
  | error e => exact ho
  | ok k =>
    cases k with
    | never | compound => cases ho
    | error => exact .inl rfl
    | any => exact .inr (.inl rfl)
    | unknown => exact .inr (.inr rfl)

theorem LosesAt.alone (hlost : LosesAt r read s x o) :
    ((r.uniteReads read [x]).run.run s).1 = lostType o := by
  have hfold : r.uniteReads read [x] = r.answer read x >>= fun z =>
      TypeM.graph >>= fun h => TypeM.ofExcept (Fold.absorb h .never z) >>= Fold.finish := by
    rw [uniteReads_eq, List.foldlM_cons, takeRead_eq rfl]
    simp only [List.foldlM_nil, bind_pure, bind_assoc]
  rw [hfold]
  cases o with
  | error e =>
    obtain ⟨-, s', hrun⟩ := hlost
    rw [ExceptT.run_bind_of_error hrun]
    rfl
  | ok k =>
    obtain ⟨hterm, z, s', hrun, -, hk⟩ := hlost
    obtain ⟨s'', hfinish, -⟩ := Fold.finish_word hterm s'
    have hstep := (TypeM.Returns.ofExcept hk s').bind hfinish
    exact congrArg Prod.fst (hrun.bind ((TypeM.Returns.graph s').bind hstep))

theorem Gathered.equalUpToOrder {k₁ k₂ : Fold} (hg : g.Regular) (hr : r.instance? = none)
    (hread : Graph.Lockstep g read) (hp : Paired g [] W h₁ h₂) (hu : h₁.Unlike u.shapes)
    (hbase : ∀ i ∈ u.unresolved, W i i) (huv : u.Twin W v)
    (hk₁ : Gathered g r read h₁ u.toList .never k₁ s₁)
    (hk₂ : Gathered g r read h₂ v.toList .never k₂ s₂) (hh : Tidy g [] h)
    (hext₁ : s₁.graph.Extends h) (hext₂ : s₂.graph.Extends h) (hx : k₁.EndsIn h x)
    (hy : k₂.EndsIn h y) : h.EqualUpToOrder x y := by
  obtain ⟨hreached₁, zs, hzs, hfold₁, hparts₁⟩ := hk₁.later hext₁
  obtain ⟨hreached₂, ws, hws, hfold₂, hparts₂⟩ := hk₂.later hext₂
  obtain ⟨ys, hperm, hpairs⟩ := huv.exists_perm hp.twins hu hbase
  obtain ⟨ws', hws', hperm'⟩ := List.perm_comp_forall₂ hperm hws
  have hlike : List.Forall₂ h.Similar zs ws' := by
    have hthere : List.Forall₂ (fun z y => ∃ x, Answered g r read h₁ s₁.graph x z ∧ W.Pairs x y)
        zs ys := forall₂_trans (fun z x y hz hxy => ⟨x, hz, hxy⟩) hzs.flip hpairs
    refine forall₂_trans (fun z y w ⟨x, hz, hxy⟩ hw => ?_) hthere hws'
    obtain ⟨hx, hy⟩ := hp.twins.has hxy
    exact hz.similar hg hr hread hp ⟨hxy, Graph.clear_nil hx, Graph.clear_nil hy⟩ hw hext₁ hext₂
  have hcover : h.Covered zs ws := fun z hz => by
    obtain ⟨w, hw, hzw⟩ := exists_of_forall₂ hlike hz
    exact ⟨w, hperm'.subset hw, hzw⟩
  have hback : h.Covered ws zs := fun w hw => by
    obtain ⟨z, hz, hzw⟩ := exists_of_forall₂ hlike.flip (hperm'.symm.subset hw)
    exact ⟨z, hz, hh.symm hzw⟩
  have halike : k₁.AlikeUpToOrder h k₂ :=
    Fold.alikeUpToOrder_of_covered (fun _ _ => hh.symm)
      (fun p hp => (List.mem_append.1 hp).elim (hparts₁ p) (hparts₂ p)) hcover.parts hback.parts
      (Graph.pending_perm hh.sorted hlike hperm') hfold₁ hfold₂
  exact halike.equalUpToOrder hreached₁ hreached₂ hx hy

theorem receiver_joint (hg : g.Regular) (hr : r.instance? = none)
    (hp : Paired g [] W st.graph st₁.graph) (hx : Meets g [] W st.graph x st₁.graph y) :
    Joint g (Fold.settle r.unwrap r.limit x) st (Fold.settle r.unwrap r.limit y) st₁
      (Ends g [] W st.graph st₁.graph (Fold.Settled g [])) :=
  Fold.settle_joint (unwrapsAlike hg hr r.limit) r.limit hp hx

theorem builtinProperty_tidy (hg : g.Regular) (hr : r.instance? = none)
    (hst : Tidy g [] st.graph) (hx : st.graph.Has x) :
    Tidy g [] ((r.builtinProperty x key).run.run st).2.graph := by
  have hread := memberProperty_lockstep hg hr key
  cases receiver_joint hg hr hst.diagonal (.diagonal hx) with
  | unending hrun _ hs =>
    rw [builtinProperty, ExceptT.run_bind_of_error hrun]
    exact hs
  | @returns y s _ _ hrun _ hends =>
    obtain ⟨W, -, hp, hy⟩ := hends
    by_cases hunion : s.graph.kind y = .union
    · obtain ⟨i, u, rfl, hi⟩ := Graph.exists_union_of_kind hunion
      rw [run_builtinProperty_union hrun hi]
      rcases uniteReads_cases hg hr hread hp.left fun x => hp.left.members_has hi with
        ⟨k, s', z, s'', -, hrun, -, -, hs''⟩ | ⟨o, s', -, hrun, hs', -⟩
      · rw [hrun]
        exact hs''
      · rw [hrun]
        exact hs'
    · rw [run_builtinProperty hrun hunion]
      rcases lockstep_cases hread hp.left hy.left.has with ⟨z, s', hrun, hs', -⟩ | ⟨s', hrun, hs'⟩
      · rw [hrun]
        exact hs'.tidy
      · rw [hrun]
        exact hs'

/-- Both reads are lost: the receiver is a union, and each of the two is what some member of it,
read alone, comes to. -/
def LostOnMembers (r : Resolvers) (st : Store) (receiver : Ty) (key : PropertyKey)
    (x y : Except Fault Ty) : Prop :=
  IsLost x ∧ IsLost y ∧ ∃ i s u, (Fold.settle r.unwrap r.limit receiver).Returns st (.node i) s ∧
    s.graph.shape i = .union u ∧
    (∃ m ∈ u.toList, ((r.uniteReads (r.memberProperty · key) [m]).run.run s).1 = x) ∧
    ∃ m ∈ u.toList, ((r.uniteReads (r.memberProperty · key) [m]).run.run s).1 = y

theorem uniteReads_paired {x y : Except Fault Ty} {j : NodeId} {t₁ t₂ : Store} (hg : g.Regular)
    (hr : r.instance? = none) (hread : Graph.Lockstep g read)
    (hp : Paired g [] W s₁.graph s₂.graph) (hij : W i j) (hi : s₁.graph.shape i = .union u)
    (hj : s₂.graph.shape j = .union v) (hx : (r.uniteReads read u.toList).run.run s₁ = (x, t₁))
    (hy : (r.uniteReads read v.toList).run.run s₂ = (y, t₂))
    (hext : t₁.graph.Extends s₂.graph) :
    (∃ t t', x = .ok t ∧ y = .ok t' ∧ t₂.graph.EqualUpToOrder t t') ∨
      IsLost x ∧ IsLost y ∧ (∃ m ∈ u.toList, ((r.uniteReads read [m]).run.run s₁).1 = x) ∧
        ∃ m ∈ u.toList, ((r.uniteReads read [m]).run.run s₁).1 = y := by
  have huv := hp.twins.members hij hi hj
  have hu := hp.left.fresh hi
  have hpending (k : NodeId) (hk : k ∈ u.unresolved) : W k k := hp.pending hu hk
  obtain ⟨ys, hperm, hpairs⟩ := huv.exists_perm hp.twins hu.distinct hpending
  have hmeets {m m' : Ty} (hmm : W.Pairs m m') : Meets g [] W s₁.graph m s₂.graph m' :=
    ⟨hmm, Graph.clear_nil (hp.twins.has hmm).1, Graph.clear_nil (hp.twins.has hmm).2⟩
  have hback {m' : Ty} (hm' : m' ∈ v.toList) : ∃ m ∈ u.toList, W.Pairs m m' :=
    exists_of_forall₂ hpairs.flip (hperm.symm.subset hm')
  rcases uniteReads_cases hg hr hread hp.left fun x => hp.left.members_has hi with
    ⟨k₁, s₁', t, t₁', hk₁, hrun₁, hends₁, hext₁, -⟩ | ⟨o₁, t₁', hloss₁, hrun₁, -, m₁, hm₁, hon₁⟩ <;>
    rcases uniteReads_cases hg hr hread hp.right fun x => hp.right.members_has hj with
    ⟨k₂, s₂', t', t₂', hk₂, hrun₂, hends₂, hext₂, htidy⟩ | ⟨o₂, t₂', hloss₂, hrun₂, -, m₂, hm₂, hon₂⟩
  · cases Eq.trans (Eq.symm hx) hrun₁
    cases Eq.trans (Eq.symm hy) hrun₂
    have hlater : t₁.graph.Extends t₂.graph := hext.trans (hk₂.start.ext.trans hext₂)
    have hends : k₁.EndsIn t₂.graph t := hends₁.imp fun i w hw => by
      rw [hlater.shape_eq i (Graph.lt_size_of_shape hw (by simp)), hw]
    exact .inl ⟨t, t', rfl, rfl, hk₁.equalUpToOrder hg hr hread hp hu.distinct hpending huv hk₂ htidy
      (hext₁.trans hlater) hext₂ hends hends₂⟩
  · obtain ⟨m, hm, hmm⟩ := hback hm₂
    obtain ⟨zs, hzs, -⟩ := hk₁.answers
    obtain ⟨z, -, hz⟩ := exists_of_forall₂ hzs hm
    exact absurd hon₂ (hz.not_lostOn hg hr hread hp (hmeets hmm))
  · obtain ⟨m', hm', hmm⟩ := exists_of_forall₂ hpairs hm₁
    obtain ⟨zs, hzs, -⟩ := hk₂.answers
    obtain ⟨z, -, hz⟩ := exists_of_forall₂ hzs (hperm.subset hm')
    exact absurd hon₁ (hz.not_lostOn hg hr hread hp.flip (hmeets hmm).flip)
  · cases Eq.trans (Eq.symm hx) hrun₁
    cases Eq.trans (Eq.symm hy) hrun₂
    obtain ⟨m, hm, hmm⟩ := hback hm₂
    have hs₁ : From g s₁.graph s₁ := ⟨.refl _, hp.left⟩
    have hloses₁ := hon₁.losesAt hg hr hread hp.left.diagonal (.diagonal
      (hp.left.members_has hi hm₁)) hs₁
    have hloses₂ := hon₂.losesAt hg hr hread hp.flip (hmeets hmm).flip hs₁
    exact .inr ⟨isLost_lostType hloss₁, isLost_lostType hloss₂, ⟨m₁, hm₁, hloses₁.alone⟩, m, hm,
      hloses₂.alone⟩

/-- Equal types are read alike. -/
theorem property_congr (hproperty : r.property? = none) (hr : r.instance? = none)
    (hg : st.graph.Regular) (ha : st.graph.Has a) (hb : st.graph.Has b)
    (hab : st.graph.equal a b = true) (key : PropertyKey) :
    ∃ x st₁ y st₂, (r.property a key).run.run st = (x, st₁) ∧
      (r.property b key).run.run st₁ = (y, st₂) ∧
      ((∃ t t', x = .ok t ∧ y = .ok t' ∧ st₂.graph.EqualUpToOrder t t') ∨
        x = .error .unendingInstance ∧ y = .error .unendingInstance ∨
        r.LostOnMembers st a key x y) := by
  simp only [property, hproperty]
  obtain ⟨x, st₁, hx⟩ : ∃ x st₁, (r.builtinProperty a key).run.run st = (x, st₁) := ⟨_, _, rfl⟩
  obtain ⟨y, st₂, hy⟩ : ∃ y st₂, (r.builtinProperty b key).run.run st₁ = (y, st₂) := ⟨_, _, rfl⟩
  refine ⟨x, st₁, y, st₂, hx, hy, ?_⟩
  have hread := memberProperty_lockstep hg hr key
  have hst₁ : Tidy st.graph [] st₁.graph := by
    have htidy : Tidy st.graph [] ((r.builtinProperty a key).run.run st).2.graph :=
      builtinProperty_tidy hg hr hg.tidy ha
    rwa [hx] at htidy
  have hpaired := Paired.start hg hg.tidy hst₁
  have hmeets : Meets st.graph [] st.graph.likeness st.graph a st₁.graph b :=
    ⟨(Graph.equal_iff.1 hab).pairs ha hb, Graph.clear_nil ha, Graph.clear_nil (hst₁.base.has hb)⟩
  cases receiver_joint hg hr hpaired hmeets with
  | unending hrun₁ hrun₂ =>
    rw [builtinProperty, ExceptT.run_bind_of_error hrun₁] at hx
    rw [builtinProperty, ExceptT.run_bind_of_error hrun₂] at hy
    cases hx
    cases hy
    exact .inr (.inl ⟨rfl, rfl⟩)
  | @returns a' s₁ b' s₂ hrun₁ hrun₂ hends =>
    obtain ⟨W, hgrown, hp, hsettled⟩ := hends
    have hkind := hp.twins.kind_eq hsettled.pairs
    by_cases hunion : s₁.graph.kind a' = .union
    · obtain ⟨i, u, rfl, hi⟩ := Graph.exists_union_of_kind hunion
      obtain ⟨j, v, rfl, hj⟩ := Graph.exists_union_of_kind (hkind ▸ hunion)
      rw [run_builtinProperty_union hrun₁ hi] at hx
      rw [run_builtinProperty_union hrun₂ hj] at hy
      rcases uniteReads_paired hg hr hread hp (World.pairs_node.1 hsettled.pairs) hi hj hx hy
        hgrown.right with hequal | ⟨hx, hy, hlost⟩
      · exact .inl hequal
      · exact .inr (.inr ⟨hx, hy, i, s₁, u, hrun₁, hi, hlost⟩)
    · rw [run_builtinProperty hrun₁ hunion] at hx
      rw [run_builtinProperty hrun₂ (hkind ▸ hunion)] at hy
      cases hread _ _ _ _ _ _ hp hsettled.toMeets with
      | unending hm₁ hm₂ =>
        cases Eq.trans (Eq.symm hx) hm₁
        cases Eq.trans (Eq.symm hy) hm₂
        exact .inr (.inl ⟨rfl, rfl⟩)
      | returns hm₁ hm₂ hends =>
        cases Eq.trans (Eq.symm hx) hm₁
        cases Eq.trans (Eq.symm hy) hm₂
        obtain ⟨W', hgrown', hp', hmeets'⟩ := hends
        have hext : st₁.graph.Extends st₂.graph := hgrown.right.trans hgrown'.right
        have hsim := hp'.twins.similar_of_extends hext (.refl _) hmeets'.pairs
        exact .inl ⟨_, _, rfl, rfl, .inl (Graph.equal_iff.2 hsim)⟩

theorem rings_property_congr :
    Graph.rings.Regular ∧ Graph.rings.equal (.node 3) (.node 4) = true ∧
      ∃ x st₁ y st₂,
        (({} : Resolvers).property (.node 3) (.named (text "next"))).run.run
          { graph := Graph.rings } = (x, st₁) ∧
        (({} : Resolvers).property (.node 4) (.named (text "next"))).run.run st₁ = (y, st₂) ∧
        ((∃ t t', x = .ok t ∧ y = .ok t' ∧ st₂.graph.EqualUpToOrder t t') ∨
          x = .error .unendingInstance ∧ y = .error .unendingInstance ∨
          ({} : Resolvers).LostOnMembers { graph := Graph.rings } (.node 3) (.named (text "next"))
            x y) := by
  have hregular : Graph.rings.Regular :=
    .of_shapes (by decide) (.of_rank (fun t => t.node?.elim 0 (· / 3)) (by decide))
      (by decide +kernel)
  have hequal : Graph.rings.equal (.node 3) (.node 4) = true := by decide +kernel
  exact ⟨hregular, hequal, property_congr rfl rfl hregular (by decide) (by decide) hequal _⟩

def fork : Graph :=
  let slots (k p : Ty) : List Slot := [⟨.named (text "k"), k, false⟩, ⟨.named (text "p"), p, false⟩]
  ⟨#[.unresolved (text "P"), .unresolved (text "Q"),
    .interface (text "I") (slots .any (.node 0)), .interface (text "J") (slots .unknown (.node 1)),
    .union { shapes := [2, 3] }, .union { shapes := [3, 2] }]⟩

theorem regular_fork : fork.Regular :=
  .of_shapes (by decide) (.of_rank (fun t => t.node?.elim 0 (· / 4)) (by decide)) (by decide +kernel)

/-- Equal types, the order of whose members shows in what is read of them: the first of the two
absorbing answers wins, and placeholders are kept in order. -/
theorem fork_not_congr :
    fork.Regular ∧ fork.equal (.node 4) (.node 5) = true ∧
    (∃ st₁ st₂,
      (({} : Resolvers).property (.node 4) (.named (text "k"))).Returns { graph := fork } .any st₁ ∧
      (({} : Resolvers).property (.node 5) (.named (text "k"))).Returns st₁ .unknown st₂ ∧
      st₂.graph.equal .any .unknown = false) ∧
    ∃ st₁ st₂,
      (({} : Resolvers).property (.node 4) (.named (text "p"))).Returns { graph := fork } (.node 6)
        st₁ ∧
      (({} : Resolvers).property (.node 5) (.named (text "p"))).Returns st₁ (.node 7) st₂ ∧
      st₂.graph.equal (.node 6) (.node 7) = false := by
  refine ⟨regular_fork, by decide +kernel, ⟨_, _, rfl, rfl, ?_⟩, ⟨_, _, rfl, rfl, ?_⟩⟩
  · decide +kernel
  · decide +kernel

end Resolvers

end FlowTyping
