import FlowTyping.Proofs.FoldAlgebra

namespace FlowTyping

variable {g h : Graph} {f k : Fold} {t : Ty} {ts xs : List Ty} {st : Store}

namespace Members.Fits

variable {R : Ty → Ty → Prop} {u v : Members}

theorem exists_related_of (hword : ∀ t, t.node? = none → R t t)
    (hpending : ∀ i ∈ u.unresolved, R (.node i) (.node i)) (huv : u.Fits R v) (ht : t ∈ u.toList) :
    ∃ t' ∈ v.toList, R t t' := by
  have hsame (hnode : t.node? = none) (hv : v.Includes t) : ∃ t' ∈ v.toList, R t t' :=
    ⟨t, mem_toList.2 hv, hword t hnode⟩
  rw [mem_toList] at ht
  cases t with
  | node i =>
    rcases ht with hi | hi
    · obtain ⟨j, hj, hij⟩ := huv.covered i hi
      exact ⟨.node j, mem_toList.2 (.inl hj), hij⟩
    · exact ⟨.node i, mem_toList.2 (.inr (huv.unresolved ▸ hi)), hpending i hi⟩
  | simple s =>
    apply hsame rfl
    cases s <;> simp_all [Includes, huv.strings.2.1, huv.numbers.2.1, huv.bigints.2.1,
      huv.symbols.2.1, huv.object, huv.void, huv.null, huv.undefined, huv.hasTrue, huv.hasFalse]
  | boolean b =>
    apply hsame rfl
    cases b <;> simp_all [Includes, huv.hasTrue, huv.hasFalse]
  | string w => exact hsame rfl ((huv.strings.2.2 w).1 ht)
  | number w => exact hsame rfl ((huv.numbers.2.2 w).1 ht)
  | bigint w => exact hsame rfl ((huv.bigints.2.2 w).1 ht)
  | symbol w => exact hsame rfl ((huv.symbols.2.2 w).1 ht)

theorem exists_related (hR : ∀ t, R t t) (huv : u.Fits R v) (ht : t ∈ u.toList) :
    ∃ t' ∈ v.toList, R t t' :=
  huv.exists_related_of (fun t _ => hR t) (fun _ _ => hR _) ht

theorem length_toList (huv : u.Fits R v) : u.toList.length = v.toList.length := by
  have hperm := huv.toList_perm (fun _ => ()) (by simp [Function.comp_def, huv.count])
  simpa using hperm.length_eq

end Members.Fits

namespace Graph

theorem Similar.kind_eq {a b : Ty} (hab : g.Similar a b) : g.kind a = g.kind b := by
  cases hab.alike with
  | same => rfl
  | fits hfits => exact hfits.kind_eq

theorem Covered.parts (hts : g.Covered ts xs) :
    g.Covered (ts.flatMap g.parts) (xs.flatMap g.parts) := by
  intro x hx
  obtain ⟨t, ht, hx⟩ := List.mem_flatMap.1 hx
  obtain ⟨s, hs, hts⟩ := hts t ht
  have hparts : ∃ y ∈ g.parts s, g.Similar x y := by
    by_cases hunion : g.kind t = .union
    · cases t with
      | node i =>
        obtain ⟨j, rfl⟩ := hts.exists_node
        obtain ⟨u, hi⟩ := Shape.exists_union_of_kind hunion
        obtain ⟨v, hj⟩ := Shape.exists_union_of_kind (hts.kind_eq.symm.trans hunion)
        simp only [Graph.parts, hi, hj] at hx ⊢
        exact ((similar_union_iff hi hj).1 hts).exists_related (.refl g) hx
      | _ => cases hunion
    · rw [parts_of_kind_ne hunion, List.mem_singleton] at hx
      rw [parts_of_kind_ne (hts.kind_eq ▸ hunion)]
      exact ⟨s, by simp, hx ▸ hts⟩
  obtain ⟨y, hy, hxy⟩ := hparts
  exact ⟨y, List.mem_flatMap.2 ⟨s, hs, hy⟩, hxy⟩

end Graph

namespace Fold

variable {ss : List Ty} {e : Fold}

theorem escalation_eq {a b : Ty} (hab : g.Similar a b) : escalation g a = escalation g b := by
  rw [escalation, escalation, hab.kind_eq]

theorem foldlM_of_escalation (hf : f.isTerminal = false)
    (hxs : ∀ x ∈ xs, g.kind x ≠ .union ∧ g.kind x ≠ .instantiation)
    (hsome : ∃ x ∈ xs, ∃ k, escalation g x = some k)
    (hsame : ∀ x ∈ xs, ∀ k, escalation g x = some k → k = e) :
    xs.foldlM (absorbMember g) f = .ok e := by
  induction xs generalizing f with
  | nil => simp at hsome
  | cons x xs ih =>
    obtain ⟨hunion, hopen⟩ := hxs x (by simp)
    have hrest (f₁ : Fold) (hf₁ : absorbMember g f x = .ok f₁) (hterm : f₁.isTerminal = false)
        (hx : escalation g x = none) : (x :: xs).foldlM (absorbMember g) f = .ok e := by
      rw [List.foldlM_cons, hf₁]
      refine ih hterm (fun y hy => hxs y (by simp [hy])) ?_ fun y hy => hsame y (by simp [hy])
      obtain ⟨y, hy, k, hk⟩ := hsome
      rcases List.mem_cons.1 hy with rfl | hy
      · simp [hx] at hk
      · exact ⟨y, hy, k, hk⟩
    rcases part_cases hunion hopen with rfl | ⟨k, hk⟩ | ⟨hmember, hnone⟩
    · exact hrest f (absorbMember_never f) hf rfl
    · obtain rfl := hsame x (by simp) k hk
      rw [List.foldlM_cons, absorbMember_of_escalation hf hk]
      exact foldlM_of_isTerminal (isTerminal_of_escalation hk) xs
    · obtain ⟨u, hu⟩ := Members.exists_add f.members hmember
      refine hrest (.compound u) ?_ rfl hnone
      rw [absorbMember_of_isMember hf hmember, hu]
      rfl

theorem isTerminal_of_foldlM
    (hxs : ∀ x ∈ xs, g.kind x ≠ .union ∧ g.kind x ≠ .instantiation)
    (hsome : f.isTerminal = true ∨ ∃ x ∈ xs, ∃ e, escalation g x = some e)
    (hk : xs.foldlM (absorbMember g) f = .ok k) : k.isTerminal = true := by
  induction xs generalizing f with
  | nil =>
    cases hk
    simpa using hsome
  | cons x xs ih =>
    obtain ⟨hunion, hopen⟩ := hxs x (by simp)
    obtain ⟨f₁, hf₁, -⟩ := absorbMember_ok (f := f) hunion hopen
    rw [List.foldlM_cons, hf₁] at hk
    refine ih (f := f₁) (fun y hy => hxs y (by simp [hy])) ?_ hk
    cases hf : f.isTerminal with
    | true =>
      rw [absorbMember_of_isTerminal hf] at hf₁
      cases hf₁
      exact .inl hf
    | false =>
      rw [hf] at hsome
      obtain ⟨y, hy, e, he⟩ := hsome.resolve_left (by simp)
      rcases List.mem_cons.1 hy with rfl | hy
      · rw [absorbMember_of_escalation hf he] at hf₁
        cases hf₁
        exact .inl (isTerminal_of_escalation he)
      · exact .inr ⟨y, hy, e, he⟩

theorem foldlM_collects
    (hxs : ∀ x ∈ xs, g.kind x ≠ .union ∧ g.kind x ≠ .instantiation ∧ g.kind x ≠ .unresolved)
    (hnone : ∀ x ∈ xs, escalation g x = none) :
    ((∀ x ∈ xs, x = .never) ∧ xs.foldlM (absorbMember g) .never = .ok .never) ∨
      (∃ x ∈ xs, x ≠ .never) ∧ ∃ u, xs.foldlM (absorbMember g) .never = .ok (.compound u) ∧
        u.Collects g (xs.filter (· ≠ .never)) := by
  have hskip (f : Fold) : xs.foldlM (absorbMember g) f =
      (xs.filter (· ≠ .never)).foldlM (absorbMember g) f := by
    clear hxs hnone
    induction xs generalizing f with
    | nil => rfl
    | cons x xs ih =>
      by_cases hx : x = .never
      · subst hx
        rw [List.foldlM_cons, absorbMember_never, List.filter_cons_of_neg (by simp)]
        exact ih f
      · rw [List.filter_cons_of_pos (by simpa using hx), List.foldlM_cons, List.foldlM_cons]
        exact bind_congr ih
  have hmembers : ∀ x ∈ xs.filter (· ≠ .never),
      (g.kind x).isMember = true ∧ g.kind x ≠ .unresolved := by
    intro x hx
    obtain ⟨hx, hnever⟩ := List.mem_filter.1 hx
    obtain ⟨hunion, hopen, hres⟩ := hxs x hx
    rcases part_cases hunion hopen with rfl | ⟨k, hk⟩ | ⟨hmember, -⟩
    · simp at hnever
    · simp [hnone x hx] at hk
    · exact ⟨hmember, hres⟩
  rw [hskip]
  by_cases hall : ∀ x ∈ xs, x = .never
  · have hnil : xs.filter (· ≠ .never) = [] := by simpa using hall
    rw [hnil]
    exact .inl ⟨hall, rfl⟩
  · have hne : xs.filter (· ≠ .never) ≠ [] := by simpa using hall
    obtain ⟨u, hu, hcollects⟩ := (Members.collects_empty g).foldlM hmembers
    refine .inr ⟨by simpa using hall, u, ?_, by simpa using hcollects⟩
    rw [foldlM_absorbMember_of_isMember rfl hne fun x hx => (hmembers x hx).1]
    change (List.foldlM (Members.add g) {} _).map _ = _
    rw [hu]
    rfl

/-- Two folds that are the same word, or have members that fit each other. -/
def Alike (g : Graph) (f k : Fold) : Prop :=
  f = k ∨ ∃ u v, f = .compound u ∧ k = .compound v ∧ u.Fits g.Similar v

theorem Alike.similar {t' : Ty} (hfk : f.Alike g k) (hf : f.Reached g) (ht : f.EndsIn g t)
    (ht' : k.EndsIn g t') : g.Similar t t' := by
  rcases hfk with rfl | ⟨u, v, rfl, rfl, huv⟩
  · rcases ht.unique hf ht' with ⟨rfl, -⟩ | ⟨i, j, u, rfl, rfl, hi, hj⟩
    · exact .refl g t
    · exact (Graph.similar_union_iff hi hj).2 (.refl (.refl g) u)
  · have hlen := huv.length_toList
    simp only [EndsIn] at ht ht'
    split at ht
    · rename_i m hm
      rw [hm, List.length_singleton] at hlen
      obtain ⟨m', hm'⟩ := List.length_eq_one_iff.1 hlen.symm
      obtain ⟨t'', hmem, hsim⟩ := huv.exists_related (.refl g) (t := m) (by simp [hm])
      simp only [hm', List.mem_singleton] at ht' hmem
      rw [ht, ht', ← hmem]
      exact hsim
    · rename_i hmany
      obtain ⟨i, rfl, hi⟩ := ht
      split at ht'
      · rename_i m' hm'
        rw [hm', List.length_singleton] at hlen
        obtain ⟨m, hm⟩ := List.length_eq_one_iff.1 hlen
        exact absurd hm (hmany m)
      · obtain ⟨j, rfl, hj⟩ := ht'
        exact (Graph.similar_union_iff hi hj).2 huv

theorem Alike.extends (hgh : g.Extends h) (hg : g.Closed) (hfk : f.Alike g k)
    (hf : ∀ j, .node j ∈ f.members.toList → g.Has (.node j))
    (hk : ∀ j, .node j ∈ k.members.toList → g.Has (.node j)) : f.Alike h k := by
  rcases hfk with rfl | ⟨u, v, rfl, rfl, huv⟩
  · exact .inl rfl
  · refine .inr ⟨u, v, rfl, rfl, { huv with covered := fun i hi => ?_ }⟩
    obtain ⟨j, hj, hij⟩ := huv.covered i hi
    have hi := hgh.agreesAt hg (hf i (Members.node_mem_toList.2 (.inl hi)))
    exact ⟨j, hj, hi.similar (hgh.agreesAt hg (hk j (Members.node_mem_toList.2 (.inl hj)))) hij⟩

theorem alike_of_covered (hsymm : ∀ a b, g.Similar a b → g.Similar b a)
    (hparts : ∀ x ∈ xs ++ ss,
      g.kind x ≠ .union ∧ g.kind x ≠ .instantiation ∧ g.kind x ≠ .unresolved)
    (hsame : ∀ x ∈ xs ++ ss, ∀ k, escalation g x = some k → k = e)
    (hxs : g.Covered xs ss) (hss : g.Covered ss xs)
    (hf : xs.foldlM (absorbMember g) .never = .ok f)
    (hk : ss.foldlM (absorbMember g) .never = .ok k) : f.Alike g k := by
  have hpartx : ∀ x ∈ xs, _ := fun x hx => hparts x (List.mem_append_left ss hx)
  have hparts' : ∀ x ∈ ss, _ := fun x hx => hparts x (List.mem_append_right xs hx)
  by_cases hesc : ∃ x ∈ xs, ∃ k, escalation g x = some k
  · have hesc' : ∃ x ∈ ss, ∃ k, escalation g x = some k := by
      obtain ⟨x, hx, k, hk⟩ := hesc
      obtain ⟨y, hy, hxy⟩ := hxs x hx
      exact ⟨y, hy, k, escalation_eq hxy ▸ hk⟩
    rw [foldlM_of_escalation rfl (fun x hx => ⟨(hpartx x hx).1, (hpartx x hx).2.1⟩) hesc
      fun x hx => hsame x (List.mem_append_left ss hx)] at hf
    rw [foldlM_of_escalation rfl (fun x hx => ⟨(hparts' x hx).1, (hparts' x hx).2.1⟩) hesc'
      fun x hx => hsame x (List.mem_append_right xs hx)] at hk
    cases hf
    cases hk
    exact .inl rfl
  · have hnone : ∀ x ∈ xs, escalation g x = none := by
      intro x hx
      by_contra hne
      exact hesc ⟨x, hx, Option.ne_none_iff_exists'.1 hne⟩
    have hnone' : ∀ x ∈ ss, escalation g x = none := by
      intro x hx
      obtain ⟨y, hy, hxy⟩ := hss x hx
      rw [escalation_eq hxy]
      exact hnone y hy
    have hfilter {as bs : List Ty} (hab : g.Covered as bs) :
        g.Covered (as.filter (· ≠ .never)) (bs.filter (· ≠ .never)) := by
      intro a ha
      obtain ⟨ha, hne⟩ := List.mem_filter.1 ha
      obtain ⟨b, hb, hsim⟩ := hab a ha
      refine ⟨b, List.mem_filter.2 ⟨hb, ?_⟩, hsim⟩
      rw [decide_eq_true_iff] at hne ⊢
      rintro rfl
      exact hne ((hsymm _ _ hsim).eq_of_not_node rfl)
    have hnever {as bs : List Ty} (hab : g.Covered as bs) (hbs : ∀ b ∈ bs, b = .never) :
        ∀ a ∈ as, a = .never := by
      intro a ha
      obtain ⟨b, hb, hsim⟩ := hab a ha
      obtain rfl := hbs b hb
      exact (hsymm _ _ hsim).eq_of_not_node rfl
    rcases foldlM_collects hpartx hnone with ⟨hall, hrun⟩ | ⟨⟨x, hx, hne⟩, u, hrun, hu⟩ <;>
      rw [hrun] at hf <;> cases hf <;>
      rcases foldlM_collects hparts' hnone' with ⟨hall', hrun'⟩ | ⟨⟨y, hy, hne'⟩, v, hrun', hv⟩ <;>
      rw [hrun'] at hk <;> cases hk
    · exact .inl rfl
    · exact absurd (hnever hss hall y hy) hne'
    · exact absurd (hnever hxs hall' x hx) hne
    · exact .inr ⟨u, v, rfl, rfl, hu.fits hsymm hv (hfilter hxs) (hfilter hss)⟩

end Fold

namespace Resolvers

variable {r : Resolvers} {ms ns : List Ty} {e : Fold}

/-- A fold depends only on the set of its types up to equality, as long as there are no placeholders
and all types that escalate lead to the same answer. -/
theorem unite_equal_of_covered (hlimit : 0 < r.limit) (hg : st.graph.WellFormed)
    (hacyclic : st.graph.UnionsAcyclic) (hdistinct : st.graph.DistinctShapes)
    (hm : 2 ≤ ms.length) (hn : 2 ≤ ns.length) (hhas : ∀ t ∈ ms ++ ns, st.graph.Has t)
    (hms : ∀ m ∈ ms, ∃ n ∈ ns, st.graph.equal m n = true)
    (hns : ∀ n ∈ ns, ∃ m ∈ ms, st.graph.equal n m = true)
    (hparts : ∀ x ∈ (ms ++ ns).flatMap st.graph.parts,
      st.graph.kind x ≠ .unresolved ∧ st.graph.kind x ≠ .instantiation)
    (hsame : ∀ x ∈ (ms ++ ns).flatMap st.graph.parts, ∀ k,
      Fold.escalation st.graph x = some k → k = e) :
    ∃ t st₁ t' st₂, (r.unite ms).Returns st t st₁ ∧ (r.unite ns).Returns st₁ t' st₂ ∧
      st₂.graph.equal t t' = true := by
  have hopen : ∀ t ∈ ms ++ ns, st.graph.kind t ≠ .instantiation := by
    intro t ht hinst
    have hself : st.graph.parts t = [t] := Graph.parts_of_kind_ne (by simp [hinst])
    exact (hparts t (List.mem_flatMap.2 ⟨t, ht, by simp [hself]⟩)).2 hinst
  have hpart : ∀ x ∈ (ms ++ ns).flatMap st.graph.parts, st.graph.kind x ≠ .union ∧
      st.graph.kind x ≠ .instantiation ∧ st.graph.kind x ≠ .unresolved := by
    intro x hx
    obtain ⟨t, ht, hxt⟩ := List.mem_flatMap.1 hx
    exact ⟨(hg.flat.absorbable (hopen t ht) x hxt).1, (hparts x hx).2, (hparts x hx).1⟩
  have ha : st.graph.Answers fun _ => .never := fun _ _ => ⟨trivial, by simp [Graph.kind]⟩
  have hself (ts : List Ty) (hts : ∀ t ∈ ts, t ∈ ms ++ ns) :
      ts.map (st.graph.opened fun _ => .never) = ts := by
    conv_rhs => rw [← List.map_id ts]
    exact List.map_congr_left fun t ht => Graph.opened_of_kind_ne (hopen t (hts t ht))
  obtain ⟨f, hfhas, hf⟩ := exists_fold hg ha fun t (ht : t ∈ ms) => hhas t (by simp [ht])
  obtain ⟨k, hkhas, hk⟩ := exists_fold hg ha fun t (ht : t ∈ ns) => hhas t (by simp [ht])
  rw [hself ms (by simp +contextual)] at hf
  rw [hself ns (by simp +contextual)] at hk
  have halike : f.Alike st.graph k := by
    have hm := hacyclic.matchesOnce hdistinct
    have hf' := (hf _ (.refl _)).1
    have hk' := (hk _ (.refl _)).1
    rw [Fold.foldlM_absorb_eq] at hf' hk'
    rw [List.flatMap_append] at hpart hsame
    simp only [Graph.equal_iff] at hms hns
    refine Fold.alike_of_covered (fun a b hab => ?_) hpart hsame (Graph.Covered.parts hms)
      (Graph.Covered.parts hns) hf' hk'
    exact hab.symm_of_covers fun i _ => (hm i).covers hdistinct
  have hopens {h : Graph} (hgh : st.graph.Extends h) : ∀ t ∈ ms ++ ns, r.Opens h t t := by
    intro t ht
    apply opens_of_kind_ne hlimit
    rw [hgh.kind_eq (hhas t ht)]
    exact hopen t ht
  have hid (ts : List Ty) : ts.map id = ts := List.map_id ts
  obtain ⟨t, st₁, t', st₂, hrun, hrun', hext, hends, hends'⟩ := unite_twice (o := id) (p := id) hm
    (fun t ht => hopens (.refl _) t (by simp [ht])) ((hid ms).symm ▸ (hf _ (.refl _)).1) hn
    (fun h hgh t ht => hopens hgh t (by simp [ht])) fun h hgh => (hid ns).symm ▸ (hk h hgh).1
  refine ⟨t, st₁, t', st₂, hrun, hrun', Graph.equal_iff.2 ?_⟩
  exact (halike.extends hext hg.closed hfhas hkhas).similar (hf _ hext).2 hends hends'

theorem rings_unite_equal :
    Graph.rings.WellFormed ∧ Graph.rings.UnionsAcyclic ∧ Graph.rings.DistinctShapes ∧
      ∃ t st₁ t' st₂,
        (({} : Resolvers).unite [.node 3, .string (text "end"), .node 0]).Returns
          { graph := Graph.rings } t st₁ ∧
        (({} : Resolvers).unite [.node 2, .node 4, .string (text "end"), .node 1]).Returns
          st₁ t' st₂ ∧
        st₂.graph.equal t t' = true := by
  have hwell : Graph.rings.WellFormed := Graph.wellFormed_of_admits (by decide)
  have hacyclic : Graph.rings.UnionsAcyclic :=
    .of_rank (fun t => t.node?.elim 0 (· / 3)) (by decide)
  have hdistinct : Graph.rings.DistinctShapes := by decide +kernel
  refine ⟨hwell, hacyclic, hdistinct, ?_⟩
  exact unite_equal_of_covered (e := .error) (by decide) hwell hacyclic hdistinct (by decide)
    (by decide) (by decide) (by decide +kernel) (by decide +kernel) (by decide) (by decide)

end Resolvers

end FlowTyping
