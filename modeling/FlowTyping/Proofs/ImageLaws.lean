import FlowTyping.Proofs.Images
import Mathlib.Data.List.Perm.Subperm

namespace FlowTyping

namespace Substitution

variable {g : Graph} {b : Bindings} {root t : Ty} {S : List NodeId} {μ : Images} {st : Store}
  {i j k : NodeId} {u : Members} {f : Fold} {subst : Ty → SubstT TypeM Ty} {ts : List Ty}

def Finds (g : Graph) (b : Bindings) (root : Ty) (S : List NodeId) (subst : Ty → SubstT TypeM Ty)
    (t : Ty) : Prop :=
  ∀ μ st, Progress g b root S μ st.graph → ∃ μ' st',
    (subst t).Returns μ st (img g b μ' t) μ' st' ∧ Progress g b root S μ' st'.graph ∧
      Grows μ st.graph μ' st'.graph ∧ Known g b μ' t

theorem fillChildren_returns {μ₀ : Images} {h : Graph} (done : List Ty) (hs : Setting g b root)
    (hj : j ∈ S) (hunion : g.kind (.node j) ≠ .union) (hk : h.size ≤ k)
    (hsubst : ∀ t ∈ ts, Finds g b root S subst t) (hhas : ∀ t ∈ done ++ ts, g.Has t)
    (hp : Progress g b root S μ st.graph) (hg : Grows μ₀ h μ st.graph)
    (hm : Made g μ st.graph j k) (hknown : ∀ t ∈ done, Known g b μ t)
    (hshape : st.graph.shape k = (g.shape j).refill (done.map (img g b μ))) :
    ∃ μ' st', (fillChildren subst k (g.shape j) ts (done.map (img g b μ))).Returns μ st () μ' st' ∧
      Progress g b root S μ' st'.graph ∧ Grows μ₀ h μ' st'.graph ∧
      (∀ t ∈ done ++ ts, Known g b μ' t) ∧
      st'.graph.shape k = (g.shape j).refill ((done ++ ts).map (img g b μ')) := by
  induction ts generalizing done μ st with
  | nil => exact ⟨μ, st, .pure _ _ _, hp, hg, by simpa using hknown, by simpa using hshape⟩
  | cons t ts ih =>
    obtain ⟨μ₁, st₁, hrun, hp₁, hg₁, ht⟩ := hsubst t (by simp) μ st hp
    have hdone : done.map (img g b μ) ++ [img g b μ₁ t] = (done ++ [t]).map (img g b μ₁) := by
      rw [List.map_append, List.map_singleton, hg₁.map_img_eq hp₁.affected hknown]
    have hm₁ : Made g μ₁ st₁.graph j k :=
      ⟨hg₁.lookup j _ hm.1, (hg₁.ext.kind_eq (hp.entry j _ hm.1).2.2).trans hm.2⟩
    let filled : Shape := (g.shape j).refill ((done ++ [t]).map (img g b μ₁))
    let st₂ : Store := { st₁ with graph := st₁.graph.replace k filled }
    have hp₂ : Progress g b root S μ₁ st₂.graph := by
      refine hp₁.fill hs hj hm₁ hunion (Shape.kind_refill _ _) fun c hc => ?_
      rcases Shape.children_refill hunion hc with hc | rfl
      · obtain ⟨x, hx, rfl⟩ := List.mem_map.1 hc
        exact hp₁.has_img hs (hhas x (by simp at hx ⊢; tauto))
      · trivial
    have hg₂ : Grows μ₀ h μ₁ st₂.graph :=
      ⟨(hg.trans hg₁).lookup, (hg.trans hg₁).ext.replace hk filled⟩
    have hm₂ : Made g μ₁ st₂.graph j k := by
      obtain ⟨_, _, ⟨⟩, hm₂⟩ := hp₂.copy j _ hm₁.1 hunion
      exact hm₂
    have hshape₂ : st₂.graph.shape k = (g.shape j).refill ((done ++ [t]).map (img g b μ₁)) :=
      Graph.shape_replace_self filled (hp₁.entry j _ hm₁.1).2.2
    obtain ⟨μ', st', hrest, hp', hg', hknown', hshape'⟩ := ih (done ++ [t])
      (fun t ht => hsubst t (by simp [ht])) (by simpa using hhas) hp₂ hg₂ hm₂
      (hg₁.known_concat hknown ht) hshape₂
    refine ⟨μ', st', hrun.bind ?_, hp', hg', by simpa using hknown', by simpa using hshape'⟩
    rw [hdone]
    exact (SubstT.Returns.lift (TypeM.Returns.fill k filled st₁) μ₁).bind hrest

theorem foldMembers_returns (done : List Ty) (hs : Setting g b root)
    (unwrap : NodeId → TypeM Ty) (n : Nat) (hi : g.shape i = .union u)
    (hmem : ∀ t ∈ done ++ ts, t ∈ u.toList) (hsubst : ∀ t ∈ ts, Finds g b root S subst t)
    (hp : Progress g b root S μ st.graph) (hknown : ∀ t ∈ done, Known g b μ t)
    (hf : (done.map (img g b μ)).foldlM (Fold.absorb st.graph) .never = .ok f) :
    ∃ f' μ' st', (foldMembers subst (Fold.add unwrap (n + 1)) ts f).Returns μ st f' μ' st' ∧
      Progress g b root S μ' st'.graph ∧ Grows μ st.graph μ' st'.graph ∧
      (∀ t ∈ done ++ ts, Known g b μ' t) ∧
      ((done ++ ts).map (img g b μ')).foldlM (Fold.absorb st'.graph) .never = .ok f' := by
  induction ts generalizing done f μ st with
  | nil => exact ⟨f, μ, st, .pure _ _ _, hp, .refl _ _, by simpa using hknown, by simpa using hf⟩
  | cons t ts ih =>
    obtain ⟨μ₁, st₁, hrun, hp₁, hg₁, ht⟩ := hsubst t (by simp) μ st hp
    have himg := hg₁.map_img_eq hp₁.affected hknown
    have hmem₁ : ∀ c ∈ done, c ∈ u.toList := fun c hc => hmem c (by simp [hc])
    have hf₁ : (done.map (img g b μ₁)).foldlM (Fold.absorb st₁.graph) .never = .ok f := by
      rw [himg, hp.fold_congr hs hi hmem₁ fun c hc => hp.agreesAt_img hs hg₁.ext hi (hmem₁ c hc), hf]
    obtain ⟨hopen, habsorb⟩ := hp₁.absorbable_member hs hi (hmem t (by simp))
    have hlast : ∀ x ∈ [img g b μ₁ t], st₁.graph.Absorbable x := by simpa using habsorb
    obtain ⟨f₁, hadd, _⟩ := Fold.foldlM_absorb_ok (f := f) hlast
    have hfold : ((done ++ [t]).map (img g b μ₁)).foldlM (Fold.absorb st₁.graph) .never = .ok f₁ := by
      rw [List.map_append, List.foldlM_append, hf₁]
      exact hadd
    obtain ⟨f', μ', st', hrest, hp', hg', hknown', hfold'⟩ := ih (done ++ [t]) (by simpa using hmem)
      (fun t ht => hsubst t (by simp [ht])) hp₁ (hg₁.known_concat hknown ht) hfold
    refine ⟨f', μ', st', hrun.bind ?_, hp', hg₁.trans hg', by simpa using hknown',
      by simpa using hfold'⟩
    exact (SubstT.Returns.lift (Fold.add_returns unwrap n hopen (by simpa using hadd)) μ₁).bind hrest

section Steps

variable {add : Fold → Ty → TypeM Fold} {fuel : Nat} {μ₁ : Images} {st₁ st₂ : Store}

theorem image_of_not_node (ht : t.node? = none) (μ : Images) (st : Store) :
    (image b add (fuel + 1) t).Returns μ st t μ st := by
  cases t with
  | node i => cases ht
  | _ => exact .pure _ _ _

theorem image_of_unresolved (hj : st.graph.kind (.node j) = .unresolved) (μ : Images) :
    (image b add (fuel + 1) (.node j)).Returns μ st ((b.lookup j).getD (.node j)) μ st := by
  obtain ⟨name, hshape⟩ := Shape.exists_unresolved_of_kind hj
  refine (SubstT.Returns.lift (.graph st) μ).bind ?_
  simp only [hshape]
  exact .pure _ _ _

theorem image_of_lookup (hj : st.graph.kind (.node j) ≠ .unresolved) (hl : μ.lookup j = some t) :
    (image b add (fuel + 1) (.node j)).Returns μ st t μ st := by
  refine (SubstT.Returns.lift (.graph st) μ).bind ?_
  split
  · rename_i name hshape
    exact absurd (congrArg Shape.kind hshape) hj
  · refine (SubstT.Returns.get μ st).bind ?_
    simp only [hl]
    exact .pure _ _ _

theorem image_of_not_mentions (hj : st.graph.kind (.node j) ≠ .unresolved)
    (hl : μ.lookup j = none) (hm : st.graph.mentions b.binds (.node j) = false) :
    (image b add (fuel + 1) (.node j)).Returns μ st (.node j) μ st := by
  refine (SubstT.Returns.lift (.graph st) μ).bind ?_
  split
  · rename_i name hshape
    exact absurd (congrArg Shape.kind hshape) hj
  · refine (SubstT.Returns.get μ st).bind ?_
    simp only [hl, hm]
    exact .pure _ _ _

theorem image_of_union (hj : st.graph.shape j = .union u) (hl : μ.lookup j = none)
    (hm : st.graph.mentions b.binds (.node j) = true)
    (hfold : (foldMembers (image b add fuel) add u.toList .never).Returns μ st f μ₁ st₁)
    (hfinish : f.finish.Returns st₁ t st₂) :
    (image b add (fuel + 1) (.node j)).Returns μ st t ((j, t) :: μ₁) st₂ := by
  refine (SubstT.Returns.lift (.graph st) μ).bind ?_
  simp only [hj]
  refine (SubstT.Returns.get μ st).bind ?_
  simp only [hl, hm]
  refine hfold.bind ((SubstT.Returns.lift hfinish μ₁).bind ?_)
  exact (SubstT.Returns.modify _ μ₁ st₂).bind (.pure _ _ _)

theorem image_of_copy (hj : st.graph.kind (.node j) ≠ .unresolved)
    (hunion : st.graph.kind (.node j) ≠ .union) (hl : μ.lookup j = none)
    (hm : st.graph.mentions b.binds (.node j) = true)
    (hfill : (fillChildren (image b add fuel) st.graph.size (st.graph.shape j)
      (st.graph.shape j).children []).Returns ((j, .node st.graph.size) :: μ)
        { st with graph := st.graph.push ((st.graph.shape j).refill []) } () μ₁ st₁) :
    (image b add (fuel + 1) (.node j)).Returns μ st (.node st.graph.size) μ₁ st₁ := by
  refine (SubstT.Returns.lift (.graph st) μ).bind ?_
  split
  · rename_i name hshape
    exact absurd (congrArg Shape.kind hshape) hj
  · refine (SubstT.Returns.get μ st).bind ?_
    simp only [hl, hm, Bool.not_true, Bool.false_eq_true, if_false]
    split
    · rename_i u hshape
      exact absurd (congrArg Shape.kind hshape) hunion
    · refine (SubstT.Returns.lift (.alloc _ st) μ).bind ?_
      exact (SubstT.Returns.modify _ μ _).bind (hfill.bind (.pure _ _ _))

end Steps

structure Above (g : Graph) (S : List NodeId) (t : Ty) : Prop where
  nodup : S.Nodup
  path : ∀ i ∈ S, Relation.TransGen g.Child (.node i) t

theorem Above.length_le (ha : Above g S t) : S.length ≤ g.size := by
  have hsub : S ⊆ List.range g.size := by
    intro i hi
    obtain ⟨c, hic, _⟩ := Relation.TransGen.head'_iff.1 (ha.path i hi)
    refine List.mem_range.2 (Graph.lt_size_of_shape rfl fun hshape => ?_)
    rw [Graph.child_node, hshape] at hic
    cases hic
  simpa using (List.Nodup.subperm ha.nodup hsub).length_le

theorem Above.cons (ha : Above g S (.node j)) (hj : j ∉ S) (ht : t ∈ (g.shape j).children) :
    Above g (j :: S) t := by
  refine ⟨List.nodup_cons.2 ⟨hj, ha.nodup⟩, fun i hi => ?_⟩
  rcases List.mem_cons.1 hi with rfl | hi
  · exact .single ht
  · exact (ha.path i hi).tail ht

theorem Above.not_mem (ha : Above g S (.node j)) (hs : Setting g b root)
    (hp : Progress g b root S μ st.graph) (hroot : g.Reaches root (.node j))
    (hl : μ.lookup j = none) : j ∉ S := by
  intro hj
  have hunion : g.kind (.node j) = .union := by
    by_contra hunion
    simpa [hl] using (hp.under j hj).2 hunion
  exact hs.acyclic j hroot hunion (ha.path j hj)

theorem copy_returns (hs : Setting g b root) (hp : Progress g b root S μ st.graph)
    (hroot : g.Reaches root (.node j)) (haff : Affected g b j)
    (hunion : g.kind (.node j) ≠ .union) (hl : μ.lookup j = none)
    (hsubst : ∀ t ∈ (g.shape j).children, Finds g b root (j :: S) subst t) :
    ∃ μ' st', (fillChildren subst st.graph.size (g.shape j) (g.shape j).children []).Returns
        ((j, .node st.graph.size) :: μ)
        { st with graph := st.graph.push ((g.shape j).refill []) } () μ' st' ∧
      Progress g b root S μ' st'.graph ∧
      Grows ((j, .node st.graph.size) :: μ) st.graph μ' st'.graph := by
  let st₁ : Store := { st with graph := st.graph.push ((g.shape j).refill []) }
  have hkind : st₁.graph.kind (.node st.graph.size) = g.kind (.node j) := by
    rw [Graph.kind, Graph.shape_push_size, Shape.kind_refill, Graph.kind]
  have hclosed : st₁.graph.Closed := by
    refine hp.closed.push fun t ht => ?_
    rcases Shape.children_refill hunion ht with ht | rfl
    · cases ht
    · trivial
  have hsize : st₁.graph.size = st.graph.size + 1 := Graph.size_push _ _
  have hp₁ : Progress g b root (j :: S) ((j, .node st.graph.size) :: μ) st₁.graph := by
    refine hp.remember hs (fun i hi => by simp [hi]) (.push _ _) hclosed hl haff hroot ?_
      (.inr ⟨hsize, rfl, hkind⟩) (fun hj => absurd (by simp) hj) fun h => absurd h hunion
    rw [Graph.Has, hsize]
    exact Nat.lt_succ_self _
  obtain ⟨μ', st', hrun, hp', hg', hknown, hshape⟩ := fillChildren_returns []
    hs (by simp) hunion (Nat.le_refl _) hsubst
    (fun t ht => hs.closed (.node j) t ht) hp₁ ⟨fun _ _ => id, .push _ _⟩
    ⟨List.lookup_cons_self, hkind⟩ (by simp) (Graph.shape_push_size _ _)
  refine ⟨μ', st', hrun, hp'.leave fun _ => ⟨hknown, fun u hu => ?_, fun _ k hk => ?_⟩, hg'⟩
  · exact absurd (congrArg Shape.kind hu) hunion
  · rw [hg'.lookup j _ List.lookup_cons_self] at hk
    cases hk
    exact hshape

theorem Progress.fold_step {h h' : Graph} (hp : Progress g b root S μ h) (hs : Setting g b root)
    (hj : g.shape j = .union u)
    (hf : (u.toList.map (img g b μ)).foldlM (Fold.absorb h) .never = .ok f)
    (hcases : h' = h ∧ (t.node? = none ∨ t ∈ f.members.toList) ∨
      h' = h.push (.union f.members) ∧ t = .node h.size) :
    h.Extends h' ∧ h'.Closed ∧ h'.Has t ∧ Step g h h' j t := by
  have hunion := Graph.kind_of_union hj
  have hmembers (x : Ty) (hx : x ∈ f.members.toList) := hp.fold_members hs hj hf hx
  rcases hcases with ⟨rfl, ht⟩ | ⟨rfl, rfl⟩
  · have hhas : h'.Has t ∧ h'.kind t ≠ .union := by
      rcases ht with ht | ht
      · exact ⟨Graph.has_of_not_node ht, Graph.kind_ne_union_of_not_node ht⟩
      · exact ⟨(hmembers t ht).1, (hmembers t ht).2.1⟩
    exact ⟨.refl h', hp.closed, hhas.1, .inl ⟨rfl, hunion, hhas.2⟩⟩
  · have hsize : (h.push (.union f.members)).size = h.size + 1 := Graph.size_push _ _
    refine ⟨.push _ _, hp.closed.push fun x hx => (hmembers x hx).1, ?_, .inr ⟨hsize, rfl, ?_⟩⟩
    · rw [Graph.Has, hsize]
      exact Nat.lt_succ_self _
    · rw [hunion, Graph.kind_of_union (Graph.shape_push_size _ _)]

theorem Progress.done_union {h h' : Graph} (hp : Progress g b root S μ h) (hs : Setting g b root)
    (hj : g.shape j = .union u) (hl : μ.lookup j = none) (haff : Affected g b j)
    (hext : h.Extends h') (hknown : ∀ c ∈ u.toList, Known g b μ c)
    (hf : (u.toList.map (img g b μ)).foldlM (Fold.absorb h) .never = .ok f)
    (hends : f.EndsIn h' t) : Done g b ((j, t) :: μ) h' j := by
  have hunion := Graph.kind_of_union hj
  have hg : Grows μ h ((j, t) :: μ) h' := .cons hl t hext
  refine ⟨fun c hc => hg.known (hknown c (by simpa [hj, Shape.children] using hc)),
    fun v hv => ?_, fun hne => absurd hunion hne⟩
  obtain rfl : u = v := by simpa [hj] using hv
  have himg := hg.map_img_eq (fun _ _ => hp.affected_cons haff) hknown
  refine ⟨f, ?_, ?_⟩
  · rw [himg, hp.fold_congr hs hj (fun _ => id) fun c hc => hp.agreesAt_img hs hext hj hc, hf]
  · rw [img_of_ne_unresolved (by rw [hunion]; simp), List.lookup_cons_self, Option.getD_some]
    exact hends

theorem union_returns (hs : Setting g b root) (unwrap : NodeId → TypeM Ty) (n : Nat)
    (hp : Progress g b root S μ st.graph) (hroot : g.Reaches root (.node j))
    (ha : Above g S (.node j)) (haff : Affected g b j) (hj : g.shape j = .union u)
    (hl : μ.lookup j = none) (hsubst : ∀ t ∈ u.toList, Finds g b root (j :: S) subst t) :
    ∃ f t μ₁ st₁ st₂,
      (foldMembers subst (Fold.add unwrap (n + 1)) u.toList .never).Returns μ st f μ₁ st₁ ∧
      f.finish.Returns st₁ t st₂ ∧ Progress g b root S ((j, t) :: μ₁) st₂.graph ∧
      Grows μ st.graph ((j, t) :: μ₁) st₂.graph := by
  have hunion := Graph.kind_of_union hj
  have hjS : j ∉ S := ha.not_mem hs hp hroot hl
  obtain ⟨f, μ₁, st₁, hrun, hp₁, hg₁, hknown, hf⟩ := foldMembers_returns [] hs unwrap n hj
    (by simp) hsubst (hp.enter hl hunion) (by simp) rfl
  obtain ⟨t, st₂, hfinish, hends, hcases⟩ := f.finish_returns st₁
  have hl₁ : μ₁.lookup j = none :=
    Option.not_isSome_iff_eq_none.1 fun hsome => (hp₁.under j (by simp)).1 hsome hunion
  obtain ⟨hext, hclosed, hhas, hstep⟩ := hp₁.fold_step hs hj hf hcases
  have hg₂ : Grows μ₁ st₁.graph ((j, t) :: μ₁) st₂.graph := .cons hl₁ t hext
  -- a member that leads to a node under way would lead to the union itself
  have hset (c : Ty) (hc : c ∈ u.toList) : Settled g b (j :: S) μ₁ c := by
    refine hp₁.settled_of_known (hknown c hc) fun s hsmem hcs => hs.acyclic j hroot hunion ?_
    have hjs : Relation.TransGen g.Child (.node j) (.node s) :=
      .head' (Graph.child_of_union hj hc) hcs
    rcases List.mem_cons.1 hsmem with rfl | hsmem
    · exact hjs
    · exact hjs.trans (ha.path s hsmem)
  have hp₂ : Progress g b root S μ₁ st₁.graph := hp₁.leave fun hsome => by simp [hl₁] at hsome
  refine ⟨f, t, μ₁, st₁, st₂, hrun, hfinish, ?_, hg₁.trans hg₂⟩
  refine hp₂.remember hs (fun _ _ => .rfl) hext hclosed hl₁ haff hroot hhas hstep ?_ ?_
  · intro _
    exact hp₂.done_union hs hj hl₁ haff hext hknown hf hends
  · intro _ i hi haffi
    rcases Relation.ReflTransGen.cases_head hi with hji | ⟨c, hc, hci⟩
    · cases hji
      exact ⟨hjS, by simp⟩
    · rw [Graph.child_node, hj] at hc
      obtain ⟨hiS, hisome⟩ := hset c hc i hci haffi
      exact ⟨fun hmem => hiS (List.mem_cons_of_mem j hmem), hg₂.isSome hisome⟩

theorem image_of_known {add : Fold → Ty → TypeM Fold} {fuel : Nat} (hs : Setting g b root)
    (hp : Progress g b root S μ st.graph) (ht : g.Has t) (hk : Known g b μ t) :
    (image b add (fuel + 1) t).Returns μ st (img g b μ t) μ st := by
  cases t with
  | node j =>
    have hagree := hp.ext.agreesAt hs.closed ht
    by_cases hres : g.kind (.node j) = .unresolved
    · rw [img_of_unresolved hres]
      exact image_of_unresolved (hagree.kind_eq.trans hres) μ
    · have hres' : st.graph.kind (.node j) ≠ .unresolved := hagree.kind_eq ▸ hres
      cases hl : μ.lookup j with
      | some t =>
        rw [img_of_lookup hp hl]
        exact image_of_lookup hres' hl
      | none =>
        have hm : st.graph.mentions b.binds (.node j) = false := by
          rw [hagree.mentions_eq, Bool.eq_false_iff, ne_eq, Graph.mentions_iff]
          exact fun hm => by simpa [hl] using hk j rfl ⟨hres, hm⟩
        rw [img_of_ne_unresolved hres, hl, Option.getD_none]
        exact image_of_not_mentions hres' hl hm
  | _ => exact image_of_not_node rfl μ st

theorem exists_affected_of_not_known (hk : ¬ Known g b μ t) :
    ∃ j, t = .node j ∧ Affected g b j ∧ μ.lookup j = none := by
  simpa only [Known, not_forall, Option.not_isSome_iff_eq_none, exists_prop] using hk

theorem image_finds (hs : Setting g b root) (unwrap : NodeId → TypeM Ty) (n fuel : Nat)
    (hroot : g.Reaches root t) (ha : Above g S t) (hfuel : g.size < fuel + S.length) :
    Finds g b root S (image b (Fold.add unwrap (n + 1)) fuel) t := by
  -- fuel is spent on entering nodes, and there is no room in `S` for more than all of them
  induction fuel generalizing S t with
  | zero =>
    have hle := ha.length_le
    omega
  | succ fuel ih =>
    intro μ st hp
    have hhas := hroot.has hs.closed hs.has_root
    by_cases hk : Known g b μ t
    · exact ⟨μ, st, image_of_known hs hp hhas hk, hp, .refl _ _, hk⟩
    obtain ⟨j, rfl, haff, hl⟩ := exists_affected_of_not_known hk
    have hagree := hp.ext.agreesAt hs.closed hhas
    have hm : st.graph.mentions b.binds (.node j) = true :=
      hagree.mentions_eq.trans (Graph.mentions_iff.2 haff.2)
    have hsubst (c : Ty) (hc : c ∈ (g.shape j).children) :
        Finds g b root (j :: S) (image b (Fold.add unwrap (n + 1)) fuel) c := by
      refine ih (hroot.tail hc) (ha.cons (ha.not_mem hs hp hroot hl) hc) ?_
      rw [List.length_cons]
      omega
    by_cases hunion : g.kind (.node j) = .union
    · obtain ⟨u, hj⟩ := Shape.exists_union_of_kind hunion
      obtain ⟨f, t, μ₁, st₁, st₂, hfold, hfinish, hp', hg⟩ := union_returns hs unwrap n hp hroot
        ha haff hj hl (by simpa only [hj, Shape.children] using hsubst)
      refine ⟨_, st₂, ?_, hp', hg, fun _ hi _ => by cases hi; simp⟩
      rw [img_of_lookup hp' List.lookup_cons_self]
      exact image_of_union ((hagree j .refl).trans hj) hl hm hfold hfinish
    · obtain ⟨μ', st', hfill, hp', hg⟩ := copy_returns hs hp hroot haff hunion hl hsubst
      have hl' := hg.lookup j _ List.lookup_cons_self
      refine ⟨μ', st', ?_, hp', .trans (.cons hl _ (.refl _)) hg, fun _ hi _ => ?_⟩
      · rw [img_of_lookup hp' hl']
        rw [← hagree j .refl] at hfill
        exact image_of_copy (hagree.kind_eq ▸ haff.1) (hagree.kind_eq ▸ hunion) hl hm hfill
      · cases hi
        simp [hl']

end Substitution

end FlowTyping
