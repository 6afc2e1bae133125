import FlowTyping.Proofs.Stages
import FlowTyping.Proofs.SubstitutionLaws

/-!
Folding the images of a union's members while copies are open. A member whose copy is similar to one
that is there already is left out, so the two must be similar for good.
-/

namespace FlowTyping

namespace Members

variable {g : Graph} {u u' : Members} {t : Ty}

theorem shapes_subset_of_add (hu : u.add g t = .ok u') : u.shapes ⊆ u'.shapes := by
  intro k hk
  cases t with
  | node i =>
    rcases isMember_node (isMember_of_add hu) with hi | hi
    · rw [add_of_isValueShape hi] at hu
      cases hu
      rcases insertShape_cases g u.shapes i with h | ⟨h, -⟩ <;> simp [h, hk]
    · rw [add_of_unresolved hi] at hu
      cases hu
      exact hk
  | _ =>
    rw [(shapes_of_add rfl hu).1]
    exact hk

theorem Sorted.kind_ne_of_before {before after : List Ty} (hu : u.Sorted g)
    (hlist : before ++ t :: after = u.toList) (ht : g.kind t ≠ .unresolved) :
    ∀ c ∈ before, g.kind c ≠ .unresolved := by
  let v : Members := { u with unresolved := [] }
  have hsplit : u.toList = v.toList ++ u.unresolved.map .node := by simp [toList, v]
  have hfirst : ∀ c ∈ v.toList, g.kind c ≠ .unresolved := by
    intro c hc hkind
    rw [mem_toList] at hc
    cases c with
    | node i =>
      have hshape := hu.shapes i (hc.resolve_right (by simp [v]))
      rw [hkind] at hshape
      cases hshape
    | _ => cases hkind
  rw [hsplit, List.append_eq_append_iff] at hlist
  rcases hlist with ⟨rest, hv, -⟩ | ⟨rest, -, hlast⟩
  · exact fun c hc => hfirst c (by simp [hv, hc])
  · have hmem : t ∈ u.unresolved.map .node := by simp [hlast]
    obtain ⟨i, hi, rfl⟩ := List.mem_map.1 hmem
    exact absurd (hu.unresolved i hi) ht

end Members

namespace Fold

variable {g : Graph} {f : Fold} {t : Ty} {xs : List Ty}

theorem absorbMember_of_no_escalation (hf : f.isTerminal = false) (hunion : g.kind t ≠ .union)
    (hopen : g.kind t ≠ .instantiation) (ht : escalation g t = none) :
    ∃ f', absorbMember g f t = .ok f' ∧ f'.isTerminal = false ∧
      f.members.shapes ⊆ f'.members.shapes := by
  rcases part_cases hunion hopen with rfl | ⟨k, hk⟩ | ⟨hmember, -⟩
  · exact ⟨f, absorbMember_never f, hf, fun _ => id⟩
  · simp [ht] at hk
  · obtain ⟨u, hu⟩ := Members.exists_add f.members hmember
    refine ⟨.compound u, ?_, rfl, Members.shapes_subset_of_add hu⟩
    rw [absorbMember_of_isMember hf hmember, hu]
    rfl

theorem foldlM_of_no_escalation (hf : f.isTerminal = false)
    (hxs : ∀ x ∈ xs, g.kind x ≠ .union ∧ g.kind x ≠ .instantiation ∧ escalation g x = none) :
    ∃ f', xs.foldlM (absorbMember g) f = .ok f' ∧ f'.isTerminal = false ∧
      f.members.shapes ⊆ f'.members.shapes := by
  induction xs generalizing f with
  | nil => exact ⟨f, rfl, hf, fun _ => id⟩
  | cons x xs ih =>
    obtain ⟨hunion, hopen, hx⟩ := hxs x (by simp)
    obtain ⟨f₁, hf₁, hterm, hshapes⟩ := absorbMember_of_no_escalation hf hunion hopen hx
    obtain ⟨f', hf', hterm', hshapes'⟩ := ih hterm fun y hy => hxs y (by simp [hy])
    refine ⟨f', ?_, hterm', List.Subset.trans hshapes hshapes'⟩
    rw [List.foldlM_cons, hf₁]
    exact hf'

theorem absorb_of_no_escalation (hf : f.isTerminal = false) (hreached : f.Reached g)
    (hparts : ∀ x ∈ g.parts t,
      g.kind x ≠ .union ∧ g.kind x ≠ .instantiation ∧ escalation g x = none) :
    ∃ f', f.absorb g t = .ok f' ∧ f'.isTerminal = false ∧ f'.Reached g ∧
      f.members.shapes ⊆ f'.members.shapes ∧
      (∀ k, .node k ∈ f'.members.toList → .node k ∈ f.members.toList ∨ .node k ∈ g.parts t) ∧
      ∀ k ∈ f'.members.shapes, k ∈ f.members.shapes ∨ .node k ∈ g.parts t := by
  obtain ⟨f', hf', hterm, hshapes⟩ := foldlM_of_no_escalation hf hparts
  have habsorb : ∀ x ∈ [t], g.Absorbable x := by
    simpa [Graph.Absorbable] using fun x hx => ⟨(hparts x hx).1, (hparts x hx).2.1⟩
  have hrun : f.absorb g t = .ok f' := absorb_eq_foldlM.trans hf'
  have hreached' : f'.Reached g :=
    hreached.foldlM (fun x hx => ⟨(hparts x hx).1, (hparts x hx).2.1⟩) hf'
  have hnodes (k : NodeId) (hk : .node k ∈ f'.members.toList) :
      .node k ∈ f.members.toList ∨ .node k ∈ g.parts t := by
    obtain ⟨f'', hf'', hfrom⟩ := foldlM_absorb_ok (f := f) habsorb
    obtain rfl : f' = f'' := by simpa [hrun] using hf''
    simpa using hfrom k hk
  refine ⟨f', hrun, hterm, hreached', hshapes, hnodes, fun k hk => ?_⟩
  refine (hnodes k (Members.node_mem_toList.2 (.inl hk))).imp_left fun hold => ?_
  refine (Members.node_mem_toList.1 hold).resolve_right fun hres => ?_
  have hvalue := hreached'.sorted.shapes k hk
  rw [hreached.sorted.unresolved k hres] at hvalue
  cases hvalue

theorem shape_of_absorb {f' : Fold} {k : NodeId} (hf : f.isTerminal = false)
    (hk : (g.kind (.node k)).isValueShape = true) (hf' : f.absorb g (.node k) = .ok f') :
    k ∈ f'.members.shapes ∨ ∃ l ∈ f.members.shapes, g.Similar (.node k) (.node l) := by
  rw [absorb_of_kind_ne (Kind.ne_of_isValueShape hk).1,
    absorbMember_of_isMember hf (Kind.isMember_of_isValueShape hk),
    Members.add_of_isValueShape hk] at hf'
  cases hf'
  by_cases hany : ∃ l ∈ f.members.shapes, g.Similar (.node k) (.node l)
  · exact .inr hany
  · left
    change k ∈ Members.insertShape g f.members.shapes k
    simp [Members.insertShape, hany]

theorem escalation_of_isMember (ht : (g.kind t).isMember = true) : escalation g t = none := by
  rw [escalation]
  split <;> simp_all [Kind.isMember, Kind.isValueShape]

theorem escalation_parts (hsorted : ∀ i u, g.shape i = .union u → u.Sorted g)
    (hopen : g.kind t ≠ .instantiation) (ht : escalation g t = none) :
    ∀ x ∈ g.parts t, g.kind x ≠ .union ∧ g.kind x ≠ .instantiation ∧ escalation g x = none := by
  intro x hx
  by_cases hunion : g.kind t = .union
  · cases t with
    | node i =>
      obtain ⟨u, hi⟩ := Shape.exists_union_of_kind hunion
      simp only [Graph.parts, hi] at hx
      have hmember := (hsorted i u hi).isMember hx
      obtain ⟨hflat, hopen⟩ := Kind.ne_of_isMember hmember
      exact ⟨hflat, hopen, escalation_of_isMember hmember⟩
    | _ => cases hunion
  · rw [Graph.parts_of_kind_ne hunion, List.mem_singleton] at hx
    exact hx ▸ ⟨hunion, hopen, ht⟩

end Fold

namespace Substitution

variable {g h h' : Graph} {b : Bindings} {root t : Ty} {S : List NodeId} {μ ν ν' : Images}
  {j k m : NodeId} {u : Members} {f : Fold}

theorem lead_isPrefix_of_filled {words shown types : List Ty}
    (hfilled : List.Forall₂ (Filled g b S ν h) shown types) (hwords : words <+: shown)
    (hnode : ∀ w ∈ words, w.node? = none) : words <+: types := by
  induction words generalizing shown types with
  | nil => exact List.nil_prefix
  | cons w words ih =>
    obtain ⟨rest, rfl⟩ := hwords
    have hw := hnode w (by simp)
    cases hfilled with
    | cons hy hfilled =>
      rw [hy.plain (Graph.kind_ne_union_of_not_node hw), img_of_not_node hw]
      exact (List.prefix_cons_inj w).2
        (ih hfilled (List.prefix_append _ _) fun x hx => hnode x (by simp [hx]))

theorem Stage.shape_img (hst : Stage g b root S μ h) (hm : (g.kind (.node m)).isValueShape = true) :
    ∃ k types, img g b (copies g μ) (.node m) = .node k ∧ h.Has (.node k) ∧
      h.shape k = (g.shape m).refill types ∧ (g.shape m).lead <+: types := by
  have hres := (Kind.ne_of_isValueShape hm).2
  have hlt : m < g.size := by
    refine Graph.lt_size_of_shape rfl fun hshape => hres ?_
    rw [Graph.kind, hshape]
    rfl
  cases hl : (copies g μ).lookup m with
  | none =>
    refine ⟨m, (g.shape m).children, ?_, hst.ext.has (a := .node m) hlt, ?_, Shape.lead_isPrefix _⟩
    · rw [img_of_ne_unresolved hres, hl, Option.getD_none]
    · have hself := Shape.refill_map_children (g.shape m) id
      rw [List.map_id] at hself
      rw [hst.ext.shape_eq m hlt, hself]
      cases g.shape m <;> simp [Shape.mapTypes]
  | some t =>
    obtain ⟨k, rfl, -, hk⟩ := hst.copy m t hl
    obtain ⟨shown, types, -, hlead, hfilled, hshape, -⟩ := hk.shown
    exact ⟨k, types, hst.img_of_copy hl, hk.lt_size, hshape,
      lead_isPrefix_of_filled hfilled hlead fun w => Shape.node?_of_mem_lead⟩

/-- A fold that has taken in the images of the members `taken` of the union `j`. -/
structure Gathers (g : Graph) (b : Bindings) (S : List NodeId) (ν : Images) (h : Graph) (j : NodeId)
    (u : Members) (taken : List Ty) (f : Fold) : Prop where
  goesOn : f.isTerminal = false
  reached : f.Reached h
  known : ∀ c ∈ taken, Known g b ν c
  stems : ∀ k, .node k ∈ f.members.toList → h.Has (.node k) ∧ StemsFrom g ν (.node j) (.node k)
  kept : ∀ m ∈ u.shapes, .node m ∈ taken →
    ∃ k ∈ f.members.shapes, Meets S ν h (img g b ν (.node m)) (.node k)
  shapes : (∀ c ∈ taken, g.kind c ≠ .unresolved) → ∀ k ∈ f.members.shapes,
    ∃ m ∈ u.shapes, .node m ∈ taken ∧ img g b ν (.node m) = .node k

theorem Gathers.start (g : Graph) (b : Bindings) (S : List NodeId) (ν : Images) (h : Graph)
    (j : NodeId) (u : Members) : Gathers g b S ν h j u [] .never where
  goesOn := rfl
  reached := Fold.reached_never h
  known := by simp
  stems := by simp [Fold.members, Members.node_mem_toList]
  kept := by simp
  shapes := by simp [Fold.members]

theorem Gathers.later {S' : List NodeId} {taken : List Ty} (hf : Gathers g b S ν h j u taken f)
    (hc : h.Closed) (hl : Later g b S ν h S' ν' h') : Gathers g b S' ν' h' j u taken f where
  goesOn := hf.goesOn
  reached v hv := by
    subst hv
    obtain ⟨hsorted, hne⟩ := hf.reached v rfl
    refine ⟨⟨fun k hk => ?_, fun k hk => ?_⟩, hne⟩
    · rw [hl.kindOf (hf.stems k (Members.node_mem_toList.2 (.inl hk))).1]
      exact hsorted.shapes k hk
    · rw [hl.kindOf (hf.stems k (Members.node_mem_toList.2 (.inr hk))).1]
      exact hsorted.unresolved k hk
  known c hc := hl.grows.known (hf.known c hc)
  stems k hk := ⟨hl.has (hf.stems k hk).1, hl.stemsFrom (hf.stems k hk).2⟩
  kept m hm htaken := by
    obtain ⟨k, hk, hmeets⟩ := hf.kept m hm htaken
    rw [hl.img_eq (hf.known _ htaken)]
    exact ⟨k, hk, hl.meets hc hmeets⟩
  shapes hres k hk := by
    obtain ⟨m, hm, htaken, himg⟩ := hf.shapes hres k hk
    exact ⟨m, hm, htaken, (hl.img_eq (hf.known _ htaken)).trans himg⟩

/-- An image that is similar to that of another member is so for good: members that are told apart
are not similar, and any others lead to nothing open. -/
theorem Stage.meets_of_similar {m' l : NodeId} (hst : Stage g b root S μ h) (hT : Terms g b root)
    (hroot : g.Reaches root (.node j)) (hu : g.shape j = .union u) (hm : m ∈ u.shapes)
    (hm' : m' ∈ u.shapes) (hS : ∀ i ∈ S, g.Reaches (.node i) (.node j))
    (hk : img g b (copies g μ) (.node m) = .node k)
    (hl : img g b (copies g μ) (.node m') = .node l) (hkl : h.Similar (.node k) (.node l)) :
    Meets S (copies g μ) h (.node k) (.node l) := by
  by_cases hne : k = l
  · exact .inl (hne ▸ rfl)
  have hmne : m ≠ m' := by
    rintro rfl
    exact hne (Ty.node.inj (hk.symm.trans hl))
  have hsorted := hT.sorted j u hu
  have hreach (x : NodeId) (hx : x ∈ u.shapes) : g.Has (.node x) :=
    hT.closed _ _ (Graph.child_of_union hu (Members.node_mem_toList.2 (.inl hx)))
  by_cases hback : g.Reaches (.node m) (.node j) ∨ g.Reaches (.node m') (.node j)
  · have hapart := hT.apart j u hroot hu m hm m' hm' hmne hback
    obtain ⟨_, types, hk₁, -, hshape, hlead⟩ := hst.shape_img (hsorted.shapes m hm)
    obtain ⟨_, types', hl₁, -, hshape', hlead'⟩ := hst.shape_img (hsorted.shapes m' hm')
    cases hk.symm.trans hk₁
    cases hl.symm.trans hl₁
    have hfits := (Graph.similar_node_iff.1 hkl).resolve_left hne
    rw [hshape, hshape'] at hfits
    have hunion : (g.shape m).kind ≠ .union := (Kind.ne_of_isValueShape (hsorted.shapes m hm)).1
    exact absurd hfits (hapart.not_fits_refill hunion hlead hlead'
      fun x y hxy hx => (hxy.eq_of_not_node hx).symm)
  · rw [not_or] at hback
    have hfrozen (x y : NodeId) (hx : x ∈ u.shapes) (hxj : ¬ g.Reaches (.node x) (.node j))
        (hy : img g b (copies g μ) (.node x) = .node y) :
        Frozen S (copies g μ) h (.node y) := by
      have hstems := hst.stemsFrom_img hT (hreach x hx)
      have hhas := hst.has_img hT (hreach x hx)
      rw [hy] at hstems hhas
      exact hst.frozen_of_stems hT hhas (.inl hstems) fun i hi hxi => hxj (hxi.trans (hS i hi))
    exact .inr ⟨hfrozen m k hm hback.1 hk, hfrozen m' l hm' hback.2 hl, hkl⟩

theorem Stage.parts_img (hst : Stage g b root S μ h) (hT : Terms g b root)
    (hu : g.shape j = .union u) (ht : t ∈ u.toList) :
    h.kind (img g b (copies g μ) t) ≠ .instantiation ∧
      ∀ x ∈ h.parts (img g b (copies g μ) t), (h.kind x ≠ .union ∧ h.kind x ≠ .instantiation ∧
        Fold.escalation h x = none) ∧ h.Has x ∧ StemsFrom g (copies g μ) (.node j) x := by
  have hchild := Graph.child_of_union hu ht
  have hmember := (hT.sorted j u hu).isMember ht
  have hopen := (Kind.ne_of_isMember hmember).2
  -- types of the graph before look in `h` as they did there
  have hbefore (a : Ty) (ha : g.Has a) (hinst : g.kind a ≠ .instantiation)
      (hesc : Fold.escalation g a = none) : h.kind a ≠ .instantiation ∧
      ∀ x ∈ h.parts a, (h.kind x ≠ .union ∧ h.kind x ≠ .instantiation ∧
        Fold.escalation h x = none) ∧ h.Has x ∧ StemsFrom g (copies g μ) (.node j) x := by
    rw [(hst.ext.agreesAt hT.closed ha).parts_eq, hst.ext.kind_eq ha]
    refine ⟨hinst, fun x hx => ?_⟩
    have hhas := (Graph.reaches_of_mem_parts hx).has hT.closed ha
    have hparts := Fold.escalation_parts hT.sorted hinst hesc x hx
    rw [Fold.escalation] at hparts ⊢
    rw [hst.ext.kind_eq hhas]
    exact ⟨hparts, hst.ext.has hhas, .inl hhas⟩
  have hself := hbefore t (hT.closed _ _ hchild) hopen (Fold.escalation_of_isMember hmember)
  cases t with
  | node i =>
    by_cases hres : g.kind (.node i) = .unresolved
    · rw [img_of_unresolved hres]
      cases hl : b.lookup i with
      | none => exact hself
      | some a =>
        obtain ⟨ha, hinst, hesc⟩ := hT.args i a hl
        exact hbefore a ha hinst hesc
    · cases hl : (copies g μ).lookup i with
      | none =>
        rw [img_of_ne_unresolved hres, hl]
        exact hself
      | some a =>
        obtain ⟨k, rfl, hunion, hk⟩ := hst.copy i a hl
        have hkind : h.kind (.node k) = g.kind (.node i) := by
          obtain ⟨_, _, -, -, -, hshape, -⟩ := hk.shown
          rw [Graph.kind, hshape, Shape.kind_refill, Graph.kind]
        rw [hst.img_of_copy hl, Graph.parts_of_kind_ne (hkind ▸ hunion)]
        refine ⟨hkind ▸ hopen, fun x hx => ?_⟩
        cases List.mem_singleton.1 hx
        have hesc : Fold.escalation h (.node k) = none :=
          Fold.escalation_of_isMember (hkind ▸ hmember)
        exact ⟨⟨hkind ▸ hunion, hkind ▸ hopen, hesc⟩, hk.lt_size,
          .inr ⟨i, k, rfl, hl, .single hchild⟩⟩
  | _ => exact hself

theorem Stage.gathers_step {taken rest : List Ty} (hst : Stage g b root S μ h) (hT : Terms g b root)
    (hroot : g.Reaches root (.node j)) (hu : g.shape j = .union u)
    (hS : ∀ i ∈ S, g.Reaches (.node i) (.node j)) (hlist : taken ++ t :: rest = u.toList)
    (hf : Gathers g b S (copies g μ) h j u taken f) (hknown : Known g b (copies g μ) t) :
    ∃ f', f.absorb h (img g b (copies g μ) t) = .ok f' ∧
      Gathers g b S (copies g μ) h j u (taken ++ [t]) f' := by
  have hsorted := hT.sorted j u hu
  have ht : t ∈ u.toList := by simp [← hlist]
  obtain ⟨-, hparts⟩ := hst.parts_img hT hu ht
  obtain ⟨f', hf', hgoes, hreached, hsubset, hnodes, hshapes⟩ :=
    Fold.absorb_of_no_escalation hf.goesOn hf.reached fun x hx => (hparts x hx).1
  refine ⟨f', hf', hgoes, hreached, ?_, fun k hk => ?_, fun m hm htaken => ?_, fun hres k hk => ?_⟩
  · simp only [List.forall_mem_append, List.forall_mem_singleton]
    exact ⟨hf.known, hknown⟩
  · rcases hnodes k hk with hold | hnew
    · exact hf.stems k hold
    · exact (hparts _ hnew).2
  · rw [List.mem_append, List.mem_singleton] at htaken
    rcases htaken with htaken | rfl
    · obtain ⟨k, hk, hmeets⟩ := hf.kept m hm htaken
      exact ⟨k, hsubset hk, hmeets⟩
    · have hvalue := hsorted.shapes m hm
      obtain ⟨k, types, himg, -, hshape, -⟩ := hst.shape_img hvalue
      have hkind : (h.kind (.node k)).isValueShape = true := by
        rw [Graph.kind, hshape, Shape.kind_refill]
        exact hvalue
      rw [himg] at hf' ⊢
      rcases Fold.shape_of_absorb hf.goesOn hkind hf' with hnew | ⟨l, hl, hsimilar⟩
      · exact ⟨k, hnew, .inl rfl⟩
      · have hbefore := hsorted.kind_ne_of_before hlist (Kind.ne_of_isValueShape hvalue).2
        obtain ⟨m', hm', -, himg'⟩ := hf.shapes hbefore l hl
        exact ⟨l, hsubset hl, hst.meets_of_similar hT hroot hu hm hm' hS himg himg' hsimilar⟩
  · simp only [List.forall_mem_append, List.forall_mem_singleton] at hres
    rcases hshapes k hk with hold | hnew
    · obtain ⟨m, hm, htaken, himg⟩ := hf.shapes hres.1 k hold
      exact ⟨m, hm, List.mem_append_left _ htaken, himg⟩
    · rw [Members.mem_toList] at ht
      cases t with
      | node i =>
        have hi := ht.resolve_right fun hi => hres.2 (hsorted.unresolved i hi)
        obtain ⟨l, types, himg, -, hshape, -⟩ := hst.shape_img (hsorted.shapes i hi)
        have hunion : h.kind (.node l) ≠ .union := by
          rw [Graph.kind, hshape, Shape.kind_refill]
          exact (Kind.ne_of_isValueShape (hsorted.shapes i hi)).1
        rw [himg, Graph.parts_of_kind_ne hunion, List.mem_singleton] at hnew
        exact ⟨i, hi, by simp, himg.trans hnew.symm⟩
      | _ => simp [img, Graph.parts] at hnew

theorem Gathers.filled (hf : Gathers g b S ν h j u u.toList f) (hu : g.shape j = .union u)
    (hends : f.EndsIn h t) (hhas : h.Has t) : Filled g b S ν h (.node j) t where
  known x hx := by
    simp only [Graph.parts, hu] at hx
    exact hf.known x hx
  plain hunion := absurd (Graph.kind_of_union hu) hunion
  parts j' u' hj hu' m hm := by
    cases hj
    obtain rfl : u = u' := by simpa [hu] using hu'
    obtain ⟨k, hk, hmeets⟩ := hf.kept m hm (Members.node_mem_toList.2 (.inl hm))
    refine ⟨.node k, ?_, hmeets⟩
    cases f with
    | compound v =>
      rw [hends.parts_eq hf.reached]
      exact Members.node_mem_toList.2 (.inl hk)
    | _ => simp [Fold.members] at hk
  stems := by
    have hmembers (z : Ty) (hz : z ∈ f.members.toList) : StemsFrom g ν (.node j) z := by
      cases z with
      | node k => exact (hf.stems k hz).2
      | _ => exact .inl trivial
    rcases hends.cases with hword | hmem | ⟨k, rfl, hshape⟩
    · exact .inl (.inl (Graph.has_of_not_node hword))
    · exact .inl (hmembers t hmem)
    · exact .inr ⟨k, _, rfl, hshape, hmembers⟩
  has := hhas

theorem Stage.filled_of_not_mentions (hst : Stage g b root S μ h) (hT : Terms g b root)
    (hu : g.shape j = .union u) (hm : ¬ g.Mentions b.binds (.node j)) :
    Filled g b S (copies g μ) h (.node j) (.node j) := by
  have hj : j < g.size := Graph.lt_size_of_shape hu (by simp)
  have hnot (i : NodeId) (hi : .node i ∈ u.toList) : ¬ Affected g b i := fun haff =>
    hm (haff.2.of_child (Graph.child_of_union hu hi))
  refine ⟨fun x hx i hi haff => ?_, fun h => absurd (Graph.kind_of_union hu) h, ?_,
    .inl (.inl hj), hst.ext.has (a := .node j) hj⟩
  · subst hi
    simp only [Graph.parts, hu] at hx
    exact absurd haff (hnot i hx)
  · rintro _ u' ⟨⟩ hu' m hmem
    obtain rfl : u = u' := by simpa [hu] using hu'
    have hmem' : .node m ∈ u.toList := Members.node_mem_toList.2 (.inl hmem)
    have hvalue := (hT.sorted j u hu).shapes m hmem
    have hnone : (copies g μ).lookup m = none := by
      cases hl : (copies g μ).lookup m with
      | none => rfl
      | some t => exact absurd (hst.affected m t hl) (hnot m hmem')
    refine ⟨.node m, ?_, .inl ?_⟩
    · simp only [Graph.parts, hst.ext.shape_eq j hj, hu]
      exact hmem'
    · rw [img_of_ne_unresolved (Kind.ne_of_isValueShape hvalue).2, hnone, Option.getD_none]

end Substitution

end FlowTyping
