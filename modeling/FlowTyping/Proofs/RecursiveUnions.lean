import FlowTyping.Proofs.Gathering

namespace FlowTyping

theorem Bindings.mem_args_of_length {params : List NodeId} {args : List Ty} {i : NodeId} {t : Ty}
    (hlen : params.length ≤ args.length) (ht : (ofArgs params args).lookup i = some t) :
    t ∈ args := by
  induction params using List.reverseRecOn with
  | nil => cases ht
  | append_singleton params x ih =>
    rw [lookup_ofArgs_concat] at ht
    have hlt : params.length < args.length := by
      rw [List.length_append, List.length_singleton] at hlen
      exact hlen
    split at ht
    · rw [List.getElem?_eq_getElem hlt, Option.getD_some] at ht
      exact Option.some.inj ht ▸ List.getElem_mem hlt
    · exact ih (Nat.le_of_lt hlt) ht

namespace Substitution

variable {g h h' : Graph} {b : Bindings} {root c t : Ty} {S : List NodeId} {μ μ' ν : Images}
  {st : Store} {i j k : NodeId} {u : Members} {f : Fold} {subst : Ty → SubstT TypeM Ty}

def Fetches (g : Graph) (b : Bindings) (root : Ty) (S : List NodeId) (subst : Ty → SubstT TypeM Ty)
    (c : Ty) : Prop :=
  ∀ μ st, Stage g b root S μ st.graph → ∃ y μ' st', (subst c).Returns μ st y μ' st' ∧
    Stage g b root S μ' st'.graph ∧ Grows (copies g μ) st.graph (copies g μ') st'.graph ∧
    Filled g b S (copies g μ') st'.graph c y

theorem Stage.later_of_grows (hst : Stage g b root S μ h) (hst' : Stage g b root S μ' h')
    (hg : Grows (copies g μ) h (copies g μ') h') :
    Later g b S (copies g μ) h S (copies g μ') h' := by
  refine .of_extends hg.ext hg.lookup hst'.affected ?_
  rintro k - ⟨i, hi, hik⟩
  obtain ⟨t, ht⟩ := Option.isSome_iff_exists.1 (hst.under i hi)
  rw [hg.lookup i t ht] at hik
  exact ⟨i, hi, ht.trans hik⟩

theorem fillChildren_words {s : Shape} {words rest : List Ty} (shown : List Ty) {st' : Store}
    (hsubst : ∀ w ∈ words, ∀ μ st, (subst w).Returns μ st w μ st)
    (hrest : (fillChildren subst h.size s rest (shown ++ words)).Returns μ
      { st with graph := h.push (s.refill (shown ++ words)) } () μ' st') :
    (fillChildren subst h.size s (words ++ rest) shown).Returns μ
      { st with graph := h.push (s.refill shown) } () μ' st' := by
  induction words generalizing shown with
  | nil => simpa using hrest
  | cons w words ih =>
    have hnext := ih (shown ++ [w]) (fun x hx => hsubst x (by simp [hx])) (by simpa using hrest)
    refine (hsubst w (by simp) _ _).bind ?_
    refine (SubstT.Returns.lift (.fill _ _ _) _).bind ?_
    simp only [Graph.replace_push]
    exact hnext

theorem fillChildren_fetches {shown types rest : List Ty} (hj : j ∈ S) (hk : h.size ≤ k)
    (hsubst : ∀ c ∈ rest, Fetches g b root S subst c)
    (hchildren : shown ++ rest = (g.shape j).children) (hlead : (g.shape j).lead <+: shown)
    (hst : Stage g b root S μ st.graph) (hl : (copies g μ).lookup j = some (.node k))
    (hg : Grows ν h (copies g μ) st.graph)
    (hfilled : List.Forall₂ (Filled g b S (copies g μ) st.graph) shown types)
    (hshape : st.graph.shape k = (g.shape j).refill types) :
    ∃ types' μ' st', (fillChildren subst k (g.shape j) rest types).Returns μ st () μ' st' ∧
      Stage g b root S μ' st'.graph ∧ (copies g μ').lookup j = some (.node k) ∧
      Grows ν h (copies g μ') st'.graph ∧
      List.Forall₂ (Filled g b S (copies g μ') st'.graph) (g.shape j).children types' ∧
      st'.graph.shape k = (g.shape j).refill types' := by
  induction rest generalizing shown types μ st with
  | nil =>
    rw [List.append_nil] at hchildren
    subst hchildren
    exact ⟨types, μ, st, .pure _ _ _, hst, hl, hg, hfilled, hshape⟩
  | cons c rest ih =>
    obtain ⟨y, μ₁, st₁, hrun, hst₁, hg₁, hy⟩ := hsubst c (by simp) μ st hst
    have hl₁ := hg₁.lookup j _ hl
    have hfilled₁ := hfilled.imp fun _ _ => (hst.later_of_grows hst₁ hg₁).filled hst.closed
    have hinit : shown ++ [c] <+: (g.shape j).children := ⟨rest, by simp [← hchildren]⟩
    let filled : Shape := (g.shape j).refill (types ++ [y])
    let st₂ : Store := { st₁ with graph := st₁.graph.replace k filled }
    have hstep : Later g b S (copies g μ₁) st₁.graph S (copies g μ₁) st₂.graph ∧
        Stage g b root S μ₁ st₂.graph :=
      hst₁.fill hj hl₁ hinit hlead hfilled₁ hy
    obtain ⟨hlater, hst₂⟩ := hstep
    have hg₂ : Grows ν h (copies g μ₁) st₂.graph :=
      ⟨(hg.trans hg₁).lookup, (hg.trans hg₁).ext.replace hk filled⟩
    have hlt : k < st₁.graph.size := by
      obtain ⟨_, ⟨⟩, -, hcopied⟩ := hst₁.copy j _ hl₁
      exact hcopied.lt_size
    obtain ⟨types', μ', st', hrest, hst', hl', hg', hfilled', hshape'⟩ := ih
      (fun c hc => hsubst c (by simp [hc])) (by simpa using hchildren)
      (hlead.trans (List.prefix_append _ _)) hst₂ hl₁ hg₂
      ((List.rel_append hfilled₁ (.cons hy .nil)).imp fun _ _ => hlater.filled hst₁.closed)
      (Graph.shape_replace_self filled hlt)
    refine ⟨types', μ', st', hrun.bind ?_, hst', hl', hg', hfilled', hshape'⟩
    exact (SubstT.Returns.lift (TypeM.Returns.fill k filled st₁) μ₁).bind hrest

theorem copy_fetches (hst : Stage g b root S μ st.graph) (hroot : g.Reaches root (.node j))
    (haff : Affected g b j) (hunion : g.kind (.node j) ≠ .union) (hj : μ.lookup j = none)
    (hwords : ∀ w, w.node? = none → ∀ μ st, (subst w).Returns μ st w μ st)
    (hsubst : ∀ c ∈ (g.shape j).children, Fetches g b root (j :: S) subst c) :
    ∃ μ' st', (fillChildren subst st.graph.size (g.shape j) (g.shape j).children []).Returns
        ((j, .node st.graph.size) :: μ)
        { st with graph := st.graph.push ((g.shape j).refill []) } () μ' st' ∧
      Stage g b root S μ' st'.graph ∧ (copies g μ').lookup j = some (.node st.graph.size) ∧
      Grows (copies g μ) st.graph (copies g μ') st'.graph := by
  obtain ⟨rest, hrest⟩ := (g.shape j).lead_isPrefix
  let st₁ : Store := { st with graph := st.graph.push ((g.shape j).refill (g.shape j).lead) }
  have hst₁ : Stage g b root (j :: S) ((j, .node st.graph.size) :: μ) st₁.graph :=
    hst.enter haff hroot hunion hj
  have hnone : (copies g μ).lookup j = none := (lookup_copies hunion μ).trans hj
  have hl₁ : (copies g ((j, .node st.graph.size) :: μ)).lookup j = some (.node st.graph.size) := by
    rw [copies_cons hunion, List.lookup_cons_self]
  have hg₁ : Grows (copies g μ) st.graph (copies g ((j, .node st.graph.size) :: μ)) st₁.graph := by
    rw [copies_cons hunion]
    exact .cons hnone _ (.push _ _)
  have hfilled₁ : List.Forall₂ (Filled g b (j :: S) (copies g ((j, .node st.graph.size) :: μ))
      st₁.graph) (g.shape j).lead (g.shape j).lead :=
    List.forall₂_same.2 fun w hw => filled_word (Shape.node?_of_mem_lead hw)
  obtain ⟨types, μ', st', hrun, hst', hl', hg', hfilled, hshape⟩ := fillChildren_fetches
    List.mem_cons_self (Nat.le_refl _) (fun c hc => hsubst c (by simp [← hrest, hc])) hrest
    List.prefix_rfl hst₁ hl₁ hg₁ hfilled₁ (Graph.shape_push_size _ _)
  refine ⟨μ', st', ?_, hst'.leave hl' hfilled hshape, hl', hg'⟩
  rw [← hrest]
  exact fillChildren_words [] (fun w hw => hwords w (Shape.node?_of_mem_lead hw)) hrun

theorem foldMembers_fetches {taken rest : List Ty} (hT : Terms g b root)
    (unwrap : NodeId → TypeM Ty) (n : Nat) (hroot : g.Reaches root (.node j))
    (hu : g.shape j = .union u) (hS : ∀ i ∈ S, g.Reaches (.node i) (.node j))
    (hlist : taken ++ rest = u.toList) (hsubst : ∀ t ∈ rest, Fetches g b root S subst t)
    (hst : Stage g b root S μ st.graph)
    (hf : Gathers g b S (copies g μ) st.graph j u taken f) :
    ∃ f' μ' st', (foldMembers subst (Fold.add unwrap (n + 1)) rest f).Returns μ st f' μ' st' ∧
      Stage g b root S μ' st'.graph ∧ Grows (copies g μ) st.graph (copies g μ') st'.graph ∧
      Gathers g b S (copies g μ') st'.graph j u u.toList f' := by
  induction rest generalizing taken f μ st with
  | nil =>
    rw [List.append_nil] at hlist
    exact ⟨f, μ, st, .pure _ _ _, hst, .refl _ _, hlist ▸ hf⟩
  | cons t rest ih =>
    obtain ⟨y, μ₁, st₁, hrun, hst₁, hg₁, hy⟩ := hsubst t (by simp) μ st hst
    have ht : t ∈ u.toList := by simp [← hlist]
    have hunion := (Kind.ne_of_isMember ((hT.sorted j u hu).isMember ht)).1
    have hknown := hy.known t (by simp [Graph.parts_of_kind_ne hunion])
    obtain rfl := hy.plain hunion
    have hf₁ := hf.later hst.closed (hst.later_of_grows hst₁ hg₁)
    obtain ⟨f₁, hadd, hf₂⟩ := hst₁.gathers_step hT hroot hu hS hlist hf₁ hknown
    obtain ⟨f', μ', st', hrest, hst', hg', hf'⟩ := ih (by simpa using hlist)
      (fun t ht => hsubst t (by simp [ht])) hst₁ hf₂
    refine ⟨f', μ', st', hrun.bind ?_, hst', hg₁.trans hg', hf'⟩
    have hopen := (hst₁.parts_img hT hu ht).1
    exact (SubstT.Returns.lift (Fold.add_returns unwrap n hopen hadd) μ₁).bind hrest

theorem union_fetches (hT : Terms g b root) (unwrap : NodeId → TypeM Ty) (n : Nat)
    (hroot : g.Reaches root (.node j)) (hu : g.shape j = .union u)
    (hS : ∀ i ∈ S, g.Reaches (.node i) (.node j))
    (hsubst : ∀ t ∈ u.toList, Fetches g b root S subst t) (hst : Stage g b root S μ st.graph) :
    ∃ f t μ₁ st₁ st₂,
      (foldMembers subst (Fold.add unwrap (n + 1)) u.toList .never).Returns μ st f μ₁ st₁ ∧
      f.finish.Returns st₁ t st₂ ∧ Stage g b root S ((j, t) :: μ₁) st₂.graph ∧
      Grows (copies g μ) st.graph (copies g ((j, t) :: μ₁)) st₂.graph ∧
      Filled g b S (copies g ((j, t) :: μ₁)) st₂.graph (.node j) t := by
  have hunion := Graph.kind_of_union hu
  obtain ⟨f, μ₁, st₁, hrun, hst₁, hg₁, hf⟩ := foldMembers_fetches hT unwrap n hroot hu hS
    (List.nil_append _) hsubst hst (.start ..)
  obtain ⟨t, st₂, hfinish, hends, hcases⟩ := f.finish_returns st₁
  have hmembers (z : Ty) (hz : z ∈ f.members.toList) : st₁.graph.Has z := by
    cases z with
    | node k => exact (hf.stems k hz).1
    | _ => trivial
  have hstep : st₁.graph.Extends st₂.graph ∧ st₂.graph.Closed ∧ st₂.graph.Has t := by
    rcases hcases with ⟨hgraph, ht⟩ | ⟨hgraph, rfl⟩ <;> rw [hgraph]
    · refine ⟨.refl _, hst₁.closed, ?_⟩
      rcases ht with ht | ht
      · exact Graph.has_of_not_node ht
      · exact hmembers t ht
    · exact ⟨.push _ _, hst₁.closed.push hmembers, by simp [Graph.Has]⟩
  obtain ⟨hext, hclosed, hhas⟩ := hstep
  have hfilled := (hf.later hst₁.closed (hst₁.later hext)).filled hu hends hhas
  refine ⟨f, t, μ₁, st₁, st₂, hrun, hfinish, hst₁.remember hext hclosed hunion hfilled, ?_⟩
  rw [copies_cons_of_union hunion]
  exact ⟨⟨hg₁.lookup, hg₁.ext.trans hext⟩, hfilled⟩

theorem Above.child (ha : Above g S t) (htc : g.Child t c) : Above g S c :=
  ⟨ha.nodup, fun i hi => (ha.path i hi).tail htc⟩

theorem image_of_known_copy {add : Fold → Ty → TypeM Fold} {fuel : Nat} (hclosed : g.Closed)
    (hext : g.Extends st.graph) (ht : g.Has t) (hunion : g.kind t ≠ .union)
    (hk : Known g b (copies g μ) t) :
    (image b add (fuel + 1) t).Returns μ st (img g b (copies g μ) t) μ st := by
  cases t with
  | node j =>
    have hagree := hext.agreesAt hclosed ht
    by_cases hres : g.kind (.node j) = .unresolved
    · rw [img_of_unresolved hres]
      exact image_of_unresolved (hagree.kind_eq.trans hres) μ
    · have hres' : st.graph.kind (.node j) ≠ .unresolved := hagree.kind_eq ▸ hres
      have hlookup := lookup_copies hunion μ
      rw [img_of_ne_unresolved hres]
      cases hl : (copies g μ).lookup j with
      | some t => exact image_of_lookup hres' (hlookup.symm.trans hl)
      | none =>
        refine image_of_not_mentions hres' (hlookup.symm.trans hl) ?_
        rw [hagree.mentions_eq, Bool.eq_false_iff, ne_eq, Graph.mentions_iff]
        exact fun hm => by simpa [hl] using hk j rfl ⟨hres, hm⟩
  | _ => exact image_of_not_node rfl μ st

theorem image_union_fetches {fuel : Nat} (hT : Terms g b root) (unwrap : NodeId → TypeM Ty)
    (n : Nat) (hroot : g.Reaches root (.node j)) (ha : Above g S (.node j))
    (hu : g.shape j = .union u)
    (hsubst : ∀ t ∈ u.toList, Fetches g b root S (image b (Fold.add unwrap (n + 1)) fuel) t) :
    Fetches g b root S (image b (Fold.add unwrap (n + 1)) (fuel + 1)) (.node j) := by
  intro μ st hst
  have hunion := Graph.kind_of_union hu
  have hagree := hst.ext.agreesAt hT.closed (hroot.has hT.closed hT.has_root)
  have hres : st.graph.kind (.node j) ≠ .unresolved := by simp [hagree.kind_eq, hunion]
  cases hl : μ.lookup j with
  | some a => exact ⟨a, μ, st, image_of_lookup hres hl, hst, .refl _ _, hst.union j a hunion hl⟩
  | none =>
    cases hm : st.graph.mentions b.binds (.node j) with
    | false =>
      refine ⟨_, μ, st, image_of_not_mentions hres hl hm, hst, .refl _ _, ?_⟩
      refine hst.filled_of_not_mentions hT hu fun h => ?_
      rw [hagree.mentions_eq, Graph.mentions_iff.2 h] at hm
      cases hm
    | true =>
      obtain ⟨f, y, μ₁, st₁, st₂, hfold, hfinish, hst', hg, hfilled⟩ := union_fetches hT unwrap n
        hroot hu (fun i hi => (ha.path i hi).to_reflTransGen) hsubst hst
      refine ⟨y, _, st₂, ?_, hst', hg, hfilled⟩
      exact image_of_union ((hagree j .refl).trans hu) hl hm hfold hfinish

theorem Affected.exists_child (haff : Affected g b j) : ∃ c, c ∈ (g.shape j).children := by
  obtain ⟨i, name, hji, hi, -⟩ := haff.2
  rcases Relation.ReflTransGen.cases_head hji with hji | ⟨c, hc, -⟩
  · cases hji
    exact absurd (congrArg Shape.kind hi) haff.1
  · exact ⟨c, hc⟩

theorem image_copy_fetches {add : Fold → Ty → TypeM Fold} {fuel : Nat} (hT : Terms g b root)
    (hroot : g.Reaches root (.node j)) (haff : Affected g b j)
    (hunion : g.kind (.node j) ≠ .union) (hl : μ.lookup j = none)
    (hsubst : ∀ c ∈ (g.shape j).children, Fetches g b root (j :: S) (image b add (fuel + 1)) c)
    (hst : Stage g b root S μ st.graph) :
    ∃ t μ' st', (image b add (fuel + 2) (.node j)).Returns μ st t μ' st' ∧
      Stage g b root S μ' st'.graph ∧ Grows (copies g μ) st.graph (copies g μ') st'.graph ∧
      Filled g b S (copies g μ') st'.graph (.node j) t := by
  have hhas := hroot.has hT.closed hT.has_root
  have hagree := hst.ext.agreesAt hT.closed hhas
  have hm : st.graph.mentions b.binds (.node j) = true :=
    hagree.mentions_eq.trans (Graph.mentions_iff.2 haff.2)
  obtain ⟨μ', st', hfill, hst', hl', hg⟩ := copy_fetches hst hroot haff hunion hl
    (fun w hw => image_of_not_node hw) hsubst
  have hknown : Known g b (copies g μ') (.node j) := by
    rintro _ ⟨⟩ -
    simp [hl']
  refine ⟨_, μ', st', ?_, hst', hg, hst'.filled_img hT hhas hunion hknown⟩
  rw [hst'.img_of_copy hl']
  rw [← hagree j .refl] at hfill
  exact image_of_copy (hagree.kind_eq ▸ haff.1) (hagree.kind_eq ▸ hunion) hl hm hfill

theorem image_fetches (hT : Terms g b root) (unwrap : NodeId → TypeM Ty) (n fuel : Nat)
    (hroot : g.Reaches root t) (ha : Above g S t)
    (hfuel : 2 * g.size + 1 < fuel + 2 * S.length ∨
      g.kind t ≠ .union ∧ 2 * g.size < fuel + 2 * S.length) :
    Fetches g b root S (image b (Fold.add unwrap (n + 1)) fuel) t := by
  -- a copy is opened at most once for each node, and between two copies there is at most one union
  induction fuel generalizing S t with
  | zero =>
    have hle := ha.length_le
    omega
  | succ fuel ih =>
    by_cases hunion : g.kind t = .union
    · replace hfuel := hfuel.resolve_right fun h => h.1 hunion
      cases t with
      | node j =>
        obtain ⟨u, hu⟩ := Shape.exists_union_of_kind hunion
        refine image_union_fetches hT unwrap n hroot ha hu fun c hc => ?_
        have hchild := Graph.child_of_union hu hc
        have hflat := (Kind.ne_of_isMember ((hT.sorted j u hu).isMember hc)).1
        exact ih (hroot.tail hchild) (ha.child hchild) (.inr ⟨hflat, by omega⟩)
      | _ => cases hunion
    · intro μ st hst
      by_cases hk : Known g b (copies g μ) t
      · have hhas := hroot.has hT.closed hT.has_root
        exact ⟨_, μ, st, image_of_known_copy hT.closed hst.ext hhas hunion hk, hst, .refl _ _,
          hst.filled_img hT hhas hunion hk⟩
      · obtain ⟨j, rfl, haff, hnone⟩ := exists_affected_of_not_known hk
        have hl : μ.lookup j = none := (lookup_copies hunion μ).symm.trans hnone
        have hj : j ∉ S := fun hj => by simpa [hnone] using hst.under j hj
        obtain ⟨c, hc⟩ := haff.exists_child
        have hlen : S.length < g.size := (ha.cons hj hc).length_le
        obtain ⟨fuel', rfl⟩ : ∃ fuel', fuel = fuel' + 1 := ⟨fuel - 1, by omega⟩
        refine image_copy_fetches hT hroot haff hunion hl (fun c hc => ?_) hst
        refine ih (hroot.tail hc) (ha.cons hj hc) (.inl ?_)
        rw [List.length_cons]
        omega

theorem Stage.known_of_reaches (hst : Stage g b root [] μ h) (hT : Terms g b root)
    (hknown : ∀ x ∈ g.parts c, Known g b (copies g μ) x) (hct : g.Reaches c t) :
    ∀ x ∈ g.parts t, Known g b (copies g μ) x := by
  have hstep (x : Ty) (hx : ∀ z ∈ g.parts x, Known g b (copies g μ) z) (y : Ty)
      (hxy : g.Child x y) : ∀ z ∈ g.parts y, Known g b (copies g μ) z := by
    intro z hz k hk haff
    have hmentions : g.Mentions b.binds y := by
      obtain ⟨i, name, hki, hi⟩ := haff.2
      exact ⟨i, name, (hk ▸ Graph.reaches_of_mem_parts hz).trans hki, hi⟩
    obtain ⟨i, rfl, haffi⟩ := affected_of_child hxy hmentions
    by_cases hunion : g.kind (.node i) = .union
    · obtain ⟨u, hu⟩ := Shape.exists_union_of_kind hunion
      rw [Graph.child_node, hu] at hxy
      have hflat := (Kind.ne_of_isMember ((hT.sorted i u hu).isMember hxy)).1
      rw [Graph.parts_of_kind_ne hflat, List.mem_singleton] at hz
      subst hz
      refine hx z ?_ k hk haff
      simp only [Graph.parts, hu]
      exact hxy
    · have hsome := hx (.node i) (by simp [Graph.parts_of_kind_ne hunion]) i rfl haffi
      obtain ⟨a, ha⟩ := Option.isSome_iff_exists.1 hsome
      obtain ⟨l, -, -, hcopied⟩ := hst.copy i a ha
      obtain ⟨shown, types, -, -, hfilled, -, hall⟩ := hcopied.shown
      obtain rfl := hall (by simp)
      obtain ⟨n, hn, rfl⟩ := List.getElem_of_mem hxy
      exact (hfilled.get hn (hfilled.length_eq ▸ hn)).known z hz k hk haff
  exact hct.mem_of_closed hstep hknown

/-- What stands in the place of the type `c`: its image, or for a union a type with one part for the
image of each of the union's shapes. -/
def Replaces (g : Graph) (image : Ty → Ty) (h : Graph) (c t : Ty) : Prop :=
  (g.kind c ≠ .union → t = image c) ∧ ∀ j u, c = .node j → g.shape j = .union u →
    ∀ m ∈ u.shapes, ∃ y ∈ h.parts t, h.equal (image (.node m)) y = true

/-- The images of the types inside the body of a generic, in the graph `h` that putting the
arguments into the graph `g` has left. No union has lost a shape, wherever it stands. -/
structure KeepsMembers (g : Graph) (params : List NodeId) (args : List Ty) (body : Ty)
    (image : Ty → Ty) (h : Graph) : Prop where
  word : ∀ t, t.node? = none → image t = t
  bound : ∀ (i : NodeId) (p : Nat), g.kind (.node i) = .unresolved → params[p]? = some i →
    (∀ q, p < q → params[q]? ≠ some i) → image (.node i) = args[p]?.getD .unknown
  unbound : ∀ i, g.kind (.node i) = .unresolved → i ∉ params → image (.node i) = .node i
  kept : ∀ i, ¬ g.Mentions params.contains (.node i) → image (.node i) = .node i
  copy : ∀ i, g.Reaches body (.node i) → g.Mentions params.contains (.node i) →
    g.kind (.node i) ≠ .unresolved → g.kind (.node i) ≠ .union → ∃ k types, g.size ≤ k ∧
      image (.node i) = .node k ∧ h.shape k = (g.shape i).refill types ∧
      List.Forall₂ (Replaces g image h) (g.shape i).children types
  unchanged : g.Extends h

theorem Filled.replaces (ht : Filled g b S ν h c t) : Replaces g (img g b ν) h c t := by
  refine ⟨ht.plain, fun j u hj hu m hm => ?_⟩
  obtain ⟨y, hy, hmeets⟩ := ht.parts j u hj hu m hm
  refine ⟨y, hy, Graph.equal_iff.2 ?_⟩
  rcases hmeets with rfl | ⟨-, -, hsimilar⟩
  · exact .refl h _
  · exact hsimilar

section

variable {params : List NodeId} {args : List Ty} {body : Ty} {origin : NodeId} {name : Text}

theorem Stage.keepsMembers (hT : Terms g (.ofArgs params args) body)
    (hst : Stage g (.ofArgs params args) body [] μ h)
    (hbody : ∀ x ∈ g.parts body, Known g (.ofArgs params args) (copies g μ) x) :
    KeepsMembers g params args body (img g (.ofArgs params args) (copies g μ)) h where
  word t := img_of_not_node
  bound i p hi hparam hlast := by
    rw [img_of_unresolved hi, Bindings.lookup_ofArgs hparam hlast, Option.getD_some]
  unbound i hi hnot := by
    rw [img_of_unresolved hi, Bindings.lookup_ofArgs_eq_none.2 hnot, Option.getD_none]
  kept i hm := by
    by_cases hi : g.kind (.node i) = .unresolved
    · obtain ⟨name, hshape⟩ := Shape.exists_unresolved_of_kind hi
      have hnot : i ∉ params := fun hmem =>
        hm ⟨i, name, .refl, hshape, List.contains_iff_mem.2 hmem⟩
      rw [img_of_unresolved hi, Bindings.lookup_ofArgs_eq_none.2 hnot, Option.getD_none]
    · rw [img_of_ne_unresolved hi]
      cases hl : (copies g μ).lookup i with
      | none => rfl
      | some t => exact absurd (affected_ofArgs.1 (hst.affected i t hl)).2 hm
  copy i hi hm hres hunion := by
    have hpart : .node i ∈ g.parts (.node i) := by simp [Graph.parts_of_kind_ne hunion]
    have hknown := hst.known_of_reaches hT hbody hi (.node i) hpart
    obtain ⟨t, ht⟩ := Option.isSome_iff_exists.1 (hknown i rfl (affected_ofArgs.2 ⟨hres, hm⟩))
    obtain ⟨k, rfl, -, hk⟩ := hst.copy i t ht
    obtain ⟨shown, types, -, -, hfilled, hshape, hall⟩ := hk.shown
    obtain rfl := hall (by simp)
    exact ⟨k, types, hk.size_le, hst.img_of_copy ht, hshape, hfilled.imp fun _ _ => Filled.replaces⟩
  unchanged := hst.ext

/-- Opening an instantiation loses no member of a union, also of one that lies on a cycle, if
members of which one leads back to their union are told apart by how they begin. -/
theorem instantiate_keepsMembers (unwrap : NodeId → TypeM Ty) (n : Nat)
    (hg : st.graph.WellFormed) (hsorted : ∀ j u, st.graph.shape j = .union u → u.Sorted st.graph)
    (hi : st.graph.shape i = .instantiation (some origin) args)
    (horigin : st.graph.shape origin = .generic name params body)
    (hlen : params.length ≤ args.length)
    (hargs : ∀ t ∈ args, st.graph.kind t ≠ .instantiation ∧ Fold.escalation st.graph t = none)
    (hapart : ∀ j u, st.graph.Reaches body (.node j) → st.graph.shape j = .union u →
      ∀ m ∈ u.shapes, ∀ m' ∈ u.shapes, m ≠ m' →
      st.graph.Reaches (.node m) (.node j) ∨ st.graph.Reaches (.node m') (.node j) →
      (st.graph.shape m).ToldApart (st.graph.shape m')) :
    ∃ image t st', (instantiate (Fold.add unwrap (n + 1)) i).Returns st t st' ∧
      KeepsMembers st.graph params args body image st'.graph ∧
      Replaces st.graph image st'.graph body t := by
  have hT : Terms st.graph (.ofArgs params args) body := by
    refine ⟨hg.closed, hg.bodies origin name params body horigin, hsorted, fun p t ht => ?_, hapart⟩
    have hmem := Bindings.mem_args_of_length hlen ht
    refine ⟨hg.closed (.node i) t ?_, hargs t hmem⟩
    rw [Graph.child_node, hi]
    exact hmem
  have hfuel : 2 * st.graph.size + 1 < depth st.graph + 2 * ([] : List NodeId).length := by
    rw [depth, List.length_nil]
    omega
  obtain ⟨t, μ, st', hrun, hst, -, hfilled⟩ :=
    image_fetches hT unwrap n _ .refl ⟨.nil, by simp⟩ (.inl hfuel) [] st (.start hT)
  refine ⟨_, t, st', ?_, hst.keepsMembers hT hfilled.known, hfilled.replaces⟩
  refine (TypeM.Returns.graph st).bind ?_
  simp only [hi, horigin]
  exact hrun.run'

/-- The generic `Pair<T> = { first: A, second: B }` with `A = { tag: "a", next: A | B, left: T }`
and `B = { tag: "b", next: A | B, right: T }`, and the instantiation `Pair<string>`. Without tags
the members of the union begin alike. -/
def pairs (tagged : Bool) : Graph :=
  let member (tag side : String) : Shape :=
    .record ((if tagged then [⟨.named (text "tag"), .string (text tag), false⟩] else []) ++
      [⟨.named (text "next"), .node 3, false⟩, ⟨.named (text side), .node 0, false⟩])
  ⟨#[.unresolved (text "T"), member "a" "left", member "b" "right", .union { shapes := [1, 2] },
    .record [⟨.named (text "first"), .node 1, false⟩, ⟨.named (text "second"), .node 2, false⟩],
    .generic (text "Pair") [0] (.node 4), .instantiation (some 5) [.simple .string]]⟩

theorem eq_of_pairs_union {j : NodeId} {u : Members} (hu : (pairs true).shape j = .union u) :
    j = 3 ∧ u = { shapes := [1, 2] } := by
  have hkind : ∀ j < 7, (pairs true).kind (.node j) = .union → j = 3 := by decide
  obtain rfl := hkind j (Graph.lt_size_of_shape hu (by simp)) (Graph.kind_of_union hu)
  cases hu
  exact ⟨rfl, rfl⟩

theorem pairs_keepsMembers :
    (pairs true).WellFormed ∧ Relation.TransGen (pairs true).Child (.node 3) (.node 3) ∧
      ∃ image t st', (instantiate (m := TypeM) (Fold.add (fun _ => return .error) 1) 6).Returns
          { graph := pairs true } t st' ∧
        KeepsMembers (pairs true) [0] [.simple .string] (.node 4) image st'.graph ∧
        Replaces (pairs true) image st'.graph (.node 4) t := by
  have hwell : (pairs true).WellFormed := Graph.wellFormed_of_admits (by decide)
  have hcycle : Relation.TransGen (pairs true).Child (.node 3) (.node 3) :=
    .tail (.single (Graph.child_node.2 (by decide) : (pairs true).Child _ (.node 1)))
      (Graph.child_node.2 (by decide))
  have hapart : ∀ m ∈ [1, 2], ∀ m' ∈ [1, 2], m ≠ m' →
      ((pairs true).shape m).ToldApart ((pairs true).shape m') := by
    decide
  refine ⟨hwell, hcycle, ?_⟩
  refine instantiate_keepsMembers (fun _ => return .error) 0 hwell (fun j u hu => ?_) rfl rfl
    (by decide) (by decide) fun j u _ hu => ?_
  · obtain ⟨rfl, rfl⟩ := eq_of_pairs_union hu
    exact ⟨by decide, by simp⟩
  · obtain ⟨rfl, rfl⟩ := eq_of_pairs_union hu
    exact fun m hm m' hm' hne _ => hapart m hm m' hm' hne

/-- Without tags the copy of the second member is compared with the first while both are empty, and
it is lost where it refers to the union itself. -/
theorem pairs_loses_member :
    ∃ t st', (instantiate (m := TypeM) (Fold.add (fun _ => return .error) 1) 6).Returns
        { graph := pairs false } t st' ∧
      ¬ ∃ image, KeepsMembers (pairs false) [0] [.simple .string] (.node 4) image st'.graph := by
  let run : Except Fault Ty × Store :=
    (instantiate (m := TypeM) (Fold.add (fun _ => return .error) 1) 6).run.run
      { graph := pairs false }
  have hok : run.1.toOption = some (.node 7) := by decide +kernel
  have hsize : run.2.graph.size = 11 := by decide +kernel
  have hcopy : ∀ k < 11, 7 ≤ k → (run.2.graph.shape k).slots?.map (·.map (·.key)) =
      some [.named (text "next"), .named (text "right")] → k = 9 := by
    decide +kernel
  have hshape : run.2.graph.shape 9 = .record [⟨.named (text "next"), .node 8, false⟩,
      ⟨.named (text "right"), .simple .string, false⟩] := by
    decide +kernel
  have hlost : ∀ y ∈ run.2.graph.parts (.node 8), run.2.graph.equal (.node 9) y = false := by
    decide +kernel
  refine ⟨.node 7, run.2, Prod.ext ?_ rfl, fun ⟨image, hkeeps⟩ => ?_⟩
  · revert hok
    change run.1.toOption = _ → run.1 = _
    cases run.1 <;> simp [Except.toOption]
  · have hreach : (pairs false).Reaches (.node 4) (.node 2) :=
      .single (Graph.child_node.2 (by decide))
    have hmentions : (pairs false).Mentions [0].contains (.node 2) :=
      ⟨0, text "T", .single (Graph.child_node.2 (by decide)), rfl, rfl⟩
    obtain ⟨k, types, hk, himage, hk', hfilled⟩ :=
      hkeeps.copy 2 hreach hmentions (by decide) (by decide)
    cases hfilled with
    | cons hnext hrest =>
      cases hrest with
      | cons _ hnil =>
        cases hnil
        have hlt : k < run.2.graph.size :=
          Graph.lt_size_of_shape hk' (by simp [Graph.shape, pairs, Shape.refill])
        rw [hsize] at hlt
        obtain rfl := hcopy k hlt hk (by rw [hk']; rfl)
        rw [hshape] at hk'
        obtain ⟨y, hy, hequal⟩ := hnext.2 3 _ rfl rfl 2 (by decide)
        cases hk'
        rw [himage, hlost y hy] at hequal
        cases hequal

end

end Substitution

end FlowTyping
