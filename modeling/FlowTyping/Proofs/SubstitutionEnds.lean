import FlowTyping.Proofs.Underway

/-!
Substitution ends in every well-formed graph, also where unions lie on cycles, and makes at most one
copy of each node that is no union. The argument leaves open what adding to a fold does, as long as
it ends and keeps an invariant of the caller's choice; this is where arguments may be opened.
-/

namespace FlowTyping.Substitution

variable {g h h' : Graph} {b : Bindings} {root t c y : Ty} {S : List NodeId} {μ ν ν' : Images}
  {st : Store} {i j k : NodeId} {u : Members} {f : Fold} {subst : Ty → SubstT TypeM Ty}
  {add : Fold → Ty → TypeM Fold} {I : Images → Graph → Prop}

/-- An argument that takes the place of a member of a union inside the body. -/
def Exposed (g : Graph) (b : Bindings) (root y : Ty) : Prop :=
  ∃ j u p, g.Reaches root (.node j) ∧ g.shape j = .union u ∧ .node p ∈ u.toList ∧
    g.kind (.node p) = .unresolved ∧ b.lookup p = some y

/-- What holds of the copies and of the graph while a substitution is under way: each of its steps
keeps it, and so does adding a type to a fold. -/
structure Invariant (g : Graph) (b : Bindings) (root : Ty) (add : Fold → Ty → TypeM Fold)
    (I : Images → Graph → Prop) : Prop where
  copy : ∀ {S μ h j}, Underway g b root S μ h → I (copies g μ) h → Affected g b j →
    g.Reaches root (.node j) → g.kind (.node j) ≠ .union → μ.lookup j = none →
    I ((j, .node h.size) :: copies g μ) (h.push ((g.shape j).refill []))
  fill : ∀ {S μ h j k shown types}, Underway g b root S μ h → I (copies g μ) h → j ∈ S →
    (copies g μ).lookup j = some (.node k) → shown <+: (g.shape j).children →
    List.Forall₂ (Delivers g b (copies g μ) h) shown types →
    I (copies g μ) (h.replace k ((g.shape j).refill types))
  union : ∀ {S μ h} {f : Fold}, Underway g b root S μ h → I (copies g μ) h → f.Proper h →
    I (copies g μ) (h.push (.union f.members))
  add : ∀ {S μ} {st : Store} {f : Fold} {y}, Underway g b root S μ st.graph →
    I (copies g μ) st.graph → f.Proper st.graph → st.graph.Has y →
    st.graph.kind y ≠ .instantiation ∨ Exposed g b root y → ∃ f' st',
      (add f y).Returns st f' st' ∧ st.graph.Extends st'.graph ∧ st'.graph.WellFormed ∧
        I (copies g μ) st'.graph ∧ f'.Proper st'.graph

def Yields (g : Graph) (b : Bindings) (root : Ty) (I : Images → Graph → Prop) (S : List NodeId)
    (subst : Ty → SubstT TypeM Ty) (c : Ty) : Prop :=
  ∀ μ st, Underway g b root S μ st.graph → I (copies g μ) st.graph → ∃ y μ' st',
    (subst c).Returns μ st y μ' st' ∧ Underway g b root S μ' st'.graph ∧
      I (copies g μ') st'.graph ∧ Grows (copies g μ) st.graph (copies g μ') st'.graph ∧
      Delivers g b (copies g μ') st'.graph c y

theorem Grows.delivers (hg : Grows ν h ν' h') (haff : ∀ i t, ν'.lookup i = some t → Affected g b i)
    (hy : Delivers g b ν h c y) : Delivers g b ν' h' c y :=
  hy.mono hg.lookup haff hg.ext.kindsStay

theorem fillChildren_yields {shown types rest : List Ty} (hI : Invariant g b root add I)
    (hj : j ∈ S) (hk : h.size ≤ k) (hsubst : ∀ c ∈ rest, Yields g b root I S subst c)
    (hchildren : shown ++ rest = (g.shape j).children) (hu : Underway g b root S μ st.graph)
    (hi : I (copies g μ) st.graph) (hl : (copies g μ).lookup j = some (.node k))
    (hg : Grows ν h (copies g μ) st.graph)
    (htypes : List.Forall₂ (Delivers g b (copies g μ) st.graph) shown types)
    (hshape : st.graph.shape k = (g.shape j).refill types) :
    ∃ types' μ' st', (fillChildren subst k (g.shape j) rest types).Returns μ st () μ' st' ∧
      Underway g b root S μ' st'.graph ∧ I (copies g μ') st'.graph ∧
      (copies g μ').lookup j = some (.node k) ∧ Grows ν h (copies g μ') st'.graph ∧
      List.Forall₂ (Delivers g b (copies g μ') st'.graph) (g.shape j).children types' ∧
      st'.graph.shape k = (g.shape j).refill types' := by
  induction rest generalizing shown types μ st with
  | nil =>
    rw [List.append_nil] at hchildren
    subst hchildren
    exact ⟨types, μ, st, .pure _ _ _, hu, hi, hl, hg, htypes, hshape⟩
  | cons c rest ih =>
    obtain ⟨y, μ₁, st₁, hrun, hu₁, hi₁, hg₁, hy⟩ := hsubst c (by simp) μ st hu hi
    have hl₁ := hg₁.lookup j _ hl
    have htypes₁ : List.Forall₂ (Delivers g b (copies g μ₁) st₁.graph) (shown ++ [c])
        (types ++ [y]) :=
      List.rel_append (htypes.imp fun _ _ => hg₁.delivers hu₁.affected) (.cons hy .nil)
    have hinit : shown ++ [c] <+: (g.shape j).children := ⟨rest, by simp [← hchildren]⟩
    let filled : Shape := (g.shape j).refill (types ++ [y])
    let st₂ : Store := { st₁ with graph := st₁.graph.replace k filled }
    have hu₂ : Underway g b root S μ₁ st₂.graph := hu₁.fill hj hl₁ htypes₁
    have hi₂ : I (copies g μ₁) st₂.graph := hI.fill hu₁ hi₁ hj hl₁ hinit htypes₁
    have hg₂ : Grows ν h (copies g μ₁) st₂.graph :=
      ⟨(hg.trans hg₁).lookup, (hg.trans hg₁).ext.replace hk filled⟩
    have hkinds : st₁.graph.KindsStay st₂.graph := hu₁.kindsStay_fill hl₁ _
    have hlt : k < st₁.graph.size := by
      obtain ⟨_, ⟨⟩, -, hlt, -⟩ := hu₁.copy j _ hl₁
      exact hlt
    obtain ⟨types', μ', st', hrest, hu', hi', hl', hg', htypes', hshape'⟩ := ih
      (fun c hc => hsubst c (by simp [hc])) (by simpa using hchildren) hu₂ hi₂ hl₁ hg₂
      (htypes₁.imp fun _ _ => .mono (fun _ _ => id) hu₁.affected hkinds)
      (Graph.shape_replace_self filled hlt)
    refine ⟨types', μ', st', hrun.bind ?_, hu', hi', hl', hg', htypes', hshape'⟩
    exact (SubstT.Returns.lift (TypeM.Returns.fill k filled st₁) μ₁).bind hrest

theorem copy_yields (hI : Invariant g b root add I) (hu : Underway g b root S μ st.graph)
    (hi : I (copies g μ) st.graph) (hroot : g.Reaches root (.node j)) (haff : Affected g b j)
    (hunion : g.kind (.node j) ≠ .union) (hj : μ.lookup j = none)
    (hsubst : ∀ c ∈ (g.shape j).children, Yields g b root I (j :: S) subst c) :
    ∃ μ' st', (fillChildren subst st.graph.size (g.shape j) (g.shape j).children []).Returns
        ((j, .node st.graph.size) :: μ)
        { st with graph := st.graph.push ((g.shape j).refill []) } () μ' st' ∧
      Underway g b root S μ' st'.graph ∧ I (copies g μ') st'.graph ∧
      (copies g μ').lookup j = some (.node st.graph.size) ∧
      Grows (copies g μ) st.graph (copies g μ') st'.graph := by
  let st₁ : Store := { st with graph := st.graph.push ((g.shape j).refill []) }
  have hcopies := copies_cons hunion (.node st.graph.size) μ
  have hnone : (copies g μ).lookup j = none := (lookup_copies hunion μ).trans hj
  have hu₁ : Underway g b root (j :: S) ((j, .node st.graph.size) :: μ) st₁.graph :=
    hu.enter haff hroot hunion hj
  have hi₁ : I (copies g ((j, .node st.graph.size) :: μ)) st₁.graph := by
    rw [hcopies]
    exact hI.copy hu hi haff hroot hunion hj
  have hl₁ : (copies g ((j, .node st.graph.size) :: μ)).lookup j = some (.node st.graph.size) := by
    rw [hcopies, List.lookup_cons_self]
  have hg₁ : Grows (copies g μ) st.graph (copies g ((j, .node st.graph.size) :: μ)) st₁.graph := by
    rw [hcopies]
    exact .cons hnone _ (.push _ _)
  obtain ⟨types, μ', st', hrun, hu', hi', hl', hg', htypes, hshape⟩ := fillChildren_yields hI
    List.mem_cons_self (Nat.le_refl _) hsubst (List.nil_append _) hu₁ hi₁ hl₁ hg₁ .nil
    (Graph.shape_push_size _ _)
  exact ⟨μ', st', hrun, hu'.leave hl' htypes hshape, hi', hl', hg'⟩

theorem Underway.kind_img_member (hu : Underway g b root S μ h) (hb : Basis g b root)
    (hroot : g.Reaches root (.node j)) (hj : g.shape j = .union u) (hc : c ∈ u.toList) :
    h.kind (img g b (copies g μ) c) ≠ .instantiation ∨
      Exposed g b root (img g b (copies g μ) c) := by
  have hhas : g.Has c := hb.well.closed _ _ (Graph.child_of_union hj hc)
  have hopen := (hb.well.flat j u hj c hc).2
  rw [← hu.ext.kind_eq hhas] at hopen
  cases c with
  | node i =>
    by_cases hi : g.kind (.node i) = .unresolved
    · rw [img_of_unresolved hi]
      cases hl : b.lookup i with
      | none => exact .inl hopen
      | some a => exact .inr ⟨j, u, i, hroot, hj, hc, hi, hl⟩
    · cases hl : (copies g μ).lookup i with
      | none =>
        rw [img_of_ne_unresolved hi, hl]
        exact .inl hopen
      | some a =>
        rw [hu.img_of_copy hl]
        obtain ⟨k, rfl, -, -, hkind⟩ := hu.copy i a hl
        rw [hu.ext.kind_eq hhas] at hopen
        exact .inl (hkind ▸ hopen)
  | _ => exact .inl hopen

theorem foldMembers_yields {rest : List Ty} (hI : Invariant g b root add I) (hb : Basis g b root)
    (hroot : g.Reaches root (.node j)) (hj : g.shape j = .union u)
    (hrest : ∀ c ∈ rest, c ∈ u.toList) (hsubst : ∀ c ∈ rest, Yields g b root I S subst c)
    (hu : Underway g b root S μ st.graph) (hi : I (copies g μ) st.graph)
    (hf : f.Proper st.graph) :
    ∃ f' μ' st', (foldMembers subst add rest f).Returns μ st f' μ' st' ∧
      Underway g b root S μ' st'.graph ∧ I (copies g μ') st'.graph ∧
      Grows (copies g μ) st.graph (copies g μ') st'.graph ∧ f'.Proper st'.graph := by
  induction rest generalizing f μ st with
  | nil => exact ⟨f, μ, st, .pure _ _ _, hu, hi, .refl _ _, hf⟩
  | cons c rest ih =>
    obtain ⟨y, μ₁, st₁, hrun, hu₁, hi₁, hg₁, hy⟩ := hsubst c (by simp) μ st hu hi
    have hc := hrest c (by simp)
    obtain ⟨-, rfl⟩ := hy.plain (hb.well.flat j u hj c hc).1
    obtain ⟨f₁, st₂, hadd, hext, hwell, hi₂, hf₁⟩ := hI.add hu₁ hi₁ (hf.mono hg₁.ext.kindsStay)
      hy.has (hu₁.kind_img_member hb hroot hj hc)
    obtain ⟨f', μ', st', hfold, hu', hi', hg', hf'⟩ := ih (fun c hc => hrest c (by simp [hc]))
      (fun c hc => hsubst c (by simp [hc])) (hu₁.later hext hwell) hi₂ hf₁
    refine ⟨f', μ', st', hrun.bind ((SubstT.Returns.lift hadd μ₁).bind hfold), hu', hi', ?_, hf'⟩
    exact (hg₁.trans ⟨fun _ _ => id, hext⟩).trans hg'

theorem union_yields (hI : Invariant g b root add I) (hb : Basis g b root)
    (hroot : g.Reaches root (.node j)) (hj : g.shape j = .union u)
    (hsubst : ∀ c ∈ u.toList, Yields g b root I S subst c)
    (hu : Underway g b root S μ st.graph) (hi : I (copies g μ) st.graph) :
    ∃ f t μ₁ st₁ st₂, (foldMembers subst add u.toList .never).Returns μ st f μ₁ st₁ ∧
      f.finish.Returns st₁ t st₂ ∧ Underway g b root S ((j, t) :: μ₁) st₂.graph ∧
      I (copies g ((j, t) :: μ₁)) st₂.graph ∧
      Grows (copies g μ) st.graph (copies g ((j, t) :: μ₁)) st₂.graph ∧
      Delivers g b (copies g ((j, t) :: μ₁)) st₂.graph (.node j) t := by
  have hunion := Graph.kind_of_union hj
  obtain ⟨f, μ₁, st₁, hfold, hu₁, hi₁, hg₁, hf⟩ := foldMembers_yields hI hb hroot hj
    (fun _ => id) hsubst hu hi (.never _)
  obtain ⟨t, st₂, hfinish, hgraph, hhas, hopen⟩ := hf.finish
  have hstep : st₁.graph.Extends st₂.graph ∧ st₂.graph.WellFormed ∧ I (copies g μ₁) st₂.graph := by
    rcases hgraph with hgraph | hgraph <;> rw [hgraph]
    · exact ⟨.refl _, hu₁.well, hi₁⟩
    · exact ⟨.push _ _, hf.wellFormed_push hu₁.well, hI.union hu₁ hi₁ hf⟩
  obtain ⟨hext, hwell, hi₂⟩ := hstep
  refine ⟨f, t, μ₁, st₁, st₂, hfold, hfinish, (hu₁.later hext hwell).remember hunion hhas hopen, ?_⟩
  rw [copies_cons_of_union hunion]
  exact ⟨hi₂, ⟨hg₁.lookup, hg₁.ext.trans hext⟩, hhas, fun h => absurd hunion h, fun _ => hopen⟩

theorem image_union_yields {fuel : Nat} (hI : Invariant g b root add I) (hb : Basis g b root)
    (hroot : g.Reaches root (.node j)) (hj : g.shape j = .union u)
    (hsubst : ∀ c ∈ u.toList, Yields g b root I S (image b add fuel) c) :
    Yields g b root I S (image b add (fuel + 1)) (.node j) := by
  intro μ st hu hi
  have hunion := Graph.kind_of_union hj
  have hhas := hroot.has hb.well.closed hb.has_root
  have hagree := hu.ext.agreesAt hb.well.closed hhas
  have hres : st.graph.kind (.node j) ≠ .unresolved := by simp [hagree.kind_eq, hunion]
  cases hl : μ.lookup j with
  | some a =>
    obtain ⟨ha, hopen⟩ := hu.union j a hunion hl
    exact ⟨a, μ, st, image_of_lookup hres hl, hu, hi, .refl _ _, ha, fun h => absurd hunion h,
      fun _ => hopen⟩
  | none =>
    cases hm : st.graph.mentions b.binds (.node j) with
    | false =>
      refine ⟨_, μ, st, image_of_not_mentions hres hl hm, hu, hi, .refl _ _, hu.ext.has hhas,
        fun h => absurd hunion h, fun _ => ?_⟩
      simp [hagree.kind_eq, hunion]
    | true =>
      obtain ⟨f, y, μ₁, st₁, st₂, hfold, hfinish, hu', hi', hg, hy⟩ :=
        union_yields hI hb hroot hj hsubst hu hi
      exact ⟨y, _, st₂, image_of_union ((hagree j .refl).trans hj) hl hm hfold hfinish, hu', hi',
        hg, hy⟩

theorem image_copy_yields {fuel : Nat} (hI : Invariant g b root add I) (hb : Basis g b root)
    (hroot : g.Reaches root (.node j)) (haff : Affected g b j)
    (hunion : g.kind (.node j) ≠ .union) (hl : μ.lookup j = none)
    (hsubst : ∀ c ∈ (g.shape j).children, Yields g b root I (j :: S) (image b add fuel) c)
    (hu : Underway g b root S μ st.graph) (hi : I (copies g μ) st.graph) :
    ∃ y μ' st', (image b add (fuel + 1) (.node j)).Returns μ st y μ' st' ∧
      Underway g b root S μ' st'.graph ∧ I (copies g μ') st'.graph ∧
      Grows (copies g μ) st.graph (copies g μ') st'.graph ∧
      Delivers g b (copies g μ') st'.graph (.node j) y := by
  have hhas := hroot.has hb.well.closed hb.has_root
  have hagree := hu.ext.agreesAt hb.well.closed hhas
  have hm : st.graph.mentions b.binds (.node j) = true :=
    hagree.mentions_eq.trans (Graph.mentions_iff.2 haff.2)
  obtain ⟨μ', st', hfill, hu', hi', hl', hg⟩ := copy_yields hI hu hi hroot haff hunion hl hsubst
  have hknown : Known g b (copies g μ') (.node j) := by
    rintro _ ⟨⟩ -
    simp [hl']
  refine ⟨_, μ', st', ?_, hu', hi', hg, hu'.delivers_img hb hhas hunion hknown⟩
  rw [hu'.img_of_copy hl']
  rw [← hagree j .refl] at hfill
  exact image_of_copy (hagree.kind_eq ▸ haff.1) (hagree.kind_eq ▸ hunion) hl hm hfill

theorem image_yields (hI : Invariant g b root add I) (hb : Basis g b root) (fuel : Nat)
    (hroot : g.Reaches root t) (ha : Above g S t)
    (hfuel : 2 * g.size + 1 < fuel + 2 * S.length ∨
      g.kind t ≠ .union ∧ 2 * g.size < fuel + 2 * S.length) :
    Yields g b root I S (image b add fuel) t := by
  -- `S` has each node at most once, and a union is entered only from a copy
  induction fuel generalizing S t with
  | zero =>
    have hle := ha.length_le
    omega
  | succ fuel ih =>
    by_cases hunion : g.kind t = .union
    · replace hfuel := hfuel.resolve_right fun h => h.1 hunion
      obtain ⟨j, u, rfl, hj⟩ := Graph.exists_union_of_kind hunion
      refine image_union_yields hI hb hroot hj fun c hc => ?_
      have hchild := Graph.child_of_union hj hc
      exact ih (hroot.tail hchild) (ha.child hchild)
        (.inr ⟨(hb.well.flat j u hj c hc).1, by omega⟩)
    · intro μ st hu hi
      have hhas := hroot.has hb.well.closed hb.has_root
      by_cases hk : Known g b (copies g μ) t
      · exact ⟨_, μ, st, image_of_known_copy hb.well.closed hu.ext hhas hunion hk, hu, hi,
          .refl _ _, hu.delivers_img hb hhas hunion hk⟩
      · obtain ⟨j, rfl, haff, hnone⟩ := exists_affected_of_not_known hk
        have hl : μ.lookup j = none := (lookup_copies hunion μ).symm.trans hnone
        have hj : j ∉ S := fun hj => by simpa [hnone] using hu.under j hj
        refine image_copy_yields hI hb hroot haff hunion hl (fun c hc => ?_) hu hi
        have hlen : S.length < g.size := (ha.cons hj hc).length_le
        refine ih (hroot.tail hc) (ha.cons hj hc) (.inl ?_)
        rw [List.length_cons]
        omega

section

variable {params : List NodeId} {args : List Ty} {body : Ty} {origin : NodeId} {name : Text}

theorem instantiate_yields (hg : st.graph.WellFormed)
    (hi : st.graph.shape i = .instantiation (some origin) args)
    (horigin : st.graph.shape origin = .generic name params body)
    (hI : Invariant st.graph (.ofArgs params args) body add I) (hstart : I [] st.graph) :
    ∃ t μ st', (instantiate add i).Returns st t st' ∧
      Underway st.graph (.ofArgs params args) body [] μ st'.graph ∧
      I (copies st.graph μ) st'.graph ∧
      Delivers st.graph (.ofArgs params args) (copies st.graph μ) st'.graph body t := by
  have hb : Basis st.graph (.ofArgs params args) body := by
    refine ⟨hg, hg.bodies origin name params body horigin, fun p t ht => ?_⟩
    rcases Bindings.mem_args_of_lookup ht with ht | rfl
    · exact hg.closed.has_arg hi ht
    · trivial
  have hfuel : 2 * st.graph.size + 1 < depth st.graph + 2 * ([] : List NodeId).length := by
    rw [depth, List.length_nil]
    omega
  obtain ⟨t, μ, st', hrun, hu, hI', -, ht⟩ :=
    image_yields hI hb _ .refl ⟨.nil, by simp⟩ (.inl hfuel) [] st (.start hb) hstart
  refine ⟨t, μ, st', ?_, hu, hI', ht⟩
  refine (TypeM.Returns.graph st).bind ?_
  simp only [hi, horigin]
  exact hrun.run'

def OnlyCopies (g : Graph) (ν : Images) (h : Graph) : Prop :=
  ∀ k, g.size ≤ k → k < h.size → h.kind (.node k) ≠ .union → ∃ i, ν.lookup i = some (.node k)

theorem onlyCopies_push (hν : OnlyCopies g ν h) {s : Shape}
    (hlookup : ∀ i t, ν.lookup i = some t → ν'.lookup i = some t)
    (hnew : s.kind ≠ .union → ∃ i, ν'.lookup i = some (.node h.size)) :
    OnlyCopies g ν' (h.push s) := by
  intro k hgk hk hunion
  rw [Graph.size_push] at hk
  rcases Nat.lt_succ_iff_lt_or_eq.1 hk with hk | rfl
  · rw [Graph.kind, Graph.shape_push_of_lt s hk] at hunion
    obtain ⟨i, hi⟩ := hν k hgk hk hunion
    exact ⟨i, hlookup i _ hi⟩
  · rw [Graph.kind, Graph.shape_push_size] at hunion
    exact hnew hunion

theorem invariant_onlyCopies (unwrap : NodeId → TypeM Ty) (n : Nat)
    (hargs : ∀ p t, b.lookup p = some t → g.Has t ∧ g.kind t ≠ .instantiation) :
    Invariant g b root (Fold.add unwrap (n + 1)) (OnlyCopies g) where
  copy {S μ h j} hu hi haff hroot hunion hj := by
    have hnone : (copies g μ).lookup j = none := (lookup_copies hunion μ).trans hj
    refine onlyCopies_push hi (fun i t hl => ?_) fun _ => ⟨j, List.lookup_cons_self⟩
    exact (Grows.cons hnone _ (.refl h)).lookup i t hl
  fill {S μ h j k shown types} hu hi hj hk hshown htypes l hgl hl hunion := by
    rw [Graph.size_replace] at hl
    rw [(hu.kindsStay_fill hk types).kind_eq l hl] at hunion
    exact hi l hgl hl hunion
  union hu hi hf := onlyCopies_push hi (fun _ _ => id) fun h => absurd rfl h
  add {S μ st f y} hu hi hf hy hopen := by
    -- No argument has to be opened, so a fold makes no node at all.
    have hkind : st.graph.kind y ≠ .instantiation := by
      rcases hopen with hopen | ⟨-, -, p, -, -, -, -, hp⟩
      · exact hopen
      · rw [hu.ext.kind_eq (hargs p y hp).1]
        exact (hargs p y hp).2
    obtain ⟨f', hadd, hf'⟩ := hf.add_returns hu.well hy hkind unwrap n
    exact ⟨f', st, hadd, .refl _, hu.well, hi, hf'⟩

/-- What putting arguments into the graph `g` has made: every new node that is no union is a filled
copy of a node of the body that leads to a parameter, and no node has two copies. -/
structure CopiesOnce (g : Graph) (params : List NodeId) (body : Ty) (original : NodeId → NodeId)
    (h : Graph) : Prop where
  unchanged : g.Extends h
  reached : ∀ k, g.size ≤ k → k < h.size → h.kind (.node k) ≠ .union →
    g.Reaches body (.node (original k)) ∧ g.Mentions params.contains (.node (original k))
  filled : ∀ k, g.size ≤ k → k < h.size → h.kind (.node k) ≠ .union →
    ∃ types, types.length = (g.shape (original k)).children.length ∧
      h.shape k = (g.shape (original k)).refill types
  once : ∀ k l, g.size ≤ k → k < h.size → h.kind (.node k) ≠ .union →
    g.size ≤ l → l < h.size → h.kind (.node l) ≠ .union → original k = original l → k = l

/-- Opening an instantiation none of whose arguments is one ends, whatever the body looks like. -/
theorem instantiate_copiesOnce (unwrap : NodeId → TypeM Ty) (n : Nat) (hg : st.graph.WellFormed)
    (hi : st.graph.shape i = .instantiation (some origin) args)
    (horigin : st.graph.shape origin = .generic name params body)
    (hargs : ∀ t ∈ args, st.graph.kind t ≠ .instantiation) :
    ∃ original t st', (instantiate (Fold.add unwrap (n + 1)) i).Returns st t st' ∧
      CopiesOnce st.graph params body original st'.graph := by
  have hbound (p : NodeId) (t : Ty) (ht : (Bindings.ofArgs params args).lookup p = some t) :
      st.graph.Has t ∧ st.graph.kind t ≠ .instantiation := by
    rcases Bindings.mem_args_of_lookup ht with ht | rfl
    · exact ⟨hg.closed.has_arg hi ht, hargs t ht⟩
    · exact ⟨trivial, by simp [Graph.kind]⟩
  have hstart : OnlyCopies st.graph [] st.graph := fun k hgk hk => absurd hk (Nat.not_lt.2 hgk)
  obtain ⟨t, μ, st', hrun, hu, hcopies, -⟩ := instantiate_yields hg hi horigin
    (invariant_onlyCopies unwrap n hbound) hstart
  choose! original horiginal using hcopies
  refine ⟨original, t, st', hrun, hu.ext, fun k hgk hk hunion => ?_, fun k hgk hk hunion => ?_,
    fun k l hgk hk hunion hgl hl hunion' hkl => ?_⟩
  · have hl := horiginal k hgk hk hunion
    exact ⟨(hu.entry _ _ hl).2, (affected_ofArgs.1 (hu.affected _ _ hl)).2⟩
  · obtain ⟨types, htypes, hshape⟩ := hu.filled _ k (horiginal k hgk hk hunion) (by simp)
    exact ⟨types, htypes.length_eq.symm, hshape⟩
  · have hk' := horiginal k hgk hk hunion
    rw [hkl, horiginal l hgl hl hunion'] at hk'
    cases hk'
    rfl

/-- The generic `Tangle<T> = U` with the union `U = A | B | C | (A & B)`, the record
`A = { next: U, value: T }`, the interface `B = { call?: C }` and `C = (x: A & B) => Tangle<U>`, and
the instantiation `Tangle<string>`. -/
def tangle : Graph :=
  ⟨#[.unresolved (text "T"),
    .record [⟨.named (text "next"), .node 6, false⟩, ⟨.named (text "value"), .node 0, false⟩],
    .interface (text "B") [⟨.named (text "call"), .node 3, true⟩],
    .callable .call [⟨text "x", .node 4, false⟩] (.node 5),
    .intersection [.node 1, .node 2],
    .instantiation (some 7) [.node 6],
    .union { shapes := [1, 2, 3, 4] },
    .generic (text "Tangle") [0] (.node 6),
    .instantiation (some 7) [.simple .string]]⟩

theorem tangle_copiesOnce :
    tangle.WellFormed ∧ Relation.TransGen tangle.Child (.node 6) (.node 6) ∧
      ∃ original t st', (instantiate (m := TypeM) (Fold.add (fun _ => return .error) 1) 8).Returns
          { graph := tangle } t st' ∧
        CopiesOnce tangle [0] (.node 6) original st'.graph := by
  have hwell : tangle.WellFormed := Graph.wellFormed_of_admits (by decide)
  have hcycle : Relation.TransGen tangle.Child (.node 6) (.node 6) :=
    .tail (.single (Graph.child_node.2 (by decide) : tangle.Child _ (.node 1)))
      (Graph.child_node.2 (by decide))
  exact ⟨hwell, hcycle,
    instantiate_copiesOnce (fun _ => return .error) 0 hwell rfl rfl (by decide)⟩

end

end FlowTyping.Substitution
