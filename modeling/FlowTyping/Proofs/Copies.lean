import FlowTyping.Proofs.Tidy

/-!
What the copies of a substitution lead to. A copy that is still being filled is reached only from
the images of nodes that lead to the node it was made for. So the image of a union, which lies on no
cycle, leads to no copy that is still being filled.
-/

namespace FlowTyping.Substitution

open FlowTyping.Graph (Tidy)

variable {g h h' h'' : Graph} {S S' O : List NodeId} {μ μ' μ'' : Images} {c x t : Ty}
  {i j k : NodeId} {s : Shape} {u : Members}

/-- The type `x` stands for the type `c` of a body: of the open nodes it leads only to copies of
nodes under way to which `c` leads. -/
structure Keeps (g : Graph) (S : List NodeId) (μ : Images) (O : List NodeId) (h : Graph) (c x : Ty) :
    Prop where
  has : h.Has x
  leads : ∀ k ∈ O, h.Reaches x (.node k) →
    ∃ i ∈ S, μ.lookup i = some (.node k) ∧ g.Reaches c (.node i)

namespace Keeps

theorem of_clear (hx : h.Clear O x) : Keeps g S μ O h c x :=
  ⟨hx.has, fun k hk hxk => absurd hxk (hx.avoids k hk)⟩

theorem clear (hx : Keeps g [] μ O h c x) : h.Clear O x := by
  refine ⟨hx.has, fun k hk hxk => ?_⟩
  obtain ⟨i, hi, -⟩ := hx.leads k hk hxk
  cases hi

theorem of_reaches {d : Ty} (hcd : g.Reaches c d) (hx : Keeps g S μ O h d x) :
    Keeps g S μ O h c x := by
  refine ⟨hx.has, fun k hk hxk => ?_⟩
  obtain ⟨i, hi, hl, hdi⟩ := hx.leads k hk hxk
  exact ⟨i, hi, hl, hcd.trans hdi⟩

theorem mono (hS : S ⊆ S') (hμ : ∀ i t, μ.lookup i = some t → μ'.lookup i = some t)
    (hx : Keeps g S μ O h c x) : Keeps g S' μ' O h c x := by
  refine ⟨hx.has, fun k hk hxk => ?_⟩
  obtain ⟨i, hi, hl, hci⟩ := hx.leads k hk hxk
  exact ⟨i, hS hi, hμ _ _ hl, hci⟩

theorem of_extends (hh : h.Closed) (hext : h.Extends h') (hx : Keeps g S μ O h c x) :
    Keeps g S μ O h' c x := by
  have hagree := hext.agreesAt hh hx.has
  exact ⟨hext.has hx.has, fun k hk hxk => hx.leads k hk (hagree.reaches_iff.1 hxk)⟩

theorem push (hh : h.Closed) (s : Shape) (hx : Keeps g S μ O h c x) :
    Keeps g S μ (h.size :: O) (h.push s) c x := by
  obtain ⟨hhas, hleads⟩ := hx.of_extends hh (.push h s)
  have hagree := (Graph.Extends.push h s).agreesAt hh hx.has
  refine ⟨hhas, fun k hk hxk => ?_⟩
  rcases List.mem_cons.1 hk with rfl | hk
  · exact absurd ((hagree.reaches_iff.1 hxk).has hh hx.has) (Nat.lt_irrefl _)
  · exact hleads k hk hxk

theorem leave (hj : ∀ k ∈ O, μ.lookup j ≠ some (.node k)) (hx : Keeps g (j :: S) μ O h c x) :
    Keeps g S μ O h c x := by
  refine ⟨hx.has, fun k hk hxk => ?_⟩
  obtain ⟨i, hi, hik, hci⟩ := hx.leads k hk hxk
  rcases List.mem_cons.1 hi with rfl | hi
  · exact absurd hik (hj k hk)
  · exact ⟨i, hi, hik, hci⟩

theorem of_subset {O' : List NodeId} (hO : O' ⊆ O) (hx : Keeps g S μ O h c x) :
    Keeps g S μ O' h c x :=
  ⟨hx.has, fun k hk => hx.leads k (hO hk)⟩

theorem replace (hk : k ∈ O) (hlt : k < h.size) (hj : ∀ i ∈ S, μ.lookup i = some (.node k) → i = j)
    (hclosed : h.Closed) (hs : ∀ y ∈ s.children, ∃ d, g.Reaches (.node j) d ∧ Keeps g S μ O h d y)
    (hx : Keeps g S μ O h c x) : Keeps g S μ O (h.replace k s) c x := by
  refine ⟨Graph.has_replace.2 hx.has, fun l hl hxl => ?_⟩
  have hkeep : ∀ y, Keeps g S μ O h c y → ∀ z, (h.replace k s).Child y z →
      Keeps g S μ O h c z := by
    intro y hy z hyz
    obtain ⟨m, rfl, hz⟩ := hyz.exists_node
    by_cases hmk : m = k
    · -- the copy stands for something that leads to `j`
      subst hmk
      obtain ⟨i, hi, him, hci⟩ := hy.leads m hk .refl
      obtain rfl := hj i hi him
      rw [Graph.shape_replace_self s hlt] at hz
      obtain ⟨d, hd, hdz⟩ := hs z hz
      exact hdz.of_reaches (hci.trans hd)
    · rw [Graph.shape_replace_of_ne s hmk] at hz
      have hmz : h.Child (.node m) z := hz
      exact ⟨hclosed _ _ hmz, fun l hl hzl => hy.leads l hl (.head hmz hzl)⟩
  exact (hxl.mem_of_closed hkeep hx).leads l hl .refl

end Keeps

/-- The image of a member of a union leads to no open node: it would lead to a node under way, and
from there back to the union. -/
theorem Keeps.clear_of_member (hg : g.UnionsAcyclic) (hj : g.shape j = .union u) (hc : c ∈ u.toList)
    (hS : ∀ i ∈ S, g.Reaches (.node i) (.node j)) (hx : Keeps g S μ O h c x) : h.Clear O x := by
  refine ⟨hx.has, fun k hk hxk => ?_⟩
  obtain ⟨i, hi, -, hci⟩ := hx.leads k hk hxk
  exact hg j u hj c hc (hci.trans (hS i hi))

structure Call where
  start : Graph
  args : Bindings

/-- A call that has found the images `μ`, with the nodes `S` of the body under way and the nodes `O`
of the graph open. -/
structure Side (g : Graph) (a : Call) (S : List NodeId) (μ : Images) (O : List NodeId) (h : Graph) :
    Prop where
  ext : a.start.Extends h
  entry : ∀ i t, μ.lookup i = some t → Keeps g S μ O h (.node i) t
  under : ∀ i ∈ S, (μ.lookup i).isSome ↔ g.kind (.node i) ≠ .union
  inj : ∀ i ∈ S, ∀ j ∈ S, ∀ k, μ.lookup i = some (.node k) → μ.lookup j = some (.node k) → i = j
  args : ∀ i t, a.args.lookup i = some t → h.Clear O t

/-- Steps of a call. What leads to no open node looks the same, and types go on to stand for what
they stood for. -/
structure Steps (g : Graph) (S O : List NodeId) (μ : Images) (h : Graph) (μ' : Images) (h' : Graph) :
    Prop where
  size_le : h.size ≤ h'.size
  kind_eq : ∀ i < h.size, h'.kind (.node i) = h.kind (.node i)
  lookup : ∀ i t, μ.lookup i = some t → μ'.lookup i = some t
  agrees : ∀ x, h.Clear O x → h.AgreesAt h' x
  keeps : ∀ c x, Keeps g S μ O h c x → Keeps g S μ' O h' c x

namespace Steps

theorem refl (g : Graph) (S O : List NodeId) (μ : Images) (h : Graph) : Steps g S O μ h μ h :=
  ⟨Nat.le_refl _, fun _ _ => rfl, fun _ _ => id, fun _ _ _ _ => rfl, fun _ _ => id⟩

theorem clear (hl : Steps g S O μ h μ' h') (hx : h.Clear O x) : h'.Clear O x := by
  refine hx.congr (hl.agrees x hx) ?_
  cases x with
  | node i => exact Nat.lt_of_lt_of_le hx.has hl.size_le
  | _ => trivial

theorem trans (hl : Steps g S O μ h μ' h') (hl' : Steps g S O μ' h' μ'' h'') :
    Steps g S O μ h μ'' h'' where
  size_le := hl.size_le.trans hl'.size_le
  kind_eq i hi := (hl'.kind_eq i (hi.trans_le hl.size_le)).trans (hl.kind_eq i hi)
  lookup i t hi := hl'.lookup i t (hl.lookup i t hi)
  agrees x hx i hi := by
    have hx' := hl'.agrees x (hl.clear hx) i ((hl.agrees x hx).reaches_iff.2 hi)
    exact hx'.trans (hl.agrees x hx i hi)
  keeps c x hx := hl'.keeps c x (hl.keeps c x hx)

theorem of_extends (hh : h.Closed) (hext : h.Extends h') : Steps g S O μ h μ h' where
  size_le := hext.size_le
  kind_eq i hi := hext.kind_eq (show h.Has (.node i) from hi)
  lookup _ _ := id
  agrees _ hx := hext.agreesAt hh hx.has
  keeps _ _ hx := hx.of_extends hh hext

theorem cons (hj : μ.lookup j = none) (t : Ty) (h : Graph) : Steps g S O μ h ((j, t) :: μ) h where
  size_le := Nat.le_refl _
  kind_eq _ _ := rfl
  lookup := (Grows.cons hj t (.refl h)).lookup
  agrees _ _ _ _ := rfl
  keeps _ _ hx := hx.mono (fun _ => id) (Grows.cons hj t (.refl h)).lookup

theorem of_union (hj : μ'.lookup j = none) (hl : Steps g (j :: S) O μ h μ' h') :
    Steps g S O μ h μ' h' where
  size_le := hl.size_le
  kind_eq := hl.kind_eq
  lookup := hl.lookup
  agrees := hl.agrees
  keeps c x hx := by
    have hx' := hl.keeps c x (hx.mono (List.subset_cons_self j S) fun _ _ => id)
    exact hx'.leave (by simp [hj])

theorem of_copy (hh : h.Closed) (hO : h.size ∉ O) (hj : μ.lookup j = none)
    (hl : Steps g (j :: S) (h.size :: O) ((j, .node h.size) :: μ) (h.push s) μ' h') :
    Steps g S O μ h μ' h' := by
  have hcons := (Grows.cons hj (.node h.size) (.refl h)).lookup
  have hext : h.Extends (h.push s) := .push h s
  refine ⟨hext.size_le.trans hl.size_le, fun i hi => ?_,
    fun i t hi => hl.lookup i t (hcons i t hi), fun x hx i hi => ?_, fun c x hx => ?_⟩
  · have hhas : h.Has (.node i) := hi
    rw [hl.kind_eq i (hext.has hhas), hext.kind_eq hhas]
  · have hagree := hext.agreesAt hh hx.has
    exact (hl.agrees x (hx.push hh s) i (hagree.reaches_iff.2 hi)).trans (hagree i hi)
  · have hx' := (hx.mono (List.subset_cons_self j S) hcons).push hh s
    refine ((hl.keeps c x hx').of_subset (List.subset_cons_self _ O)).leave fun k hk hjk => ?_
    rw [hl.lookup j _ List.lookup_cons_self] at hjk
    cases hjk
    exact hO hk

end Steps

namespace Side

variable {a : Call}

theorem of_extends (hh : h.Closed) (hext : h.Extends h') (hside : Side g a S μ O h) :
    Side g a S μ O h' where
  ext := hside.ext.trans hext
  entry i t hi := (hside.entry i t hi).of_extends hh hext
  under := hside.under
  inj := hside.inj
  args i t hi := (hside.args i t hi).mono hh hext

theorem enter (hunion : g.kind (.node j) = .union) (hj : μ.lookup j = none)
    (hside : Side g a S μ O h) : Side g a (j :: S) μ O h where
  ext := hside.ext
  entry i t hi := (hside.entry i t hi).mono (List.subset_cons_self j S) fun _ _ => id
  under i hi := by
    rcases List.mem_cons.1 hi with rfl | hi
    · simp [hj, hunion]
    · exact hside.under i hi
  inj i hi l hl k hik hlk := by
    rcases List.mem_cons.1 hi with rfl | hi
    · simp [hj] at hik
    · rcases List.mem_cons.1 hl with rfl | hl
      · simp [hj] at hlk
      · exact hside.inj i hi l hl k hik hlk
  args := hside.args

theorem remember (hj : μ.lookup j = none) (hjS : j ∉ S) (ht : h.Clear O t)
    (hside : Side g a (j :: S) μ O h) : Side g a S ((j, t) :: μ) O h := by
  have hne {i : NodeId} (hi : i ∈ S) : i ≠ j := fun hij => hjS (hij ▸ hi)
  have hsub : S ⊆ j :: S := List.subset_cons_self j S
  refine ⟨hside.ext, fun i x hi => ?_, fun i hi => ?_, fun i hi l hl k hik hlk => ?_, hside.args⟩
  · rcases lookup_cons_cases hi with ⟨-, rfl⟩ | ⟨-, hi⟩
    · exact .of_clear ht
    · have hx := (hside.entry i x hi).leave (by simp [hj])
      exact (Steps.cons hj t h).keeps _ _ hx
  · rw [lookup_cons_of_ne (hne hi)]
    exact hside.under i (hsub hi)
  · rw [lookup_cons_of_ne (hne hi)] at hik
    rw [lookup_cons_of_ne (hne hl)] at hlk
    exact hside.inj i (hsub hi) l (hsub hl) k hik hlk

theorem copy (hh : h.Closed) (hunion : g.kind (.node j) ≠ .union) (hj : μ.lookup j = none)
    (hjS : j ∉ S) (hs : ∀ y ∈ s.children, y.node? = none) (hside : Side g a S μ O h) :
    Side g a (j :: S) ((j, .node h.size) :: μ) (h.size :: O) (h.push s) := by
  have hne {i : NodeId} (hi : i ∈ S) : i ≠ j := fun hij => hjS (hij ▸ hi)
  have hcons := (Grows.cons hj (.node h.size) (.refl h)).lookup
  have hself (k : NodeId) (hk : List.lookup j ((j, .node h.size) :: μ) = some (.node k)) :
      k = h.size := by
    rw [List.lookup_cons_self] at hk
    cases hk
    rfl
  -- the images found before are nodes that were there before
  have hold (i k : NodeId) (hi : i ∈ S)
      (hk : List.lookup i ((j, .node h.size) :: μ) = some (.node k)) : k ≠ h.size := by
    rw [lookup_cons_of_ne (hne hi)] at hk
    exact Nat.ne_of_lt (hside.entry i _ hk).has
  refine ⟨hside.ext.trans (.push h s), fun i t hi => ?_, fun i hi => ?_,
    fun i hi l hl k hik hlk => ?_, fun i t hi => (hside.args i t hi).push hh s⟩
  · rcases lookup_cons_cases hi with ⟨rfl, rfl⟩ | ⟨-, hi⟩
    · refine ⟨by simp [Graph.Has], fun k _ hk => ?_⟩
      rcases Relation.ReflTransGen.cases_head hk with hk | ⟨y, hy, hyk⟩
      · exact ⟨i, by simp, by simp [← hk], .refl⟩
      · rw [Graph.child_node, Graph.shape_push_size] at hy
        exact absurd hyk ((Graph.Clear.word (O := [k]) (hs y hy)).avoids k (by simp))
    · exact ((hside.entry i t hi).mono (List.subset_cons_self j S) hcons).push hh s
  · rcases List.mem_cons.1 hi with rfl | hi
    · simp [hunion]
    · rw [lookup_cons_of_ne (hne hi)]
      exact hside.under i hi
  · rcases List.mem_cons.1 hi with rfl | hi' <;> rcases List.mem_cons.1 hl with rfl | hl'
    · rfl
    · exact absurd (hself k hik) (hold l k hl' hlk)
    · exact absurd (hself k hlk) (hold i k hi' hik)
    · rw [lookup_cons_of_ne (hne hi')] at hik
      rw [lookup_cons_of_ne (hne hl')] at hlk
      exact hside.inj i hi' l hl' k hik hlk

structure Copying (g : Graph) (a : Call) (S : List NodeId) (μ : Images) (O : List NodeId) (h : Graph)
    (j k : NodeId) : Prop where
  under : j ∈ S
  lookup : μ.lookup j = some (.node k)
  opened : k ∈ O
  start : a.start.size ≤ k
  kind_eq : h.kind (.node k) = g.kind (.node j)

theorem Copying.later (hlt : k < h.size) (hl : Steps g S O μ h μ' h')
    (hc : Copying g a S μ O h j k) : Copying g a S μ' O h' j k :=
  { hc with
    lookup := hl.lookup j _ hc.lookup
    kind_eq := (hl.kind_eq k hlt).trans hc.kind_eq }

theorem fill (hh : Tidy g O h) (hc : Copying g a S μ O h j k) (hs : s.kind = g.kind (.node j))
    (hchildren : ∀ y ∈ s.children, ∃ d, g.Reaches (.node j) d ∧ Keeps g S μ O h d y)
    (hside : Side g a S μ O h) :
    Side g a S μ O (h.replace k s) ∧ Steps g S O μ h μ (h.replace k s) := by
  obtain ⟨-, hlt⟩ := hh.opens k hc.opened
  have hkeeps (c x : Ty) (hx : Keeps g S μ O h c x) : Keeps g S μ O (h.replace k s) c x :=
    hx.replace hc.opened hlt (fun i hi hik => hside.inj i hi j hc.under k hik hc.lookup) hh.closed
      hchildren
  constructor
  · exact ⟨hside.ext.replace hc.start s, fun i t hi => hkeeps _ _ (hside.entry i t hi), hside.under,
      hside.inj, fun i t hi => (hside.args i t hi).replace hc.opened s⟩
  · exact ⟨(Graph.size_replace h k s).ge,
      fun i _ => Graph.kind_replace hlt (hs.trans hc.kind_eq.symm) _, fun _ _ => id,
      fun x hx => hx.agreesAt_replace hc.opened s, hkeeps⟩

theorem close (hk : k ∉ O) (hj : μ.lookup j = some (.node k))
    (hside : Side g a (j :: S) μ (k :: O) h) : Side g a S μ O h where
  ext := hside.ext
  entry i t hi := by
    refine ((hside.entry i t hi).of_subset (List.subset_cons_self k O)).leave fun l hl hjl => ?_
    rw [hj] at hjl
    cases hjl
    exact hk hl
  under i hi := hside.under i (List.mem_cons_of_mem j hi)
  inj i hi l hl := hside.inj i (List.mem_cons_of_mem j hi) l (List.mem_cons_of_mem j hl)
  args i t hi := (hside.args i t hi).of_subset (List.subset_cons_self k O)

end Side

end FlowTyping.Substitution
