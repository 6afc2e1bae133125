import FlowTyping.Proofs.FoldLaws
import FlowTyping.Proofs.MentionsLaws

namespace FlowTyping

namespace Shape

@[simp] theorem kind_refill (s : Shape) (ts : List Ty) : (s.refill ts).kind = s.kind := by
  cases s with
  | callable role => cases role <;> rfl
  | _ => rfl

theorem refillSlots_types {slots : List Slot} {ts : List Ty} {t : Ty}
    (ht : t ∈ (refillSlots slots ts).map (·.type)) : t ∈ ts := by
  induction slots generalizing ts with
  | nil => simp [refillSlots] at ht
  | cons s slots ih =>
    cases ts with
    | nil => simp [refillSlots] at ht
    | cons x ts =>
      simp only [refillSlots, List.zipWith_cons_cons, List.map_cons, List.mem_cons] at ht ⊢
      exact ht.imp_right ih

theorem refillParams_types {params : List Param} {ts : List Ty} {t : Ty}
    (ht : t ∈ (refillParams params ts).map (·.type)) : t ∈ ts := by
  induction params generalizing ts with
  | nil => simp [refillParams] at ht
  | cons p params ih =>
    cases ts with
    | nil => simp [refillParams] at ht
    | cons x ts =>
      simp only [refillParams, List.zipWith_cons_cons, List.map_cons, List.mem_cons] at ht ⊢
      exact ht.imp_right ih

theorem children_refill {s : Shape} {ts : List Ty} {t : Ty} (hs : s.kind ≠ .union)
    (ht : t ∈ (s.refill ts).children) : t ∈ ts ∨ t = .simple .void := by
  cases s with
  | union u => exact absurd rfl hs
  | record slots => exact .inl (refillSlots_types ht)
  | interface name slots => exact .inl (refillSlots_types ht)
  | nameSpace name slots => exact .inl (refillSlots_types ht)
  | intersection members => exact .inl ht
  | instantiation origin args => exact .inl ht
  | generic | intrinsic | unresolved => cases ht
  | callable role params returns =>
    simp only [refill, children, List.mem_append, List.mem_singleton] at ht
    rcases ht with ht | rfl
    · exact .inl (refillParams_types ht)
    · cases hr : ts[params.length]? with
      | none => exact .inr rfl
      | some r => exact .inl (List.mem_of_getElem? hr)

end Shape

namespace Substitution

variable {g h h' : Graph} {b : Bindings} {root t : Ty} {S : List NodeId} {μ μ' : Images}
  {i j k : NodeId} {u : Members} {f : Fold}

/-- What is assumed of a body `root` and of the arguments put into it. -/
structure Setting (g : Graph) (b : Bindings) (root : Ty) : Prop where
  closed : g.Closed
  flat : g.Flat
  has_root : g.Has root
  args : ∀ i t, b.lookup i = some t → g.Has t ∧ g.kind t ≠ .instantiation
  acyclic : ∀ i, g.Reaches root (.node i) → g.kind (.node i) = .union →
    ¬ Relation.TransGen g.Child (.node i) (.node i)

/-- A node that must have an image of its own: it is not a placeholder, but leads to a bound one. -/
def Affected (g : Graph) (b : Bindings) (i : NodeId) : Prop :=
  g.kind (.node i) ≠ .unresolved ∧ g.Mentions b.binds (.node i)

def img (g : Graph) (b : Bindings) (μ : Images) : Ty → Ty
  | .node i =>
    match g.shape i with
    | .unresolved _ => (b.lookup i).getD (.node i)
    | _ => (μ.lookup i).getD (.node i)
  | t => t

def Known (g : Graph) (b : Bindings) (μ : Images) (t : Ty) : Prop :=
  ∀ i, t = .node i → Affected g b i → (μ.lookup i).isSome

def Settled (g : Graph) (b : Bindings) (S : List NodeId) (μ : Images) (t : Ty) : Prop :=
  ∀ i, g.Reaches t (.node i) → Affected g b i → i ∉ S ∧ (μ.lookup i).isSome

def Made (g : Graph) (μ : Images) (h : Graph) (i k : NodeId) : Prop :=
  μ.lookup i = some (.node k) ∧ h.kind (.node k) = g.kind (.node i)

/-- The image of a node is finished: a union is the fold of the images of its members, any other
node a copy around the images of its children. -/
structure Done (g : Graph) (b : Bindings) (μ : Images) (h : Graph) (i : NodeId) : Prop where
  known : ∀ t ∈ (g.shape i).children, Known g b μ t
  fold : ∀ u, g.shape i = .union u →
    ∃ f, (u.toList.map (img g b μ)).foldlM (Fold.absorb h) .never = .ok f ∧
      f.EndsIn h (img g b μ (.node i))
  copy : g.kind (.node i) ≠ .union → ∀ k, μ.lookup i = some (.node k) →
    h.shape k = (g.shape i).refill ((g.shape i).children.map (img g b μ))

/-- A substitution that has found the images `μ` in the graph `h`, with the nodes `S` under way. -/
structure Progress (g : Graph) (b : Bindings) (root : Ty) (S : List NodeId) (μ : Images)
    (h : Graph) : Prop where
  ext : g.Extends h
  closed : h.Closed
  entry : ∀ i t, μ.lookup i = some t → Affected g b i ∧ g.Reaches root (.node i) ∧ h.Has t
  copy : ∀ i t, μ.lookup i = some t → g.kind (.node i) ≠ .union →
    ∃ k, g.size ≤ k ∧ t = .node k ∧ Made g μ h i k
  inj : ∀ i j k, Made g μ h i k → Made g μ h j k → i = j
  under : ∀ i ∈ S, (μ.lookup i).isSome ↔ g.kind (.node i) ≠ .union
  made : ∀ k, g.size ≤ k → k < h.size → ∃ i, Made g μ h i k
  done : ∀ i, (μ.lookup i).isSome → i ∉ S → Done g b μ h i
  settled : ∀ i, (μ.lookup i).isSome → g.kind (.node i) = .union → Settled g b S μ (.node i)

theorem Settled.of_reaches {a c : Ty} (ha : Settled g b S μ a) (hac : g.Reaches a c) :
    Settled g b S μ c :=
  fun i hi => ha i (hac.trans hi)

theorem img_of_not_node (ht : t.node? = none) : img g b μ t = t := by
  cases t with
  | node i => cases ht
  | _ => rfl

theorem img_of_unresolved (hi : g.kind (.node i) = .unresolved) :
    img g b μ (.node i) = (b.lookup i).getD (.node i) := by
  obtain ⟨name, hs⟩ := Shape.exists_unresolved_of_kind hi
  simp only [img, hs]

theorem img_of_ne_unresolved (hi : g.kind (.node i) ≠ .unresolved) :
    img g b μ (.node i) = (μ.lookup i).getD (.node i) := by
  rw [img]
  split
  · rename_i name hs
    exact absurd (congrArg Shape.kind hs) hi
  · rfl

theorem img_of_lookup (hp : Progress g b root S μ h) (hi : μ.lookup i = some t) :
    img g b μ (.node i) = t := by
  rw [img_of_ne_unresolved (hp.entry i t hi).1.1, hi, Option.getD_some]

theorem Progress.affected (hp : Progress g b root S μ h) (i : NodeId) (t : Ty)
    (hi : μ.lookup i = some t) : Affected g b i :=
  (hp.entry i t hi).1

theorem Progress.lookup_of_not_affected (hp : Progress g b root S μ h) (hi : ¬ Affected g b i) :
    μ.lookup i = none := by
  cases hl : μ.lookup i with
  | none => rfl
  | some t => exact absurd (hp.entry i t hl).1 hi

theorem affected_of_child {a c : Ty} (hac : g.Child a c) (hc : g.Mentions b.binds c) :
    ∃ i, a = .node i ∧ Affected g b i := by
  obtain ⟨i, rfl, hmem⟩ := hac.exists_node
  refine ⟨i, rfl, fun hi => ?_, hc.of_child hac⟩
  obtain ⟨name, hs⟩ := Shape.exists_unresolved_of_kind hi
  rw [hs] at hmem
  cases hmem

theorem img_cases (μ : Images) (hs : Setting g b root) (ht : g.Has t) :
    (g.Has (img g b μ t) ∧ (g.kind (img g b μ t) = .instantiation → g.kind t = .instantiation)) ∨
      ∃ i, t = .node i ∧ μ.lookup i = some (img g b μ t) := by
  cases t with
  | node i =>
    by_cases hi : g.kind (.node i) = .unresolved
    · rw [img_of_unresolved hi]
      cases hl : b.lookup i with
      | none => exact .inl ⟨ht, id⟩
      | some a => exact .inl ⟨(hs.args i a hl).1, fun ha => absurd ha (hs.args i a hl).2⟩
    · rw [img_of_ne_unresolved hi]
      cases hl : μ.lookup i with
      | none => exact .inl ⟨ht, id⟩
      | some a => exact .inr ⟨i, rfl, hl⟩
  | _ => exact .inl ⟨trivial, id⟩

theorem Progress.has_img (hp : Progress g b root S μ h) (hs : Setting g b root) (ht : g.Has t) :
    h.Has (img g b μ t) := by
  rcases img_cases μ hs ht with ⟨hhas, _⟩ | ⟨i, _, hl⟩
  · exact hp.ext.has hhas
  · exact (hp.entry i _ hl).2.2

theorem Progress.img_member (hp : Progress g b root S μ h) (hs : Setting g b root)
    (hi : g.shape i = .union u) (ht : t ∈ u.toList) :
    (g.Has (img g b μ t) ∧ g.kind (img g b μ t) ≠ .instantiation) ∨
      ∃ j k, t = .node j ∧ img g b μ t = .node k ∧ Made g μ h j k := by
  have hchild := Graph.child_of_union hi ht
  obtain ⟨hunion, hopen⟩ := hs.flat i u hi t ht
  rcases img_cases μ hs (hs.closed _ _ hchild) with ⟨hhas, hkind⟩ | ⟨j, rfl, hl⟩
  · exact .inl ⟨hhas, fun h => hopen (hkind h)⟩
  · obtain ⟨k, _, hk, hmade⟩ := hp.copy j _ hl hunion
    exact .inr ⟨j, k, rfl, hk, hmade⟩

theorem Progress.absorbable_member (hp : Progress g b root S μ h) (hs : Setting g b root)
    (hi : g.shape i = .union u) (ht : t ∈ u.toList) :
    h.kind (img g b μ t) ≠ .instantiation ∧ h.Absorbable (img g b μ t) := by
  rcases hp.img_member hs hi ht with ⟨hhas, hopen⟩ | ⟨j, k, rfl, hk, hmade⟩
  · have hagree := hp.ext.agreesAt hs.closed hhas
    exact ⟨hagree.kind_eq ▸ hopen, hagree.absorbable (hs.flat.absorbable hopen)⟩
  · obtain ⟨hunion, hopen⟩ := hs.flat i u hi _ ht
    rw [← hmade.2] at hunion hopen
    rw [hk]
    refine ⟨hopen, fun x hx => ?_⟩
    rw [Graph.parts_of_kind_ne hunion, List.mem_singleton] at hx
    exact hx ▸ ⟨hunion, hopen⟩

theorem Progress.fold_congr {ts : List Ty} (hp : Progress g b root S μ h) (hs : Setting g b root)
    (hi : g.shape i = .union u) (hts : ∀ t ∈ ts, t ∈ u.toList)
    (hagree : ∀ t ∈ ts, h.AgreesAt h' (img g b μ t)) :
    (ts.map (img g b μ)).foldlM (Fold.absorb h') .never =
      (ts.map (img g b μ)).foldlM (Fold.absorb h) .never := by
  apply Fold.foldlM_absorb_congr
  · simp only [List.forall_mem_map]
    exact fun t ht => (hp.absorbable_member hs hi (hts t ht)).2
  · simpa only [List.forall_mem_map] using hagree
  · simp [Fold.members, Members.node_mem_toList]

theorem Progress.agreesAt_img (hp : Progress g b root S μ h) (hs : Setting g b root)
    (hext : h.Extends h') (hi : g.shape i = .union u) (ht : t ∈ u.toList) :
    h.AgreesAt h' (img g b μ t) :=
  hext.agreesAt hp.closed (hp.has_img hs (hs.closed _ _ (Graph.child_of_union hi ht)))

def Origin (g : Graph) (μ : Images) (h : Graph) (t x : Ty) : Prop :=
  g.Has x ∨ ∃ i k, x = .node k ∧ g.Reaches t (.node i) ∧ Made g μ h i k

theorem Origin.of_reaches {a c x : Ty} (hac : g.Reaches a c) (hx : Origin g μ h c x) :
    Origin g μ h a x := by
  refine hx.imp_right ?_
  rintro ⟨i, k, hk, hci, hmade⟩
  exact ⟨i, k, hk, hac.trans hci, hmade⟩

theorem Progress.fold_members (hp : Progress g b root S μ h) (hs : Setting g b root)
    (hi : g.shape i = .union u)
    (hf : (u.toList.map (img g b μ)).foldlM (Fold.absorb h) .never = .ok f) {x : Ty}
    (hx : x ∈ f.members.toList) :
    h.Has x ∧ h.kind x ≠ .union ∧ Origin g μ h (.node i) x := by
  cases x with
  | node j =>
    have habsorb : ∀ t ∈ u.toList.map (img g b μ), h.Absorbable t := by
      simp only [List.forall_mem_map]
      exact fun t ht => (hp.absorbable_member hs hi ht).2
    obtain ⟨f', hf', hnodes⟩ := Fold.foldlM_absorb_ok (f := .never) habsorb
    obtain rfl : f' = f := by simpa [hf] using hf'.symm
    have hmem : ∃ t ∈ u.toList, .node j ∈ h.parts (img g b μ t) := by
      simpa [Fold.members, Members.node_mem_toList] using hnodes j hx
    obtain ⟨t, ht, hpart⟩ := hmem
    have hchild := Graph.child_of_union hi ht
    have hreach := Graph.reaches_of_mem_parts hpart
    refine ⟨hreach.has hp.closed (hp.has_img hs (hs.closed _ _ hchild)),
      ((hp.absorbable_member hs hi ht).2 _ hpart).1, ?_⟩
    rcases hp.img_member hs hi ht with ⟨hhas, _⟩ | ⟨m, k, rfl, hk, hmade⟩
    · exact .inl (((hp.ext.agreesAt hs.closed hhas).reaches_iff.1 hreach).has hs.closed hhas)
    · have hunion : h.kind (.node k) ≠ .union := hmade.2 ▸ (hs.flat i u hi _ ht).1
      rw [hk, Graph.parts_of_kind_ne hunion, List.mem_singleton] at hpart
      exact .inr ⟨m, k, hpart, .single hchild, hmade⟩
  | _ => exact ⟨trivial, by simp [Graph.kind], .inl trivial⟩

theorem Progress.origin_img (hp : Progress g b root S μ h) (hs : Setting g b root) (ht : g.Has t)
    (hset : Settled g b S μ t) : Origin g μ h t (img g b μ t) := by
  rcases img_cases μ hs ht with ⟨hhas, _⟩ | ⟨i, rfl, hl⟩
  · exact .inl hhas
  · by_cases hunion : g.kind (.node i) = .union
    · obtain ⟨u, hi⟩ := Shape.exists_union_of_kind hunion
      have hdone := hp.done i (by simp [hl]) (hset i .refl (hp.entry i _ hl).1).1
      obtain ⟨f, hf, hends⟩ := hdone.fold u hi
      rcases hends.cases with hword | hmem | ⟨k, hk, hshape⟩
      · exact .inl (Graph.has_of_not_node hword)
      · exact (hp.fold_members hs hi hf hmem).2.2
      · refine .inr ⟨i, k, hk, .refl, hl.trans (congrArg some hk), ?_⟩
        rw [hunion, Graph.kind_of_union hshape]
    · obtain ⟨k, _, hk, hmade⟩ := hp.copy i _ hl hunion
      exact .inr ⟨i, k, hk, .refl, hmade⟩

theorem Progress.origin_child {x y : Ty} (hp : Progress g b root S μ h) (hs : Setting g b root)
    (hset : Settled g b S μ t) (hx : Origin g μ h t x) (hxy : h.Child x y) : Origin g μ h t y := by
  rcases hx with hhas | ⟨i, k, rfl, hti, hmade⟩
  · exact .inl (hs.closed x y ((hp.ext.agreesAt hs.closed hhas).child_iff.1 hxy))
  · have hentry := hp.entry i _ hmade.1
    have hdone := hp.done i (by simp [hmade.1]) (hset i hti hentry.1).1
    by_cases hunion : g.kind (.node i) = .union
    · obtain ⟨u, hi⟩ := Shape.exists_union_of_kind hunion
      obtain ⟨f, hf, hends⟩ := hdone.fold u hi
      rw [img_of_lookup hp hmade.1] at hends
      rcases hends.cases with hword | hmem | ⟨_, ⟨⟩, hshape⟩
      · cases hword
      · exact absurd (hmade.2.trans hunion) (hp.fold_members hs hi hf hmem).2.1
      · rw [Graph.child_node, hshape] at hxy
        exact (hp.fold_members hs hi hf hxy).2.2.of_reaches hti
    · rw [Graph.child_node, hdone.copy hunion k hmade.1] at hxy
      rcases Shape.children_refill hunion hxy with hy | rfl
      · obtain ⟨c, hc, rfl⟩ := List.mem_map.1 hy
        have htc : g.Reaches t c := hti.tail (Graph.child_node.2 hc)
        exact (hp.origin_img hs (hs.closed _ _ (Graph.child_node.2 hc))
          (hset.of_reaches htc)).of_reaches htc
      · exact .inl trivial

theorem Progress.reaches_img (hp : Progress g b root S μ h) (hs : Setting g b root) (ht : g.Has t)
    (hset : Settled g b S μ t) {x : Ty} (hx : h.Reaches (img g b μ t) x) : Origin g μ h t x :=
  hx.mem_of_closed (fun _ hx _ => hp.origin_child hs hset hx) (hp.origin_img hs ht hset)

theorem Progress.settled_of_known (hp : Progress g b root S μ h) (hk : Known g b μ t)
    (hS : ∀ s ∈ S, ¬ g.Reaches t (.node s)) : Settled g b S μ t := by
  intro i hti haff
  have hnot : i ∉ S := fun hi => hS i hi hti
  refine ⟨hnot, ?_⟩
  have hclosed (x : Ty) (hx : g.Reaches t x ∧ Known g b μ x) (y : Ty) (hxy : g.Child x y) :
      g.Reaches t y ∧ Known g b μ y := by
    refine ⟨hx.1.tail hxy, fun k hy hk => ?_⟩
    obtain ⟨j, rfl, hj⟩ := affected_of_child hxy (hy ▸ hk.2)
    have hdone := hp.done j (hx.2 j rfl hj) fun hjS => hS j hjS hx.1
    exact hdone.known y hxy k hy hk
  exact (hti.mem_of_closed hclosed ⟨.refl, hk⟩).2 i rfl haff

structure Grows (μ : Images) (h : Graph) (μ' : Images) (h' : Graph) : Prop where
  lookup : ∀ i t, μ.lookup i = some t → μ'.lookup i = some t
  ext : h.Extends h'

theorem Grows.refl (μ : Images) (h : Graph) : Grows μ h μ h := ⟨fun _ _ => id, .refl h⟩

theorem Grows.trans {μ'' : Images} {h'' : Graph} (h₁ : Grows μ h μ' h')
    (h₂ : Grows μ' h' μ'' h'') : Grows μ h μ'' h'' :=
  ⟨fun i t hl => h₂.lookup i t (h₁.lookup i t hl), h₁.ext.trans h₂.ext⟩

theorem Grows.isSome (hg : Grows μ h μ' h') (hi : (μ.lookup i).isSome) : (μ'.lookup i).isSome := by
  obtain ⟨t, ht⟩ := Option.isSome_iff_exists.1 hi
  simp [hg.lookup i t ht]

theorem Grows.known (hg : Grows μ h μ' h') (ht : Known g b μ t) : Known g b μ' t :=
  fun i hi haff => hg.isSome (ht i hi haff)

theorem Grows.img_eq (hg : Grows μ h μ' h') (haff : ∀ i t, μ'.lookup i = some t → Affected g b i)
    (ht : Known g b μ t) : img g b μ' t = img g b μ t := by
  cases t with
  | node i =>
    by_cases hi : g.kind (.node i) = .unresolved
    · rw [img_of_unresolved hi, img_of_unresolved hi]
    · rw [img_of_ne_unresolved hi, img_of_ne_unresolved hi]
      cases hl : μ.lookup i with
      | some a => rw [hg.lookup i a hl]
      | none =>
        have hnone : μ'.lookup i = none := by
          cases hl' : μ'.lookup i with
          | none => rfl
          | some a => simpa [hl] using ht i rfl (haff i a hl')
        rw [hnone]
  | _ => rfl

theorem Grows.map_img_eq {ts : List Ty} (hg : Grows μ h μ' h')
    (haff : ∀ i t, μ'.lookup i = some t → Affected g b i) (hts : ∀ t ∈ ts, Known g b μ t) :
    ts.map (img g b μ') = ts.map (img g b μ) :=
  List.map_congr_left fun t ht => hg.img_eq haff (hts t ht)

theorem Grows.known_concat {ts : List Ty} (hg : Grows μ h μ' h') (hts : ∀ t ∈ ts, Known g b μ t)
    (ht : Known g b μ' t) : ∀ c ∈ ts ++ [t], Known g b μ' c := by
  simp only [List.forall_mem_append, List.forall_mem_singleton]
  exact ⟨fun c hc => hg.known (hts c hc), ht⟩

theorem Done.of_images (hd : Done g b μ h i) (hi : (μ.lookup i).isSome) (hg : Grows μ h μ' h)
    (haff : ∀ i t, μ'.lookup i = some t → Affected g b i) : Done g b μ' h i := by
  obtain ⟨t, ht⟩ := Option.isSome_iff_exists.1 hi
  have hmap := hg.map_img_eq haff hd.known
  refine ⟨fun c hc => hg.known (hd.known c hc), fun u hu => ?_, fun hunion k hk => ?_⟩
  · rw [hg.img_eq haff (fun _ hj _ => by cases hj; exact hi)]
    simp only [hu, Shape.children] at hmap
    rw [hmap]
    exact hd.fold u hu
  · rw [hg.lookup i t ht, ← ht] at hk
    rw [hmap]
    exact hd.copy hunion k hk

theorem Done.of_shapes (hp : Progress g b root S μ h) (hs : Setting g b root) (hd : Done g b μ h i)
    (hunions : ∀ k v, h.shape k = .union v → h'.shape k = .union v)
    (hcopy : g.kind (.node i) ≠ .union → ∀ k, Made g μ h i k → h'.shape k = h.shape k)
    (hagree : ∀ u, g.shape i = .union u → ∀ t ∈ u.toList, h.AgreesAt h' (img g b μ t)) :
    Done g b μ h' i := by
  refine ⟨hd.known, fun u hu => ?_, fun hunion k hk => ?_⟩
  · obtain ⟨f, hf, hends⟩ := hd.fold u hu
    refine ⟨f, ?_, hends.imp hunions⟩
    rw [hp.fold_congr hs hu (fun _ => id) (hagree u hu), hf]
  · obtain ⟨_, _, ⟨⟩, hmade⟩ := hp.copy i _ hk hunion
    rw [hcopy hunion k hmade, hd.copy hunion k hk]

theorem Done.mono (hp : Progress g b root S μ h) (hs : Setting g b root) (hd : Done g b μ h i)
    (hi : (μ.lookup i).isSome) (hg : Grows μ h μ' h')
    (haff : ∀ i t, μ'.lookup i = some t → Affected g b i) : Done g b μ' h' i := by
  refine Done.of_images (.of_shapes hp hs hd (fun k v hk => ?_) (fun _ k hk => ?_)
    fun u hu t ht => hp.agreesAt_img hs hg.ext hu ht) hi ⟨hg.lookup, .refl h'⟩ haff
  · rw [hg.ext.shape_eq k (Graph.lt_size_of_shape hk (by simp)), hk]
  · exact hg.ext.shape_eq k (hp.entry i _ hk.1).2.2

theorem Progress.enter (hp : Progress g b root S μ h) (hj : μ.lookup j = none)
    (hunion : g.kind (.node j) = .union) : Progress g b root (j :: S) μ h where
  ext := hp.ext
  closed := hp.closed
  entry := hp.entry
  copy := hp.copy
  inj := hp.inj
  under i hi := by
    rcases List.mem_cons.1 hi with rfl | hi
    · simp [hj, hunion]
    · exact hp.under i hi
  made := hp.made
  done i hi hiS := hp.done i hi fun hmem => hiS (List.mem_cons_of_mem j hmem)
  settled i hi hunion k hk hkaff := by
    obtain ⟨hkS, hksome⟩ := hp.settled i hi hunion k hk hkaff
    refine ⟨fun hmem => ?_, hksome⟩
    rcases List.mem_cons.1 hmem with rfl | hmem
    · simp [hj] at hksome
    · exact hkS hmem

theorem Progress.leave (hp : Progress g b root (j :: S) μ h)
    (hd : (μ.lookup j).isSome → Done g b μ h j) : Progress g b root S μ h where
  ext := hp.ext
  closed := hp.closed
  entry := hp.entry
  copy := hp.copy
  inj := hp.inj
  under i hi := hp.under i (List.mem_cons_of_mem j hi)
  made := hp.made
  done i hi hiS := by
    by_cases hij : i = j
    · exact hij ▸ hd (hij ▸ hi)
    · exact hp.done i hi (by simp [hij, hiS])
  settled i hi hunion k hk hkaff := by
    obtain ⟨hkS, hksome⟩ := hp.settled i hi hunion k hk hkaff
    exact ⟨fun hmem => hkS (List.mem_cons_of_mem j hmem), hksome⟩

theorem lookup_cons_of_ne (hij : i ≠ j) (t : Ty) (μ : Images) :
    List.lookup i ((j, t) :: μ) = μ.lookup i := by
  rw [List.lookup_cons, beq_eq_false_iff_ne.2 hij]

theorem Grows.cons (hj : μ.lookup j = none) (t : Ty) (hext : h.Extends h') :
    Grows μ h ((j, t) :: μ) h' := by
  refine ⟨fun i a hi => ?_, hext⟩
  rw [lookup_cons_of_ne (fun hij => by simp [hij, hj] at hi), hi]

def Step (g h h' : Graph) (j : NodeId) (t : Ty) : Prop :=
  (h'.size = h.size ∧ g.kind (.node j) = .union ∧ h'.kind t ≠ .union) ∨
    (h'.size = h.size + 1 ∧ t = .node h.size ∧ h'.kind t = g.kind (.node j))

theorem Progress.made_cons (hp : Progress g b root S μ h) (hext : h.Extends h')
    (hj : μ.lookup j = none) :
    Made g ((j, t) :: μ) h' i k ↔
      i = j ∧ t = .node k ∧ h'.kind t = g.kind (.node j) ∨ Made g μ h i k := by
  by_cases hij : i = j
  · subst hij
    simp only [Made, List.lookup_cons_self, Option.some.injEq, hj, reduceCtorEq, false_and, or_false,
      true_and]
    constructor
    · rintro ⟨rfl, hkind⟩
      exact ⟨rfl, hkind⟩
    · rintro ⟨rfl, hkind⟩
      exact ⟨rfl, hkind⟩
  · simp only [Made, lookup_cons_of_ne hij, hij, false_and, false_or]
    refine and_congr_right fun hl => ?_
    rw [hext.kind_eq (hp.entry i _ hl).2.2]

theorem lookup_cons_cases {a : Ty} (hi : List.lookup i ((j, t) :: μ) = some a) :
    i = j ∧ a = t ∨ i ≠ j ∧ μ.lookup i = some a := by
  by_cases hij : i = j
  · subst hij
    rw [List.lookup_cons_self] at hi
    exact .inl ⟨rfl, (Option.some.inj hi).symm⟩
  · rw [lookup_cons_of_ne hij] at hi
    exact .inr ⟨hij, hi⟩

theorem Progress.affected_cons {a : Ty} (hp : Progress g b root S μ h) (haff : Affected g b j)
    (hi : List.lookup i ((j, t) :: μ) = some a) : Affected g b i := by
  rcases lookup_cons_cases hi with ⟨rfl, _⟩ | ⟨_, hi⟩
  · exact haff
  · exact (hp.entry i a hi).1

theorem Progress.inj_cons (hp : Progress g b root S μ h) (hext : h.Extends h')
    (hj : μ.lookup j = none) (hstep : Step g h h' j t) {i' : NodeId}
    (hi : Made g ((j, t) :: μ) h' i k) (hi' : Made g ((j, t) :: μ) h' i' k) : i = i' := by
  -- nothing that was made before is what is made now
  have hfresh {i : NodeId} (hm : Made g μ h i k) (htk : t = .node k) :
      h'.kind t ≠ g.kind (.node j) := by
    subst htk
    rcases hstep with ⟨_, hunion, hkind⟩ | ⟨_, hk, _⟩
    · exact hunion ▸ hkind
    · cases hk
      exact absurd (hp.entry i _ hm.1).2.2 (Nat.lt_irrefl _)
  rcases (hp.made_cons hext hj).1 hi with ⟨rfl, htk, hkind⟩ | hm
  · rcases (hp.made_cons hext hj).1 hi' with ⟨rfl, _⟩ | hm'
    · rfl
    · exact absurd hkind (hfresh hm' htk)
  · rcases (hp.made_cons hext hj).1 hi' with ⟨rfl, htk, hkind⟩ | hm'
    · exact absurd hkind (hfresh hm htk)
    · exact hp.inj i i' k hm hm'

theorem Progress.exists_made_cons (hp : Progress g b root S μ h) (hext : h.Extends h')
    (hj : μ.lookup j = none) (hstep : Step g h h' j t) (hgk : g.size ≤ k) (hk : k < h'.size) :
    ∃ i, Made g ((j, t) :: μ) h' i k := by
  rcases Nat.lt_or_ge k h.size with hlt | hge
  · obtain ⟨i, hi⟩ := hp.made k hgk hlt
    exact ⟨i, (hp.made_cons hext hj).2 (.inr hi)⟩
  · rcases hstep with ⟨hsize, _⟩ | ⟨hsize, rfl, hkind⟩ <;> rw [hsize] at hk
    · exact absurd hk (Nat.not_lt.2 hge)
    · obtain rfl : k = h.size := Nat.le_antisymm (Nat.le_of_lt_succ hk) hge
      exact ⟨j, (hp.made_cons hext hj).2 (.inl ⟨rfl, rfl, hkind⟩)⟩

theorem Progress.remember {S' : List NodeId} (hp : Progress g b root S μ h) (hs : Setting g b root)
    (hS : ∀ i, i ≠ j → (i ∈ S' ↔ i ∈ S)) (hext : h.Extends h') (hclosed : h'.Closed)
    (hj : μ.lookup j = none) (haff : Affected g b j) (hroot : g.Reaches root (.node j))
    (ht : h'.Has t) (hstep : Step g h h' j t) (hdone : j ∉ S' → Done g b ((j, t) :: μ) h' j)
    (hset : g.kind (.node j) = .union → Settled g b S' ((j, t) :: μ) (.node j)) :
    Progress g b root S' ((j, t) :: μ) h' where
  ext := hp.ext.trans hext
  closed := hclosed
  entry i a hi := by
    rcases lookup_cons_cases hi with ⟨rfl, rfl⟩ | ⟨_, hi⟩
    · exact ⟨haff, hroot, ht⟩
    · obtain ⟨haffi, hrooti, hhas⟩ := hp.entry i a hi
      exact ⟨haffi, hrooti, hext.has hhas⟩
  copy i a hi hunion := by
    rcases lookup_cons_cases hi with ⟨rfl, rfl⟩ | ⟨_, hi⟩
    · rcases hstep with ⟨_, hu, _⟩ | ⟨_, rfl, hkind⟩
      · exact absurd hu hunion
      · exact ⟨h.size, hp.ext.size_le, rfl, (hp.made_cons hext hj).2 (.inl ⟨rfl, rfl, hkind⟩)⟩
    · obtain ⟨k, hk, rfl, hm⟩ := hp.copy i a hi hunion
      exact ⟨k, hk, rfl, (hp.made_cons hext hj).2 (.inr hm)⟩
  inj i i' k hi hi' := hp.inj_cons hext hj hstep hi hi'
  under i hi := by
    by_cases hij : i = j
    · subst hij
      simpa using fun hunion => absurd hi (hset hunion i .refl haff).1
    · rw [lookup_cons_of_ne hij]
      exact hp.under i ((hS i hij).1 hi)
  made k hgk hk := hp.exists_made_cons hext hj hstep hgk hk
  done i hi hiS := by
    by_cases hij : i = j
    · subst hij
      exact hdone hiS
    · rw [lookup_cons_of_ne hij] at hi
      exact (hp.done i hi fun hmem => hiS ((hS i hij).2 hmem)).mono hp hs hi (.cons hj t hext)
        fun _ _ => hp.affected_cons haff
  settled i hi hunion := by
    by_cases hij : i = j
    · subst hij
      exact hset hunion
    · rw [lookup_cons_of_ne hij] at hi
      intro k hk hkaff
      obtain ⟨hkS, hksome⟩ := hp.settled i hi hunion k hk hkaff
      have hkj : k ≠ j := fun hkj => by simp [hkj, hj] at hksome
      rw [lookup_cons_of_ne hkj]
      exact ⟨fun hmem => hkS ((hS k hkj).1 hmem), hksome⟩

theorem Progress.fill (hp : Progress g b root S μ h) (hs : Setting g b root) (hj : j ∈ S)
    (hm : Made g μ h j k) (hunion : g.kind (.node j) ≠ .union) {s : Shape}
    (hkind : s.kind = g.kind (.node j)) (hchildren : ∀ t ∈ s.children, h.Has t) :
    Progress g b root S μ (h.replace k s) := by
  obtain ⟨_, hgk, ⟨⟩, _⟩ := hp.copy j _ hm.1 hunion
  have hk : k < h.size := (hp.entry j _ hm.1).2.2
  have hmade (i l : NodeId) : Made g μ (h.replace k s) i l ↔ Made g μ h i l := by
    rw [Made, Made, Graph.kind_replace hk (hkind.trans hm.2.symm)]
  -- a node made for something that is not under way is not the one that changes
  have hother {i l : NodeId} (hi : i ∉ S) (hl : Made g μ h i l) : l ≠ k := by
    rintro rfl
    exact hi (hp.inj i j l hl hm ▸ hj)
  refine ⟨hp.ext.replace hgk s, hp.closed.replace hk hchildren, ?_, ?_, ?_, hp.under, ?_, ?_,
    hp.settled⟩
  · simpa only [Graph.has_replace] using hp.entry
  · simpa only [hmade] using hp.copy
  · simpa only [hmade] using hp.inj
  · simpa only [hmade, Graph.size_replace] using hp.made
  · intro i hi hiS
    refine (hp.done i hi hiS).of_shapes hp hs (fun l v hl => ?_) (fun _ l hl => ?_) ?_
    · rw [Graph.shape_replace_of_ne, hl]
      rintro rfl
      exact hunion (hm.2.symm.trans (Graph.kind_of_union hl))
    · exact Graph.shape_replace_of_ne s (hother hiS hl)
    · intro u hu t ht l hl
      have hchild := Graph.child_of_union hu ht
      have hset := (hp.settled i hi (Graph.kind_of_union hu)).of_reaches (.single hchild)
      apply Graph.shape_replace_of_ne
      rcases hp.reaches_img hs (hs.closed _ _ hchild) hset hl with hlt | ⟨m, _, ⟨⟩, htm, hml⟩
      · exact Nat.ne_of_lt (Nat.lt_of_lt_of_le hlt hgk)
      · exact hother (hset m htm (hp.entry m _ hml.1).1).1 hml

end Substitution

end FlowTyping
