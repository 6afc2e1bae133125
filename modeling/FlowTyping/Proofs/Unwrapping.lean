import FlowTyping.Proofs.OpeningEnds
import FlowTyping.Proofs.ScopeLaws

namespace FlowTyping

theorem exists_rank {r : Nat → Nat → Prop} {n : Nat} (hr : ∀ i, ¬ Relation.TransGen r i i)
    (hn : ∀ i j, r i j → j < n) :
    ∃ ρ : Nat → Nat, (∀ i, ρ i ≤ n) ∧ ∀ i j, r i j → ρ j < ρ i := by
  classical
  -- the rank of a number is how many others it leads to
  let below (i : Nat) : Finset Nat := (Finset.range n).filter (Relation.TransGen r i)
  refine ⟨fun i => (below i).card, fun i => ?_, fun i j hij => Finset.card_lt_card ?_⟩
  · exact (Finset.card_filter_le _ _).trans (Finset.card_range n).le
  · have hsub : below j ⊆ below i := by
      intro k hk
      simp only [below, Finset.mem_filter] at hk ⊢
      exact ⟨hk.1, hk.2.head hij⟩
    refine (Finset.ssubset_iff_of_subset hsub).2 ⟨j, ?_, ?_⟩
    · simp only [below, Finset.mem_filter, Finset.mem_range]
      exact ⟨hn i j hij, .single hij⟩
    · simp only [below, Finset.mem_filter, not_and]
      exact fun _ => hr j

theorem not_transGen_of_lt {r : Nat → Nat → Prop} (hr : ∀ i j, r i j → j < i) (i : Nat) :
    ¬ Relation.TransGen r i i := by
  have hlt : Relation.TransGen r ≤ (· > ·) := Relation.transGen_minimal hr
  exact fun hii => Nat.lt_irrefl i (hlt i i hii)

namespace Growth

variable {g : Graph} {w w₁ w₂ : Growth g} {t missing : Ty} {i : NodeId} {m n : Nat}
  {r : Resolvers} {c : TypeM Ty} {st : Store} {f : Fold} {key : PropertyKey}

def Answers (n : Nat) (w : Growth g) (c : TypeM Ty) : Prop :=
  ∀ (m : Nat) (w₁ : Growth g) (st : Store), Adds m w w₁ → st.graph = w₁.graph →
    ∃ t w₂ st', c.Returns st t st' ∧ st'.graph = w₂.graph ∧ Adds n w₁ w₂ ∧ w₂.graph.Has t ∧
      w₂.Settles n t

theorem Answers.later (hc : w.Answers n c) (h : Adds m w w₁) : w₁.Answers n c :=
  fun l w₂ st hw => hc (max m l) w₂ st
    ((h.mono (Nat.le_max_left m l)).trans (hw.mono (Nat.le_max_right m l)))

theorem answers_pure (hhas : w.graph.Has t) (ht : w.Settles n t) : w.Answers n (pure t) :=
  fun _ w₁ st hw hst => ⟨t, w₁, st, .pure t st, hst, .refl _ _, hw.ext.has hhas, ht.later hw⟩

theorem answers_word (hn : 0 < n) (ht : t.node? = none) : w.Answers n (pure t) :=
  answers_pure (Graph.has_of_not_node ht)
    (settles_of_kind_ne (Graph.has_of_not_node ht) (Graph.kind_ne_instantiation_of_not_node ht) hn)

theorem answers_graph {c : Graph → TypeM Ty}
    (hc : ∀ m (w₁ : Growth g), Adds m w w₁ → w₁.Answers n (c w₁.graph)) :
    w.Answers n (TypeM.graph >>= c) := by
  intro m w₁ st hw hst
  obtain ⟨t, w₂, st', hrun, hrest⟩ := hc m w₁ hw 0 w₁ st (.refl _ _) hst
  refine ⟨t, w₂, st', (TypeM.Returns.graph st).bind ?_, hrest⟩
  rw [hst]
  exact hrun

theorem exists_fold_reads {read : Ty → TypeM Ty} {xs : List Ty} (hr : r.instance? = none)
    (hlimit : n ≤ r.limit) (hread : ∀ x ∈ xs, w.Answers n (read x)) (hst : st.graph = w.graph)
    (hf : f.Proper st.graph) :
    ∃ f' w₁ st', (xs.foldlM (fun f x => do r.addTo f (← read x)) f).Returns st f' st' ∧
      st'.graph = w₁.graph ∧ Adds n w w₁ ∧ f'.Proper st'.graph := by
  induction xs generalizing w st f with
  | nil => exact ⟨f, w, st, .pure f st, hst, .refl _ _, hf⟩
  | cons x xs ih =>
    obtain ⟨t, w₁, st₁, hrun, hst₁, hadds₁, -, ht⟩ :=
      hread x (by simp) 0 w st (.refl _ _) hst
    have hext : st.graph.Extends st₁.graph := by
      rw [hst, hst₁]
      exact hadds₁.ext
    obtain ⟨f₁, w₂, st₂, hadd, hst₂, hadds₂, hf₁⟩ :=
      ht.add hr hlimit hlimit hst₁ (hf.mono hext.kindsStay)
    have hadds := hadds₁.trans hadds₂
    obtain ⟨f', w₃, st₃, hrest, hst₃, hadds₃, hf'⟩ :=
      ih (fun y hy => (hread y (by simp [hy])).later hadds) hst₂ hf₁
    exact ⟨f', w₃, st₃, (hrun.bind hadd).bind hrest, hst₃, hadds.trans hadds₃, hf'⟩

theorem answers_uniteReads {read : Ty → TypeM Ty} {xs : List Ty} (hn : 0 < n)
    (hr : r.instance? = none) (hlimit : n ≤ r.limit) (hread : ∀ x ∈ xs, w.Answers n (read x)) :
    w.Answers n (r.uniteReads read xs) := by
  intro m w₁ st hw hst
  obtain ⟨f, w₂, st₂, hfold, hst₂, hadds, hf⟩ := exists_fold_reads hr hlimit
    (fun x hx => (hread x hx).later hw) hst (.never _)
  obtain ⟨t, st₃, hfinish, hgraph, hhas, hopen⟩ := hf.finish
  have hgrown : ∃ w₃ : Growth g, st₃.graph = w₃.graph ∧ Adds n w₂ w₃ := by
    rcases hgraph with hgraph | hgraph <;> rw [hgraph, hst₂]
    · exact ⟨w₂, rfl, .refl _ _⟩
    · rw [hst₂] at hf
      exact ⟨w₂.push _ 0 (hf.wellFormed_push w₂.well) (by simp [Shape.kind]) (by simp), rfl,
        adds_push hn⟩
  obtain ⟨w₃, hst₃, hadds'⟩ := hgrown
  rw [hst₃] at hhas hopen
  exact ⟨t, w₃, st₃, hfold.bind hfinish, hst₃, hadds.trans hadds', hhas,
    settles_of_kind_ne hhas hopen hn⟩

theorem answers_widen (hn : 0 < n) (hr : r.instance? = none) (hlimit : n ≤ r.limit)
    (optional : Bool) (hhas : w.graph.Has t) (ht : w.Settles n t) :
    w.Answers n (r.widen optional t) := by
  cases optional with
  | false => exact answers_pure hhas ht
  | true =>
    have hunite : r.widen true t = r.uniteReads pure [.undefined, t] := by
      simp [Resolvers.widen, Resolvers.unite, Resolvers.uniteReads]
    rw [hunite]
    refine answers_uniteReads hn hr hlimit fun x hx => ?_
    rcases List.mem_pair.1 hx with rfl | rfl
    · exact answers_word hn rfl
    · exact answers_pure hhas ht

theorem answers_slotType {slot : Option Slot} (hn : 0 < n) (hr : r.instance? = none)
    (hlimit : n ≤ r.limit) (hmissing : missing.node? = none)
    (hslot : ∀ s ∈ slot, w.graph.Has s.type ∧ w.Settles n s.type) :
    w.Answers n (r.slotType slot missing) := by
  cases slot with
  | none => exact answers_word hn hmissing
  | some s =>
    obtain ⟨hhas, hs⟩ := hslot s rfl
    exact answers_widen hn hr hlimit s.optional hhas hs

theorem slot_settles {shape : Shape} {slots : List Slot} {s : Slot}
    (hw : ∀ t, w.graph.Has t → w.Settles n t) (hi : w.graph.shape i = shape)
    (hslots : shape.children = slots.map (·.type))
    (hs : s ∈ Shape.findSlot key slots) : w.graph.Has s.type ∧ w.Settles n s.type := by
  have hmem : s ∈ slots := List.mem_of_find?_eq_some hs
  have hhas : w.graph.Has s.type := by
    refine w.well.closed (.node i) s.type ?_
    rw [Graph.child_node, hi, hslots]
    exact List.mem_map_of_mem hmem
  exact ⟨hhas, hw _ hhas⟩

theorem intersectionSlot_settles {x : Ty} {s : Slot} (hw : ∀ t, w.graph.Has t → w.Settles n t)
    (hs : s ∈ Resolvers.intersectionSlot w.graph key x) :
    w.graph.Has s.type ∧ w.Settles n s.type := by
  cases x with
  | node k =>
    rw [Resolvers.intersectionSlot] at hs
    split at hs
    · rename_i slots hk
      exact slot_settles hw hk rfl hs
    · rename_i name slots hk
      exact slot_settles hw hk rfl hs
    · cases hs
  | _ => cases hs

theorem filterMap_intersectionSlot {members : List Ty} (hw : Adds m w w₁)
    (hmembers : ∀ x ∈ members, w.graph.Has x) :
    members.filterMap (Resolvers.intersectionSlot w₁.graph key) =
      members.filterMap (Resolvers.intersectionSlot w.graph key) := by
  refine List.filterMap_congr fun x hx => ?_
  have hhas := hmembers x hx
  cases x with
  | node k => simp only [Resolvers.intersectionSlot, hw.ext.shape_eq k hhas]
  | _ => rfl

theorem answers_memberProperty (hn : 0 < n) (hr : r.instance? = none) (hlimit : n ≤ r.limit)
    (hw : ∀ t, w.graph.Has t → w.Settles n t) (ht : w.graph.Has t) (key : PropertyKey) :
    w.Answers n (r.memberProperty t key) := by
  cases t with
  | simple s =>
    refine answers_word hn ?_
    cases s with
    | string =>
      simp only [Resolvers.simpleProperty]
      split <;> rfl
    | _ => rfl
  | string v =>
    refine answers_word hn ?_
    simp only [Resolvers.stringProperty]
    split
    · split <;> rfl
    · rfl
  | node i =>
    refine answers_graph fun m w₁ hadds => ?_
    have hlater {s : Slot} (hs : w.graph.Has s.type ∧ w.Settles n s.type) :
        w₁.graph.Has s.type ∧ w₁.Settles n s.type :=
      ⟨hadds.ext.has hs.1, hs.2.later hadds⟩
    rw [hadds.ext.shape_eq i ht]
    cases hi : w.graph.shape i with
    | record slots =>
      exact answers_slotType hn hr hlimit rfl fun s hs => hlater (slot_settles hw hi rfl hs)
    | interface name slots =>
      exact answers_slotType hn hr hlimit rfl fun s hs => hlater (slot_settles hw hi rfl hs)
    | nameSpace name slots =>
      exact answers_slotType hn hr hlimit rfl fun s hs => hlater (slot_settles hw hi rfl hs)
    | intersection members =>
      have hmembers (x : Ty) (hx : x ∈ members) : w.graph.Has x :=
        w.well.closed (.node i) x (by rw [Graph.child_node, hi]; exact hx)
      simp only [filterMap_intersectionSlot hadds hmembers]
      split
      · rename_i slot hslot
        refine answers_slotType hn hr hlimit rfl ?_
        rintro s ⟨⟩
        have hmem : slot ∈ members.filterMap (Resolvers.intersectionSlot w.graph key) := by
          simp [hslot]
        obtain ⟨x, -, hx⟩ := List.mem_filterMap.1 hmem
        exact hlater (intersectionSlot_settles hw hx)
      · exact answers_word hn rfl
    | callable role params returns =>
      refine answers_word hn ?_
      simp only [Resolvers.callableProperty]
      split
      · rfl
      · split <;> rfl
    | _ => exact answers_word hn rfl
  | _ => exact answers_word hn rfl

def start (hg : g.WellFormed) (ρ : NodeId → Nat) (hlow : ∀ i, ρ i ≤ g.size)
    (hfalls : ∀ i j, g.Argument g.Demands i j → ρ j < ρ i) : Growth g where
  graph := g
  rank := ρ
  ext := .refl g
  well := hg
  generics o ho := Graph.lt_size_of_kind ho (by simp)
  low i _ := hlow i
  falls := hfalls

end Growth

namespace Resolvers

variable {g : Graph} {r : Resolvers} {t t' : Ty} {st st' : Store} {n : Nat}

/-- The type that comes out when a type is opened `k` times in a row. Each time it is an
instantiation. -/
inductive Unwraps (r : Resolvers) : Nat → Store → Ty → Ty → Store → Prop
  | none (st : Store) (t : Ty) : Unwraps r 0 st t t st
  | next {k : Nat} {st st₁ st' : Store} {i : NodeId} {t t' : Ty}
      (hi : st.graph.kind (.node i) = .instantiation) (hrun : (r.unwrap i).Returns st t st₁)
      (hrest : Unwraps r k st₁ t t' st') : Unwraps r (k + 1) st (.node i) t' st'

theorem exists_unwraps (hrun : (Fold.settle r.unwrap n t).Returns st t' st') :
    ∃ k < n, r.Unwraps k st t t' st' := by
  induction n generalizing t st with
  | zero => cases hrun
  | succ n ih =>
    by_cases ht : st.graph.kind t = .instantiation
    · cases t with
      | node i =>
        obtain ⟨t₁, st₁, hunwrap, hrest⟩ :=
          ExceptT.Returns.exists_of_bind ((Fold.run_settle_instantiation ht).symm.trans hrun)
        obtain ⟨k, hk, hsteps⟩ := ih hrest
        exact ⟨k + 1, Nat.succ_lt_succ hk, .next ht hunwrap hsteps⟩
      | _ => cases ht
    · obtain ⟨rfl, rfl⟩ := TypeM.Returns.unique (Fold.settle_returns r.unwrap n ht) hrun
      exact ⟨0, Nat.succ_pos n, .none st t⟩

/-- Following a type through instantiations ends within `n` steps, and so do adding it to a fold and
reading a property of it. -/
structure Finishes (r : Resolvers) (n : Nat) (st : Store) (t : Ty) : Prop where
  unwraps : ∃ k t' st', k < n ∧ r.Unwraps k st t t' st' ∧ st'.graph.kind t' ≠ .instantiation
  add : ∀ f, ∃ f' st', (r.addTo f t).Returns st f' st'
  property : ∀ key, ∃ t' st', (r.property t key).Returns st t' st'

theorem finishes_of_settles {w : Growth g} {m : Nat} (hm : 0 < m) (hmn : m ≤ n)
    (hr : r.instance? = none) (hread : r.property? = none) (hlimit : n ≤ r.limit)
    (hst : st.graph = w.graph) (ht : w.Settles m t)
    (hlater : ∀ w₁ : Growth g, w.Adds m w₁ → ∀ x, w₁.graph.Has x → w₁.Settles n x) :
    r.Finishes n st t := by
  have hm' : m ≤ r.limit := hmn.trans hlimit
  refine ⟨?_, fun f => ?_, fun key => ?_⟩
  · obtain ⟨t', w₁, st', hrun, hst', -, -, hopen⟩ :=
      ht r r.limit n 0 w st hr hm' hm' hmn (.refl _ _) hst
    obtain ⟨k, hk, hsteps⟩ := exists_unwraps hrun
    exact ⟨k, t', st', hk, hsteps, hst' ▸ hopen⟩
  · obtain ⟨t', w₁, st', hrun, hst', -, -, hopen⟩ :=
      ht r r.limit r.limit 0 w st hr hm' hm' hm' (.refl _ _) hst
    rw [addTo, Fold.add]
    split
    · exact ⟨f, st, .pure f st⟩
    · have habsorb : ∀ x ∈ [t'], st'.graph.Absorbable x := by
        simpa [hst'] using w₁.well.flat.absorbable hopen
      obtain ⟨f', hf', -⟩ := Fold.foldlM_absorb_ok (f := f) habsorb
      exact ⟨f', st', hrun.bind
        ((TypeM.Returns.graph st').bind (.ofExcept (by simpa using hf') st'))⟩
  · obtain ⟨t', w₁, st', hrun, hst', hadds, hhas, -⟩ :=
      ht r r.limit r.limit 0 w st hr hm' hm' hm' (.refl _ _) hst
    have hn : 0 < n := hm.trans_le hmn
    have hmember (x : Ty) (hx : w₁.graph.Has x) : w₁.Answers n (r.memberProperty x key) :=
      Growth.answers_memberProperty hn hr hlimit (hlater w₁ hadds) hx key
    simp only [Resolvers.property, hread]
    by_cases hunion : st'.graph.kind t' = .union
    · obtain ⟨i, u, rfl, hu⟩ := Graph.exists_union_of_kind hunion
      have hmembers (x : Ty) (hx : x ∈ u.toList) : w₁.graph.Has x :=
        w₁.well.closed (.node i) x (Graph.child_of_union (hst' ▸ hu) hx)
      obtain ⟨a, -, st₂, hreads, -⟩ := Growth.answers_uniteReads hn hr hlimit
        (fun x hx => hmember x (hmembers x hx)) 0 w₁ st' (.refl _ _) hst'
      exact ⟨a, st₂, (run_builtinProperty_union hrun hu).trans hreads⟩
    · obtain ⟨a, -, st₂, hreads, -⟩ := hmember t' hhas 0 w₁ st' (.refl _ _) hst'
      exact ⟨a, st₂, (run_builtinProperty hrun hunion).trans hreads⟩

/-- Following any type of a graph through instantiations ends, within a number of steps that depends
on the graph alone, if no instantiation is opened for the sake of itself and no generic stands for
an instantiation of itself. -/
theorem exists_finishes (hg : g.WellFormed)
    (hargs : ∀ i, ¬ Relation.TransGen (g.Argument g.Demands) i i)
    (hexpands : ∀ o, ¬ Relation.TransGen g.Expands o o) :
    ∃ n, ∀ r : Resolvers, r.instance? = none → r.property? = none → n ≤ r.limit → ∀ st : Store,
      st.graph = g → ∀ t, g.Has t → r.Finishes n st t := by
  have htarget (i j : NodeId) (hij : g.Argument g.Demands i j) : j < g.size := by
    obtain ⟨o, args, hi, -, hj, -⟩ := hij
    exact hg.closed.has_arg hi hj
  have hgeneric (o o' : NodeId) (h : g.Expands o o') : o' < g.size := by
    obtain ⟨-, -, -, -, -, -, -, -, hkind⟩ := h
    exact Graph.lt_size_of_kind hkind (by simp)
  obtain ⟨ρ, hlow, hfalls⟩ := exists_rank hargs htarget
  obtain ⟨σ, hbound, hσ⟩ := exists_rank hexpands hgeneric
  let w : Growth g := .start hg ρ hlow hfalls
  have hrank (i : NodeId) : w.rank i < g.size + 1 := Nat.lt_succ_of_le (hlow i)
  obtain ⟨m, hm, hsettles⟩ := Growth.exists_settles hg hσ hbound (g.size + 1)
  obtain ⟨n, -, hlater⟩ := Growth.exists_settles hg hσ hbound (max (g.size + 1) m)
  refine ⟨max m n, fun r hr hread hlimit st hst t ht => ?_⟩
  refine finishes_of_settles hm (Nat.le_max_left m n) hr hread hlimit (w := w) hst
    (hsettles w (fun i _ => hrank i) t ht) fun w₁ hadds x hx => ?_
  refine (hlater w₁ (fun i hi => ?_) x hx).mono (Nat.le_max_right m n)
  rcases Nat.lt_or_ge i w.graph.size with hlt | hge
  · rw [hadds.rank_eq i hlt]
    exact (hrank i).trans_le (Nat.le_max_left _ _)
  · exact (hadds.new i hge hi).trans_le (Nat.le_max_right _ _)

/-- The generics `Box<T> = { value: T | undefined }`, `Twice<T> = Box<Box<T>>`, `Same<T> = T` and
`List<T> = { head: T, tail: List<T> }`, the instantiation `Twice<Same<string>>`, and a list of lists
without end, `Nest = List<Nest>`. -/
def nests : Graph :=
  ⟨#[.unresolved (text "T"),
    .union { undefined := true, unresolved := [0] },
    .record [⟨.named (text "value"), .node 1, false⟩],
    .generic (text "Box") [0] (.node 2),
    .instantiation (some 3) [.node 0],
    .instantiation (some 3) [.node 4],
    .generic (text "Twice") [0] (.node 5),
    .generic (text "Same") [0] (.node 0),
    .instantiation (some 7) [.simple .string],
    .instantiation (some 6) [.node 8],
    .record [⟨.named (text "head"), .node 0, false⟩, ⟨.named (text "tail"), .node 11, false⟩],
    .instantiation (some 12) [.node 0],
    .generic (text "List") [0] (.node 10),
    .instantiation (some 12) [.node 13]]⟩

theorem not_demands_list : ¬ nests.Demands 12 := by
  rintro ⟨name, params, body, ho, hcases⟩
  cases ho
  rcases hcases with ⟨p, hp, hbody⟩ | hbody | ⟨j, u, hreach, hj, -⟩
  · cases hbody
    exact absurd hp (by decide)
  · exact absurd hbody (by decide)
  · have hclosed : ∀ x ∈ [Ty.node 10, .node 0, .node 11], ∀ y ∈ nests.children x,
        y ∈ [Ty.node 10, .node 0, .node 11] := by
      decide
    have hunion : ∀ x ∈ [Ty.node 10, .node 0, .node 11], nests.kind x ≠ .union := by decide
    have hmem := hreach.mem_of_closed (fun x hx y hxy => hclosed x hx y hxy) (by decide)
    exact hunion _ hmem (Graph.kind_of_union hj)

theorem lt_of_nests_argument (i j : NodeId) (hij : nests.Argument nests.Demands i j) : j < i := by
  obtain ⟨o, args, hi, ho, hj, hopen⟩ := hij
  have hkinds : ∀ i < nests.size, nests.kind (.node i) = .instantiation →
      i ∈ [4, 5, 8, 9, 11, 13] := by
    decide
  have hargs : ∀ i ∈ [4, 5, 8, 9, 11, 13], ∀ j ∈ [4, 5, 8, 9, 11, 13],
      .node j ∈ (nests.shape i).children → j < i ∨ i = 13 := by
    decide
  have hmem {i : NodeId} (hi : nests.kind (.node i) = .instantiation) :=
    hkinds i (Graph.lt_size_of_kind hi (by simp)) hi
  rcases hargs i (hmem (congrArg Shape.kind hi)) j (hmem hopen) (by rw [hi]; exact hj) with
    hji | rfl
  · exact hji
  · cases hi
    exact absurd ho not_demands_list

theorem lt_of_nests_expands (o o' : NodeId) (h : nests.Expands o o') : o' < o := by
  obtain ⟨name, params, i, j, args, ho, hij, hj, -⟩ := h
  have hle {j : NodeId} (hij : Relation.ReflTransGen (nests.Argument nests.Demands) i j) :
      j ≤ i := by
    induction hij with
    | refl => exact Nat.le_refl _
    | tail _ hxy ih => exact (lt_of_nests_argument _ _ hxy).le.trans ih
  have hi : nests.kind (.node i) = .instantiation := by
    rcases hij.cases_head with rfl | ⟨_, ⟨_, _, hi, -⟩, -⟩
    · exact congrArg Shape.kind hj
    · exact congrArg Shape.kind hi
  have hbodies : ∀ o < nests.size, ∀ t ∈ (nests.shape o).body?, nests.kind t = .instantiation →
      o = 6 ∧ t = .node 5 := by
    decide
  have horigins : ∀ j < 6, nests.kind (.node j) = .instantiation →
      nests.shape j = .instantiation (some 3) (nests.shape j).children := by
    decide
  obtain ⟨rfl, hi⟩ := hbodies o (Graph.lt_size_of_shape ho (by simp)) _ (by rw [ho]; rfl) hi
  cases hi
  have horigin := horigins j (Nat.lt_succ_of_le (hle hij)) (congrArg Shape.kind hj)
  rw [hj] at horigin
  cases horigin
  decide

theorem nests_finishes :
    nests.WellFormed ∧ (∀ i, ¬ Relation.TransGen (nests.Argument nests.Demands) i i) ∧
      (∀ o, ¬ Relation.TransGen nests.Expands o o) ∧
      ∃ n, ∀ r : Resolvers, r.instance? = none → r.property? = none → n ≤ r.limit → ∀ st : Store,
        st.graph = nests → ∀ t, nests.Has t → r.Finishes n st t := by
  have hwell : nests.WellFormed := Graph.wellFormed_of_admits (by decide)
  have hargs := not_transGen_of_lt lt_of_nests_argument
  have hexpands := not_transGen_of_lt lt_of_nests_expands
  exact ⟨hwell, hargs, hexpands, exists_finishes hwell hargs hexpands⟩

def selfArgument : Graph :=
  ⟨#[.unresolved (text "T"), .generic (text "Same") [0] (.node 0),
    .instantiation (some 1) [.node 2]]⟩

theorem unwrap_selfArgument (hr : r.instance? = none) (depth : Nat)
    (hst : st.graph = selfArgument) :
    ∃ st', (r.unwrapWithin (depth + 1) 2).Returns st (.node 2) st' ∧ st'.graph = selfArgument := by
  obtain ⟨graph, nextSymbol, metrics⟩ := st
  subst hst
  refine ⟨⟨selfArgument, nextSymbol, metrics.count Metrics.instancesUnwrapped 1⟩,
    (TypeM.Returns.count _ _).bind ?_, rfl⟩
  simp only [hr]
  rfl

theorem settle_selfArgument (hr : r.instance? = none) (depth fuel : Nat)
    (hst : st.graph = selfArgument) :
    ∃ st', (Fold.settle (r.unwrapWithin depth) fuel (.node 2)).run.run st =
      (.error .unendingInstance, st') := by
  induction fuel generalizing st with
  | zero => exact ⟨st, rfl⟩
  | succ fuel ih =>
    have hkind : st.graph.kind (.node 2) = .instantiation := by
      rw [hst]
      rfl
    rw [Fold.run_settle_instantiation hkind]
    cases depth with
    | zero => exact ⟨st, rfl⟩
    | succ depth =>
      obtain ⟨st₁, hunwrap, hst₁⟩ := unwrap_selfArgument hr depth hst
      obtain ⟨st', hsettle⟩ := ih hst₁
      exact ⟨st', (ExceptT.run_bind_of_ok hunwrap).trans hsettle⟩

theorem exists_unwraps_selfArgument (hr : r.instance? = none) (hlimit : 0 < r.limit) (k : Nat)
    (hst : st.graph = selfArgument) : ∃ st', r.Unwraps k st (.node 2) (.node 2) st' := by
  obtain ⟨depth, hdepth⟩ := Nat.exists_eq_add_one.2 hlimit
  induction k generalizing st with
  | zero => exact ⟨st, .none st _⟩
  | succ k ih =>
    obtain ⟨st₁, hunwrap, hst₁⟩ := unwrap_selfArgument hr depth hst
    obtain ⟨st', hrest⟩ := ih hst₁
    rw [← hdepth] at hunwrap
    exact ⟨st', .next (by rw [hst]; rfl) hunwrap hrest⟩

theorem eq_of_unwraps_selfArgument (hr : r.instance? = none) {k : Nat}
    (hst : st.graph = selfArgument) (hsteps : r.Unwraps k st (.node 2) t st') :
    t = .node 2 ∧ st'.graph = selfArgument := by
  generalize hs : Ty.node 2 = s at hsteps
  induction hsteps with
  | none => exact ⟨rfl, hst⟩
  | @next k st st₁ st' i x t hi hrun hrest ih =>
    cases hs
    rw [unwrap] at hrun
    cases hlimit : r.limit with
    | zero =>
      rw [hlimit] at hrun
      cases hrun
    | succ depth =>
      obtain ⟨st₂, hunwrap, hst₂⟩ := unwrap_selfArgument hr depth hst
      rw [hlimit] at hrun
      obtain ⟨rfl, rfl⟩ := hunwrap.unique hrun
      exact ih hst₂ rfl

/-- An instantiation that is its own argument opens to itself as often as it is opened. No limit is
high enough for adding it to a fold or reading a property of it. -/
theorem selfArgument_unending :
    selfArgument.WellFormed ∧ selfArgument.kind (.node 2) = .instantiation ∧
      (∀ k, ∃ t st', Unwraps {} k { graph := selfArgument } (.node 2) t st') ∧
      (∀ k t st', Unwraps {} k { graph := selfArgument } (.node 2) t st' →
        st'.graph.kind t = .instantiation) ∧
      ∀ n, ∃ st', (addTo (m := TypeM) { limit := n } .never (.node 2)).run.run
          { graph := selfArgument } = (.error .unendingInstance, st') ∧
        ∀ key, (property (m := TypeM) { limit := n } (.node 2) key).run.run
          { graph := selfArgument } = (.error .unendingInstance, st') := by
  refine ⟨Graph.wellFormed_of_admits (by decide), rfl, fun k => ?_, fun k t st' hsteps => ?_,
    fun n => ?_⟩
  · exact ⟨_, exists_unwraps_selfArgument rfl (by decide) k rfl⟩
  · obtain ⟨rfl, hst'⟩ := eq_of_unwraps_selfArgument rfl rfl hsteps
    rw [hst']
    rfl
  · have hunending : ∃ st', (Fold.settle (m := TypeM) (unwrapWithin { limit := n } n) n
        (.node 2)).run.run { graph := selfArgument } = (.error .unendingInstance, st') :=
      settle_selfArgument rfl n n rfl
    obtain ⟨st', hsettle⟩ := hunending
    exact ⟨st', ExceptT.run_bind_of_error hsettle, fun key => ExceptT.run_bind_of_error hsettle⟩

end Resolvers

end FlowTyping
