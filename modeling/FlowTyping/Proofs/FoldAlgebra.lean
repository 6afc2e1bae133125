import FlowTyping.Proofs.FoldLaws
import FlowTyping.Proofs.HashLaws
import FlowTyping.Proofs.MembersCollection
import FlowTyping.Proofs.SubstitutionLaws
import FlowTyping.Resolvers

namespace FlowTyping

variable {g h : Graph} {f k k' : Fold} {t : Ty} {ts xs : List Ty} {u : Members} {st : Store}

namespace Fold

/-- The absorbing answer that a type without a place in a union leads to. -/
def escalation (g : Graph) (t : Ty) : Option Fold :=
  match g.kind t with
  | .simple .error | .generic | .intrinsic | .nameSpace => some .error
  | .simple .any => some .any
  | .simple .unknown => some .unknown
  | _ => none

theorem isTerminal_of_escalation (ht : escalation g t = some f) : f.isTerminal = true := by
  rw [escalation] at ht
  split at ht <;> cases ht <;> rfl

theorem absorbMember_of_isTerminal (hf : f.isTerminal = true) : absorbMember g f t = .ok f := by
  rw [absorbMember, if_pos hf]

theorem foldlM_of_isTerminal (hf : f.isTerminal = true) (xs : List Ty) :
    xs.foldlM (absorbMember g) f = .ok f := by
  induction xs with
  | nil => rfl
  | cons x xs ih =>
    rw [List.foldlM_cons, absorbMember_of_isTerminal hf]
    exact ih

theorem absorbMember_of_escalation (hf : f.isTerminal = false) (ht : escalation g t = some k) :
    absorbMember g f t = .ok k := by
  simp only [absorbMember, hf, Bool.false_eq_true, if_false]
  rw [escalation] at ht
  split at ht <;> cases ht <;> simp only [*]

theorem absorbMember_never (f : Fold) : absorbMember g f .never = .ok f := by
  rw [absorbMember]
  split <;> rfl

theorem absorbMember_of_isMember (hf : f.isTerminal = false) (ht : (g.kind t).isMember = true) :
    absorbMember g f t = (f.members.add g t).map .compound := by
  simp only [absorbMember, hf, Bool.false_eq_true, if_false]
  split <;> simp_all [Kind.isMember, Kind.isValueShape]

theorem part_cases (hunion : g.kind t ≠ .union) (hopen : g.kind t ≠ .instantiation) :
    t = .never ∨ (∃ k, escalation g t = some k) ∨
      (g.kind t).isMember = true ∧ escalation g t = none := by
  cases t with
  | simple s => cases s <;> simp [escalation, Graph.kind, Kind.isMember]
  | node i =>
    simp only [Graph.kind] at hunion hopen
    simp only [escalation, Graph.kind]
    cases hs : g.shape i with
    | callable role => cases role <;> simp [Shape.kind, Kind.isMember, Kind.isValueShape]
    | _ => simp_all [Shape.kind, Kind.isMember, Kind.isValueShape]
  | _ => simp [escalation, Graph.kind, Kind.isMember]

def join (g : Graph) (f k : Fold) : Fold :=
  if f.isTerminal then f
  else match k with
    | .never => f
    | .compound u => .compound (f.members.join g u)
    | k => k

theorem join_of_isTerminal (hf : f.isTerminal = true) : f.join g k = f := by
  simp [join, hf]

theorem join_eq_right (hf : f.isTerminal = false) (hk : k.isTerminal = true) : f.join g k = k := by
  cases k <;> simp_all [join, isTerminal]

theorem join_never (f : Fold) : f.join g .never = f := by
  rw [join]
  split <;> rfl

theorem isTerminal_join (hf : f.isTerminal = false) (hk : k.isTerminal = false) :
    (f.join g k).isTerminal = false := by
  cases k <;> simp_all [join, isTerminal]

theorem members_join (hf : f.isTerminal = false) (hk : k.isTerminal = false) :
    (f.join g k).members = f.members.join g k.members := by
  cases k <;> simp_all [join, isTerminal, members]

theorem join_absorbMember (f : Fold) (hunion : g.kind t ≠ .union)
    (hopen : g.kind t ≠ .instantiation) (hk : absorbMember g k t = .ok k') :
    absorbMember g (f.join g k) t = .ok (f.join g k') := by
  cases hf : f.isTerminal with
  | true => simp only [join_of_isTerminal hf, absorbMember_of_isTerminal hf]
  | false =>
    cases hkt : k.isTerminal with
    | true =>
      rw [absorbMember_of_isTerminal hkt] at hk
      cases hk
      rw [join_eq_right hf hkt, absorbMember_of_isTerminal hkt]
    | false =>
      have hjoin := isTerminal_join (g := g) hf hkt
      rcases part_cases hunion hopen with rfl | ⟨e, he⟩ | ⟨hmember, _⟩
      · rw [absorbMember_never] at hk ⊢
        cases hk
        rfl
      · rw [absorbMember_of_escalation hkt he] at hk
        cases hk
        rw [absorbMember_of_escalation hjoin he, join_eq_right hf (isTerminal_of_escalation he)]
      · obtain ⟨u, hu⟩ := Members.exists_add k.members hmember
        rw [absorbMember_of_isMember hkt hmember, hu] at hk
        cases hk
        rw [absorbMember_of_isMember hjoin hmember, members_join hf hkt, Members.join_add _ hu]
        simp [join, hf, Except.map]

theorem foldlM_join (f : Fold)
    (hxs : ∀ x ∈ xs, g.kind x ≠ .union ∧ g.kind x ≠ .instantiation)
    (hk : xs.foldlM (absorbMember g) k = .ok k') :
    xs.foldlM (absorbMember g) (f.join g k) = .ok (f.join g k') := by
  induction xs generalizing k with
  | nil =>
    cases hk
    rfl
  | cons x xs ih =>
    obtain ⟨hunion, hopen⟩ := hxs x (by simp)
    obtain ⟨k₁, hk₁, -⟩ := absorbMember_ok (f := k) hunion hopen
    rw [List.foldlM_cons, hk₁] at hk
    rw [List.foldlM_cons, join_absorbMember f hunion hopen hk₁]
    exact ih (fun y hy => hxs y (by simp [hy])) hk

def Reached (g : Graph) (f : Fold) : Prop :=
  ∀ u, f = .compound u → u.Sorted g ∧ u.toList ≠ []

theorem reached_never (g : Graph) : Reached g .never := by
  intro u hu
  cases hu

theorem Reached.sorted (hf : f.Reached g) : f.members.Sorted g := by
  cases f with
  | compound u => exact (hf u rfl).1
  | _ => exact Members.sorted_empty g

theorem Reached.absorbMember (hf : f.Reached g) (hunion : g.kind t ≠ .union)
    (hopen : g.kind t ≠ .instantiation) (hk : absorbMember g f t = .ok k) : k.Reached g := by
  cases hterm : f.isTerminal with
  | true =>
    rw [absorbMember_of_isTerminal hterm] at hk
    cases hk
    exact hf
  | false =>
    rcases part_cases hunion hopen with rfl | ⟨e, he⟩ | ⟨hmember, -⟩
    · rw [absorbMember_never] at hk
      cases hk
      exact hf
    · rw [absorbMember_of_escalation hterm he] at hk
      cases hk
      have := isTerminal_of_escalation he
      rintro u rfl
      cases this
    · obtain ⟨u, hu⟩ := Members.exists_add f.members hmember
      rw [absorbMember_of_isMember hterm hmember, hu] at hk
      cases hk
      rintro _ ⟨⟩
      exact ⟨hf.sorted.add hu, Members.toList_ne_nil_of_add hu⟩

theorem Reached.foldlM (hf : f.Reached g)
    (hxs : ∀ x ∈ xs, g.kind x ≠ .union ∧ g.kind x ≠ .instantiation)
    (hk : xs.foldlM (Fold.absorbMember g) f = .ok k) : k.Reached g := by
  induction xs generalizing f with
  | nil =>
    cases hk
    exact hf
  | cons x xs ih =>
    obtain ⟨hunion, hopen⟩ := hxs x (by simp)
    obtain ⟨f₁, hf₁, -⟩ := absorbMember_ok (f := f) hunion hopen
    rw [List.foldlM_cons, hf₁] at hk
    exact ih (hf.absorbMember hunion hopen hf₁) (fun y hy => hxs y (by simp [hy])) hk

theorem foldlM_absorbMember_of_isMember (hf : f.isTerminal = false) (hne : xs ≠ [])
    (hxs : ∀ x ∈ xs, (g.kind x).isMember = true) :
    xs.foldlM (absorbMember g) f = (xs.foldlM (Members.add g) f.members).map .compound := by
  induction xs generalizing f with
  | nil => exact absurd rfl hne
  | cons x xs ih =>
    have hx := hxs x (by simp)
    obtain ⟨u, hu⟩ := Members.exists_add f.members hx
    have hstep : absorbMember g f x = .ok (.compound u) := by
      rw [absorbMember_of_isMember hf hx, hu]
      rfl
    rw [List.foldlM_cons, List.foldlM_cons, hstep, hu]
    cases xs with
    | nil => rfl
    | cons y ys => exact ih (f := .compound u) rfl (by simp) fun z hz => hxs z (by simp [hz])

theorem absorb_of_kind_ne (ht : g.kind t ≠ .union) : f.absorb g t = absorbMember g f t := by
  rw [absorb_eq_foldlM, Graph.parts_of_kind_ne ht]
  simp

theorem EndsIn.parts_eq (hu : (compound u).Reached g) (ht : (compound u).EndsIn g t) :
    g.parts t = u.toList := by
  simp only [EndsIn] at ht
  split at ht
  · rename_i m hm
    have hmember := (hu u rfl).1.isMember (t := m) (by simp [hm])
    rw [ht, hm, Graph.parts_of_kind_ne]
    intro hunion
    rw [hunion] at hmember
    cases hmember
  · obtain ⟨i, rfl, hi⟩ := ht
    simp only [Graph.parts, hi]

theorem absorb_of_endsIn (f : Fold) (hk : k.Reached g) (ht : k.EndsIn g t) :
    f.absorb g t = .ok (f.join g k) := by
  cases hf : f.isTerminal with
  | true => rw [absorb_of_isTerminal hf, join_of_isTerminal hf]
  | false =>
    cases k with
    | compound u =>
      obtain ⟨hsorted, hne⟩ := hk u rfl
      rw [absorb_eq_foldlM, ht.parts_eq hk, foldlM_absorbMember_of_isMember hf hne
        fun x => hsorted.isMember, hsorted.foldlM_toList]
      simp [join, hf, Except.map]
    | never =>
      cases ht
      rw [join_never, absorb_of_kind_ne (by simp [Graph.kind]), absorbMember_never]
    | error | any | unknown =>
      cases ht
      rw [join_eq_right hf rfl, absorb_of_kind_ne (by simp [Graph.kind])]
      exact absorbMember_of_escalation hf rfl

theorem EndsIn.kind_ne (hf : f.Reached g) (ht : f.EndsIn g t) : g.kind t ≠ .instantiation := by
  intro hopen
  cases f with
  | compound u =>
    simp only [EndsIn] at ht
    split at ht
    · rename_i m hm
      have hmember := (hf u rfl).1.isMember (t := m) (by simp [hm])
      rw [← ht, hopen] at hmember
      cases hmember
    · obtain ⟨i, rfl, hi⟩ := ht
      rw [Graph.kind_of_union hi] at hopen
      cases hopen
  | _ =>
    cases ht
    cases hopen

theorem foldlM_absorb_endsIn {ys zs : List Ty} (hys : ∀ y ∈ ys, g.Absorbable y)
    (hk : ys.foldlM (absorb g) .never = .ok k) (hreached : k.Reached g) (ht : k.EndsIn g t)
    (f : Fold) : (t :: zs).foldlM (absorb g) f = (ys ++ zs).foldlM (absorb g) f := by
  have hparts : ∀ x ∈ ys.flatMap g.parts, g.kind x ≠ .union ∧ g.kind x ≠ .instantiation := by
    intro x hx
    obtain ⟨y, hy, hx⟩ := List.mem_flatMap.1 hx
    exact hys y hy x hx
  have hjoin : ys.foldlM (absorb g) f = .ok (f.join g k) := by
    rw [foldlM_absorb_eq] at hk ⊢
    have hk' := foldlM_join f hparts hk
    rwa [join_never] at hk'
  rw [List.foldlM_cons, List.foldlM_append, absorb_of_endsIn f hreached ht, hjoin]

theorem EndsIn.unique {t' : Ty} (hf : f.Reached g) (ht : f.EndsIn g t) (ht' : f.EndsIn g t') :
    (t = t' ∧ g.kind t ≠ .union) ∨
      ∃ i j u, t = .node i ∧ t' = .node j ∧ g.shape i = .union u ∧ g.shape j = .union u := by
  cases f with
  | compound u =>
    simp only [EndsIn] at ht ht'
    split at ht
    · rename_i m hm
      simp only [hm] at ht'
      refine .inl ⟨ht.trans ht'.symm, fun hunion => ?_⟩
      have hmember := (hf u rfl).1.isMember (t := m) (by simp [hm])
      rw [← ht, hunion] at hmember
      cases hmember
    · obtain ⟨i, hi, hshape⟩ := ht
      split at ht'
      · simp_all
      · obtain ⟨j, hj, hshape'⟩ := ht'
        exact .inr ⟨i, j, u, hi, hj, hshape, hshape'⟩
  | _ =>
    cases ht
    cases ht'
    exact .inl ⟨rfl, by simp [Graph.kind]⟩

end Fold

/-! ### Folding in a store -/

namespace Resolvers

variable {r : Resolvers} {o : Ty → Ty}

def Opens (r : Resolvers) (g : Graph) (t t' : Ty) : Prop :=
  ∀ st : Store, st.graph = g → ∃ st', (Fold.settle r.unwrap r.limit t).Returns st t' st' ∧
    st'.graph = g

theorem addTo_returns (ht : r.Opens st.graph t (o t))
    (hk : f.absorb st.graph (o t) = .ok k) :
    ∃ st', (r.addTo f t).Returns st k st' ∧ st'.graph = st.graph := by
  rw [addTo, Fold.add]
  split
  · rename_i hterm
    rw [Fold.absorb_of_isTerminal hterm] at hk
    cases hk
    exact ⟨st, .pure _ st, rfl⟩
  · obtain ⟨st', hrun, hgraph⟩ := ht st rfl
    refine ⟨st', hrun.bind ((TypeM.Returns.graph st').bind (.ofExcept ?_ st')), hgraph⟩
    rw [hgraph]
    exact hk

theorem foldlM_addTo_returns (hts : ∀ t ∈ ts, r.Opens st.graph t (o t))
    (hk : (ts.map o).foldlM (Fold.absorb st.graph) f = .ok k) :
    ∃ st', (ts.foldlM r.addTo f).Returns st k st' ∧ st'.graph = st.graph := by
  induction ts generalizing f st with
  | nil =>
    cases hk
    exact ⟨st, .pure _ st, rfl⟩
  | cons t ts ih =>
    rw [List.map_cons, List.foldlM_cons] at hk
    cases hstep : f.absorb st.graph (o t) with
    | error e =>
      rw [hstep] at hk
      cases hk
    | ok f₁ =>
      rw [hstep] at hk
      obtain ⟨st₁, hrun, hgraph⟩ := addTo_returns (hts t (by simp)) hstep
      have hts₁ : ∀ x ∈ ts, r.Opens st₁.graph x (o x) := fun x hx => hgraph ▸ hts x (by simp [hx])
      have hk₁ : (ts.map o).foldlM (Fold.absorb st₁.graph) f₁ = .ok k := hgraph ▸ hk
      obtain ⟨st', hrest, hgraph'⟩ := ih hts₁ hk₁
      exact ⟨st', hrun.bind hrest, hgraph'.trans hgraph⟩

theorem unite_returns (hlen : 2 ≤ ts.length) (hts : ∀ t ∈ ts, r.Opens st.graph t (o t))
    (hk : (ts.map o).foldlM (Fold.absorb st.graph) .never = .ok k) :
    ∃ t st', (r.unite ts).Returns st t st' ∧ k.EndsIn st'.graph t ∧
      st.graph.Extends st'.graph := by
  obtain ⟨st₁, hrun, hgraph⟩ := foldlM_addTo_returns hts hk
  obtain ⟨t, st', hfinish, hends, hcases⟩ := k.finish_returns st₁
  refine ⟨t, st', ?_, hends, ?_⟩
  · match ts, hlen with
    | a :: b :: ts, _ => exact hrun.bind hfinish
  · rcases hcases with ⟨h, -⟩ | ⟨h, -⟩ <;> rw [h, hgraph]
    · exact .refl _
    · exact .push _ _

theorem unite_twice {ls : List Ty} {p : Ty → Ty} (hlen : 2 ≤ ls.length)
    (hopens : ∀ t ∈ ls, r.Opens st.graph t (o t))
    (hf : (ls.map o).foldlM (Fold.absorb st.graph) .never = .ok f) (hlen' : 2 ≤ ts.length)
    (hopens' : ∀ h, st.graph.Extends h → ∀ t ∈ ts, r.Opens h t (p t))
    (hk : ∀ h, st.graph.Extends h → (ts.map p).foldlM (Fold.absorb h) .never = .ok k) :
    ∃ t st₁ t' st₂, (r.unite ls).Returns st t st₁ ∧ (r.unite ts).Returns st₁ t' st₂ ∧
      st.graph.Extends st₂.graph ∧ f.EndsIn st₂.graph t ∧ k.EndsIn st₂.graph t' := by
  obtain ⟨t, st₁, hrun, hends, hext⟩ := unite_returns hlen hopens hf
  obtain ⟨t', st₂, hrun', hends', hext'⟩ := unite_returns hlen' (hopens' _ hext) (hk _ hext)
  refine ⟨t, st₁, t', st₂, hrun, hrun', hext.trans hext', ?_, hends'⟩
  apply hends.imp
  intro i u hi
  rw [hext'.shape_eq i (Graph.lt_size_of_shape hi (by simp)), hi]

end Resolvers

namespace Graph

variable {answer : NodeId → Ty} {i : NodeId}

def opened (g : Graph) (answer : NodeId → Ty) : Ty → Ty
  | .node i =>
    match g.shape i with
    | .instantiation _ _ => answer i
    | _ => .node i
  | t => t

/-- The answers are types of the graph, and none of them has to be opened in turn. -/
def Answers (g : Graph) (answer : NodeId → Ty) : Prop :=
  ∀ i, g.kind (.node i) = .instantiation →
    g.Has (answer i) ∧ g.kind (answer i) ≠ .instantiation

theorem opened_of_kind_ne (ht : g.kind t ≠ .instantiation) : g.opened answer t = t := by
  cases t with
  | node i =>
    simp only [opened]
    split
    · rename_i origin args hi
      exact absurd (congrArg Shape.kind hi) ht
    · rfl
  | _ => rfl

theorem opened_of_kind (hi : g.kind (.node i) = .instantiation) :
    g.opened answer (.node i) = answer i := by
  obtain ⟨origin, args, hs⟩ := Shape.exists_instantiation_of_kind hi
  simp only [opened, hs]

theorem opened_cases (ha : g.Answers answer) (ht : g.Has t) :
    g.Has (g.opened answer t) ∧ g.kind (g.opened answer t) ≠ .instantiation := by
  by_cases hkind : g.kind t = .instantiation
  · cases t with
    | node i =>
      rw [opened_of_kind hkind]
      exact ha i hkind
    | _ => cases hkind
  · rw [opened_of_kind_ne hkind]
    exact ⟨ht, hkind⟩

theorem Extends.opened_eq (hgh : g.Extends h) (ht : g.Has t) :
    h.opened answer t = g.opened answer t := by
  cases t with
  | node i => simp only [opened, hgh.shape_eq i ht]
  | _ => rfl

end Graph

namespace Resolvers

variable {r : Resolvers} {answer : NodeId → Ty} {ys zs : List Ty}

theorem opens_of_kind_ne (hlimit : 0 < r.limit) (ht : g.kind t ≠ .instantiation) :
    r.Opens g t t := by
  rintro st rfl
  exact ⟨st, Fold.settle_of_pos hlimit ht, rfl⟩

theorem opens_opened (hr : r.instance? = some fun i => pure (answer i)) (hlimit : 1 < r.limit)
    (ht : g.kind (g.opened answer t) ≠ .instantiation) : r.Opens g t (g.opened answer t) := by
  by_cases hkind : g.kind t = .instantiation
  · cases t with
    | node i =>
      obtain ⟨origin, args, hs⟩ := Shape.exists_instantiation_of_kind hkind
      obtain ⟨n, hn⟩ : ∃ n, r.limit = n + 2 := Nat.exists_eq_add_of_le' hlimit
      rintro st rfl
      rw [Graph.opened_of_kind hkind] at ht ⊢
      let st' : Store := { st with metrics := st.metrics.count Metrics.instancesUnwrapped 1 }
      have hunwrap : (r.unwrap i).Returns st (answer i) st' := by
        rw [unwrap, hn, unwrapWithin]
        refine (TypeM.Returns.count _ st).bind ?_
        simp only [hr]
        exact .pure _ st'
      refine ⟨st', ?_, rfl⟩
      rw [hn, Fold.settle]
      refine (TypeM.Returns.graph st).bind ?_
      simp only [hs]
      have hsettle : (Fold.settle r.unwrap (n + 1) (answer i)).Returns st' (answer i) st' :=
        Fold.settle_returns _ n ht
      exact hunwrap.bind hsettle
    | _ => cases hkind
  · rw [Graph.opened_of_kind_ne hkind]
    exact opens_of_kind_ne (Nat.lt_of_succ_lt hlimit) hkind

theorem opens_of_extends (hr : r.instance? = some fun i => pure (answer i)) (hlimit : 1 < r.limit)
    (ha : g.Answers answer) (hgh : g.Extends h) (ht : g.Has t) :
    r.Opens h t (g.opened answer t) := by
  obtain ⟨hhas, hopen⟩ := Graph.opened_cases ha ht
  rw [← hgh.opened_eq ht]
  apply opens_opened hr hlimit
  rw [hgh.opened_eq ht, hgh.kind_eq hhas]
  exact hopen

theorem exists_fold (hg : g.WellFormed) (ha : g.Answers answer) (hts : ∀ t ∈ ts, g.Has t) :
    ∃ f, (∀ j, .node j ∈ f.members.toList → g.Has (.node j)) ∧ ∀ h, g.Extends h →
      (ts.map (g.opened answer)).foldlM (Fold.absorb h) .never = .ok f ∧ f.Reached h := by
  have hopened : ∀ t ∈ ts.map (g.opened answer), g.Has t ∧ g.Absorbable t := by
    simp only [List.forall_mem_map]
    intro t ht
    obtain ⟨hhas, hopen⟩ := Graph.opened_cases ha (hts t ht)
    exact ⟨hhas, hg.flat.absorbable hopen⟩
  obtain ⟨f, hf, hnodes⟩ := Fold.foldlM_absorb_ok (f := .never) fun t ht => (hopened t ht).2
  have hmembers (j : NodeId) (hj : .node j ∈ f.members.toList) : g.Has (.node j) := by
    rcases hnodes j hj with hj | ⟨t, ht, hj⟩
    · simp [Fold.members, Members.node_mem_toList] at hj
    · exact (Graph.reaches_of_mem_parts hj).has hg.closed (hopened t ht).1
  refine ⟨f, hmembers, fun h hgh => ?_⟩
  have hagree : ∀ t ∈ ts.map (g.opened answer), g.AgreesAt h t :=
    fun t ht => hgh.agreesAt hg.closed (hopened t ht).1
  have hfold : (ts.map (g.opened answer)).foldlM (Fold.absorb h) .never = .ok f := by
    rw [← hf]
    exact Fold.foldlM_absorb_congr (fun t ht => (hopened t ht).2) hagree
      (by simp [Fold.members, Members.node_mem_toList])
  refine ⟨hfold, ?_⟩
  rw [Fold.foldlM_absorb_eq] at hfold
  apply (Fold.reached_never h).foldlM _ hfold
  intro x hx
  obtain ⟨t, ht, hx⟩ := List.mem_flatMap.1 hx
  exact (hagree t ht).absorbable (hopened t ht).2 x hx

theorem foldlM_opened_endsIn {u : Ty} (hg : g.WellFormed) (ha : g.Answers answer)
    (hgh : g.Extends h) (hhas : ∀ t ∈ xs ++ ys ++ zs, g.Has t)
    (hk : (ys.map (g.opened answer)).foldlM (Fold.absorb h) .never = .ok k ∧ k.Reached h)
    (hf : ((xs ++ ys ++ zs).map (g.opened answer)).foldlM (Fold.absorb h) .never = .ok f)
    (hu : k.EndsIn h u) :
    ((xs ++ [u] ++ zs).map (h.opened answer)).foldlM (Fold.absorb h) .never = .ok f := by
  have hsame (ts : List Ty) (hts : ∀ t ∈ ts, t ∈ xs ++ ys ++ zs) :
      ts.map (h.opened answer) = ts.map (g.opened answer) :=
    List.map_congr_left fun t ht => hgh.opened_eq (hhas t (hts t ht))
  have habsorb : ∀ y ∈ ys.map (g.opened answer), h.Absorbable y := by
    simp only [List.forall_mem_map]
    intro y hy
    obtain ⟨hy, hopen⟩ := Graph.opened_cases ha (hhas y (by simp [hy]))
    exact (hgh.agreesAt hg.closed hy).absorbable (hg.flat.absorbable hopen)
  rw [List.map_append, List.map_append, List.map_singleton, hsame xs (by simp +contextual),
    hsame zs (by simp +contextual), Graph.opened_of_kind_ne (hu.kind_ne hk.2), List.append_assoc,
    List.singleton_append, List.foldlM_append]
  rw [List.map_append, List.map_append, List.append_assoc, List.foldlM_append] at hf
  rw [← hf]
  exact bind_congr fun f => Fold.foldlM_absorb_endsIn habsorb hk.1 hk.2 hu f

/-- Nested folds flatten: uniting a union of `ys` with other types gives the same word, the same
type or a union with the same members in the same order as uniting them all at once, if
instantiations have fixed answers that are no instantiations. -/
theorem unite_unite (hr : r.instance? = some fun i => pure (answer i)) (hlimit : 1 < r.limit)
    (hg : st.graph.WellFormed) (ha : st.graph.Answers answer)
    (hhas : ∀ t ∈ xs ++ ys ++ zs, st.graph.Has t) (hys : ys ≠ []) (hxz : xs ++ zs ≠ []) :
    ∃ u st₁ t st₂ t' st₃, (r.unite ys).Returns st u st₁ ∧
      (r.unite (xs ++ [u] ++ zs)).Returns st₁ t st₂ ∧
      (r.unite (xs ++ ys ++ zs)).Returns st₂ t' st₃ ∧
      ((t = t' ∧ st₃.graph.kind t ≠ .union) ∨ ∃ i j v v', t = .node i ∧ t' = .node j ∧
        st₃.graph.shape i = .union v ∧ st₃.graph.shape j = .union v' ∧ v.toList = v'.toList) ∧
      st₃.graph.equal t t' = true := by
  obtain ⟨f, -, hf⟩ := exists_fold hg ha hhas
  obtain ⟨k, -, hk⟩ := exists_fold hg ha fun t (ht : t ∈ ys) => hhas t (by simp [ht])
  have hpos : 0 < (xs ++ zs).length := List.length_pos_iff.2 hxz
  rw [List.length_append] at hpos
  have hlen : 2 ≤ (xs ++ ys ++ zs).length := by
    have := List.length_pos_iff.2 hys
    simp only [List.length_append]
    omega
  have hinner : ∃ u st₁, (r.unite ys).Returns st u st₁ ∧ st.graph.Extends st₁.graph ∧
      ∃ o, (∀ t ∈ xs ++ [u] ++ zs, r.Opens st₁.graph t (o t)) ∧
        ((xs ++ [u] ++ zs).map o).foldlM (Fold.absorb st₁.graph) .never = .ok f := by
    match ys, hys with
    | [y], _ =>
      refine ⟨y, st, .pure y st, .refl _, st.graph.opened answer, fun t ht => ?_, (hf _ (.refl _)).1⟩
      exact opens_of_extends hr hlimit ha (.refl _) (hhas t ht)
    | y :: y' :: ys, _ =>
      obtain ⟨u, st₁, hrun, hends, hext⟩ := unite_returns (by simp) (fun t ht =>
        opens_of_extends hr hlimit ha (.refl _) (hhas t (by simp at ht ⊢; tauto))) (hk _ (.refl _)).1
      refine ⟨u, st₁, hrun, hext, st₁.graph.opened answer, fun t ht => ?_,
        foldlM_opened_endsIn hg ha hext hhas (hk _ hext) (hf _ hext).1 hends⟩
      rw [List.append_assoc, List.mem_append, List.singleton_append, List.mem_cons] at ht
      rcases ht with ht | rfl | ht
      · rw [hext.opened_eq (hhas t (by simp [ht]))]
        exact opens_of_extends hr hlimit ha hext (hhas t (by simp [ht]))
      · have hkind := hends.kind_ne (hk _ hext).2
        rw [Graph.opened_of_kind_ne hkind]
        exact opens_of_kind_ne (Nat.lt_of_succ_lt hlimit) hkind
      · rw [hext.opened_eq (hhas t (by simp [ht]))]
        exact opens_of_extends hr hlimit ha hext (hhas t (by simp [ht]))
  obtain ⟨u, st₁, hrun, hext, o, hopens, hfold⟩ := hinner
  obtain ⟨t, st₂, t', st₃, hrun₁, hrun₂, hext', hends, hends'⟩ := unite_twice (by simp; omega)
    hopens hfold hlen
    (fun h hh t ht => opens_of_extends hr hlimit ha (hext.trans hh) (hhas t ht))
    fun h hh => (hf h (hext.trans hh)).1
  refine ⟨u, st₁, t, st₂, t', st₃, hrun, hrun₁, hrun₂, ?_⟩
  rcases hends.unique (hf _ (hext.trans hext')).2 hends' with
    ⟨rfl, hkind⟩ | ⟨i, j, v, rfl, rfl, hi, hj⟩
  · exact ⟨.inl ⟨rfl, hkind⟩, Graph.equal_iff.2 (.refl _ _)⟩
  · refine ⟨.inr ⟨i, j, v, v, rfl, rfl, hi, hj, rfl⟩, Graph.equal_iff.2 ?_⟩
    exact (Graph.similar_union_iff hi hj).2 (.refl (.refl _) v)

def fixed (answer : NodeId → Ty) : Resolvers := { instance? := some fun i => pure (answer i) }

theorem boxes_unite_unite :
    Substitution.boxes.WellFormed ∧ ∃ u st₁ t st₂ t' st₃,
      ((fixed fun _ => .node 2).unite [.node 4, .node 1]).Returns { graph := Substitution.boxes }
        u st₁ ∧
      ((fixed fun _ => .node 2).unite ([.string (text "some")] ++ [u] ++ [.node 0, .node 4])).Returns
        st₁ t st₂ ∧
      ((fixed fun _ => .node 2).unite
        ([.string (text "some")] ++ [.node 4, .node 1] ++ [.node 0, .node 4])).Returns st₂ t' st₃ ∧
      ((t = t' ∧ st₃.graph.kind t ≠ .union) ∨ ∃ i j v v', t = .node i ∧ t' = .node j ∧
        st₃.graph.shape i = .union v ∧ st₃.graph.shape j = .union v' ∧ v.toList = v'.toList) ∧
      st₃.graph.equal t t' = true := by
  have hwell : Substitution.boxes.WellFormed := Graph.wellFormed_of_admits (by decide)
  have hunion : Substitution.boxes.Has (.node 2) ∧
      Substitution.boxes.kind (.node 2) ≠ .instantiation := by
    decide
  have ha : Substitution.boxes.Answers fun _ => .node 2 := fun _ _ => hunion
  exact ⟨hwell, unite_unite rfl (by decide) hwell ha (by decide) (by decide) (by decide)⟩

end Resolvers

end FlowTyping
