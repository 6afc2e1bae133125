import FlowTyping.Proofs.Runs
import FlowTyping.Proofs.Similarity

namespace FlowTyping

variable {g h : Graph} {f f' : Fold} {t : Ty} {ts : List Ty} {j : NodeId} {st : Store}

/-- What a fold takes a type for: a union for its members, any other type for itself. -/
def Graph.parts (g : Graph) : Ty → List Ty
  | .node i =>
    match g.shape i with
    | .union u => u.toList
    | _ => [.node i]
  | t => [t]

theorem Graph.reaches_of_mem_parts {x : Ty} (hx : x ∈ g.parts t) : g.Reaches t x := by
  cases t with
  | node i =>
    simp only [parts] at hx
    split at hx
    · rename_i u hi
      exact .single (child_of_union hi hx)
    · rw [List.mem_singleton.1 hx]
  | _ => rw [List.mem_singleton.1 hx]

theorem Graph.AgreesAt.parts_eq (ht : g.AgreesAt h t) : h.parts t = g.parts t := by
  cases t with
  | node i => simp only [parts, ht i .refl]
  | _ => rfl

def Graph.Absorbable (g : Graph) (t : Ty) : Prop :=
  ∀ x ∈ g.parts t, g.kind x ≠ .union ∧ g.kind x ≠ .instantiation

theorem Graph.AgreesAt.absorbable (ht : g.AgreesAt h t) (hok : g.Absorbable t) :
    h.Absorbable t := by
  intro x hx
  rw [ht.parts_eq] at hx
  rw [(ht.of_reaches (reaches_of_mem_parts hx)).kind_eq]
  exact hok x hx

/-- No member of a union is itself a union or has to be opened first. -/
def Graph.Flat (g : Graph) : Prop :=
  ∀ i u, g.shape i = .union u → ∀ x ∈ u.toList, g.kind x ≠ .union ∧ g.kind x ≠ .instantiation

theorem Graph.parts_of_kind_ne (ht : g.kind t ≠ .union) : g.parts t = [t] := by
  cases t with
  | node i =>
    simp only [parts]
    split
    · rename_i u hi
      exact absurd (congrArg Shape.kind hi) ht
    · rfl
  | _ => rfl

theorem Graph.Flat.absorbable (hg : g.Flat) (ht : g.kind t ≠ .instantiation) :
    g.Absorbable t := by
  by_cases hunion : g.kind t = .union
  · cases t with
    | node i =>
      obtain ⟨u, hi⟩ := Shape.exists_union_of_kind hunion
      intro x hx
      simp only [parts, hi] at hx
      exact hg i u hi x hx
    | _ => cases hunion
  · intro x hx
    rw [parts_of_kind_ne hunion, List.mem_singleton] at hx
    exact hx ▸ ⟨hunion, ht⟩

namespace Members

theorem addShape_nodes {u : Members} {i : NodeId} (hj : .node j ∈ (u.addShape g i).toList) :
    .node j ∈ u.toList ∨ Ty.node i = .node j := by
  simp only [addShape, node_mem_toList, Ty.node.injEq] at hj ⊢
  split at hj
  · exact .inl hj
  · simp only [List.mem_append, List.mem_singleton] at hj
    tauto

end Members

namespace Fold

theorem absorb_eq_foldlM : f.absorb g t = (g.parts t).foldlM (absorbMember g) f := by
  cases t with
  | node i =>
    simp only [absorb, Graph.parts]
    cases g.shape i <;> simp
  | _ => simp [absorb, Graph.parts]

theorem foldlM_absorb_eq :
    ts.foldlM (absorb g) f = (ts.flatMap g.parts).foldlM (absorbMember g) f := by
  induction ts generalizing f with
  | nil => rfl
  | cons t ts ih =>
    rw [List.foldlM_cons, List.flatMap_cons, List.foldlM_append, absorb_eq_foldlM]
    exact bind_congr fun _ => ih

theorem absorb_of_isTerminal (hf : f.isTerminal = true) : f.absorb g t = .ok f := by
  rw [absorb_eq_foldlM]
  induction g.parts t with
  | nil => rfl
  | cons x xs ih =>
    rw [List.foldlM_cons, absorbMember, if_pos hf]
    exact ih

theorem absorbMember_ok (hunion : g.kind t ≠ .union) (hopen : g.kind t ≠ .instantiation) :
    ∃ f', absorbMember g f t = .ok f' ∧
      ∀ j, .node j ∈ f'.members.toList → .node j ∈ f.members.toList ∨ t = .node j := by
  cases hterm : f.isTerminal with
  | true => exact ⟨f, by simp [absorbMember, hterm], fun j => .inl⟩
  | false =>
    simp only [absorbMember, hterm, Bool.false_eq_true, if_false]
    cases t with
    | node i =>
      simp only [Graph.kind] at hunion hopen ⊢
      simp only [Members.add, Members.addNode]
      cases hi : g.shape i with
      | union => simp [hi, Shape.kind] at hunion
      | instantiation => simp [hi, Shape.kind] at hopen
      | unresolved =>
        refine ⟨_, rfl, fun j => ?_⟩
        simp [members, Members.node_mem_toList, or_assoc, eq_comm]
      | generic | intrinsic | nameSpace =>
        exact ⟨_, rfl, fun j => by simp [members, Members.node_mem_toList]⟩
      | callable role => cases role <;> exact ⟨_, rfl, fun j => Members.addShape_nodes⟩
      | record | interface | intersection => exact ⟨_, rfl, fun j => Members.addShape_nodes⟩
    | simple s => cases s <;> exact ⟨_, rfl, fun j => by simp [members, Members.node_mem_toList]⟩
    | boolean v => cases v <;> exact ⟨_, rfl, fun j => by simp [members, Members.node_mem_toList]⟩
    | _ => exact ⟨_, rfl, fun j => by simp [members, Members.node_mem_toList]⟩

theorem foldlM_absorb_ok (hts : ∀ t ∈ ts, g.Absorbable t) :
    ∃ f', ts.foldlM (absorb g) f = .ok f' ∧ ∀ j, .node j ∈ f'.members.toList →
      .node j ∈ f.members.toList ∨ ∃ t ∈ ts, .node j ∈ g.parts t := by
  have hparts : ∀ x ∈ ts.flatMap g.parts, g.kind x ≠ .union ∧ g.kind x ≠ .instantiation := by
    intro x hx
    obtain ⟨t, ht, hx⟩ := List.mem_flatMap.1 hx
    exact hts t ht x hx
  simp only [foldlM_absorb_eq, ← List.mem_flatMap]
  generalize ts.flatMap g.parts = xs at hparts
  induction xs generalizing f with
  | nil => exact ⟨f, rfl, fun j => .inl⟩
  | cons x xs ih =>
    obtain ⟨hunion, hopen⟩ := hparts x (by simp)
    obtain ⟨f₁, hf₁, hnodes₁⟩ := absorbMember_ok (f := f) hunion hopen
    obtain ⟨f₂, hf₂, hnodes₂⟩ := ih (f := f₁) fun y hy => hparts y (by simp [hy])
    refine ⟨f₂, by rw [List.foldlM_cons, hf₁]; exact hf₂, fun j hj => ?_⟩
    rcases hnodes₂ j hj with hj | hj
    · exact (hnodes₁ j hj).imp_right fun h => by simp [h]
    · exact .inr (by simp [hj])

theorem absorbMember_congr (ht : g.AgreesAt h t)
    (hf : ∀ j, .node j ∈ f.members.toList → g.AgreesAt h (.node j)) :
    absorbMember h f t = absorbMember g f t := by
  have hadd : f.members.add h t = f.members.add g t := by
    cases t with
    | node i =>
      have hshape : f.members.addShape h i = f.members.addShape g i := by
        have hany : (f.members.shapes.any fun k => h.equal (.node i) (.node k)) =
            f.members.shapes.any fun k => g.equal (.node i) (.node k) := by
          rw [Bool.eq_iff_iff, List.any_eq_true, List.any_eq_true]
          refine exists_congr fun k => and_congr_right fun hk => ?_
          rw [ht.equal_eq (hf k (Members.node_mem_toList.2 (.inl hk)))]
        rw [Members.addShape, Members.addShape, hany]
      simp only [Members.add, Members.addNode, hshape, ht i .refl]
    | boolean v => cases v <;> rfl
    | _ => rfl
  rw [absorbMember, absorbMember, ht.kind_eq, hadd]

theorem foldlM_absorb_congr (hok : ∀ t ∈ ts, g.Absorbable t) (hts : ∀ t ∈ ts, g.AgreesAt h t)
    (hf : ∀ j, .node j ∈ f.members.toList → g.AgreesAt h (.node j)) :
    ts.foldlM (absorb h) f = ts.foldlM (absorb g) f := by
  have hparts : ts.flatMap h.parts = ts.flatMap g.parts :=
    List.flatMap_congr fun t ht => (hts t ht).parts_eq
  have hxs : ∀ x ∈ ts.flatMap g.parts,
      g.AgreesAt h x ∧ g.kind x ≠ .union ∧ g.kind x ≠ .instantiation := by
    intro x hx
    obtain ⟨t, ht, hx⟩ := List.mem_flatMap.1 hx
    exact ⟨(hts t ht).of_reaches (Graph.reaches_of_mem_parts hx), hok t ht x hx⟩
  rw [foldlM_absorb_eq, foldlM_absorb_eq, hparts]
  generalize ts.flatMap g.parts = xs at hxs
  induction xs generalizing f with
  | nil => rfl
  | cons x xs ih =>
    obtain ⟨hx, hunion, hopen⟩ := hxs x (by simp)
    obtain ⟨f₁, hf₁, hnodes⟩ := absorbMember_ok (f := f) hunion hopen
    rw [List.foldlM_cons, List.foldlM_cons, absorbMember_congr hx hf, hf₁]
    refine ih (f := f₁) (fun j hj => ?_) fun y hy => hxs y (by simp [hy])
    rcases hnodes j hj with hj | rfl
    · exact hf j hj
    · exact hx

theorem settle_returns (unwrap : NodeId → TypeM Ty) (n : Nat)
    (ht : st.graph.kind t ≠ .instantiation) : (settle unwrap (n + 1) t).Returns st t st := by
  cases t with
  | node i =>
    refine (TypeM.Returns.graph st).bind ?_
    split
    · rename_i origin args hi
      exact absurd (congrArg Shape.kind hi) ht
    · exact .pure _ st
  | _ => exact .pure _ st

theorem settle_of_pos {unwrap : NodeId → TypeM Ty} {n : Nat} (hn : 0 < n)
    (ht : st.graph.kind t ≠ .instantiation) : (settle unwrap n t).Returns st t st := by
  obtain ⟨m, rfl⟩ := Nat.exists_eq_add_one.2 hn
  exact settle_returns unwrap m ht

theorem run_settle_instantiation {unwrap : NodeId → TypeM Ty} {n : Nat}
    (hj : st.graph.kind (.node j) = .instantiation) :
    (settle unwrap (n + 1) (.node j)).run.run st = (unwrap j >>= settle unwrap n).run.run st := by
  obtain ⟨origin, args, hj⟩ := Shape.exists_instantiation_of_kind hj
  rw [settle, TypeM.liftM_self, ExceptT.run_bind_of_ok (TypeM.Returns.graph st)]
  simp only [hj]

theorem add_returns (unwrap : NodeId → TypeM Ty) (n : Nat)
    (ht : st.graph.kind t ≠ .instantiation) (hf : f.absorb st.graph t = .ok f') :
    (add unwrap (n + 1) f t).Returns st f' st := by
  rw [add]
  split
  · rename_i hterm
    rw [absorb_of_isTerminal hterm] at hf
    cases hf
    exact .pure _ st
  · refine (settle_returns unwrap n ht).bind ?_
    exact (TypeM.Returns.graph st).bind (.ofExcept hf st)

/-- The type is what the fold ends in: a word, the only member, or a union of all members. -/
def EndsIn (g : Graph) (t : Ty) : Fold → Prop
  | .never => t = .never
  | .error => t = .error
  | .any => t = .any
  | .unknown => t = .unknown
  | .compound u =>
    match u.toList with
    | [m] => t = m
    | _ => ∃ i, t = .node i ∧ g.shape i = .union u

theorem EndsIn.cases (hf : f.EndsIn g t) :
    t.node? = none ∨ t ∈ f.members.toList ∨ ∃ i, t = .node i ∧ g.shape i = .union f.members := by
  cases f with
  | compound u =>
    simp only [EndsIn] at hf
    split at hf
    · rename_i m hm
      exact .inr (.inl (by simp [members, hm, hf]))
    · exact .inr (.inr hf)
  | _ => exact .inl (hf ▸ rfl)

theorem EndsIn.imp (hgh : ∀ i u, g.shape i = .union u → h.shape i = .union u)
    (hf : f.EndsIn g t) : f.EndsIn h t := by
  cases f with
  | compound u =>
    simp only [EndsIn] at hf ⊢
    split at hf
    · exact hf
    · obtain ⟨i, hi, hshape⟩ := hf
      exact ⟨i, hi, hgh i u hshape⟩
  | _ => exact hf

theorem tally_returns (g : Graph) (t : Ty) (st : Store) :
    ∃ st', (tally g t).Returns st () st' ∧ st'.graph = st.graph := by
  rw [tally]
  split
  all_goals first
    | exact ⟨_, .count _ st, rfl⟩
    | exact ⟨_, .pure _ st, rfl⟩

theorem build_returns (f : Fold) (st : Store) :
    ∃ t st', f.build.Returns st t st' ∧ f.EndsIn st'.graph t ∧
      (st'.graph = st.graph ∧ (t.node? = none ∨ t ∈ f.members.toList) ∨
        st'.graph = st.graph.push (.union f.members) ∧ t = .node st.graph.size) := by
  cases f with
  | compound u =>
    by_cases hsingle : ∃ m, u.toList = [m]
    · obtain ⟨m, hm⟩ := hsingle
      refine ⟨m, st, ?_, by simp only [EndsIn, hm], .inl ⟨rfl, .inr (by simp [members, hm])⟩⟩
      simp only [build, hm]
      exact .pure m st
    · refine ⟨.node st.graph.size, { st with graph := st.graph.push (.union u) }, ?_, ?_,
        .inr ⟨rfl, rfl⟩⟩
      · simp only [build]
        split
        · rename_i m hm
          exact absurd ⟨m, hm⟩ hsingle
        · exact (TypeM.Returns.alloc (.union u) st).bind (.pure _ _)
      · simp only [EndsIn]
        split
        · rename_i m hm
          exact absurd ⟨m, hm⟩ hsingle
        · exact ⟨_, rfl, Graph.shape_push_size _ _⟩
  | never | error | any | unknown => exact ⟨_, st, .pure _ st, rfl, .inl ⟨rfl, .inl rfl⟩⟩

theorem finish_returns (f : Fold) (st : Store) :
    ∃ t st', f.finish.Returns st t st' ∧ f.EndsIn st'.graph t ∧
      (st'.graph = st.graph ∧ (t.node? = none ∨ t ∈ f.members.toList) ∨
        st'.graph = st.graph.push (.union f.members) ∧ t = .node st.graph.size) := by
  obtain ⟨t, st₁, hbuild, hends, hcases⟩ := f.build_returns st
  obtain ⟨st', htally, hgraph⟩ := tally_returns st₁.graph t st₁
  refine ⟨t, st', ?_, hgraph ▸ hends, hgraph ▸ hcases⟩
  exact hbuild.bind ((TypeM.Returns.graph st₁).bind (htally.bind (.pure t st')))

end Fold

end FlowTyping
