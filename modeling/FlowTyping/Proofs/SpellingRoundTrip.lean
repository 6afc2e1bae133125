import FlowTyping.Proofs.NormalForm
import FlowTyping.Proofs.Placeholders
import FlowTyping.Proofs.Spellings

namespace FlowTyping

variable {g h : Graph} {f k : Fold} {t : Ty} {ts : List Ty} {u u' : Members} {i : NodeId}
  {st : Store}

theorem Literals.mem_values_insert {α : Type} [DecidableEq α] {l : Literals α} {v w : α}
    (hw : w ∈ (l.insert v).values) : w = v ∨ w ∈ l.values := by
  cases l with
  | vacant => exact .inl (List.mem_singleton.1 hw)
  | listed k => exact holds_insert.1 (show ((listed k).insert v).Holds w from hw)
  | every => cases hw

structure Members.Spelled (u : Members) : Prop where
  bigints : ∀ ds ∈ u.bigints.values, (Ty.bigint ds).Spelled
  symbols : u.symbols.values = []
  shapes : u.shapes = []
  unresolved : u.unresolved = []

namespace Members

theorem spelled_empty : Spelled {} := by
  refine ⟨?_, rfl, rfl, rfl⟩
  intro ds hds
  cases hds

theorem Spelled.add (hu : u.Spelled) (ht : t.Spelled) (hadd : u.add g t = .ok u') :
    u'.Spelled := by
  obtain ⟨hbigints, hsymbols, hshapes, hunresolved⟩ := hu
  have hevery : ∀ ds ∈ (Literals.every (α := Text)).values, (Ty.bigint ds).Spelled := by
    intro ds hds
    cases hds
  cases ht with
  | @simple s hs =>
    cases s <;> cases hadd <;> constructor <;> first | assumption | rfl
  | string v | number x =>
    cases hadd
    exact ⟨hbigints, hsymbols, hshapes, hunresolved⟩
  | boolean b =>
    cases b <;> cases hadd <;> exact ⟨hbigints, hsymbols, hshapes, hunresolved⟩
  | bigint negative hds =>
    cases hadd
    refine ⟨?_, hsymbols, hshapes, hunresolved⟩
    intro ds hmem
    cases Literals.mem_values_insert hmem with
    | inl heq => exact heq ▸ .bigint negative hds
    | inr hmem => exact hbigints ds hmem

theorem Spelled.mem (hu : u.Spelled) (ht : t ∈ u.toList) : t.Spelled := by
  rw [mem_toList] at ht
  cases t with
  | simple s => cases s <;> first | exact .simple (by decide) | exact absurd ht id
  | string v => exact .string v
  | number x => exact .number x
  | bigint ds => exact hu.bigints ds ht
  | symbol id => simp [Includes, hu.symbols] at ht
  | boolean b => exact .boolean b
  | node i => simp [Includes, hu.shapes, hu.unresolved] at ht

theorem Spelled.sorted (hu : u.Spelled) (g : Graph) : u.Sorted g :=
  ⟨by simp [hu.shapes], by simp [hu.unresolved]⟩

theorem Spelled.readBack (hu : u.Spelled) (g : Graph) :
    u.toList.foldlM (Members.add g) {} = .ok u := by
  rw [(hu.sorted g).foldlM_toList, empty_join (by simp [hu.shapes, Graph.Unlike])]

end Members

structure Fold.Spelled (f : Fold) : Prop where
  ne_error : f ≠ .error
  members : f.members.Spelled

namespace Ty.Spelled

theorem kind_ne (ht : t.Spelled) (g : Graph) : g.kind t ≠ .union ∧ g.kind t ≠ .instantiation := by
  cases ht <;> exact ⟨Kind.noConfusion, Kind.noConfusion⟩

theorem escalation_ne (ht : t.Spelled) (g : Graph) : Fold.escalation g t ≠ some .error := by
  cases ht with
  | @simple s hs =>
    cases s <;> first | exact absurd hs (by decide) | simp [Fold.escalation, Graph.kind]
  | _ => simp [Fold.escalation, Graph.kind]

theorem parts (ht : t.Spelled) (g : Graph) : g.parts t = [t] :=
  Graph.parts_of_kind_ne (ht.kind_ne g).1

end Ty.Spelled

namespace Fold

theorem spelled_never : Spelled .never := ⟨nofun, Members.spelled_empty⟩

theorem Spelled.absorbMember (hf : f.Spelled) (ht : t.Spelled)
    (hk : absorbMember g f t = .ok k) : k.Spelled := by
  cases hterm : f.isTerminal with
  | true =>
    rw [absorbMember_of_isTerminal hterm] at hk
    cases hk
    exact hf
  | false =>
    obtain ⟨hunion, hopen⟩ := ht.kind_ne g
    rcases part_cases hunion hopen with rfl | ⟨e, he⟩ | ⟨hmember, -⟩
    · rw [absorbMember_never] at hk
      cases hk
      exact hf
    · rw [absorbMember_of_escalation hterm he] at hk
      cases hk
      constructor
      · rintro rfl
        exact ht.escalation_ne g he
      · have hempty : k.members = {} := by
          have hterm := isTerminal_of_escalation he
          cases k <;> first | rfl | cases hterm
        rw [hempty]
        exact Members.spelled_empty
    · obtain ⟨u, hu⟩ := Members.exists_add f.members hmember
      rw [absorbMember_of_isMember hterm hmember, hu] at hk
      cases hk
      exact ⟨nofun, hf.members.add ht hu⟩

theorem Spelled.foldlM (hf : f.Spelled) (hts : ∀ t ∈ ts, t.Spelled)
    (hk : ts.foldlM (Fold.absorbMember g) f = .ok k) : k.Spelled := by
  induction ts generalizing f with
  | nil =>
    cases hk
    exact hf
  | cons t ts ih =>
    rw [List.foldlM_cons] at hk
    cases hstep : Fold.absorbMember g f t with
    | error e =>
      rw [hstep] at hk
      cases hk
    | ok f' =>
      rw [hstep] at hk
      have hf' := hf.absorbMember (hts t List.mem_cons_self) hstep
      exact ih hf' (fun t ht => hts t (List.mem_cons_of_mem _ ht)) hk

theorem foldlM_absorb_of_spelled (hts : ∀ t ∈ ts, t.Spelled) :
    ts.foldlM (absorb g) f = ts.foldlM (Fold.absorbMember g) f := by
  rw [foldlM_absorb_eq, List.flatMap_congr fun t ht => (hts t ht).parts g, List.flatMap_singleton']

theorem exists_spelled (g : Graph) (hts : ∀ t ∈ ts, t.Spelled) :
    ∃ f, ts.foldlM (absorb g) .never = .ok f ∧ f.Spelled ∧ f.Reached g := by
  have habsorbable : ∀ t ∈ ts, g.Absorbable t := by
    intro t ht x hx
    rw [(hts t ht).parts g, List.mem_singleton] at hx
    exact hx ▸ (hts t ht).kind_ne g
  obtain ⟨f, hf, -⟩ := foldlM_absorb_ok (f := .never) habsorbable
  refine ⟨f, hf, ?_⟩
  rw [foldlM_absorb_of_spelled hts] at hf
  exact ⟨spelled_never.foldlM hts hf,
    (reached_never g).foldlM (fun t ht => (hts t ht).kind_ne g) hf⟩

end Fold

namespace Graph

/-- A type that spellings are folded to: one that has a spelling, or a union of several. -/
inductive Spelled (g : Graph) : Ty → Prop
  | single {t : Ty} (ht : t.Spelled) : Spelled g t
  | union {i : NodeId} {u : Members} (hi : g.shape i = .union u) (hu : u.Spelled)
    (hmany : 2 ≤ u.toList.length) : Spelled g (.node i)

theorem parts_of_union (hi : g.shape i = .union u) : g.parts (.node i) = u.toList := by
  simp only [parts, hi]

namespace Spelled

theorem mem_parts (ht : g.Spelled t) : ∀ m ∈ g.parts t, m.Spelled := by
  cases ht with
  | single ht =>
    rw [ht.parts]
    simpa using ht
  | union hi hu _ =>
    rw [parts_of_union hi]
    exact fun m hm => hu.mem hm

theorem parts_ne_nil (ht : g.Spelled t) : g.parts t ≠ [] := by
  cases ht with
  | single ht => simp [ht.parts]
  | union hi _ hmany =>
    rw [parts_of_union hi]
    exact List.ne_nil_of_length_pos (Nat.lt_of_lt_of_le Nat.two_pos hmany)

end Spelled

theorem describeTo_of_not_node (ht : t.node? = none) (fuel : Nat) :
    g.describeTo (fuel + 1) t = pure t.written := by
  cases t with
  | node i => cases ht
  | _ => rfl

theorem mapM_describeTo (hts : ∀ t ∈ ts, t.node? = none) (fuel : Nat) :
    ts.mapM (g.describeTo (fuel + 1)) = pure (ts.map Ty.written) := by
  induction ts with
  | nil => rfl
  | cons t ts ih =>
    rw [List.mapM_cons, describeTo_of_not_node (hts t List.mem_cons_self),
      ih fun t ht => hts t (List.mem_cons_of_mem _ ht)]
    rfl

theorem describe_of_not_node (ht : t.node? = none) : g.describe t = t.written := by
  rw [describe, describeDepth, describeTo_of_not_node ht]
  rfl

theorem describe_of_union (hi : g.shape i = .union u) (hu : ∀ m ∈ u.toList, m.node? = none) :
    g.describe (.node i) = .union (u.toList.map Ty.written) := by
  rw [describe, describeDepth, describeTo]
  simp only [hi, mapM_describeTo hu]
  rfl

theorem Spelled.print (ht : g.Spelled t) :
    g.print t = Text.join (text " | ") ((g.parts t).map fun m => m.written.render) := by
  cases ht with
  | single ht =>
    rw [Graph.print, describe_of_not_node ht.node?, ht.parts]
    rfl
  | @union i u hi hu hmany =>
    have hnodes : ∀ m ∈ u.toList, m.node? = none := fun m hm => (hu.mem hm).node?
    have hne := (Spelled.union hi hu hmany).parts_ne_nil
    have hsummand (m : Ty) : TypeExpr.renderSummand m.written = m.written.render := by
      cases m with
      | simple s => cases s <;> rfl
      | _ => rfl
    rw [parts_of_union hi] at hne ⊢
    rw [Graph.print, describe_of_union hi hnodes,
      TypeExpr.render_union_of_ne_nil (by simpa using hne), List.map_map]
    simp only [Function.comp_def, hsummand]

theorem Spelled.readAll_print (ht : g.Spelled t) (hverbatim : ∀ m ∈ g.parts t, m.Verbatim) :
    Spelling.readAll [g.print t] = .ok (g.parts t) := by
  have hspells : ∀ m ∈ g.parts t, Spelling.Spells m.written.render m :=
    fun m hm => (ht.mem_parts m hm).spells (hverbatim m hm)
  rw [Spelling.readAll, List.flatMap_singleton, Spelling.split, ht.print]
  exact Spelling.mapM_read_join hspells ht.parts_ne_nil (by simp)

end Graph

theorem Fold.Spelled.endsIn (hf : f.Spelled) (hreached : f.Reached h) (ht : f.EndsIn g t) :
    g.Spelled t := by
  cases f with
  | error => exact absurd rfl hf.ne_error
  | never | any | unknown =>
    cases ht
    exact .single (.simple (by decide))
  | compound u =>
    by_cases hone : u.toList.length = 1
    · obtain ⟨m, hm⟩ := List.length_eq_one_iff.1 hone
      have heq : t = m := by simpa only [EndsIn, hm] using ht
      have hmem : m ∈ u.toList := by simp [hm]
      exact .single (heq ▸ hf.members.mem hmem)
    · obtain ⟨i, rfl, hi⟩ := ht.exists_union hone
      have hpos := List.length_pos_iff.2 (hreached u rfl).2
      exact .union hi hf.members (by omega)

namespace Resolvers

variable {r : Resolvers}

theorem unite_spelled (hlimit : 0 < r.limit) (hts : ∀ t ∈ ts, t.Spelled) (st : Store) :
    ∃ t st', (r.unite ts).Returns st t st' ∧ st'.graph.Spelled t := by
  cases ts with
  | nil => exact ⟨.undefined, st, .pure _ st, .single (.simple (by decide))⟩
  | cons a ts =>
    cases ts with
    | nil => exact ⟨a, st, .pure a st, .single (hts a List.mem_cons_self)⟩
    | cons b ts =>
      obtain ⟨f, hf, hspelled, hreached⟩ := Fold.exists_spelled st.graph hts
      rw [← List.map_id (a :: b :: ts)] at hf
      obtain ⟨t, st', hrun, hends, -⟩ := unite_returns (r := r) (by simp)
        (fun t ht => opens_of_kind_ne hlimit ((hts t ht).kind_ne st.graph).2) hf
      exact ⟨t, st', hrun, hspelled.endsIn hreached hends⟩

theorem unite_parts (hlimit : 0 < r.limit) {t : Ty} (ht : st.graph.Spelled t) :
    ∃ t' st', (r.unite (st.graph.parts t)).Returns st t' st' ∧
      st'.graph.equal t' t = true ∧ st'.graph.print t' = st.graph.print t := by
  cases ht with
  | single ht =>
    rw [ht.parts]
    exact ⟨t, st, .pure t st, Graph.equal_iff.2 (.refl _ t), rfl⟩
  | @union i u hi hu hmany =>
    have hmembers : ∀ m ∈ u.toList, m.Spelled := fun m hm => hu.mem hm
    have hne := (Graph.Spelled.union hi hu hmany).parts_ne_nil
    rw [Graph.parts_of_union hi] at hne ⊢
    have hfold : u.toList.foldlM (Fold.absorb st.graph) .never = .ok (.compound u) := by
      rw [Fold.foldlM_absorb_of_spelled hmembers,
        Fold.foldlM_absorbMember_of_isMember rfl hne fun m hm => (hu.sorted st.graph).isMember hm]
      exact congrArg (Except.map Fold.compound) (hu.readBack st.graph)
    rw [← List.map_id u.toList] at hfold
    obtain ⟨t', st', hrun, hends, hext⟩ := unite_returns (r := r) hmany
      (fun m hm => opens_of_kind_ne hlimit ((hmembers m hm).kind_ne st.graph).2) hfold
    obtain ⟨j, rfl, hj⟩ := hends.exists_union (by omega)
    have hi' : st'.graph.shape i = .union u := by
      rw [hext.shape_eq i (Graph.lt_size_of_shape hi nofun), hi]
    refine ⟨.node j, st', hrun, ?_, ?_⟩
    · rw [Graph.equal_iff, Graph.similar_union_iff hj hi']
      exact .refl (.refl _) u
    · rw [(Graph.Spelled.union hj hu hmany).print, (Graph.Spelled.union hi hu hmany).print,
        Graph.parts_of_union hj, Graph.parts_of_union hi]

end Resolvers

/-- Reading undoes printing: what is printed for the fold of some spellings is read again, unless a
string literal of it is written with backslashes, and the fold of what is read is the same type and
is printed alike. -/
theorem Spelling.readAll_print_unite {args : List Text} (hread : readAll args = .ok ts)
    {r : Resolvers} (hlimit : 0 < r.limit) (st : Store) :
    ∃ t st₁, (r.unite ts).Returns st t st₁ ∧
      ((∀ m ∈ st₁.graph.parts t, m.Verbatim) → ∃ ts' t' st₂,
        readAll [st₁.graph.print t] = .ok ts' ∧ (r.unite ts').Returns st₁ t' st₂ ∧
        st₂.graph.equal t' t = true ∧ st₂.graph.print t' = st₁.graph.print t) := by
  obtain ⟨t, st₁, hrun, ht⟩ := r.unite_spelled hlimit (spelled_of_readAll hread) st
  refine ⟨t, st₁, hrun, ?_⟩
  intro hverbatim
  obtain ⟨t', st₂, hrun', hequal, hprint⟩ := r.unite_parts hlimit ht
  exact ⟨_, t', st₂, ht.readAll_print hverbatim, hrun', hequal, hprint⟩

theorem Spelling.quoted_bars_read_back :
    let args := [text "'a|b' | -0 |007n", text "true|false| \"it's\"|NaN "]
    let ts : List Ty := [.string (text "a|b"), .number (.ofBits signBit), .bigint (text "7"),
      .boolean true, .boolean false, .string (text "it's"), .number .nan]
    readAll args = .ok ts ∧ ∃ t st₁, (({} : Resolvers).unite ts).Returns {} t st₁ ∧
      st₁.graph.print t = text "\"a|b\" | \"it's\" | -0 | NaN | 7n | boolean" ∧
      (∀ m ∈ st₁.graph.parts t, m.Verbatim) ∧ ∃ ts' t' st₂,
        readAll [st₁.graph.print t] = .ok ts' ∧ (({} : Resolvers).unite ts').Returns st₁ t' st₂ ∧
        st₂.graph.equal t' t = true ∧ st₂.graph.print t' = st₁.graph.print t := by
  intro args ts
  have hread : readAll args = .ok ts := by decide +kernel
  obtain ⟨t, st₁, hrun, hback⟩ := readAll_print_unite hread (r := {}) (by decide) {}
  have heval : (({} : Resolvers).unite ts).Returns {} (.node 0)
      { graph := ⟨#[.union (Members.after {} ts)]⟩,
        metrics := ({} : Metrics).count Metrics.unionsBuilt 1 } := by
    rfl
  obtain ⟨rfl, rfl⟩ := hrun.unique heval
  have hverbatim : ∀ m ∈ Graph.parts ⟨#[.union (Members.after {} ts)]⟩ (.node 0), m.Verbatim := by
    decide
  exact ⟨hread, _, _, hrun, by decide, hverbatim, hback hverbatim⟩

end FlowTyping
