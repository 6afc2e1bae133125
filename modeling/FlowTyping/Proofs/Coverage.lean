import FlowTyping.Proofs.Values

namespace FlowTyping

variable {g h : Graph} {t x : Ty} {ts : List Ty} {v w : Value} {attr : Text} {st : Store}
  {r : Resolvers}

inductive Shape.Plain (g : Graph) : Shape → Prop
  | record {slots} : (∀ s ∈ slots, s.optional = false) → Plain g (.record slots)
  | union {u} : u.Sorted g → u.unresolved = [] → Plain g (.union u)

structure Graph.Plain (g : Graph) : Prop where
  closed : g.Closed
  nodes : ∀ i < g.size, (g.shape i).Plain g

theorem Members.Sorted.mono {u : Members} (hgh : g.Extends h) (hu : u.Sorted g)
    (hnone : u.unresolved = []) : u.Sorted h := by
  refine ⟨fun i hi => ?_, by simp [hnone]⟩
  have hkind := hu.shapes i hi
  have hhas : g.Has (.node i) := by
    apply Graph.lt_size_of_shape (s := g.shape i) rfl
    intro hs
    rw [Graph.kind, hs] at hkind
    cases hkind
  rw [hgh.kind_eq hhas]
  exact hkind

theorem Shape.Plain.mono {s : Shape} (hgh : g.Extends h) (hs : s.Plain g) : s.Plain h := by
  cases hs with
  | record hslots => exact .record hslots
  | union hu hnone => exact .union (hu.mono hgh hnone) hnone

namespace Graph.Plain

theorem empty : Graph.Plain {} := by
  refine ⟨fun a b hab => ?_, fun i hi => absurd hi (Nat.not_lt_zero i)⟩
  obtain ⟨i, -, hb⟩ := hab.exists_node
  rw [shape_of_size_le (Nat.zero_le i)] at hb
  cases hb

theorem push {s : Shape} (hg : g.Plain) (hs : s.Plain g) (hchildren : ∀ t ∈ s.children, g.Has t) :
    (g.push s).Plain := by
  refine ⟨hg.closed.push hchildren, fun i hi => ?_⟩
  rw [size_push] at hi
  rcases Nat.lt_succ_iff_lt_or_eq.1 hi with hi | rfl
  · rw [shape_push_of_lt s hi]
    exact (hg.nodes i hi).mono (.push g s)
  · rw [shape_push_size]
    exact hs.mono (.push g s)

theorem kind_ne (hg : g.Plain) (ht : g.Has t) :
    g.kind t ≠ .instantiation ∧ g.kind t ≠ .unresolved := by
  cases t with
  | node i =>
    have hi := hg.nodes i ht
    rw [kind]
    generalize g.shape i = s at hi
    cases hi <;> simp [Shape.kind]
  | _ => simp [kind]

theorem part (hg : g.Plain) (ht : g.Has t) (hx : x ∈ g.parts t) :
    g.Has x ∧ g.kind x ≠ .union ∧ g.kind x ≠ .instantiation ∧ g.kind x ≠ .unresolved := by
  have hhas := (reaches_of_mem_parts hx).has hg.closed ht
  refine ⟨hhas, ?_, hg.kind_ne hhas⟩
  by_cases hunion : g.kind t = .union
  · cases t with
    | node i =>
      obtain ⟨u, hi⟩ := Shape.exists_union_of_kind hunion
      have hplain := hg.nodes i ht
      simp only [parts, hi] at hx hplain
      cases hplain with
      | union hu => exact (Kind.ne_of_isMember (hu.isMember hx)).1
    | _ => cases hunion
  · rw [parts_of_kind_ne hunion, List.mem_singleton] at hx
    exact hx ▸ hunion

end Graph.Plain

/-- The store `st'` has the type `t`, and has come from `st` with nothing lost and nothing but plain
types added. -/
structure Store.Yields (st : Store) (t : Ty) (st' : Store) : Prop where
  grows : st.graph.Extends st'.graph
  plain : st'.graph.Plain
  has : st'.graph.Has t

namespace Fold

variable {k : Fold}

structure Covers (g : Graph) (ts : List Ty) (k : Fold) : Prop where
  reached : k.Reached g
  has : ∀ x ∈ k.members.toList, g.Has x
  unresolved : k.members.unresolved = []
  describes : ∀ x ∈ ts, ∀ v, g.Describes x v → k.Describes g v

theorem exists_covers (hg : g.Plain) (hts : ∀ t ∈ ts, g.Has t) :
    ∃ k, ts.foldlM (absorb g) .never = .ok k ∧ k.Covers g ts := by
  have hparts : ∀ x ∈ ts.flatMap g.parts, g.Has x ∧ g.kind x ≠ .union ∧
      g.kind x ≠ .instantiation ∧ g.kind x ≠ .unresolved := by
    intro x hx
    obtain ⟨t, ht, hx⟩ := List.mem_flatMap.1 hx
    exact hg.part (hts t ht) hx
  have habsorb : ∀ t ∈ ts, g.Absorbable t := by
    intro t ht x hx
    obtain ⟨-, hunion, hopen, -⟩ := hg.part (hts t ht) hx
    exact ⟨hunion, hopen⟩
  obtain ⟨k, hk, hnodes⟩ := foldlM_absorb_ok (f := .never) habsorb
  refine ⟨k, hk, ?_⟩
  rw [foldlM_absorb_eq] at hk
  obtain ⟨hdescribes, hnone⟩ := describes_of_foldlM (fun x hx => (hparts x hx).2) hk
  refine ⟨?_, fun x hx => ?_, hnone, fun x hx v hv => ?_⟩
  · exact (reached_never g).foldlM (fun x hx => ⟨(hparts x hx).2.1, (hparts x hx).2.2.1⟩) hk
  · cases x with
    | node j =>
      rcases hnodes j hx with hj | ⟨t, ht, hj⟩
      · simp [members, Members.node_mem_toList] at hj
      · exact (hg.part (hts t ht) hj).1
    | _ => trivial
  · obtain ⟨y, hy, hv⟩ := hv.exists_part
    exact hdescribes y (List.mem_flatMap.2 ⟨x, hx, hy⟩) v hv

theorem Covers.finish (hg : st.graph.Plain) (hk : k.Covers st.graph ts) :
    ∃ t st', k.finish.Returns st t st' ∧ st.Yields t st' ∧
      ∀ x ∈ ts, ∀ v, st.graph.Describes x v → st'.graph.Describes t v := by
  obtain ⟨t, st', hrun, hends, hcases⟩ := k.finish_returns st
  have hyields : st.Yields t st' := by
    rcases hcases with ⟨hgraph, ht⟩ | ⟨hgraph, rfl⟩
    · refine ⟨hgraph ▸ .refl _, hgraph ▸ hg, ?_⟩
      rw [hgraph]
      rcases ht with ht | ht
      · exact Graph.has_of_not_node ht
      · exact hk.has t ht
    · refine ⟨hgraph ▸ .push _ _, ?_, ?_⟩
      · rw [hgraph]
        exact hg.push (.union hk.reached.sorted hk.unresolved) hk.has
      · simp [hgraph, Graph.Has]
  refine ⟨t, st', hrun, hyields, fun x hx v hv => ?_⟩
  exact hends.describes ((hk.describes x hx v hv).mono hyields.grows)

end Fold

namespace Resolvers

theorem addTo_returns_of_plain {f k : Fold} (hlimit : 0 < r.limit) (hg : st.graph.Plain)
    (ht : st.graph.Has t) (hk : f.absorb st.graph t = .ok k) : (r.addTo f t).Returns st k st := by
  obtain ⟨n, hn⟩ := Nat.exists_eq_add_of_lt hlimit
  rw [addTo, hn, Nat.zero_add]
  exact Fold.add_returns _ n (hg.kind_ne ht).1 hk

theorem unite_covers (hlimit : 0 < r.limit) (hg : st.graph.Plain) (hlen : 2 ≤ ts.length)
    (hts : ∀ t ∈ ts, st.graph.Has t) :
    ∃ t st', (r.unite ts).Returns st t st' ∧ st.Yields t st' ∧
      ∀ x ∈ ts, ∀ v, st.graph.Describes x v → st'.graph.Describes t v := by
  obtain ⟨k, hk, hcovers⟩ := Fold.exists_covers hg hts
  obtain ⟨t, st', hfinish, hrest⟩ := hcovers.finish hg
  have hrun : (ts.foldlM r.addTo .never).Returns st k st :=
    .foldlM (fun _ t ht _ hf => addTo_returns_of_plain hlimit hg (hts t ht) hf) hk
  refine ⟨t, st', ?_, hrest⟩
  match ts, hlen with
  | a :: b :: ts, _ => exact hrun.bind hfinish

theorem simpleProperty_describes {s : Simple} (hv : s.admits v = true) (hw : v.Reads attr w) :
    g.Describes (simpleProperty s (.named attr)) w := by
  cases s with
  | never | null | undefined | void => cases v <;> cases hv <;> cases hw
  | error | any | unknown => exact .word rfl
  | string =>
    simp only [simpleProperty]
    split
    · cases hw <;> simp_all [Simple.admits]
      · exact .word rfl
      · exact .word rfl
    · exact .word rfl
  | _ => exact .word rfl

theorem stringProperty_describes {y : Text} (hw : (Value.string y).Reads attr w) :
    g.Describes (stringProperty y (.named attr)) w := by
  simp only [stringProperty]
  cases hw with
  | length hn =>
    rw [if_pos rfl, hn]
    exact .number _
  | malformed hn =>
    rw [if_pos rfl, hn]
    exact .word rfl
  | string hattr =>
    rw [if_neg (by simpa using hattr)]
    exact .word rfl

theorem recordProperty_covers {i : NodeId} {slots : List Slot} (hg : st.graph.Plain)
    (hs : st.graph.shape i = .record slots) (hrequired : ∀ s ∈ slots, s.optional = false) :
    ∃ t', (r.memberProperty (.node i) (.named attr)).Returns st t' st ∧ st.graph.Has t' ∧
      ∀ v w, st.graph.Describes (.node i) v → v.Reads attr w → st.graph.Describes t' w := by
  have hrun {t' : Ty}
      (hslot : (r.slotType (Shape.findSlot (.named attr) slots) .undefined).Returns st t' st) :
      (r.memberProperty (.node i) (.named attr)).Returns st t' st := by
    refine (TypeM.Returns.graph st).bind ?_
    simp only [hs]
    exact hslot
  cases hfind : Shape.findSlot (.named attr) slots with
  | none =>
    rw [hfind] at hrun
    refine ⟨.undefined, hrun (.pure _ st), trivial, fun v w hv hw => ?_⟩
    cases hv with
    | union hi => cases hs.symm.trans hi
    | record hi hkeys =>
      cases hs.symm.trans hi
      cases hw with
      | field hfield => simpa [hfind] using hkeys attr (by simp [hfield])
      | absent => exact .word rfl
  | some s =>
    have hmem : s ∈ slots := List.mem_of_find?_eq_some hfind
    rw [hfind, slotType, widen, hrequired s hmem] at hrun
    refine ⟨s.type, hrun (.pure _ st), ?_, fun v w hv hw => ?_⟩
    · apply hg.closed (.node i)
      rw [Graph.child_node, hs]
      exact List.mem_map_of_mem hmem
    · cases hv with
      | union hi => cases hs.symm.trans hi
      | record hi _ hslots hv =>
        cases hs.symm.trans hi
        cases hw with
        | field hfield => exact hv attr w s hfield hfind
        | absent hnone => simpa [hnone] using hslots attr s hfind (hrequired s hmem)

theorem memberProperty_covers (hg : st.graph.Plain) (ht : st.graph.Has t)
    (hunion : st.graph.kind t ≠ .union) :
    ∃ t', (r.memberProperty t (.named attr)).Returns st t' st ∧ st.graph.Has t' ∧
      ∀ v w, st.graph.Describes t v → v.Reads attr w → st.graph.Describes t' w := by
  cases t with
  | simple s =>
    refine ⟨simpleProperty s (.named attr), .pure _ st, ?_, fun v w hv hw => ?_⟩
    · apply Graph.has_of_not_node
      cases s <;> first | rfl | (simp only [simpleProperty]; split <;> rfl)
    · cases hv with
      | word hs => exact simpleProperty_describes hs hw
  | string y =>
    refine ⟨stringProperty y (.named attr), .pure _ st, ?_, fun v w hv hw => ?_⟩
    · apply Graph.has_of_not_node
      simp only [stringProperty]
      split
      · split <;> rfl
      · rfl
    · cases hv
      exact stringProperty_describes hw
  | node i =>
    have hplain := hg.nodes i ht
    cases hs : st.graph.shape i with
    | record slots =>
      rw [hs] at hplain
      cases hplain with
      | record hrequired => exact recordProperty_covers hg hs hrequired
    | union u => exact absurd (Graph.kind_of_union hs) hunion
    | _ =>
      rw [hs] at hplain
      cases hplain
  | _ => exact ⟨.unknown, .pure _ st, trivial, fun _ _ _ _ => .word rfl⟩

theorem uniteReads_covers {read : Ty → TypeM Ty} {o : Ty → Ty} (hlimit : 0 < r.limit)
    (hg : st.graph.Plain) (hread : ∀ t ∈ ts, (read t).Returns st (o t) st)
    (hhas : ∀ t ∈ ts, st.graph.Has (o t)) :
    ∃ t' st', (r.uniteReads read ts).Returns st t' st' ∧ st.Yields t' st' ∧
      ∀ t ∈ ts, ∀ v, st.graph.Describes (o t) v → st'.graph.Describes t' v := by
  have hhas' : ∀ x ∈ ts.map o, st.graph.Has x := by simpa using hhas
  obtain ⟨k, hk, hcovers⟩ := Fold.exists_covers hg hhas'
  obtain ⟨t', st', hfinish, hyields, hdescribes⟩ := hcovers.finish hg
  rw [List.foldlM_map] at hk
  refine ⟨t', st', ?_, hyields, fun t ht => hdescribes (o t) (List.mem_map_of_mem ht)⟩
  refine TypeM.Returns.bind (.foldlM (fun f t ht f' hf => ?_) hk) hfinish
  exact (hread t ht).bind (addTo_returns_of_plain hlimit hg (hhas t ht) hf)

theorem builtinProperty_covers (hlimit : 0 < r.limit) (hg : st.graph.Plain) (ht : st.graph.Has t)
    (attr : Text) :
    ∃ t' st', (r.builtinProperty t (.named attr)).Returns st t' st' ∧ st.Yields t' st' ∧
      ∀ v w, st.graph.Describes t v → v.Reads attr w → st'.graph.Describes t' w := by
  have hsettle : (Fold.settle r.unwrap r.limit t).Returns st t st :=
    Fold.settle_of_pos hlimit (hg.kind_ne ht).1
  by_cases hunion : st.graph.kind t = .union
  · cases t with
    | node i =>
      obtain ⟨u, hs⟩ := Shape.exists_union_of_kind hunion
      have hmember : ∀ m ∈ u.toList, ∃ t',
          (r.memberProperty m (.named attr)).Returns st t' st ∧ st.graph.Has t' ∧
            ∀ v w, st.graph.Describes m v → v.Reads attr w → st.graph.Describes t' w := by
        intro m hm
        obtain ⟨hhas, hkind, -⟩ := hg.part ht (x := m) (by simpa [Graph.parts, hs] using hm)
        exact memberProperty_covers hg hhas hkind
      choose! o hrun hhas hdescribes using hmember
      obtain ⟨t', st', hreads, hyields, hcovers⟩ := uniteReads_covers hlimit hg hrun hhas
      refine ⟨t', st', hsettle.bind ((TypeM.Returns.graph st).bind ?_), hyields, ?_⟩
      · simp only [hs]
        exact hreads
      · intro v w hv hw
        cases hv with
        | union hi hm hv =>
          cases hs.symm.trans hi
          exact hcovers _ hm w (hdescribes _ hm v w hv hw)
        | record hi => cases hs.symm.trans hi
    | _ => cases hunion
  · obtain ⟨t', hrun, hhas, hdescribes⟩ := memberProperty_covers (r := r) hg ht hunion
    refine ⟨t', st, hsettle.bind ?_, ⟨.refl _, hg, hhas⟩, hdescribes⟩
    cases t with
    | node i =>
      refine (TypeM.Returns.graph st).bind ?_
      split
      · rename_i u hs
        exact absurd (Graph.kind_of_union hs) hunion
      · exact hrun
    | _ => exact hrun

end Resolvers

end FlowTyping
