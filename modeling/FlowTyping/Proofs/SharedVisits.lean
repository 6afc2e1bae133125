import FlowTyping.Proofs.MentionsLaws

/-!
Visits: the search for placeholders as calls inside each other that share the nodes seen. A call for
a node seen before finds nothing, so what one call answers may be wrong of its own node, but the
answer of the whole search is right.
-/

namespace FlowTyping.Graph

variable {g : Graph} {bound : NodeId → Bool} {ts us : List Ty} {seen seen₁ seen₂ : List NodeId}
  {found found' : Bool}

/-- A visit of types from left to right: the nodes seen before it, whether it comes upon a bound
placeholder, and the nodes seen after it. What a new node is made of takes a visit of its own, and
the nodes seen there are seen for all types to the right. The first placeholder found ends it. -/
inductive Visit (g : Graph) (bound : NodeId → Bool) :
    List Ty → List NodeId → Bool → List NodeId → Prop
  | nil {seen : List NodeId} : Visit g bound [] seen false seen
  | word {t : Ty} {ts : List Ty} {seen seen₁ : List NodeId} {found : Bool} (ht : ∀ i, t ≠ .node i)
      (hrest : Visit g bound ts seen found seen₁) : Visit g bound (t :: ts) seen found seen₁
  | free {i : NodeId} {name : Text} {ts : List Ty} {seen seen₁ : List NodeId} {found : Bool}
      (hi : g.shape i = .unresolved name) (hbound : bound i = false)
      (hrest : Visit g bound ts seen found seen₁) : Visit g bound (.node i :: ts) seen found seen₁
  | bound {i : NodeId} {name : Text} {ts : List Ty} {seen : List NodeId}
      (hi : g.shape i = .unresolved name) (hbound : bound i = true) :
      Visit g bound (.node i :: ts) seen true seen
  | again {i : NodeId} {ts : List Ty} {seen seen₁ : List NodeId} {found : Bool}
      (hi : ∀ name, g.shape i ≠ .unresolved name) (hseen : i ∈ seen)
      (hrest : Visit g bound ts seen found seen₁) : Visit g bound (.node i :: ts) seen found seen₁
  | inside {i : NodeId} {ts : List Ty} {seen seen₁ : List NodeId}
      (hi : ∀ name, g.shape i ≠ .unresolved name) (hseen : i ∉ seen)
      (hinside : Visit g bound (g.shape i).children (i :: seen) true seen₁) :
      Visit g bound (.node i :: ts) seen true seen₁
  | past {i : NodeId} {ts : List Ty} {seen seen₁ seen₂ : List NodeId} {found : Bool}
      (hi : ∀ name, g.shape i ≠ .unresolved name) (hseen : i ∉ seen)
      (hinside : Visit g bound (g.shape i).children (i :: seen) false seen₁)
      (hrest : Visit g bound ts seen₁ found seen₂) : Visit g bound (.node i :: ts) seen found seen₂

namespace Visit

theorem of_append (h : g.Visit bound (ts ++ us) seen found seen₂) :
    found = true ∧ g.Visit bound ts seen true seen₂ ∨
      ∃ seen₁, g.Visit bound ts seen false seen₁ ∧ g.Visit bound us seen₁ found seen₂ := by
  induction ts generalizing seen with
  | nil => exact .inr ⟨seen, .nil, h⟩
  | cons t ts ih =>
    cases h with
    | word ht hrest =>
      refine (ih hrest).imp (.imp_right (.word ht)) ?_
      rintro ⟨seen₁, hts, hus⟩
      exact ⟨seen₁, .word ht hts, hus⟩
    | free hi hbound hrest =>
      refine (ih hrest).imp (.imp_right (.free hi hbound)) ?_
      rintro ⟨seen₁, hts, hus⟩
      exact ⟨seen₁, .free hi hbound hts, hus⟩
    | bound hi hbound => exact .inl ⟨rfl, .bound hi hbound⟩
    | again hi hseen hrest =>
      refine (ih hrest).imp (.imp_right (.again hi hseen)) ?_
      rintro ⟨seen₁, hts, hus⟩
      exact ⟨seen₁, .again hi hseen hts, hus⟩
    | inside hi hseen hinside => exact .inl ⟨rfl, .inside hi hseen hinside⟩
    | past hi hseen hinside hrest =>
      refine (ih hrest).imp (.imp_right (.past hi hseen hinside)) ?_
      rintro ⟨seen₁, hts, hus⟩
      exact ⟨seen₁, .past hi hseen hinside hts, hus⟩

theorem unique (h : g.Visit bound ts seen found seen₁) (h' : g.Visit bound ts seen found' seen₂) :
    found = found' ∧ seen₁ = seen₂ := by
  induction h generalizing found' seen₂ with
  | nil =>
    cases h'
    exact ⟨rfl, rfl⟩
  | word ht _ ih =>
    cases h' with
    | word _ hrest => exact ih hrest
    | _ => exact absurd rfl (ht _)
  | free hi hbound _ ih => cases h' <;> grind
  | bound hi hbound => cases h' <;> grind
  | again hi hseen _ ih => cases h' <;> grind
  | inside hi hseen _ ih => cases h' <;> grind
  | past hi hseen _ _ ihinside ih => cases h' <;> grind

end Visit

theorem exists_visit (g : Graph) (bound : NodeId → Bool) (todo : List Ty) (seen : List NodeId) :
    ∃ seen₁, g.Visit bound todo seen (g.search bound todo seen) seen₁ := by
  fun_induction search g bound todo seen with
  | case1 seen => exact ⟨seen, .nil⟩
  | case2 seen i rest name hi ih =>
    obtain ⟨seen₁, hrest⟩ := ih
    cases hbound : bound i with
    | true => exact ⟨seen, .bound hi hbound⟩
    | false => exact ⟨seen₁, .free hi hbound hrest⟩
  | case3 seen i rest hmem hs ih =>
    obtain ⟨seen₁, hrest⟩ := ih
    exact ⟨seen₁, .again hs hmem hrest⟩
  | case4 seen i rest hmem hs ih =>
    obtain ⟨seen₂, hvisit⟩ := ih
    rcases hvisit.of_append with ⟨hfound, hinside⟩ | ⟨seen₁, hinside, hrest⟩
    · exact ⟨seen₂, hfound ▸ .inside hs hmem hinside⟩
    · exact ⟨seen₂, .past hs hmem hinside hrest⟩
  | case5 seen t rest hnode ih =>
    obtain ⟨seen₁, hrest⟩ := ih
    exact ⟨seen₁, .word hnode hrest⟩

/-- Whatever the graph looks like, a visit of a type ends, and it ends with the one answer whether a
bound placeholder can be reached. -/
theorem visit_finds_iff_reaches (g : Graph) (bound : NodeId → Bool) (t : Ty) :
    (∃ seen, g.Visit bound [t] [] (g.mentions bound t) seen) ∧
      (∀ found seen, g.Visit bound [t] [] found seen → found = g.mentions bound t) ∧
      (g.mentions bound t = true ↔
        ∃ i name, g.Reaches t (.node i) ∧ g.shape i = .unresolved name ∧ bound i = true) := by
  obtain ⟨seen, hvisit⟩ := g.exists_visit bound [t] []
  refine ⟨⟨seen, hvisit⟩, fun found seen' hvisit' => ?_, mentions_iff⟩
  exact (hvisit'.unique hvisit).1

/-- With `A = { next: B, value: T }` under way, a visit of `B = { back: A }` finds nothing, although
`T` can be reached from there. -/
example :
    let g : Graph := ⟨#[.unresolved (text "T"),
      .record [⟨.named (text "next"), .node 2, false⟩, ⟨.named (text "value"), .node 0, false⟩],
      .record [⟨.named (text "back"), .node 1, false⟩]]⟩
    g.Visit (· == 0) [.node 2] [1] false [2, 1] ∧ g.Mentions (· == 0) (.node 2) := by
  intro g
  refine ⟨.past (by simp [g, shape]) (by decide) ?_ .nil, 0, text "T", ?_, rfl, rfl⟩
  · exact .again (by simp [g, shape]) (by decide) .nil
  · have hback : g.Child (.node 2) (.node 1) := child_node.2 (by decide)
    exact .head hback (.single (child_node.2 (by decide)))

end FlowTyping.Graph
