import FlowTyping.Mentions
import FlowTyping.Proofs.Reachability

namespace FlowTyping.Graph

variable {g : Graph} {bound : NodeId → Bool} {t : Ty} {todo : List Ty} {seen : List NodeId}

def Mentions (g : Graph) (bound : NodeId → Bool) (t : Ty) : Prop :=
  ∃ i name, g.Reaches t (.node i) ∧ g.shape i = .unresolved name ∧ bound i = true

theorem Mentions.of_child {a b : Ty} (hab : g.Child a b) (hb : g.Mentions bound b) :
    g.Mentions bound a := by
  obtain ⟨i, name, hbi, hi, hbound⟩ := hb
  exact ⟨i, name, .head hab hbi, hi, hbound⟩

theorem mentions_of_search (h : g.search bound todo seen = true) :
    ∃ t ∈ todo, g.Mentions bound t := by
  fun_induction search g bound todo seen with
  | case1 => cases h
  | case2 seen i rest name hi ih =>
    rcases Bool.or_eq_true _ _ ▸ h with hbound | h
    · exact ⟨.node i, by simp, i, name, .refl, hi, hbound⟩
    · obtain ⟨t, ht, htm⟩ := ih h
      exact ⟨t, by simp [ht], htm⟩
  | case3 seen i rest _ _ ih =>
    obtain ⟨t, ht, htm⟩ := ih h
    exact ⟨t, by simp [ht], htm⟩
  | case4 seen i rest _ _ ih =>
    obtain ⟨t, ht, htm⟩ := ih h
    rcases List.mem_append.1 ht with ht | ht
    · exact ⟨.node i, by simp, htm.of_child (child_node.2 ht)⟩
    · exact ⟨t, by simp [ht], htm⟩
  | case5 seen t rest ht ih =>
    obtain ⟨t, ht, htm⟩ := ih h
    exact ⟨t, by simp [ht], htm⟩

/-- What a search does not have to look at again: words and literals, placeholders that are not
bound, and nodes seen. -/
def Dismissed (g : Graph) (bound : NodeId → Bool) (seen : List NodeId) (t : Ty) : Prop :=
  ∀ i, t = .node i → (∃ name, g.shape i = .unresolved name ∧ bound i = false) ∨ i ∈ seen

/-- As long as the types inside the nodes seen are dismissed or still to be looked at, a search that
finds nothing has nothing to find. -/
theorem not_mentions_of_search (h : g.search bound todo seen = false)
    (hshape : ∀ i ∈ seen, ∀ name, g.shape i ≠ .unresolved name)
    (hseen : ∀ i ∈ seen, ∀ c ∈ (g.shape i).children, c ∈ todo ∨ g.Dismissed bound seen c)
    (ht : t ∈ todo ∨ g.Dismissed bound seen t) : ¬ g.Mentions bound t := by
  fun_induction search g bound todo seen with
  | case1 seen =>
    rintro ⟨i, name, hti, hi, hbound⟩
    have hclosed (x : Ty) (hx : g.Dismissed bound seen x) (y : Ty) (hxy : g.Child x y) :
        g.Dismissed bound seen y := by
      obtain ⟨k, rfl, hy⟩ := hxy.exists_node
      rcases hx k rfl with ⟨name, hk, _⟩ | hk
      · rw [hk] at hy
        cases hy
      · simpa using hseen k hk y hy
    have hdismissed := Reaches.mem_of_closed hclosed (by simpa using ht) hti
    rcases hdismissed i rfl with ⟨_, _, hfalse⟩ | hmem
    · simp [hbound] at hfalse
    · exact hshape i hmem name hi
  | case2 seen i rest name hi ih =>
    rw [Bool.or_eq_false_iff] at h
    have hdismissed : g.Dismissed bound seen (.node i) := by
      rintro _ ⟨⟩
      exact .inl ⟨name, hi, h.1⟩
    grind
  | case3 seen i rest hmem _ ih =>
    have hdismissed : g.Dismissed bound seen (.node i) := by
      rintro _ ⟨⟩
      exact .inr hmem
    grind
  | case4 seen i rest hmem hs ih =>
    have hmono (x : Ty) (hx : g.Dismissed bound seen x) : g.Dismissed bound (i :: seen) x := by
      intro k hk
      exact (hx k hk).imp_right (List.mem_cons_of_mem i)
    have hdismissed : g.Dismissed bound (i :: seen) (.node i) := by
      rintro _ ⟨⟩
      exact .inr (by simp)
    grind
  | case5 seen t rest hnode ih =>
    have hdismissed : g.Dismissed bound seen t := by
      intro k hk
      exact absurd hk (hnode k)
    grind

theorem mentions_iff : g.mentions bound t = true ↔ g.Mentions bound t := by
  constructor
  · intro h
    simpa using mentions_of_search h
  · intro ht
    cases h : g.mentions bound t with
    | true => rfl
    | false => exact absurd ht (not_mentions_of_search h (by simp) (by simp) (.inl (by simp)))

theorem AgreesAt.mentions_eq {h : Graph} (ht : g.AgreesAt h t) :
    h.mentions bound t = g.mentions bound t := by
  rw [Bool.eq_iff_iff, mentions_iff, mentions_iff]
  constructor
  · rintro ⟨i, name, hti, hi, hbound⟩
    exact ⟨i, name, ht.reaches_iff.1 hti, (ht.symm i hti).trans hi, hbound⟩
  · rintro ⟨i, name, hti, hi, hbound⟩
    exact ⟨i, name, ht.reaches_iff.2 hti, (ht i hti).trans hi, hbound⟩

end FlowTyping.Graph
