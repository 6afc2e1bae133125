import FlowTyping.Proofs.MembersAlgebra

namespace FlowTyping

structure Literals.Collects {α : Type} (whole : Ty) (literal : α → Ty) (ts : List Ty)
    (l : Literals α) : Prop where
  every : l.isEvery = true ↔ whole ∈ ts
  holds : ∀ v, l.Holds v ↔ whole ∈ ts ∨ literal v ∈ ts

namespace Literals.Collects

variable {α : Type} {whole t : Ty} {literal : α → Ty} {ts : List Ty} {l : Literals α}

@[simp] theorem concat_whole (ts : List Ty) :
    (Literals.every (α := α)).Collects whole literal (ts ++ [whole]) :=
  ⟨by simp [isEvery], fun v => by simp [Holds]⟩

@[simp] theorem concat (h : l.Collects whole literal ts) (hwhole : whole ≠ t)
    (hliteral : ∀ v, literal v ≠ t) : l.Collects whole literal (ts ++ [t]) :=
  ⟨by simp [h.every, hwhole], fun v => by simp [h.holds, hwhole, hliteral v]⟩

@[simp] theorem concat_literal [DecidableEq α] (h : l.Collects whole literal ts) (v : α)
    (hwhole : whole ≠ literal v) (hinj : ∀ w, literal w = literal v → w = v) :
    (l.insert v).Collects whole literal (ts ++ [literal v]) := by
  refine ⟨by simp [h.every, hwhole], fun w => ?_⟩
  have hw : literal w = literal v ↔ w = v := ⟨hinj w, fun h => h ▸ rfl⟩
  simp only [holds_insert, h.holds, List.mem_append, List.mem_singleton, hwhole, hw]
  tauto

end Literals.Collects

structure Members.CollectsWords (ts : List Ty) (u : Members) : Prop where
  strings : u.strings.Collects (.simple .string) .string ts
  numbers : u.numbers.Collects (.simple .number) .number ts
  bigints : u.bigints.Collects (.simple .bigint) .bigint ts
  symbols : u.symbols.Collects (.simple .symbol) .symbol ts
  object : u.object = true ↔ .simple .object ∈ ts
  void : u.void = true ↔ .simple .void ∈ ts
  null : u.null = true ↔ .simple .null ∈ ts
  undefined : u.undefined = true ↔ .simple .undefined ∈ ts
  hasTrue : u.hasTrue = true ↔ .simple .boolean ∈ ts ∨ .boolean true ∈ ts
  hasFalse : u.hasFalse = true ↔ .simple .boolean ∈ ts ∨ .boolean false ∈ ts

/-- The members stand exactly for the given types, none of which is a placeholder. Of equal shapes
the first is kept. -/
structure Members.Collects (g : Graph) (ts : List Ty) (u : Members) : Prop
    extends u.CollectsWords ts where
  offered : ∀ i ∈ u.shapes, .node i ∈ ts
  kept : ∀ i, .node i ∈ ts → ∃ j ∈ u.shapes, g.Similar (.node i) (.node j)
  distinct : u.shapes.Pairwise fun i j => ¬ g.Similar (.node j) (.node i)
  unresolved : u.unresolved = []

namespace Graph

variable {g : Graph} {a b : Ty} {i : NodeId}

def Covered (g : Graph) (ts ss : List Ty) : Prop := ∀ t ∈ ts, ∃ s ∈ ss, g.Similar t s

theorem Similar.eq_of_not_node (h : g.Similar a b) (ha : a.node? = none) : b = a := by
  cases h.alike with
  | same => rfl
  | fits => cases ha

theorem Similar.exists_node (h : g.Similar (.node i) b) : ∃ j, b = .node j := by
  cases h.alike with
  | same => exact ⟨i, rfl⟩
  | @fits _ j => exact ⟨j, rfl⟩

end Graph

namespace Members

variable {g : Graph} {ts ss : List Ty} {t : Ty} {u u' v : Members}

theorem collects_empty (g : Graph) : Collects g [] {} := by
  have hvacant {α : Type} (whole : Ty) (literal : α → Ty) :
      (Literals.vacant (α := α)).Collects whole literal [] :=
    ⟨by simp [Literals.isEvery], by simp [Literals.Holds]⟩
  refine ⟨⟨hvacant _ _, hvacant _ _, hvacant _ _, hvacant _ _, ?_, ?_, ?_, ?_, ?_, ?_⟩, ?_, ?_,
    .nil, rfl⟩ <;> simp

theorem CollectsWords.add (h : u.CollectsWords ts) (hadd : u.add g t = .ok u') :
    u'.CollectsWords (ts ++ [t]) := by
  obtain ⟨h₁, h₂, h₃, h₄, h₅, h₆, h₇, h₈, h₉, h₁₀⟩ := h
  cases t with
  | node i =>
    rcases isMember_node (isMember_of_add hadd) with hi | hi
    · rw [add_of_isValueShape hi] at hadd
      cases hadd
      constructor <;> simp [*]
    · rw [add_of_unresolved hi] at hadd
      cases hadd
      constructor <;> simp [*]
  | simple s => cases s <;> cases hadd <;> constructor <;> simp [*]
  | boolean v => cases v <;> cases hadd <;> constructor <;> simp [*]
  | _ =>
    cases hadd
    constructor <;> simp [*]

theorem shapes_of_add (ht : t.node? = none) (hadd : u.add g t = .ok u') :
    u'.shapes = u.shapes ∧ u'.unresolved = u.unresolved := by
  cases t with
  | node i => cases ht
  | simple s => cases s <;> cases hadd <;> exact ⟨rfl, rfl⟩
  | boolean v => cases v <;> cases hadd <;> exact ⟨rfl, rfl⟩
  | _ =>
    cases hadd
    exact ⟨rfl, rfl⟩

theorem insertShape_cases (g : Graph) (shapes : List NodeId) (i : NodeId) :
    insertShape g shapes i = shapes ∨
      insertShape g shapes i = shapes ++ [i] ∧ ∀ j ∈ shapes, ¬ g.Similar (.node i) (.node j) := by
  rw [insertShape]
  split
  · exact .inl rfl
  · rename_i hany
    exact .inr ⟨rfl, by simpa using hany⟩

theorem Collects.add (h : u.Collects g ts) (ht : g.kind t ≠ .unresolved)
    (hadd : u.add g t = .ok u') : u'.Collects g (ts ++ [t]) := by
  have hwords := h.toCollectsWords.add hadd
  cases hnode : t.node? with
  | none =>
    obtain ⟨hshapes, hunresolved⟩ := shapes_of_add hnode hadd
    have hne (i : NodeId) : .node i ≠ t := by
      rintro rfl
      cases hnode
    refine ⟨hwords, ?_, ?_, ?_, hunresolved.trans h.unresolved⟩
    · intro i hi
      exact List.mem_append_left _ (h.offered i (hshapes ▸ hi))
    · intro i hi
      rw [hshapes]
      exact h.kept i (by simpa [hne i] using hi)
    · exact hshapes ▸ h.distinct
  | some i =>
    obtain rfl : t = .node i := by
      cases t <;> cases hnode
      rfl
    have hi := (isMember_node (isMember_of_add hadd)).resolve_right ht
    rw [add_of_isValueShape hi] at hadd
    cases hadd
    refine ⟨hwords, ?_, ?_, ?_, h.unresolved⟩
    · intro k hk
      rcases insertShape_cases g u.shapes i with hsame | ⟨hnew, _⟩
      · exact List.mem_append_left _ (h.offered k (by simpa [hsame] using hk))
      · have := h.offered k
        simp_all
        tauto
    · intro k hk
      apply exists_similar_insertShape
      rcases List.mem_append.1 hk with hk | hk
      · exact .inl (h.kept k hk)
      · exact .inr (by simpa using hk)
    · rcases insertShape_cases g u.shapes i with hsame | ⟨hnew, hdistinct⟩
      · simpa [hsame] using h.distinct
      · simpa [hnew, List.pairwise_append, h.distinct] using hdistinct

theorem Collects.foldlM {xs : List Ty} (h : u.Collects g ts)
    (hxs : ∀ x ∈ xs, (g.kind x).isMember = true ∧ g.kind x ≠ .unresolved) :
    ∃ u', xs.foldlM (Members.add g) u = .ok u' ∧ u'.Collects g (ts ++ xs) := by
  induction xs generalizing u ts with
  | nil => exact ⟨u, rfl, by simpa using h⟩
  | cons x xs ih =>
    obtain ⟨hmember, hres⟩ := hxs x (by simp)
    obtain ⟨u₁, hadd⟩ := exists_add u hmember
    obtain ⟨u', hrest, hu'⟩ := ih (h.add hres hadd) fun y hy => hxs y (by simp [hy])
    refine ⟨u', ?_, by simpa using hu'⟩
    rw [List.foldlM_cons, hadd]
    exact hrest

theorem Collects.exists_similar (hu : u.Collects g ts) (hv : v.Collects g ss)
    (hts : g.Covered ts ss) {i : NodeId} (hi : i ∈ u.shapes) :
    ∃ j ∈ v.shapes, g.Similar (.node i) (.node j) := by
  obtain ⟨s, hs, his⟩ := hts _ (hu.offered i hi)
  obtain ⟨k, rfl⟩ := his.exists_node
  obtain ⟨j, hj, hkj⟩ := hv.kept k hs
  exact ⟨j, hj, his.trans hkj⟩

theorem Collects.length_le (hsymm : ∀ a b, g.Similar a b → g.Similar b a) (hu : u.Collects g ts)
    (hv : v.Collects g ss) (hts : g.Covered ts ss) : u.shapes.length ≤ v.shapes.length := by
  have hunlike : g.Unlike u.shapes := hu.distinct
  choose! f hf hsim using fun i hi => hu.exists_similar hv hts (i := i) hi
  have hinj : ∀ i ∈ u.shapes, ∀ j ∈ u.shapes, f i = f j → i = j := by
    intro i hi j hj hij
    have hij' : g.Similar (.node i) (.node j) := (hsim i hi).trans (hij ▸ hsymm _ _ (hsim j hj))
    exact hunlike.eq hi hj hij' (hsymm _ _ hij')
  have hsub : u.shapes.map f ⊆ v.shapes := by
    intro y hy
    obtain ⟨i, hi, rfl⟩ := List.mem_map.1 hy
    exact hf i hi
  simpa using ((hunlike.nodup.map_on hinj).subperm hsub).length_le

theorem Collects.fits (hsymm : ∀ a b, g.Similar a b → g.Similar b a) (hu : u.Collects g ts)
    (hv : v.Collects g ss) (hts : g.Covered ts ss) (hss : g.Covered ss ts) :
    u.Fits g.Similar v := by
  have hword (t : Ty) (ht : t.node? = none) : t ∈ ts ↔ t ∈ ss := by
    constructor
    · intro hmem
      obtain ⟨s, hs, hts⟩ := hts t hmem
      exact hts.eq_of_not_node ht ▸ hs
    · intro hmem
      obtain ⟨s, hs, hts⟩ := hss t hmem
      exact hts.eq_of_not_node ht ▸ hs
  have hlit {α : Type} {l m : Literals α} {w : Simple} {f : α → Ty} (hf : ∀ v, (f v).node? = none)
      (hl : l.Collects (.simple w) f ts) (hm : m.Collects (.simple w) f ss) : l.Agree m := by
    apply Literals.Agree.of_holds
    · rw [Bool.eq_iff_iff, hl.every, hm.every, hword _ rfl]
    · intro v
      rw [hl.holds, hm.holds, hword _ rfl, hword _ (hf v)]
  have hflag {p q : Bool} {w : Simple} (hp : p = true ↔ .simple w ∈ ts)
      (hq : q = true ↔ .simple w ∈ ss) : p = q := by
    rw [Bool.eq_iff_iff, hp, hq, hword _ rfl]
  have hbool {p q : Bool} {b : Bool} (hp : p = true ↔ .simple .boolean ∈ ts ∨ .boolean b ∈ ts)
      (hq : q = true ↔ .simple .boolean ∈ ss ∨ .boolean b ∈ ss) : p = q := by
    rw [Bool.eq_iff_iff, hp, hq, hword _ rfl, hword (.boolean b) rfl]
  refine ⟨hflag hu.object hv.object, hflag hu.void hv.void, hflag hu.null hv.null,
    hflag hu.undefined hv.undefined, hbool hu.hasTrue hv.hasTrue, hbool hu.hasFalse hv.hasFalse,
    hlit (fun _ => rfl) hu.strings hv.strings, hlit (fun _ => rfl) hu.numbers hv.numbers,
    hlit (fun _ => rfl) hu.bigints hv.bigints, hlit (fun _ => rfl) hu.symbols hv.symbols, ?_, ?_,
    hu.unresolved.trans hv.unresolved.symm⟩
  · exact Nat.le_antisymm (hu.length_le hsymm hv hts) (hv.length_le hsymm hu hss)
  · exact fun i hi => hu.exists_similar hv hts hi

end Members

end FlowTyping
