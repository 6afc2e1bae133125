import FlowTyping.Proofs.PlainFolds

namespace List

variable {α : Type} {r : α → α → Bool} {x : α} {xs : List α}

theorem eraseDupsBy_concat :
    (xs ++ [x]).eraseDupsBy r =
      if (xs.eraseDupsBy r).any (r x) then xs.eraseDupsBy r else xs.eraseDupsBy r ++ [x] := by
  have hloop (kept : List α) : eraseDupsBy.loop r (xs ++ [x]) kept =
      if (eraseDupsBy.loop r xs kept).any (r x) then eraseDupsBy.loop r xs kept
      else eraseDupsBy.loop r xs kept ++ [x] := by
    induction xs generalizing kept with
    | nil =>
      simp only [nil_append, eraseDupsBy.loop, any_reverse]
      cases kept.any (r x) <;> simp
    | cons y ys ih =>
      rw [cons_append, eraseDupsBy.loop, eraseDupsBy.loop]
      split <;> exact ih _
  exact hloop []

theorem pairwise_eraseDupsBy (r : α → α → Bool) (xs : List α) :
    (xs.eraseDupsBy r).Pairwise fun x y => r y x = false := by
  induction xs using List.reverseRecOn with
  | nil => simp
  | append_singleton xs x ih =>
    rw [eraseDupsBy_concat]
    split
    · exact ih
    · rename_i hnew
      simpa [pairwise_append, ih] using hnew

theorem exists_mem_eraseDupsBy (hr : ∀ x, r x x = true) (hx : x ∈ xs) :
    ∃ y ∈ xs.eraseDupsBy r, r x y = true := by
  induction xs using List.reverseRecOn with
  | nil => cases hx
  | append_singleton xs z ih =>
    rw [eraseDupsBy_concat]
    cases mem_append.1 hx with
    | inl hx =>
      obtain ⟨y, hy, hxy⟩ := ih hx
      split
      · exact ⟨y, hy, hxy⟩
      · exact ⟨y, mem_append_left _ hy, hxy⟩
    | inr hx =>
      rw [mem_singleton] at hx
      subst hx
      split
      · rename_i hany
        simpa using hany
      · exact ⟨x, by simp, hr x⟩

end List

namespace FlowTyping

variable {g : Graph} {t : Ty} {ts xs : List Ty} {u u' : Members} {c : Nat}

theorem Graph.equal_of_not_node {a b : Ty} (ha : a.node? = none) :
    g.equal a b = decide (a = b) := by
  rw [Bool.eq_iff_iff, equal_iff, decide_eq_true_iff]
  constructor
  · intro h
    exact (h.eq_of_not_node ha).symm
  · rintro rfl
    exact .refl g a

namespace Ty

@[simp] theorem whole?_simple (s : Simple) : (simple s).whole? = none := by simp [whole?]
@[simp] theorem whole?_string (v : Text) : (string v).whole? = some (simple .string) := by
  simp [whole?]
@[simp] theorem whole?_number (v : Number) : (number v).whole? = some (simple .number) := by
  simp [whole?]
@[simp] theorem whole?_bigint (v : Text) : (bigint v).whole? = some (simple .bigint) := by
  simp [whole?]
@[simp] theorem whole?_symbol (v : SymbolId) : (symbol v).whole? = some (simple .symbol) := by
  simp [whole?]
@[simp] theorem whole?_boolean (b : Bool) : (boolean b).whole? = none := by simp [whole?]
@[simp] theorem whole?_node (i : NodeId) : (node i).whole? = none := by simp [whole?]

end Ty

def Ty.absorber? : Ty → Option Ty
  | .boolean _ => some (.simple .boolean)
  | t => t.whole?

/-- Where the types of a kind stand among the members of a union. -/
def Kind.rank : Kind → Nat
  | .simple .string | .stringLiteral => 0
  | .simple .number | .numericLiteral => 1
  | .simple .bigint | .bigintLiteral => 2
  | .simple .symbol | .uniqueSymbol => 3
  | .simple .object => 4
  | .simple .void => 5
  | .simple .null => 6
  | .simple .undefined => 7
  | .simple .boolean | .booleanLiteral => 8
  | .unresolved => 10
  | _ => 9

theorem Kind.rank_of_whole? {w : Ty} (ht : t.whole? = some w) :
    (g.kind t).rank = (g.kind w).rank := by
  cases t <;> simp at ht <;> subst ht <;> rfl

namespace Members

def part (u : Members) : Nat → List Ty
  | 0 => u.strings.types (.simple .string) .string
  | 1 => u.numbers.types (.simple .number) .number
  | 2 => u.bigints.types (.simple .bigint) .bigint
  | 3 => u.symbols.types (.simple .symbol) .symbol
  | 4 => flag u.object .object
  | 5 => flag u.void .void
  | 6 => flag u.null .null
  | 7 => flag u.undefined .undefined
  | 8 => booleans u.hasTrue u.hasFalse
  | 9 => u.shapes.map .node
  | 10 => u.unresolved.map .node
  | _ => []

theorem toList_eq_flatMap (u : Members) : u.toList = (List.range 11).flatMap u.part := by
  simp [toList, part, List.range, List.range.loop]

theorem Sorted.rank_of_mem_part (hu : u.Sorted g) (ht : t ∈ u.part c) : (g.kind t).rank = c := by
  have hshape {k : Kind} (hk : k.isValueShape = true) : k.rank = 9 := by
    cases k <;> first | rfl | cases hk
  unfold part at ht
  split at ht
  case h_10 =>
    obtain ⟨i, hi, rfl⟩ := List.mem_map.1 ht
    exact hshape (hu.shapes i hi)
  case h_11 =>
    obtain ⟨i, hi, rfl⟩ := List.mem_map.1 ht
    rw [hu.unresolved i hi]
    rfl
  case h_12 => cases ht
  all_goals
    simp only [Literals.mem_types, mem_flag, mem_booleans] at ht
    grind [Graph.kind, Kind.rank]

theorem Sorted.filter_toList (hu : u.Sorted g) {p : Ty → Bool}
    (hp : ∀ t, p t = true → (g.kind t).rank = c) (hc : c < 11) :
    u.toList.filter p = (u.part c).filter p := by
  have hother (d : Nat) (hd : d ≠ c) : (u.part d).filter p = [] := by
    rw [List.filter_eq_nil_iff]
    intro t ht hpt
    exact hd ((hu.rank_of_mem_part ht).symm.trans (hp t hpt))
  obtain ⟨below, above, hsplit⟩ := List.append_of_mem (List.mem_range.2 hc)
  have hnodup := hsplit ▸ List.nodup_range (n := 11)
  rw [List.nodup_middle, List.nodup_cons, List.mem_append, not_or] at hnodup
  have hnil (ds : List Nat) (hds : c ∉ ds) : ds.flatMap (fun d => (u.part d).filter p) = [] := by
    rw [List.flatMap_eq_nil_iff]
    exact fun d hd => hother d fun hdc => hds (hdc ▸ hd)
  rw [toList_eq_flatMap, List.filter_flatMap, hsplit, List.flatMap_append, List.flatMap_cons,
    hnil below hnodup.1.1, hnil above hnodup.1.2, List.nil_append, List.append_nil]

end Members

/-! ### What a sequence of additions keeps -/

structure Literals.InOrder {α : Type} (g : Graph) (whole : Ty) (literal : α → Ty) (ts : List Ty)
    (l : Literals α) : Prop where
  map_values : whole ∉ ts →
    l.values.map literal = (ts.filter (·.whole? = some whole)).eraseDupsBy g.equal

namespace Literals.InOrder

variable {α : Type} {whole : Ty} {literal : α → Ty} {l : Literals α}

@[simp] theorem concat_whole (ts : List Ty) : l.InOrder g whole literal (ts ++ [whole]) := by
  constructor
  simp

@[simp] theorem concat (h : l.InOrder g whole literal ts) (ht : t.whole? ≠ some whole) :
    l.InOrder g whole literal (ts ++ [t]) := by
  constructor
  intro hwhole
  rw [h.map_values fun hmem => hwhole (List.mem_append_left _ hmem)]
  simp [ht]

@[simp] theorem concat_literal [DecidableEq α] (h : l.InOrder g whole literal ts)
    (hl : l.Collects whole literal ts) (v : α) (hv : ∀ v, (literal v).whole? = some whole)
    (hinj : ∀ w, literal v = literal w ↔ v = w) :
    (l.insert v).InOrder g whole literal (ts ++ [literal v]) := by
  constructor
  intro hwhole
  have hts : whole ∉ ts := fun hmem => hwhole (List.mem_append_left _ hmem)
  have hnode : (literal v).node? = none := by
    have := hv v
    cases hlit : literal v <;> simp_all [Ty.node?]
  have hany : (l.values.map literal).any (g.equal (literal v)) = decide (v ∈ l.values) := by
    rw [Bool.eq_iff_iff]
    simp [Graph.equal_of_not_node hnode, hinj]
  simp only [List.filter_append, List.filter_cons, hv, decide_true, if_true, List.filter_nil]
  rw [List.eraseDupsBy_concat, ← h.map_values hts, hany]
  cases l with
  | vacant => rfl
  | listed k =>
    by_cases hmem : v ∈ k.values <;>
      simp [insert, LiteralList.insert, values, hmem]
  | every => exact absurd (hl.every.1 rfl) hts

end Literals.InOrder

theorem Literals.Collects.insert_of_present {α : Type} [DecidableEq α] {l : Literals α} {whole : Ty}
    {literal : α → Ty} {v : α} (hl : l.Collects whole literal ts)
    (hv : literal v ∈ ts ∨ v ∈ l.values ∨ ∃ w, some whole = some w ∧ u.Includes w)
    (hwhole : u.Includes whole → l.isEvery = true) : l.insert v = l := by
  apply Literals.insert_of_holds
  rcases hv with hv | hv | ⟨w, hw, hincludes⟩
  · exact (hl.holds v).2 (.inr hv)
  · cases l with
    | listed k => exact hv
    | _ => cases hv
  · cases hw
    exact (hl.holds v).2 (.inl (hl.every.1 (hwhole hincludes)))

structure Members.Lists (g : Graph) (ts : List Ty) (u : Members) : Prop
    extends u.CollectsWords ts where
  sorted : u.Sorted g
  stringsOrder : u.strings.InOrder g (.simple .string) .string ts
  numbersOrder : u.numbers.InOrder g (.simple .number) .number ts
  bigintsOrder : u.bigints.InOrder g (.simple .bigint) .bigint ts
  symbolsOrder : u.symbols.InOrder g (.simple .symbol) .symbol ts
  shapesOrder : u.shapes.map .node =
    (ts.filter fun t => (g.kind t).isValueShape).eraseDupsBy g.equal
  unresolvedOrder : u.unresolved.map .node = ts.filter fun t => g.kind t = .unresolved

namespace Members

theorem lists_empty (g : Graph) : Lists g [] {} := by
  refine ⟨(collects_empty g).toCollectsWords, sorted_empty g, ?_, ?_, ?_, ?_, rfl, rfl⟩ <;>
    exact ⟨fun _ => rfl⟩

theorem Lists.add (h : u.Lists g ts) (hadd : u.add g t = .ok u') : u'.Lists g (ts ++ [t]) := by
  have hwords := h.toCollectsWords.add hadd
  have hsorted := h.sorted.add hadd
  obtain ⟨⟨h₁, h₂, h₃, h₄, -, -, -, -, -, -⟩, -, h₅, h₆, h₇, h₈, h₉, h₁₀⟩ := h
  cases t with
  | node i =>
    rcases isMember_node (isMember_of_add hadd) with hi | hi
    · rw [add_of_isValueShape hi] at hadd
      cases hadd
      refine ⟨hwords, hsorted, by simp [*], by simp [*], by simp [*], by simp [*], ?_, ?_⟩
      · simp only [List.filter_append, List.filter_cons, hi, if_true, List.filter_nil]
        rw [List.eraseDupsBy_concat, ← h₉, insertShape, List.any_map]
        simp only [Function.comp_def]
        split <;> simp
      · simp [h₁₀, (Kind.ne_of_isValueShape hi).2]
    · rw [add_of_unresolved hi] at hadd
      cases hadd
      refine ⟨hwords, hsorted, by simp [*], by simp [*], by simp [*], by simp [*], ?_, ?_⟩
      · simp [h₉, hi, Kind.isValueShape]
      · simp [h₁₀, hi]
  | simple s =>
    cases s <;> cases hadd <;> refine ⟨hwords, hsorted, ?_, ?_, ?_, ?_, ?_, ?_⟩ <;>
      simp [*, Graph.kind, Kind.isValueShape]
  | boolean b =>
    cases b <;> cases hadd <;> refine ⟨hwords, hsorted, ?_, ?_, ?_, ?_, ?_, ?_⟩ <;>
      simp [*, Graph.kind, Kind.isValueShape]
  | _ =>
    cases hadd
    refine ⟨hwords, hsorted, ?_, ?_, ?_, ?_, ?_, ?_⟩ <;> simp [*, Graph.kind, Kind.isValueShape]

theorem Lists.foldlM (h : u.Lists g ts) (hadd : xs.foldlM (Members.add g) u = .ok u') :
    u'.Lists g (ts ++ xs) := by
  induction xs generalizing u ts with
  | nil =>
    cases hadd
    simpa using h
  | cons x xs ih =>
    rw [List.foldlM_cons] at hadd
    cases hx : u.add g x with
    | error e =>
      rw [hx] at hadd
      cases hadd
    | ok u₁ =>
      rw [hx] at hadd
      simpa using ih (h.add hx) hadd

/-! ### The normal form -/

theorem absorber?_ne_of_mem : ∀ t ∈ u.toList, ∀ w ∈ u.toList, t.absorber? ≠ some w := by
  have hslot {α : Type} {l : Literals α} {v : α} (hv : v ∈ l.values) : l.isEvery = false := by
    cases l with
    | every => cases hv
    | _ => rfl
  intro t ht w hw htw
  rw [mem_toList] at ht hw
  cases t with
  | string v | number v | bigint v | symbol v =>
    cases htw
    simp [Includes, hslot ht] at hw
  | boolean b =>
    cases htw
    cases b <;> simp_all [Includes]
  | _ => cases htw

theorem present_cases (ht : t.node? = none)
    (hpresent : t ∈ ts ∨ ∃ m ∈ u.toList, g.equal t m = true ∨ t.absorber? = some m) :
    t ∈ ts ∨ u.Includes t ∨ ∃ w, t.absorber? = some w ∧ u.Includes w := by
  cases hpresent with
  | inl hmem => exact .inl hmem
  | inr hmember =>
    obtain ⟨m, hm, hequal | habsorber⟩ := hmember
    · rw [Graph.equal_of_not_node ht, decide_eq_true_iff] at hequal
      exact .inr (.inl (hequal ▸ mem_toList.1 hm))
    · exact .inr (.inr ⟨m, habsorber, mem_toList.1 hm⟩)

theorem add_of_includes {s : Simple} (hs : u.Includes (.simple s)) :
    u.add g (.simple s) = .ok u := by
  have hevery {α : Type} {l : Literals α} (hl : l.isEvery = true) : l = .every := by
    cases l <;> first | rfl | cases hl
  cases u
  cases s with
  | string | number | bigint | symbol =>
    simp only [add, addSimple, ← hevery hs]
  | object | void | null | undefined =>
    simp only [add, addSimple]
    rw [← show _ = true from hs]
  | boolean =>
    obtain ⟨htrue, hfalse⟩ := hs
    simp_all [add, addSimple]
  | _ => exact absurd hs id

theorem add_of_has {b : Bool} (hb : (if b then u.hasTrue else u.hasFalse) = true) :
    u.add g (.boolean b) = .ok u := by
  cases u
  cases b <;> simp_all [add]

theorem Lists.unlike (h : u.Lists g ts) : g.Unlike u.shapes := by
  have hpairwise := List.pairwise_eraseDupsBy g.equal (ts.filter fun t => (g.kind t).isValueShape)
  rw [← h.shapesOrder, List.pairwise_map] at hpairwise
  exact hpairwise.imp Graph.equal_eq_false_iff.1

theorem Lists.kept (h : u.Lists g ts) {i : NodeId} (hi : (g.kind (.node i)).isValueShape = true)
    (hmem : .node i ∈ ts) : ∃ j ∈ u.shapes, g.Similar (.node i) (.node j) := by
  have hfilter : Ty.node i ∈ ts.filter fun t => (g.kind t).isValueShape :=
    List.mem_filter.2 ⟨hmem, hi⟩
  obtain ⟨t, ht, hequal⟩ :=
    List.exists_mem_eraseDupsBy (fun t => Graph.equal_iff.2 (.refl g t)) hfilter
  rw [← h.shapesOrder] at ht
  obtain ⟨j, hj, rfl⟩ := List.mem_map.1 ht
  exact ⟨j, hj, Graph.equal_iff.1 hequal⟩

theorem Lists.pairwise_part (hsymm : ∀ a b, g.Similar a b → g.Similar b a) (h : u.Lists g ts)
    (c : Nat) : (u.part c).Pairwise fun a b => g.kind a ≠ .unresolved → g.kind b ≠ .unresolved →
      ¬ g.Similar a b ∧ ¬ g.Similar b a := by
  have htypes {α : Type} {l : Literals α} {w : Simple} {literal : α → Ty}
      (hnode : ∀ v, (literal v).node? = none) (hinj : Function.Injective literal) :
      (l.types (.simple w) literal).Pairwise fun a b => g.kind a ≠ .unresolved →
        g.kind b ≠ .unresolved → ¬ g.Similar a b ∧ ¬ g.Similar b a := by
    cases l with
    | listed k =>
      rw [Literals.types, List.pairwise_map]
      refine k.nodup.imp fun {v v'} hne _ _ => ⟨fun hsim => ?_, fun hsim => ?_⟩
      · exact hne (hinj (hsim.eq_of_not_node (hnode v)).symm)
      · exact hne (hinj (hsim.eq_of_not_node (hnode v')))
    | _ => simp [Literals.types]
  have hflag {p : Bool} {s : Simple} : (flag p s).Pairwise fun a b => g.kind a ≠ .unresolved →
      g.kind b ≠ .unresolved → ¬ g.Similar a b ∧ ¬ g.Similar b a := by
    cases p <;> simp [flag]
  unfold part
  split
  case h_1 => exact htypes (fun _ => rfl) fun _ _ => Ty.string.inj
  case h_2 => exact htypes (fun _ => rfl) fun _ _ => Ty.number.inj
  case h_3 => exact htypes (fun _ => rfl) fun _ _ => Ty.bigint.inj
  case h_4 => exact htypes (fun _ => rfl) fun _ _ => Ty.symbol.inj
  case h_9 => cases u.hasTrue <;> cases u.hasFalse <;> simp [booleans]
  case h_10 =>
    rw [List.pairwise_map]
    exact h.unlike.imp fun hne _ _ => ⟨fun hsim => hne (hsymm _ _ hsim), hne⟩
  case h_11 =>
    rw [List.pairwise_map]
    refine List.pairwise_of_forall_mem_list fun i hi j _ hkind => ?_
    exact absurd (h.sorted.unresolved i hi) hkind
  case h_12 => exact .nil
  all_goals exact hflag

/-- How the members `u` of a union stand to the types `ts` that were added to it, all of them of
kinds that a union has as members. -/
structure Normal (g : Graph) (ts : List Ty) (u : Members) : Prop where
  /-- Strings, numbers, bigints, symbols, the four words in their order, booleans, shapes and
  placeholders. -/
  ordered : u.toList.Pairwise fun a b => (g.kind a).rank ≤ (g.kind b).rank
  absorbed : ∀ t ∈ u.toList, ∀ w ∈ u.toList, t.absorber? ≠ some w
  oneTruth : ¬ (.boolean true ∈ u.toList ∧ .boolean false ∈ u.toList)
  distinct : u.toList.Pairwise fun a b => g.kind a ≠ .unresolved → g.kind b ≠ .unresolved →
    g.equal a b = false ∧ g.equal b a = false
  words : ∀ s, .simple s ∈ u.toList ↔
    .simple s ∈ ts ∨ s = .boolean ∧ .boolean true ∈ ts ∧ .boolean false ∈ ts
  truths : ∀ b, .boolean b ∈ u.toList ↔
    .boolean b ∈ ts ∧ .boolean (!b) ∉ ts ∧ .simple .boolean ∉ ts
  literals : ∀ w, w ∉ ts → u.toList.filter (·.whole? = some w) =
    (ts.filter (·.whole? = some w)).eraseDupsBy g.equal
  shapes : u.toList.filter (fun t => (g.kind t).isValueShape) =
    (ts.filter fun t => (g.kind t).isValueShape).eraseDupsBy g.equal
  unresolved : u.toList.filter (fun t => g.kind t = .unresolved) =
    ts.filter fun t => g.kind t = .unresolved
  again : ∀ t, g.kind t ≠ .unresolved →
    (t ∈ ts ∨ ∃ m ∈ u.toList, g.equal t m = true ∨ t.absorber? = some m) → u.add g t = .ok u
  readBack : u.toList.foldlM (add g) {} = .ok u

variable (h : u.Lists g ts)

include h

theorem Lists.ordered : u.toList.Pairwise fun a b => (g.kind a).rank ≤ (g.kind b).rank := by
  rw [toList_eq_flatMap, List.pairwise_flatMap]
  constructor
  · intro c _
    refine List.pairwise_of_forall_mem_list fun a ha b hb => ?_
    rw [h.sorted.rank_of_mem_part ha, h.sorted.rank_of_mem_part hb]
  · refine List.pairwise_lt_range.imp fun {c d} hcd a ha b hb => ?_
    rw [h.sorted.rank_of_mem_part ha, h.sorted.rank_of_mem_part hb]
    exact Nat.le_of_lt hcd

theorem Lists.distinct (hsymm : ∀ a b, g.Similar a b → g.Similar b a) :
    u.toList.Pairwise fun a b => g.kind a ≠ .unresolved → g.kind b ≠ .unresolved →
      g.equal a b = false ∧ g.equal b a = false := by
  simp only [Graph.equal_eq_false_iff]
  rw [toList_eq_flatMap, List.pairwise_flatMap]
  constructor
  · exact fun c _ => h.pairwise_part hsymm c
  · refine List.pairwise_lt_range.imp fun {c d} hcd a ha b hb _ _ => ?_
    have hkind : g.kind a ≠ g.kind b := by
      intro hkind
      have ha' := h.sorted.rank_of_mem_part ha
      rw [hkind, h.sorted.rank_of_mem_part hb] at ha'
      exact Nat.ne_of_lt hcd ha'.symm
    exact ⟨fun hsim => hkind hsim.kind_eq, fun hsim => hkind hsim.kind_eq.symm⟩

theorem Lists.words (hts : ∀ t ∈ ts, (g.kind t).isMember = true) (s : Simple) :
    .simple s ∈ u.toList ↔
      .simple s ∈ ts ∨ s = .boolean ∧ .boolean true ∈ ts ∧ .boolean false ∈ ts := by
  have hmember := hts (.simple s)
  rw [mem_toList]
  cases s with
  | string => simp [Includes, h.strings.every]
  | number => simp [Includes, h.numbers.every]
  | bigint => simp [Includes, h.bigints.every]
  | symbol => simp [Includes, h.symbols.every]
  | object => simp [Includes, h.object]
  | void => simp [Includes, h.void]
  | null => simp [Includes, h.null]
  | undefined => simp [Includes, h.undefined]
  | boolean =>
    simp only [Includes, h.hasTrue, h.hasFalse]
    grind
  | _ => simpa [Includes, Graph.kind, Kind.isMember] using hmember

theorem Lists.truths (b : Bool) : .boolean b ∈ u.toList ↔
    .boolean b ∈ ts ∧ .boolean (!b) ∉ ts ∧ .simple .boolean ∉ ts := by
  have htrue := h.hasTrue
  have hfalse := h.hasFalse
  rw [mem_toList]
  cases b with
  | true =>
    simp only [Includes, Bool.not_true, ← Bool.not_eq_true, htrue, hfalse]
    grind
  | false =>
    simp only [Includes, Bool.not_false, ← Bool.not_eq_true, htrue, hfalse]
    grind

theorem Lists.literals (w : Ty) (hw : w ∉ ts) : u.toList.filter (·.whole? = some w) =
    (ts.filter (·.whole? = some w)).eraseDupsBy g.equal := by
  have hslot {α : Type} {l : Literals α} {literal : α → Ty} {c : Nat}
      (hl : l.InOrder g w literal ts) (hpart : u.part c = l.types w literal)
      (hliteral : ∀ v, (literal v).whole? = some w) (hwhole : w.whole? = none)
      (hrank : (g.kind w).rank = c) (hc : c < 11) : u.toList.filter (·.whole? = some w) =
        (ts.filter (·.whole? = some w)).eraseDupsBy g.equal := by
    have hp : ∀ t : Ty, decide (t.whole? = some w) = true → (g.kind t).rank = c := by
      intro t ht
      rw [Kind.rank_of_whole? (of_decide_eq_true ht), hrank]
    rw [h.sorted.filter_toList hp hc, hpart, ← hl.map_values hw]
    cases l <;> simp [Literals.types, Literals.values, hliteral, hwhole]
  have hnone (hw : ∀ t : Ty, t.whole? ≠ some w) : u.toList.filter (·.whole? = some w) =
      (ts.filter (·.whole? = some w)).eraseDupsBy g.equal := by
    simp [hw]
  cases w with
  | simple s =>
    cases s with
    | string => exact hslot (c := 0) h.stringsOrder rfl (by simp) (by simp) rfl (by decide)
    | number => exact hslot (c := 1) h.numbersOrder rfl (by simp) (by simp) rfl (by decide)
    | bigint => exact hslot (c := 2) h.bigintsOrder rfl (by simp) (by simp) rfl (by decide)
    | symbol => exact hslot (c := 3) h.symbolsOrder rfl (by simp) (by simp) rfl (by decide)
    | _ => exact hnone fun t => by cases t <;> simp
  | _ => exact hnone fun t => by cases t <;> simp

theorem Lists.filter_shapes : u.toList.filter (fun t => (g.kind t).isValueShape) =
    (ts.filter fun t => (g.kind t).isValueShape).eraseDupsBy g.equal := by
  have hrank : ∀ t, (g.kind t).isValueShape = true → (g.kind t).rank = 9 := by
    intro t ht
    cases hk : g.kind t <;> rw [hk] at ht <;> first | rfl | cases ht
  have hall : ∀ t ∈ u.part 9, (g.kind t).isValueShape = true := by
    simpa [part] using h.sorted.shapes
  rw [h.sorted.filter_toList hrank (by decide), List.filter_eq_self.2 hall, part, h.shapesOrder]

theorem Lists.filter_unresolved : u.toList.filter (fun t => g.kind t = .unresolved) =
    ts.filter fun t => g.kind t = .unresolved := by
  have hrank : ∀ t, decide (g.kind t = .unresolved) = true → (g.kind t).rank = 10 := by
    intro t ht
    rw [of_decide_eq_true ht]
    rfl
  have hall : ∀ t ∈ u.part 10, decide (g.kind t = .unresolved) = true := by
    simpa [part] using h.sorted.unresolved
  rw [h.sorted.filter_toList hrank (by decide), List.filter_eq_self.2 hall, part, h.unresolvedOrder]

theorem Lists.again (hts : ∀ t ∈ ts, (g.kind t).isMember = true) (hres : g.kind t ≠ .unresolved)
    (hpresent : t ∈ ts ∨ ∃ m ∈ u.toList, g.equal t m = true ∨ t.absorber? = some m) :
    u.add g t = .ok u := by
  cases t with
  | string v =>
    rw [Members.add, h.strings.insert_of_present (present_cases rfl hpresent) id]
  | number v =>
    rw [Members.add, h.numbers.insert_of_present (present_cases rfl hpresent) id]
  | bigint v =>
    rw [Members.add, h.bigints.insert_of_present (present_cases rfl hpresent) id]
  | symbol v =>
    rw [Members.add, h.symbols.insert_of_present (present_cases rfl hpresent) id]
  | simple s =>
    apply add_of_includes
    rcases present_cases rfl hpresent with hmem | hmem | ⟨w, hw, -⟩
    · exact mem_toList.1 ((h.words hts s).2 (.inl hmem))
    · exact hmem
    · cases hw
  | boolean b =>
    apply add_of_has
    rcases present_cases rfl hpresent with hmem | hmem | ⟨w, hw, hmem⟩
    · cases b
      · exact h.hasFalse.2 (.inr hmem)
      · exact h.hasTrue.2 (.inr hmem)
    · cases b
      · exact hmem.2
      · exact hmem.1
    · cases hw
      cases b
      · exact hmem.2
      · exact hmem.1
  | node i =>
    obtain ⟨hi, j, hj, hij⟩ : (g.kind (.node i)).isValueShape = true ∧
        ∃ j ∈ u.shapes, g.Similar (.node i) (.node j) := by
      rcases hpresent with hmem | ⟨m, hm, hequal | habsorber⟩
      · have hi := (isMember_node (hts _ hmem)).resolve_right hres
        exact ⟨hi, h.kept hi hmem⟩
      · have hsim := Graph.equal_iff.1 hequal
        obtain ⟨j, rfl⟩ := hsim.exists_node
        rcases node_mem_toList.1 hm with hj | hj
        · exact ⟨hsim.kind_eq ▸ h.sorted.shapes j hj, j, hj, hsim⟩
        · exact absurd (hsim.kind_eq.trans (h.sorted.unresolved j hj)) hres
      · cases habsorber
    have hany : u.shapes.any (fun j => g.equal (.node i) (.node j)) = true :=
      List.any_eq_true.2 ⟨j, hj, Graph.equal_iff.2 hij⟩
    rw [add_of_isValueShape hi, insertShape, if_pos hany]

theorem Lists.normal (hsymm : ∀ a b, g.Similar a b → g.Similar b a)
    (hts : ∀ t ∈ ts, (g.kind t).isMember = true) : u.Normal g ts where
  ordered := h.ordered
  absorbed := absorber?_ne_of_mem
  oneTruth := by
    rintro ⟨htrue, hfalse⟩
    exact ((h.truths true).1 htrue).2.1 ((h.truths false).1 hfalse).1
  distinct := h.distinct hsymm
  words := h.words hts
  truths := h.truths
  literals := h.literals
  shapes := h.filter_shapes
  unresolved := h.filter_unresolved
  again := fun t hres hpresent => h.again hts hres hpresent
  readBack := by
    rw [h.sorted.foldlM_toList, empty_join h.unlike]

end Members

namespace Members

def addInPlace (g : Graph) (t : Ty) : ExceptT Fault (StateM Members) Unit := fun u =>
  match u.add g t with
  | .ok u' => (.ok (), u')
  | .error e => (.error e, u)

/-- The members of a union after attempts to add the types one by one. -/
def after (g : Graph) (ts : List Ty) : Members :=
  ts.foldl (fun u t => ((addInPlace g t).run.run u).2) {}

theorem run_addInPlace_of_ok (hadd : u.add g t = .ok u') :
    (addInPlace g t).run.run u = (.ok (), u') := by
  simp [addInPlace, ExceptT.run, StateT.run, hadd]

theorem run_addInPlace_of_error {e : Fault} (hadd : u.add g t = .error e) :
    (addInPlace g t).run.run u = (.error e, u) := by
  simp [addInPlace, ExceptT.run, StateT.run, hadd]

theorem add_of_not_isMember (u : Members) (ht : (g.kind t).isMember = false) :
    u.add g t = .error (.rejectedMember (g.kind t)) := by
  cases t with
  | simple s => cases s <;> first | rfl | cases ht
  | node i =>
    simp only [Graph.kind] at ht
    simp only [add, addNode, Graph.kind]
    cases hs : g.shape i with
    | callable role => cases role <;> simp [hs, Shape.kind, Kind.isMember, Kind.isValueShape] at ht
    | _ => simp_all [Shape.kind, Kind.isMember, Kind.isValueShape]
  | _ => cases ht

theorem foldlM_eq_after (g : Graph) (ts : List Ty) :
    (ts.filter fun t => (g.kind t).isMember).foldlM (add g) {} = .ok (after g ts) := by
  rw [after]
  generalize ({} : Members) = u
  induction ts generalizing u with
  | nil => rfl
  | cons t ts ih =>
    cases ht : (g.kind t).isMember with
    | true =>
      obtain ⟨u', hadd⟩ := exists_add u ht
      rw [List.filter_cons, if_pos ht, List.foldlM_cons, hadd, List.foldl_cons,
        run_addInPlace_of_ok hadd]
      exact ih u'
    | false =>
      rw [List.filter_cons, if_neg (by simp [ht]), List.foldl_cons,
        run_addInPlace_of_error (add_of_not_isMember u ht)]
      exact ih u

/-- Whatever is added to a union, its members are in the normal form of the types that it accepts.
A type of a kind that no union has as a member is refused, and the union stays as it is. -/
theorem after_normal (hacyclic : g.UnionsAcyclic) (hdistinct : g.DistinctShapes) (ts : List Ty) :
    (after g ts).Normal g (ts.filter fun t => (g.kind t).isMember) ∧
      (∀ t, (g.kind t).isMember = true →
        (addInPlace g t).run.run (after g ts) = (.ok (), after g (ts ++ [t]))) ∧
      ∀ t, (g.kind t).isMember = false →
        (addInPlace g t).run.run (after g ts) = (.error (.rejectedMember (g.kind t)), after g ts) ∧
          (Fault.rejectedMember (g.kind t)).category = .invariant := by
  have hm := hacyclic.matchesOnce hdistinct
  have hsymm (a b : Ty) (hab : g.Similar a b) : g.Similar b a :=
    hab.symm_of_covers fun i _ => (hm i).covers hdistinct
  refine ⟨?_, ?_, ?_⟩
  · have hlists := (lists_empty g).foldlM (foldlM_eq_after g ts)
    rw [List.nil_append] at hlists
    exact hlists.normal hsymm fun t ht => (List.mem_filter.1 ht).2
  · intro t ht
    obtain ⟨u', hadd⟩ := exists_add (after g ts) ht
    have hrun := run_addInPlace_of_ok hadd
    have hafter : after g (ts ++ [t]) = u' := by
      rw [after, List.foldl_append, List.foldl_cons, List.foldl_nil, ← after, hrun]
    rw [hrun, hafter]
  · intro t ht
    exact ⟨run_addInPlace_of_error (add_of_not_isMember _ ht), rfl⟩

theorem rings_after_normal :
    let ts : List Ty := [.node 1, .string (text "end"), .boolean true, .simple .any, .node 0,
      .simple .string, .boolean false, .node 2]
    Graph.rings.UnionsAcyclic ∧ Graph.rings.DistinctShapes ∧
      (after Graph.rings ts).toList = [.simple .string, .simple .boolean, .node 1] ∧
      (after Graph.rings ts).Normal Graph.rings (ts.filter fun t => (Graph.rings.kind t).isMember) ∧
      (addInPlace Graph.rings (.node 3)).run.run (after Graph.rings ts) =
        (.error (.rejectedMember .union), after Graph.rings ts) := by
  have hacyclic : Graph.rings.UnionsAcyclic :=
    .of_rank (fun t => t.node?.elim 0 (· / 3)) (by decide)
  have hdistinct : Graph.rings.DistinctShapes := by decide +kernel
  have hnormal := after_normal hacyclic hdistinct
  refine ⟨hacyclic, hdistinct, by decide +kernel, (hnormal _).1, ?_⟩
  exact ((hnormal _).2.2 (.node 3) (by decide)).1

end Members

end FlowTyping
