import FlowTyping.Proofs.NormalForm
import FlowTyping.Proofs.SpellingRoundTrip

namespace FlowTyping

variable {t w e ds : Text} {c : UInt8} {n m : ℕ} {z : ℤ}

namespace Text

/-- The decimal form of an integer: no zeros in front, and a sign only below zero. -/
def ofInt : ℤ → Text
  | .ofNat n => ofNat n
  | .negSucc n => text "-" ++ ofNat (n + 1)

theorem ofInt_neg (hn : 0 < n) : ofInt (-(n : ℤ)) = text "-" ++ ofNat n := by
  obtain ⟨k, rfl⟩ := Nat.exists_eq_add_one.2 hn
  rfl

theorem ofNat_ne_minus (n : ℕ) (w : Text) : ofNat n ≠ text "-" ++ w := by
  intro h
  have hmem : 0x2d ∈ ofNat n := h ▸ List.mem_cons_self
  cases isDigit_of_mem_ofNat hmem

theorem ofNat_injective : Function.Injective ofNat :=
  Function.LeftInverse.injective toNat_ofNat

theorem ofInt_injective : Function.Injective ofInt := by
  intro z z' h
  cases z with
  | ofNat n =>
    cases z' with
    | ofNat m => rw [ofNat_injective h]
    | negSucc m => exact absurd h (ofNat_ne_minus n _)
  | negSucc n =>
    cases z' with
    | ofNat m => exact absurd h.symm (ofNat_ne_minus m _)
    | negSucc m => rw [Nat.succ_injective (ofNat_injective (List.append_cancel_left h))]

theorem digitChar_of_isDigit (hc : isDigit c = true) :
    (c.toNat - 0x30).digitChar.toUInt8 = c := by
  have hrange := isDigit_iff.1 hc
  rw [← UInt8.toNat_inj, toNat_digitChar (by omega)]
  omega

theorem ofNat_concat (hm : 0 < m) (hc : isDigit c = true) :
    ofNat (10 * m + (c.toNat - 0x30)) = ofNat m ++ [c] := by
  have hrange := isDigit_iff.1 hc
  have hdigit : c.toNat - 0x30 < 10 := by omega
  have happend := Nat.toDigits_append_toDigits (by decide) hm hdigit
  rw [ofNat, ← happend, List.map_append, ← ofNat, ← ofNat, ofNat_of_lt hdigit,
    digitChar_of_isDigit hc]

theorem ofNat_append (hm : 0 < m) (he : ∀ c ∈ e, isDigit c = true) :
    ofNat (m * 10 ^ e.length + toNat e) = ofNat m ++ e := by
  induction e using List.reverseRecOn with
  | nil => simp [toNat]
  | append_singleton e c ih =>
    have hpos : 0 < m * 10 ^ e.length + toNat e :=
      Nat.add_pos_left (Nat.mul_pos hm (Nat.pow_pos (by decide))) _
    have hvalue : m * 10 ^ (e ++ [c]).length + toNat (e ++ [c]) =
        10 * (m * 10 ^ e.length + toNat e) + (c.toNat - 0x30) := by
      rw [toNat_append, List.length_append, List.length_singleton]
      simp only [toNat, List.foldl_cons, List.foldl_nil]
      ring
    rw [hvalue, ofNat_concat hpos (he c (by simp)), ih fun d hd => he d (by simp [hd]),
      List.append_assoc]

theorem ofNat_toNat (hds : ∀ d ∈ c :: e, isDigit d = true) (hc : c ≠ 0x30) :
    0 < toNat (c :: e) ∧ ofNat (toNat (c :: e)) = c :: e := by
  have hdigit := hds c List.mem_cons_self
  have hrange := isDigit_iff.1 hdigit
  have hpos : 0 < c.toNat - 0x30 := by
    have hne : c.toNat ≠ 0x30 := fun h => hc (UInt8.toNat_inj.1 h)
    omega
  rw [toNat_cons]
  constructor
  · exact Nat.add_pos_left (Nat.mul_pos hpos (Nat.pow_pos (by decide))) _
  · rw [ofNat_append hpos fun d hd => hds d (List.mem_cons_of_mem c hd), ofNat_of_lt (by omega),
      digitChar_of_isDigit hdigit, List.singleton_append]

theorem toNat_dropWhile (ds : Text) : toNat (ds.dropWhile (· == 0x30)) = toNat ds := by
  induction ds with
  | nil => rfl
  | cons c ds ih =>
    by_cases hc : c = 0x30
    · subst hc
      rw [List.dropWhile_cons_of_pos (by decide), ih, toNat_cons]
      simp
    · rw [List.dropWhile_cons_of_neg (by simpa using hc)]

end Text

namespace Spelling

inductive Writes : Text → ℤ → Prop
  | positive {ds : Text} (hne : ds ≠ []) (hds : ∀ c ∈ ds, Text.isDigit c = true) :
    Writes ds (Text.toNat ds)
  | negative {ds : Text} (hne : ds ≠ []) (hds : ∀ c ∈ ds, Text.isDigit c = true) :
    Writes (text "-" ++ ds) (-(Text.toNat ds))

/-- The spelling `t` writes the integer `z`, with an `n` after it and blanks around it. -/
def WritesBigint (t : Text) (z : ℤ) : Prop :=
  ∃ b w r, (∀ c ∈ b, Text.isBlank c = true) ∧ (∀ c ∈ r, Text.isBlank c = true) ∧ Writes w z ∧
    t = b ++ (w ++ text "n") ++ r

theorem Writes.isBigint (h : Writes w z) : TypeExpr.IsBigint w := by
  cases h with
  | positive hne hds => exact .positive hne hds
  | negative hne hds => exact .negative hne hds

theorem canonicalDigits_eq (negative : Bool) (hds : ∀ c ∈ ds, Text.isDigit c = true) :
    canonicalDigits negative ds =
      Text.ofInt (if negative then -(Text.toNat ds : ℤ) else Text.toNat ds) := by
  rw [canonicalDigits, ← Text.toNat_dropWhile]
  cases hdrop : ds.dropWhile (· == 0x30) with
  | nil => cases negative <;> rfl
  | cons c e =>
    have hdigits : ∀ d ∈ c :: e, Text.isDigit d = true := by
      intro d hd
      rw [← hdrop] at hd
      exact hds d ((List.dropWhile_sublist _).subset hd)
    have hc : c ≠ 0x30 := by
      have hnot := List.head?_dropWhile_not (· == 0x30) ds
      rw [hdrop] at hnot
      simpa using hnot
    obtain ⟨hpos, hform⟩ := Text.ofNat_toNat hdigits hc
    cases negative with
    | true =>
      rw [if_pos rfl, Text.ofInt_neg hpos, hform]
      rfl
    | false => exact hform.symm

theorem Writes.integer?_eq (h : Writes w z) : integer? w = some (Text.ofInt z) := by
  cases h with
  | @positive _ hne hds =>
    have hhead : ∀ c ∈ w.head?, c ≠ 0x2d := by
      rintro c hc rfl
      cases hds _ (List.mem_of_mem_head? hc)
    have hall : (w.isEmpty || !w.all Text.isDigit) = false := by simpa [hne] using hds
    rw [integer?_of_head hhead, hall, if_neg Bool.false_ne_true, canonicalDigits_eq false hds]
    rfl
  | @negative ds hne hds =>
    have hall : (ds.isEmpty || !ds.all Text.isDigit) = false := by simpa [hne] using hds
    have hminus := integer?_minus ds
    rw [hall, if_neg Bool.false_ne_true, canonicalDigits_eq true hds] at hminus
    exact hminus

theorem WritesBigint.read_eq (h : WritesBigint t z) : read t = .ok (.bigint (Text.ofInt z)) := by
  obtain ⟨b, w, r, hb, hr, hw, rfl⟩ := h
  exact (spells_of_integer? hw.isBigint.isNumber hw.integer?_eq).read_blanks hb hr

theorem writes_ofInt (z : ℤ) : Writes (Text.ofInt z) z := by
  cases z with
  | ofNat n =>
    have h := Writes.positive (Text.ofNat_ne_nil n) fun c hc => Text.isDigit_of_mem_ofNat hc
    rwa [Text.toNat_ofNat] at h
  | negSucc n =>
    have h := Writes.negative (Text.ofNat_ne_nil (n + 1)) fun c hc => Text.isDigit_of_mem_ofNat hc
    rwa [Text.toNat_ofNat] at h

theorem writesBigint_print (g : Graph) (z : ℤ) :
    WritesBigint (g.print (.bigint (Text.ofInt z))) z := by
  refine ⟨[], Text.ofInt z, [], by simp, by simp, writes_ofInt z, ?_⟩
  rw [Graph.print, Graph.describe_of_not_node rfl, Ty.written, TypeExpr.render, List.nil_append,
    List.append_nil]

/-- The spelling of an integer is read as its decimal form. Two spellings are read as equal types
exactly when they write the same integer, and a literal is read back from its annotation. -/
theorem read_bigint_canonical {t t' : Text} {z z' : ℤ} (ht : WritesBigint t z)
    (ht' : WritesBigint t' z') (g : Graph) :
    read t = .ok (.bigint (Text.ofInt z)) ∧
      (∃ u u', read t = .ok u ∧ read t' = .ok u' ∧ (g.equal u u' = true ↔ z = z')) ∧
      ∃ u u', read t = .ok u ∧ read (g.print u) = .ok u' ∧ g.equal u' u = true := by
  have hequal (z z' : ℤ) : g.equal (.bigint (Text.ofInt z)) (.bigint (Text.ofInt z')) = true ↔
      z = z' := by
    rw [Graph.equal_of_not_node rfl, decide_eq_true_iff, Ty.bigint.injEq,
      Text.ofInt_injective.eq_iff]
  have hback := (writesBigint_print g z).read_eq
  exact ⟨ht.read_eq, ⟨_, _, ht.read_eq, ht'.read_eq, hequal z z'⟩, _, _, ht.read_eq, hback,
    (hequal z z).2 rfl⟩

theorem zeros_read_bigint :
    let t := text "\t-00n "
    let t' := text "0n"
    WritesBigint t 0 ∧ WritesBigint t' 0 ∧ read t = .ok (.bigint (text "0")) ∧
      ∃ u u', read t = .ok u ∧ read t' = .ok u' ∧ (Graph.equal {} u u' = true ↔ (0 : ℤ) = 0) := by
  intro t t'
  have ht : WritesBigint t 0 :=
    ⟨[0x09], text "-00", [0x20], by decide, by decide,
      @Writes.negative (text "00") (by decide) (by decide), rfl⟩
  have ht' : WritesBigint t' 0 :=
    ⟨[], text "0", [], by decide, by decide, .positive (by decide) (by decide), rfl⟩
  obtain ⟨hread, hequal, -⟩ := read_bigint_canonical ht ht' {}
  exact ⟨ht, ht', hread, hequal⟩

end Spelling

end FlowTyping
