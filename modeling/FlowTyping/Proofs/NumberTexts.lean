import FlowTyping.Proofs.BitPatterns
import FlowTyping.Proofs.Numerals

namespace FlowTyping.Number

variable {m : ℕ} {q : ℤ} {v : ℚ} {w : Written} {d : Decimal} {t : Text}

theorem Interval.Contains.pos (hmq : InRange m q) (hv : (Interval.of m q).Contains v) : 0 < v := by
  have hm : (1 : ℚ) ≤ m := by exact_mod_cast hmq.pos
  have hunit : (0 : ℚ) < 2 ^ (q - 2) := by positivity
  have hlow := hv.low_le hmq.pos
  nlinarith

theorem Interval.Contains.digits_pos (hmq : InRange m q)
    (hd : (Interval.of m q).Contains d.toRat) : 0 < d.digits := by
  apply Nat.pos_of_ne_zero
  intro hzero
  have hpos := hd.pos hmq
  rw [Decimal.toRat, hzero, Nat.cast_zero, zero_mul] at hpos
  exact lt_irrefl 0 hpos

theorem Interval.Contains.lt_pow (hmq : InRange m q) (hv : (Interval.of m q).Contains v) :
    v < 10 ^ (309 : ℤ) := by
  have hm : (m : ℚ) + 1 ≤ 2 ^ 53 := by exact_mod_cast hmq.lt
  have hunit : (2 : ℚ) ^ (q - 2) ≤ 2 ^ (969 : ℤ) :=
    zpow_le_zpow_right₀ (by norm_num) (by have := hmq.greatest; omega)
  calc v ≤ (4 * m + 2) * 2 ^ (q - 2) := hv.le_high
    _ ≤ 2 ^ 55 * 2 ^ (969 : ℤ) := by
      apply mul_le_mul _ hunit (by positivity) (by positivity)
      linarith
    _ = 2 ^ 1024 := by rw [zpow_ofNat, ← pow_add]
    _ < 10 ^ (309 : ℤ) := by
      have hlt : 2 ^ 1024 < 10 ^ 309 := by decide +kernel
      rw [zpow_ofNat]
      exact_mod_cast hlt

theorem Interval.Contains.pow_lt (hmq : InRange m q) (hv : (Interval.of m q).Contains v) :
    10 ^ (-324 : ℤ) < v := by
  have hm : (1 : ℚ) ≤ m := by exact_mod_cast hmq.pos
  have hunit : (2 : ℚ) ^ (-1076 : ℤ) ≤ 2 ^ (q - 2) :=
    zpow_le_zpow_right₀ (by norm_num) (by have := hmq.least; omega)
  have hlt : (10 : ℚ) ^ (-324 : ℤ) < 2 * 2 ^ (-1076 : ℤ) := by
    have hlt : 2 ^ 1076 < 2 * 10 ^ 324 := by decide +kernel
    rw [zpow_neg, zpow_neg, zpow_ofNat, zpow_ofNat, ← div_eq_mul_inv, ← one_div,
      div_lt_div_iff₀ (by positivity) (by positivity), one_mul]
    exact_mod_cast hlt
  calc (10 : ℚ) ^ (-324 : ℤ) < 2 * 2 ^ (-1076 : ℤ) := hlt
    _ ≤ (4 * m - 2) * 2 ^ (q - 2) := by
      apply mul_le_mul _ hunit (by positivity) (by linarith)
      linarith
    _ ≤ v := hv.low_le hmq.pos

theorem Interval.Contains.size (hmq : InRange m q) (hd : (Interval.of m q).Contains d.toRat) :
    (digitCount d.digits : ℤ) + d.exponent < 310 ∧
      -324 < (digitCount d.digits : ℤ) + d.exponent := by
  have hpos := hd.digits_pos hmq
  have hten : (0 : ℚ) < 10 ^ d.exponent := by positivity
  constructor
  · have hle : (10 : ℚ) ^ ((digitCount d.digits - 1 : ℕ) + d.exponent : ℤ) ≤ d.toRat := by
      rw [zpow_add₀ (by norm_num), zpow_natCast, Decimal.toRat]
      apply mul_le_mul_of_nonneg_right _ hten.le
      exact_mod_cast pow_digitCount_le hpos
    have hlt := (zpow_lt_zpow_iff_right₀ (by norm_num)).1 (lt_of_le_of_lt hle (hd.lt_pow hmq))
    omega
  · have hlt : d.toRat < (10 : ℚ) ^ (digitCount d.digits + d.exponent : ℤ) := by
      rw [zpow_add₀ (by norm_num), zpow_natCast, Decimal.toRat]
      apply mul_lt_mul_of_pos_right _ hten
      exact_mod_cast lt_pow_digitCount d.digits
    exact (zpow_lt_zpow_iff_right₀ (by norm_num)).1 (lt_trans (hd.pow_lt hmq) hlt)

theorem Written.Denotes.toNumber?_eq (hw : w.Denotes d) (hmq : InRange m q)
    (hd : (Interval.of m q).Contains d.toRat) (negative : Bool) : w.toNumber? negative =
      some (ofBits (UInt64.ofNat (pattern m q) ||| if negative then signBit else 0)) := by
  have hpos := hd.digits_pos hmq
  obtain ⟨hlarge, hsmall⟩ := hd.size hmq
  have hsize : ((310 < (digitCount d.digits : ℤ) + d.exponent : Bool) ||
      ((digitCount d.digits : ℤ) + d.exponent < -330 : Bool)) = false := by
    simp only [Bool.or_eq_false_iff, decide_eq_false_iff_not]
    omega
  simp only [toNumber?, hw.digits, hw.exponent, hw.count, Nat.pow_eq]
  rw [if_neg hpos.ne', hsize, if_neg (by decide)]
  rw [Decimal.toRat] at hd
  cases he : d.exponent with
  | ofNat k =>
    apply ofRatio?_eq hmq Nat.one_pos _ (Nat.mul_pos hpos (by positivity))
    simpa [he] using hd
  | negSucc k =>
    apply ofRatio?_eq hmq (by positivity) _ hpos
    rw [he, zpow_negSucc, ← div_eq_mul_inv] at hd
    exact_mod_cast hd

theorem Interval.contains_self (hm : 0 < m) (q : ℤ) : (Interval.of m q).Contains (m * 2 ^ q) := by
  have hunit : (0 : ℚ) < 2 ^ (q - 2) := by positivity
  have hpow : (2 : ℚ) ^ q = 4 * 2 ^ (q - 2) := by simpa using two_zpow_add q 0
  have hlow : ((Interval.of m q).low : ℚ) < 4 * m := by
    rw [low_of hm]
    split <;> linarith
  have hhigh : (4 * m : ℚ) < (Interval.of m q).high := by
    simp only [Interval.of]
    push_cast
    linarith
  have hlow := mul_lt_mul_of_pos_right hlow hunit
  have hhigh := mul_lt_mul_of_pos_right hhigh hunit
  rw [Contains, unit_of, hpow, ← mul_assoc, mul_comm (m : ℚ) 4]
  exact ⟨hlow.le, hhigh.le, fun _ => ⟨hlow, hhigh⟩⟩

theorem Interval.Contains.mul_pow_eq {n k : ℕ} (hm : 0 < m)
    (hn : (Interval.of m (.negSucc k)).Contains n) : n * 2 ^ (k + 1) = m := by
  have hunit : (2 : ℚ) ^ (Int.negSucc k - 2) * (4 * 2 ^ (k + 1)) = 1 := by
    have hpow := two_zpow_add (.negSucc k) 0
    rw [Nat.cast_zero, add_zero, zpow_negSucc, pow_zero, mul_one] at hpow
    rw [← mul_assoc, mul_comm _ (4 : ℚ), ← hpow]
    exact inv_mul_cancel₀ (by positivity)
  have hpos : (0 : ℚ) ≤ 4 * 2 ^ (k + 1) := by positivity
  have hlow := mul_le_mul_of_nonneg_right (hn.low_le hm) hpos
  have hhigh := mul_le_mul_of_nonneg_right hn.le_high hpos
  rw [mul_assoc, hunit, mul_one] at hlow hhigh
  have hlow : 4 * m ≤ 4 * (n * 2 ^ (k + 1)) + 2 := by
    have h : (4 * m : ℚ) ≤ 4 * (n * 2 ^ (k + 1)) + 2 := by linarith
    exact_mod_cast h
  have hhigh : 4 * (n * 2 ^ (k + 1)) ≤ 4 * m + 2 := by
    have h : 4 * (n * 2 ^ (k + 1)) ≤ (4 * m + 2 : ℚ) := by linarith
    exact_mod_cast h
  omega

def wholePart (m : ℕ) : ℤ → ℕ
  | .ofNat k => m * 2 ^ k
  | .negSucc k => m / 2 ^ (k + 1)

theorem magnitudeText_eq (m : ℕ) (q : ℤ) : magnitudeText m q =
    if ((shortest m q).positional (wholePart m q)).length ≤ (shortest m q).scientific.length then
      (shortest m q).positional (wholePart m q) else (shortest m q).scientific := by
  cases q <;> rfl

theorem contains_wholePart {k : ℕ} (hmq : InRange m q)
    (hk : (shortest m q).exponent = .ofNat k) : (Interval.of m q).Contains (wholePart m q) := by
  have hd := shortest_contains hmq
  cases q with
  | ofNat j => simpa [wholePart] using Interval.contains_self hmq.pos (.ofNat j)
  | negSucc j =>
    have hn : (Interval.of m (.negSucc j)).Contains
        ((shortest m (.negSucc j)).digits * 10 ^ k : ℕ) := by
      simpa [Decimal.toRat, hk] using hd
    have hwhole : wholePart m (.negSucc j) = (shortest m (.negSucc j)).digits * 10 ^ k := by
      rw [wholePart]
      apply Nat.div_eq_of_eq_mul_left (by positivity)
      exact (hn.mul_pow_eq hmq.pos).symm
    rw [hwhole]
    exact hn

theorem isDecimal_magnitudeText (m : ℕ) (q : ℤ) : IsDecimal (magnitudeText m q) := by
  rw [magnitudeText_eq]
  split
  · exact isDecimal_positional _ _
  · exact isDecimal_scientific _

theorem readWritten_magnitudeText (hmq : InRange m q) :
    ∃ w d, readWritten (magnitudeText m q) = some w ∧ w.Denotes d ∧
      (Interval.of m q).Contains d.toRat := by
  have hd := shortest_contains hmq
  have hpos := hd.digits_pos hmq
  rw [magnitudeText_eq]
  split
  · cases he : (shortest m q).exponent with
    | ofNat k =>
      have hwhole := contains_wholePart hmq he
      have hcontains : (Interval.of m q).Contains (⟨wholePart m q, 0⟩ : Decimal).toRat := by
        simpa [Decimal.toRat] using hwhole
      obtain ⟨w, hread, hw⟩ := readWritten_ofNat (wholePart m q) (hcontains.digits_pos hmq)
      rw [Decimal.positional, he]
      exact ⟨w, _, hread, hw, hcontains⟩
    | negSucc k =>
      obtain ⟨w, hread, hw⟩ := readWritten_positional hpos he (wholePart m q)
      exact ⟨w, _, hread, hw, hd⟩
  · obtain ⟨w, hread, hw⟩ := readWritten_scientific hpos
    exact ⟨w, _, hread, hw, hd⟩

theorem readUnsigned_of_isDecimal (ht : IsDecimal t) (negative : Bool) :
    readUnsigned negative t = (readWritten t).bind (·.toNumber? negative) := by
  obtain ⟨c, hc, hdigit⟩ := ht.head
  obtain ⟨t, rfl⟩ : ∃ t', t = c :: t' := ⟨t.tail, List.eq_cons_of_mem_head? hc⟩
  have hlower : Text.lowerByte c = c := by
    have hle := (Text.isDigit_iff.1 hdigit).2
    rw [Text.lowerByte, if_neg]
    simp only [Bool.and_eq_true, decide_eq_true_eq, UInt8.le_iff_toNat_le]
    intro h
    exact absurd (le_trans h.1 hle) (by decide)
  have hletter : c ≠ 0x69 ∧ c ≠ 0x6e := by
    constructor <;>
    · rintro rfl
      cases hdigit
  have hinf (v : Text) : Text.lower (c :: t) ≠ 0x69 :: v := by
    intro heq
    exact hletter.1 (hlower.symm.trans (List.cons.inj heq).1)
  have hnan (v : Text) : Text.lower ((c :: t).take 3) ≠ 0x6e :: v := by
    intro heq
    exact hletter.2 (hlower.symm.trans (List.cons.inj heq).1)
  have hword : isNaNWord (c :: t) = false := by
    have hbeq : (Text.lower ((c :: t).take 3) == text "nan") = false := beq_false_of_ne (hnan _)
    rw [isNaNWord, hbeq, Bool.false_and]
  rw [readUnsigned, if_neg, hword]
  · rfl
  · simp only [Bool.or_eq_true, decide_eq_true_eq, not_or]
    exact ⟨hinf _, hinf _⟩

theorem readUnsigned_magnitudeText (hmq : InRange m q) (negative : Bool) :
    readUnsigned negative (magnitudeText m q) =
      some (ofBits (UInt64.ofNat (pattern m q) ||| if negative then signBit else 0)) := by
  obtain ⟨w, d, hread, hw, hd⟩ := readWritten_magnitudeText hmq
  rw [readUnsigned_of_isDecimal (isDecimal_magnitudeText m q), hread, Option.bind_some,
    hw.toNumber?_eq hmq hd]

theorem read_of_isDecimal (ht : IsDecimal t) (negative : Bool) :
    read (text (if negative then "-" else "") ++ t) = readUnsigned negative t := by
  cases negative with
  | true =>
    have hcons : text (if true then "-" else "") ++ t = 0x2d :: t := rfl
    rw [hcons, read, if_pos rfl]
  | false =>
    obtain ⟨c, hc, hdigit⟩ := ht.head
    obtain ⟨t, rfl⟩ : ∃ t', t = c :: t' := ⟨t.tail, List.eq_cons_of_mem_head? hc⟩
    have hcons : text (if false then "-" else "") ++ c :: t = c :: t := rfl
    have hsign : c ≠ 0x2d := by
      rintro rfl
      cases hdigit
    rw [hcons, read, if_neg hsign]

def unsignedText (m : ℕ) (q : ℤ) : Text := if m = 0 then text "0" else magnitudeText m q

theorem isDecimal_unsignedText (m : ℕ) (q : ℤ) : IsDecimal (unsignedText m q) := by
  rw [unsignedText]
  split
  · exact ⟨by decide, by decide⟩
  · exact isDecimal_magnitudeText m q

theorem readUnsigned_unsignedText (hmq : m = 0 ∧ q = -1074 ∨ InRange m q) (negative : Bool) :
    readUnsigned negative (unsignedText m q) =
      some (ofBits (UInt64.ofNat (pattern m q) ||| if negative then signBit else 0)) := by
  cases hmq with
  | inl hzero =>
    rw [hzero.1, hzero.2]
    cases negative <;> decide
  | inr hmq => rw [unsignedText, if_neg hmq.pos.ne', readUnsigned_magnitudeText hmq]

theorem print_of_finite {x : Number} {s : Bool} (hx : x.value = .finite s m q) :
    x.print = text (if s then "-" else "") ++ unsignedText m q := by
  rw [print, hx]
  rfl

theorem read_print (x : Number) : read x.print = some x := by
  cases hx : x.value with
  | nan =>
    rw [eq_nan hx]
    decide
  | infinite s =>
    rw [eq_infinity hx]
    cases s <;> decide
  | finite s m q =>
    obtain ⟨hs, hbits, hmq⟩ := value_finite hx
    have hlt : pattern m q < 2 ^ 63 := by
      cases hmq with
      | inl hzero =>
        rw [hzero.1, hzero.2]
        decide
      | inr hmq => exact lt_trans (pattern_lt hmq) (by decide)
    rw [print_of_finite hx, read_of_isDecimal (isDecimal_unsignedText m q),
      readUnsigned_unsignedText hmq, ← hs, ofBits_eq hlt (hs ▸ hbits)]

end FlowTyping.Number
