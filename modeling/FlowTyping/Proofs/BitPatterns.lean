import FlowTyping.Proofs.Rounding
import Mathlib.Data.Nat.Bitwise

namespace FlowTyping.Number

variable {x : Number} {m : ℕ} {q : ℤ} {s : Bool}

theorem isNaNBits_iff {b : UInt64} : isNaNBits b = true ↔ 2047 * 2 ^ 52 < b.toNat % 2 ^ 63 := by
  have hmask : (b &&& 0x7fffffffffffffff).toNat = b.toNat % 2 ^ 63 := by
    rw [UInt64.toNat_and]
    exact Nat.and_two_pow_sub_one_eq_mod _ 63
  rw [isNaNBits, decide_eq_true_iff, UInt64.lt_iff_toNat_lt, hmask]
  rfl

theorem exponentField_eq (x : Number) : x.exponentField = x.bits.toNat / 2 ^ 52 % 2 ^ 11 := by
  rw [exponentField, UInt64.toNat_and, UInt64.toNat_shiftRight]
  exact (Nat.and_two_pow_sub_one_eq_mod _ 11).trans (by rw [Nat.shiftRight_eq_div_pow]; rfl)

theorem fractionField_eq (x : Number) : x.fractionField = x.bits.toNat % 2 ^ 52 := by
  rw [fractionField, UInt64.toNat_and]
  exact Nat.and_two_pow_sub_one_eq_mod _ 52

theorem negative_eq (x : Number) : x.negative = decide (2 ^ 63 ≤ x.bits.toNat) := by
  have hlt := x.bits.toNat_lt
  have hsign : (x.bits &&& signBit).toNat = (x.bits.toNat.testBit 63).toNat * 2 ^ 63 := by
    rw [UInt64.toNat_and]
    exact Nat.and_two_pow _ 63
  have hbit : x.bits.toNat.testBit 63 = decide (2 ^ 63 ≤ x.bits.toNat) := by
    rw [Nat.testBit_eq_decide_div_mod_eq, decide_eq_decide]
    omega
  have hzero : x.bits &&& signBit = 0 ↔ x.bits.toNat.testBit 63 = false := by
    rw [← UInt64.toNat_inj, hsign]
    cases x.bits.toNat.testBit 63 <;> simp
  rw [← hbit, negative, Bool.eq_iff_iff, bne_iff_ne, Ne, hzero, Bool.not_eq_false]

theorem bits_toNat (x : Number) : x.bits.toNat =
    x.exponentField * 2 ^ 52 + x.fractionField + if x.negative then 2 ^ 63 else 0 := by
  have hlt := x.bits.toNat_lt
  rw [exponentField_eq, fractionField_eq, negative_eq]
  simp only [decide_eq_true_eq]
  split <;> omega

theorem ofBits_bits (x : Number) : ofBits x.bits = x := by
  rw [ofBits]
  split
  · rename_i hnan
    cases x with
    | mk bits canonical => simp [canonical hnan]
  · rfl

theorem ofBits_eq {p : ℕ} (hp : p < 2 ^ 63)
    (hx : x.bits.toNat = p + if x.negative then 2 ^ 63 else 0) :
    ofBits (UInt64.ofNat p ||| if x.negative then signBit else 0) = x := by
  have hbits : UInt64.ofNat p ||| (if x.negative then signBit else 0) = x.bits := by
    have hlt : p < UInt64.size := lt_trans hp (by decide)
    rw [← UInt64.toNat_inj, UInt64.toNat_or, UInt64.toNat_ofNat_of_lt' hlt, hx]
    cases x.negative with
    | false => simp
    | true =>
      have hor := Nat.two_pow_add_eq_or_of_lt hp 1
      rw [Nat.mul_one, Nat.add_comm, Nat.or_comm] at hor
      exact hor.symm
  rw [hbits, ofBits_bits]

theorem eq_nan (hx : x.value = .nan) : x = nan := by
  simp only [value] at hx
  split at hx
  · cases hx
  · rename_i hexponent
    split at hx
    · cases hx
    · rename_i hfraction
      have hnan : isNaNBits x.bits = true := by
        have hlt := x.bits.toNat_lt
        rw [exponentField_eq] at hexponent
        rw [fractionField_eq] at hfraction
        rw [isNaNBits_iff]
        omega
      rw [← ofBits_bits x, x.canonical hnan, nan]
  · cases hx

theorem eq_infinity (hx : x.value = .infinite s) : x = infinity s := by
  have hbits := x.bits_toNat
  simp only [value] at hx
  split at hx
  · cases hx
  · rename_i hexponent
    split at hx
    · rename_i hfraction
      cases hx
      rw [hexponent, hfraction] at hbits
      have heq : x.bits = if x.negative then infinityBits ||| signBit else infinityBits := by
        rw [← UInt64.toNat_inj, hbits]
        cases x.negative <;> rfl
      rw [infinity, ← heq, ofBits_bits]
    · cases hx
  · cases hx

theorem value_finite (hx : x.value = .finite s m q) :
    x.negative = s ∧ x.bits.toNat = pattern m q + (if s then 2 ^ 63 else 0) ∧
      (m = 0 ∧ q = -1074 ∨ InRange m q) := by
  have hbits := x.bits_toNat
  have hlt : x.fractionField < 2 ^ 52 := by
    rw [fractionField_eq]
    exact Nat.mod_lt _ (by decide)
  simp only [value, Nat.pow_eq] at hx
  split at hx
  · rename_i hexponent
    cases hx
    rw [hexponent] at hbits
    refine ⟨rfl, ?_, ?_⟩
    · rw [hbits, pattern]
      simp
    · by_cases hm : x.fractionField = 0
      · exact .inl ⟨hm, rfl⟩
      · exact .inr ⟨by omega, by omega, by decide, by decide, .inl rfl⟩
  · split at hx <;> cases hx
  · rename_i hzero hmax
    cases hx
    have hexponent : x.exponentField < 2 ^ 11 := by
      rw [exponentField_eq]
      exact Nat.mod_lt _ (by decide)
    have hpos : x.exponentField ≠ 0 := hzero
    have hmax : x.exponentField ≠ 2047 := hmax
    refine ⟨rfl, ?_, .inr ⟨?_, ?_, ?_, ?_, .inr ?_⟩⟩
    · have hfield : ((x.exponentField : ℤ) - 1075 + 1074).toNat + 1 = x.exponentField := by omega
      rw [hbits, pattern, ← hfield, Nat.succ_mul]
      omega
    all_goals omega

end FlowTyping.Number
