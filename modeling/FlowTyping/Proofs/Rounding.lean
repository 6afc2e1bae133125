import FlowTyping.Number.Rounding
import FlowTyping.Number.Shortest
import Mathlib.Algebra.Order.Field.Power
import Mathlib.Data.Rat.Cast.Order
import Mathlib.Tactic.FieldSimp
import Mathlib.Tactic.Linarith
import Mathlib.Tactic.Positivity
import Mathlib.Tactic.Ring

namespace FlowTyping.Number

variable {m n d num den : ℕ} {q : ℤ} {v : ℚ}

/-- The numbers `m * 2 ^ q` that are positive and finite, with as many bits in `m` as there are. -/
structure InRange (m : ℕ) (q : ℤ) : Prop where
  pos : 0 < m
  lt : m < 2 ^ 53
  least : -1074 ≤ q
  greatest : q ≤ 971
  normal : q = -1074 ∨ 2 ^ 52 ≤ m

def pattern (m : ℕ) (q : ℤ) : ℕ := (q + 1074).toNat * 2 ^ 52 + m

def Interval.Contains (i : Interval) (v : ℚ) : Prop :=
  i.low * (i.num / i.den) ≤ v ∧ v ≤ i.high * (i.num / i.den) ∧
    (i.closed = false → i.low * (i.num / i.den) < v ∧ v < i.high * (i.num / i.den))

theorem Interval.unit_of (m : ℕ) (q : ℤ) :
    ((Interval.of m q).num : ℚ) / (Interval.of m q).den = 2 ^ (q - 2) := by
  simp only [Interval.of]
  cases q - 2 with
  | ofNat k => simp
  | negSucc k => simp [zpow_negSucc]

theorem scale_den_pos (num : ℕ) (hden : 0 < den) (q : ℤ) : 0 < (scale num den q).2 := by
  cases q with
  | ofNat k => exact Nat.mul_pos hden (Nat.pow_pos (by decide))
  | negSucc k => exact hden

theorem scale_eq (num den : ℕ) (q : ℤ) :
    ((scale num den q).1 : ℚ) / (scale num den q).2 = num / den / 2 ^ q := by
  cases q with
  | ofNat k => simp [scale, div_div]
  | negSucc k =>
    simp only [scale, Nat.pow_eq, zpow_negSucc]
    push_cast
    field_simp

theorem scale_le_iff (num : ℕ) (hden : 0 < den) (q : ℤ) :
    (scale num den q).2 ≤ (scale num den q).1 ↔ (2 : ℚ) ^ q ≤ num / den := by
  have hpos : (0 : ℚ) < (scale num den q).2 := by exact_mod_cast scale_den_pos num hden q
  calc (scale num den q).2 ≤ (scale num den q).1
      ↔ ((scale num den q).2 : ℚ) ≤ (scale num den q).1 := Nat.cast_le.symm
    _ ↔ 1 ≤ ((scale num den q).1 : ℚ) / (scale num den q).2 := (one_le_div hpos).symm
    _ ↔ 1 ≤ num / den / (2 : ℚ) ^ q := by rw [scale_eq]
    _ ↔ (2 : ℚ) ^ q ≤ num / den := one_le_div (by positivity)

theorem log2_sub_log2_spec (hnum : 0 < num) (hden : 0 < den) :
    (2 : ℚ) ^ ((num.log2 : ℤ) - den.log2 - 1) ≤ num / den ∧
      (num : ℚ) / den < 2 ^ ((num.log2 : ℤ) - den.log2 + 1) := by
  have hnum₁ : (2 : ℚ) ^ num.log2 ≤ num := by exact_mod_cast Nat.log2_self_le hnum.ne'
  have hnum₂ : (num : ℚ) < 2 ^ (num.log2 + 1) := by exact_mod_cast Nat.lt_log2_self
  have hden₁ : (2 : ℚ) ^ den.log2 ≤ den := by exact_mod_cast Nat.log2_self_le hden.ne'
  have hden₂ : (den : ℚ) < 2 ^ (den.log2 + 1) := by exact_mod_cast Nat.lt_log2_self
  have hden' : (0 : ℚ) < den := by exact_mod_cast hden
  constructor
  · have hexp : (2 : ℚ) ^ ((num.log2 : ℤ) - den.log2 - 1) = 2 ^ num.log2 / 2 ^ (den.log2 + 1) := by
      rw [sub_sub, zpow_sub₀ (by norm_num), zpow_natCast]
      norm_cast
    rw [hexp]
    gcongr
  · have hexp : (2 : ℚ) ^ ((num.log2 : ℤ) - den.log2 + 1) = 2 ^ (num.log2 + 1) / 2 ^ den.log2 := by
      rw [sub_add_eq_add_sub, zpow_sub₀ (by norm_num), zpow_natCast]
      norm_cast
    rw [hexp]
    gcongr

theorem exponentOf_spec (hnum : 0 < num) (hden : 0 < den) :
    (2 : ℚ) ^ exponentOf num den ≤ num / den ∧
      (num : ℚ) / den < 2 ^ (exponentOf num den + 1) := by
  obtain ⟨hlow, hhigh⟩ := log2_sub_log2_spec hnum hden
  have hle := scale_le_iff num hden ((num.log2 : ℤ) - den.log2)
  have hexponent : exponentOf num den = if (2 : ℚ) ^ ((num.log2 : ℤ) - den.log2) ≤ num / den then
      (num.log2 : ℤ) - den.log2 else (num.log2 : ℤ) - den.log2 - 1 :=
    if_congr hle rfl rfl
  rw [hexponent]
  split
  · rename_i h
    exact ⟨h, hhigh⟩
  · rename_i h
    rw [sub_add_cancel]
    exact ⟨hlow, not_le.1 h⟩

theorem roundDiv_eq {k : ℕ} (hlow : 2 * (k * d) ≤ 2 * n + d) (hhigh : 2 * n ≤ 2 * (k * d) + d)
    (hodd : k % 2 = 1 → 2 * (k * d) < 2 * n + d ∧ 2 * n < 2 * (k * d) + d) (hd : 0 < d) :
    roundDiv n d = k := by
  have hn : d * (n / d) + n % d = n := Nat.div_add_mod n d
  have hr : n % d < d := Nat.mod_lt n hd
  have hk : k = n / d ∨ k = n / d + 1 := by
    have hge : n / d ≤ k := by
      by_contra hlt
      have hmul : (k + 1) * d ≤ n / d * d := Nat.mul_le_mul_right d (by omega)
      rw [Nat.add_mul, Nat.mul_comm (n / d)] at hmul
      omega
    have hle : k ≤ n / d + 1 := by
      by_contra hlt
      have hmul : (n / d + 2) * d ≤ k * d := Nat.mul_le_mul_right d (by omega)
      rw [Nat.add_mul, Nat.mul_comm (n / d)] at hmul
      omega
    omega
  simp only [roundDiv]
  cases hk with
  | inl hk =>
    have hmul : k * d = d * (n / d) := by rw [hk, Nat.mul_comm]
    split_ifs <;> omega
  | inr hk =>
    have hmul : k * d = d * (n / d) + d := by rw [hk, Nat.add_mul, Nat.mul_comm, Nat.one_mul]
    split_ifs <;> omega

theorem roundDiv_of_near {k : ℕ} (hd : 0 < d) (hlow : (k : ℚ) - 1 / 2 ≤ n / d)
    (hhigh : (n : ℚ) / d ≤ k + 1 / 2)
    (hodd : k % 2 = 1 → (k : ℚ) - 1 / 2 < n / d ∧ (n : ℚ) / d < k + 1 / 2) : roundDiv n d = k := by
  have hd' : (0 : ℚ) < d := by exact_mod_cast hd
  rw [le_div_iff₀ hd'] at hlow
  rw [div_le_iff₀ hd'] at hhigh
  rw [lt_div_iff₀ hd', div_lt_iff₀ hd'] at hodd
  apply roundDiv_eq _ _ _ hd
  · have h : (2 * (k * d) : ℚ) ≤ 2 * n + d := by linarith
    exact_mod_cast h
  · have h : (2 * n : ℚ) ≤ 2 * (k * d) + d := by linarith
    exact_mod_cast h
  · intro hk
    have hlow : (2 * (k * d) : ℚ) < 2 * n + d := by linarith [(hodd hk).1]
    have hhigh : (2 * n : ℚ) < 2 * (k * d) + d := by linarith [(hodd hk).2]
    exact ⟨by exact_mod_cast hlow, by exact_mod_cast hhigh⟩

theorem Interval.low_of (hm : 0 < m) (q : ℤ) : ((Interval.of m q).low : ℚ) =
    if m = 2 ^ 52 ∧ -1074 < q then 4 * (m : ℚ) - 1 else 4 * (m : ℚ) - 2 := by
  have hcast (k : ℕ) (hk : k ≤ 4 * m) : ((4 * m - k : ℕ) : ℚ) = 4 * m - k := by
    rw [Nat.cast_sub hk, Nat.cast_mul]
    norm_num
  simp only [Interval.of, Nat.pow_eq, Bool.and_eq_true, decide_eq_true_eq]
  split
  · rw [hcast 1 (by omega), Nat.cast_one]
  · rw [hcast 2 (by omega), Nat.cast_two]

theorem Interval.Contains.low_le (hm : 0 < m) (hv : (Interval.of m q).Contains v) :
    (4 * m - 2 : ℚ) * 2 ^ (q - 2) ≤ v := by
  have hlow := hv.1
  rw [unit_of, low_of hm] at hlow
  have hunit : (0 : ℚ) < 2 ^ (q - 2) := by positivity
  split at hlow <;> linarith

theorem Interval.Contains.le_high (hv : (Interval.of m q).Contains v) :
    v ≤ (4 * m + 2 : ℚ) * 2 ^ (q - 2) := by
  have hhigh := hv.2.1
  rw [unit_of] at hhigh
  simpa [Interval.of] using hhigh

theorem Interval.Contains.of_odd (hm : m % 2 = 1) (hv : (Interval.of m q).Contains v) :
    (4 * m - 2 : ℚ) * 2 ^ (q - 2) < v ∧ v < (4 * m + 2 : ℚ) * 2 ^ (q - 2) := by
  have hclosed : (Interval.of m q).closed = false := by simp [Interval.of, hm]
  obtain ⟨hlow, hhigh⟩ := hv.2.2 hclosed
  rw [unit_of] at hlow hhigh
  have hne : ¬ (m = 2 ^ 52 ∧ -1074 < q) := by
    rintro ⟨rfl, -⟩
    norm_num at hm
  rw [low_of (by omega), if_neg hne] at hlow
  refine ⟨hlow, ?_⟩
  simpa [Interval.of] using hhigh

theorem Interval.Contains.low_le_of_pow (hm : m = 2 ^ 52) (hq : -1074 < q)
    (hv : (Interval.of m q).Contains v) : (4 * m - 1 : ℚ) * 2 ^ (q - 2) ≤ v := by
  have hlow := hv.1
  rwa [unit_of, low_of (by rw [hm]; positivity), if_pos ⟨hm, hq⟩] at hlow

theorem two_zpow_add (q : ℤ) (k : ℕ) : (2 : ℚ) ^ (q + k) = 4 * 2 ^ k * 2 ^ (q - 2) := by
  have hfour : (4 : ℚ) = 2 ^ (2 : ℤ) := by norm_num
  rw [hfour, ← zpow_natCast, ← zpow_add₀ (by norm_num), ← zpow_add₀ (by norm_num)]
  congr 1
  ring

theorem exponentOf_cases (hmq : InRange m q) (hnum : 0 < num) (hden : 0 < den)
    (hv : (Interval.of m q).Contains (num / den)) :
    max (exponentOf num den - 52) (-1074) = q ∨
      max (exponentOf num den - 52) (-1074) = q - 1 ∧ m = 2 ^ 52 ∧ -1074 < q ∧
        (num : ℚ) / den < 2 ^ (q + 52) := by
  obtain ⟨hle, hlt⟩ := exponentOf_spec hnum hden
  have hunit : (0 : ℚ) < 2 ^ (q - 2) := by positivity
  have hupper : exponentOf num den < q + 53 := by
    have hm : (m : ℚ) + 1 ≤ 2 ^ 53 := by exact_mod_cast hmq.lt
    have hpow : (2 : ℚ) ^ exponentOf num den < 2 ^ (q + 53) := by
      calc (2 : ℚ) ^ exponentOf num den ≤ num / den := hle
        _ ≤ (4 * m + 2) * 2 ^ (q - 2) := hv.le_high
        _ < 4 * 2 ^ 53 * 2 ^ (q - 2) := mul_lt_mul_of_pos_right (by linarith) hunit
        _ = 2 ^ (q + 53) := (two_zpow_add q 53).symm
    exact (zpow_lt_zpow_iff_right₀ (by norm_num)).1 hpow
  by_cases hleast : q = -1074
  · omega
  have hnormal := hmq.normal.resolve_left hleast
  have hq := lt_of_le_of_ne hmq.least (Ne.symm hleast)
  by_cases hbelow : (num : ℚ) / den < 2 ^ (q + 52)
  · have hm : m = 2 ^ 52 := by
      have hlow := hv.low_le hmq.pos
      have hmul : (4 * m - 2 : ℚ) * 2 ^ (q - 2) < 4 * 2 ^ 52 * 2 ^ (q - 2) :=
        lt_of_le_of_lt hlow (by rw [← two_zpow_add]; exact hbelow)
      have hm : (4 * m - 2 : ℚ) < 4 * 2 ^ 52 := lt_of_mul_lt_mul_right hmul hunit.le
      have hm : 4 * m < 4 * 2 ^ 52 + 2 := by
        have : (4 * m : ℚ) < 4 * 2 ^ 52 + 2 := by linarith
        exact_mod_cast this
      omega
    have hlower : q + 51 < exponentOf num den + 1 := by
      have hpow : (2 : ℚ) ^ (q + 51) < 2 ^ (exponentOf num den + 1) := by
        calc (2 : ℚ) ^ (q + 51) = 4 * 2 ^ 51 * 2 ^ (q - 2) := two_zpow_add q 51
          _ ≤ (4 * m - 1) * 2 ^ (q - 2) := by
            apply mul_le_mul_of_nonneg_right _ hunit.le
            rw [hm]
            norm_num
          _ ≤ num / den := hv.low_le_of_pow hm hq
          _ < 2 ^ (exponentOf num den + 1) := hlt
      exact (zpow_lt_zpow_iff_right₀ (by norm_num)).1 hpow
    have hexponent : exponentOf num den < q + 52 :=
      (zpow_lt_zpow_iff_right₀ (by norm_num)).1 (lt_of_le_of_lt hle hbelow)
    right
    exact ⟨by omega, hm, hq, hbelow⟩
  · have hlower : q + 52 < exponentOf num den + 1 :=
      (zpow_lt_zpow_iff_right₀ (by norm_num)).1 (lt_of_le_of_lt (not_lt.1 hbelow) hlt)
    left
    omega

theorem nearestPattern_eq (hmq : InRange m q) (hnum : 0 < num) (hden : 0 < den)
    (hv : (Interval.of m q).Contains (num / den)) : nearestPattern num den = pattern m q := by
  have hunit : (0 : ℚ) < 2 ^ (q - 2) := by positivity
  have hpos := scale_den_pos num hden
  simp only [nearestPattern, pattern, Nat.pow_eq]
  cases exponentOf_cases hmq hnum hden hv with
  | inl hq =>
    have hpow : (2 : ℚ) ^ q = 4 * 2 ^ (q - 2) := by simpa using two_zpow_add q 0
    have hround : roundDiv (scale num den q).1 (scale num den q).2 = m := by
      apply roundDiv_of_near (hpos q)
      · rw [scale_eq, hpow, le_div_iff₀ (by positivity)]
        linarith [hv.low_le hmq.pos]
      · rw [scale_eq, hpow, div_le_iff₀ (by positivity)]
        linarith [hv.le_high]
      · intro hodd
        rw [scale_eq, hpow, lt_div_iff₀ (by positivity), div_lt_iff₀ (by positivity)]
        obtain ⟨hlow, hhigh⟩ := hv.of_odd hodd
        constructor <;> linarith
    rw [hq, hround]
  | inr h =>
    obtain ⟨hq, hm, hleast, hbelow⟩ := h
    have hpow : (2 : ℚ) ^ (q - 1) = 2 * 2 ^ (q - 2) := by
      rw [← zpow_one_add₀ (by norm_num)]
      congr 1
      ring
    have hround : roundDiv (scale num den (q - 1)).1 (scale num den (q - 1)).2 = 2 ^ 53 := by
      have hbelow : (num : ℚ) / den < 4 * 2 ^ 52 * 2 ^ (q - 2) :=
        lt_of_lt_of_eq hbelow (two_zpow_add q 52)
      have hlow := hv.low_le_of_pow hm hleast
      rw [hm] at hlow
      push_cast at hlow
      apply roundDiv_of_near (hpos (q - 1))
      · rw [scale_eq, hpow, le_div_iff₀ (by positivity)]
        push_cast
        linarith
      · rw [scale_eq, hpow, div_le_iff₀ (by positivity)]
        push_cast
        linarith
      · norm_num
    rw [hq, hround, hm]
    have hexponent : (q + 1074).toNat = (q - 1 + 1074).toNat + 1 := by omega
    rw [hexponent]
    ring

theorem pattern_lt (hmq : InRange m q) : pattern m q < infinityBits.toNat := by
  have hinfinity : infinityBits.toNat = 2047 * 2 ^ 52 := rfl
  have hexponent : (q + 1074).toNat ≤ 2045 := by
    have hgreatest := hmq.greatest
    omega
  have hmul := Nat.mul_le_mul_right (2 ^ 52) hexponent
  have hlt := hmq.lt
  rw [pattern, hinfinity]
  omega

theorem ofRatio?_eq (hmq : InRange m q) (hden : 0 < den)
    (hv : (Interval.of m q).Contains (num / den)) (hnum : 0 < num) (negative : Bool) :
    ofRatio? negative num den =
      some (ofBits (UInt64.ofNat (pattern m q) ||| if negative then signBit else 0)) := by
  have hpos : pattern m q ≠ 0 := by
    have hm := hmq.pos
    rw [pattern]
    omega
  have hlt := pattern_lt hmq
  rw [ofRatio?, if_neg (by omega), nearestPattern_eq hmq hnum hden hv]
  simp [hpos, hlt]

end FlowTyping.Number
