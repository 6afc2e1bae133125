import FlowTyping.Proofs.Rounding

namespace FlowTyping.Number

variable {m n d c num den : ℕ} {q e : ℤ} {i : Interval}

def Decimal.toRat (x : Decimal) : ℚ := x.digits * 10 ^ x.exponent

theorem lt_pow_digitCount (n : ℕ) : n < 10 ^ digitCount n :=
  (Nat.length_toDigits_le_iff (by norm_num) Nat.length_toDigits_pos).1 le_rfl

theorem pow_digitCount_le (hn : 0 < n) : 10 ^ (digitCount n - 1) ≤ n := by
  cases hk : digitCount n - 1 with
  | zero => exact hn
  | succ k =>
    by_contra hlt
    have hle : digitCount n ≤ k + 1 :=
      (Nat.length_toDigits_le_iff (by norm_num) k.succ_pos).2 (not_le.1 hlt)
    omega

theorem pow_decimalPoint_le (hnum : 0 < num) (hden : 0 < den) :
    (10 : ℚ) ^ (decimalPoint num den - 1) ≤ num / den := by
  have hden' : (0 : ℚ) < den := by exact_mod_cast hden
  rw [decimalPoint, le_div_iff₀ hden']
  split
  · rename_i hle
    have hdiv : 0 < num / den := Nat.div_pos hle hden
    have hcount : ((digitCount (num / den) : ℤ) - 1) = ((digitCount (num / den) - 1 : ℕ) : ℤ) := by
      have hpos : 0 < digitCount (num / den) := Nat.length_toDigits_pos
      omega
    rw [hcount, zpow_natCast]
    have hmul : 10 ^ (digitCount (num / den) - 1) * den ≤ num :=
      (Nat.le_div_iff_mul_le hden).1 (pow_digitCount_le hdiv)
    exact_mod_cast hmul
  · have hlt := lt_pow_digitCount ((den - 1) / num)
    rw [Nat.div_lt_iff_lt_mul hnum] at hlt
    have hmul : den ≤ 10 ^ digitCount ((den - 1) / num) * num := by omega
    have hcast : (den : ℚ) ≤ 10 ^ digitCount ((den - 1) / num) * num := by exact_mod_cast hmul
    rw [sub_sub_cancel_left, zpow_neg, zpow_natCast, inv_mul_le_iff₀ (by positivity)]
    exact hcast

theorem scale10_den_pos (num : ℕ) (hden : 0 < den) (e : ℤ) : 0 < (scale10 num den e).2 := by
  cases e with
  | ofNat k => exact Nat.mul_pos hden (Nat.pow_pos (by decide))
  | negSucc k => exact hden

theorem scale10_eq (num den : ℕ) (e : ℤ) :
    ((scale10 num den e).1 : ℚ) / (scale10 num den e).2 = num / den / 10 ^ e := by
  cases e with
  | ofNat k => simp [scale10, div_div]
  | negSucc k =>
    simp only [scale10, Nat.pow_eq, zpow_negSucc]
    push_cast
    field_simp

theorem mul_unit_le_iff (hden : 0 < den) (k : ℕ) :
    (k : ℚ) * (num / den) ≤ c * 10 ^ e ↔
      k * (scale10 num den e).1 ≤ c * (scale10 num den e).2 := by
  have hpos : (0 : ℚ) < (scale10 num den e).2 := by exact_mod_cast scale10_den_pos num hden e
  have hunit : (num : ℚ) / den =
      (scale10 num den e).1 / (scale10 num den e).2 * 10 ^ e := by
    rw [scale10_eq]
    field_simp
  rw [hunit, ← mul_assoc, mul_le_mul_iff_left₀ (by positivity), ← mul_div_assoc, div_le_iff₀ hpos]
  norm_cast

theorem le_mul_unit_iff (hden : 0 < den) (k : ℕ) :
    (c : ℚ) * 10 ^ e ≤ k * (num / den) ↔
      c * (scale10 num den e).2 ≤ k * (scale10 num den e).1 := by
  have hpos : (0 : ℚ) < (scale10 num den e).2 := by exact_mod_cast scale10_den_pos num hden e
  have hunit : (num : ℚ) / den =
      (scale10 num den e).1 / (scale10 num den e).2 * 10 ^ e := by
    rw [scale10_eq]
    field_simp
  rw [hunit, ← mul_assoc, mul_le_mul_iff_left₀ (by positivity), ← mul_div_assoc, le_div_iff₀ hpos]
  norm_cast

theorem Interval.holds_iff (hden : 0 < i.den) :
    i.holds (scale10 i.num i.den e).1 (scale10 i.num i.den e).2 c = true ↔
      i.Contains (c * 10 ^ e) := by
  rw [Contains, ← not_le, ← not_le, mul_unit_le_iff hden, le_mul_unit_iff hden,
    mul_unit_le_iff hden, le_mul_unit_iff hden, holds]
  cases i.closed with
  | true => simp
  | false =>
    simp only [Bool.false_eq_true, if_false, Bool.and_eq_true, decide_eq_true_eq, forall_true_left]
    omega

theorem Interval.den_pos (m : ℕ) (q : ℤ) : 0 < (Interval.of m q).den := by
  simp only [Interval.of]
  cases q - 2 with
  | ofNat k => exact Nat.one_pos
  | negSucc k => exact Nat.pow_pos (by decide)

theorem Interval.num_pos (m : ℕ) (q : ℤ) : 0 < (Interval.of m q).num := by
  simp only [Interval.of]
  cases q - 2 with
  | ofNat k => exact Nat.pow_pos (by decide)
  | negSucc k => exact Nat.one_pos

theorem Interval.holds_of_onGrid (hc : i.onGrid e = some c) :
    i.holds (scale10 i.num i.den e).1 (scale10 i.num i.den e).2 c = true := by
  simp only [onGrid] at hc
  split at hc
  · rename_i ha hb
    rw [Option.some_inj] at hc
    split_ifs at hc <;> subst hc <;> assumption
  · cases hc
    assumption
  · cases hc
    assumption
  · cases hc

theorem Interval.search_contains {x : Decimal} {point : ℤ} {fuel count : ℕ} (hden : 0 < i.den)
    (hx : i.search point fuel count = some x) : i.Contains x.toRat := by
  induction fuel generalizing count with
  | zero => cases hx
  | succ fuel ih =>
    rw [search] at hx
    split at hx
    · rename_i c hc
      cases hx
      exact (holds_iff hden).1 (holds_of_onGrid hc)
    · exact ih hx

theorem Interval.exists_search {point : ℤ} {fuel count k : ℕ} (hk : k < fuel)
    (hgrid : (i.onGrid (point - (count + k : ℕ))).isSome) :
    ∃ x, i.search point fuel count = some x := by
  induction fuel generalizing count k with
  | zero => cases hk
  | succ fuel ih =>
    rw [search]
    split
    · exact ⟨_, rfl⟩
    · rename_i hnone
      cases k with
      | zero =>
        rw [Nat.add_zero, hnone] at hgrid
        cases hgrid
      | succ k =>
        apply ih (Nat.lt_of_succ_lt_succ hk)
        rwa [← Nat.add_assoc, Nat.add_right_comm] at hgrid

theorem Decimal.toRat_strip (x : Decimal) (fuel : ℕ) : (x.strip fuel).toRat = x.toRat := by
  induction fuel generalizing x with
  | zero => rfl
  | succ fuel ih =>
    rw [strip]
    split
    · rename_i hten
      rw [ih, toRat, toRat, zpow_add_one₀ (by norm_num)]
      have hdigits : (x.digits : ℚ) = (x.digits / 10 : ℕ) * 10 := by
        exact_mod_cast (Nat.div_mul_cancel (Nat.dvd_of_mod_eq_zero hten)).symm
      rw [hdigits]
      ring
    · rfl

theorem Interval.holds_of_lt (hlow : i.low * n < c * d) (hhigh : c * d < i.high * n) :
    i.holds n d c = true := by
  rw [holds]
  split <;> simp [hlow, hhigh, hlow.le, hhigh.le]

theorem Interval.onGrid_isSome_of_holds
    (h : i.holds (scale10 i.num i.den e).1 (scale10 i.num i.den e).2
        (i.mid * (scale10 i.num i.den e).1 / (scale10 i.num i.den e).2) = true ∨
      i.holds (scale10 i.num i.den e).1 (scale10 i.num i.den e).2
        (i.mid * (scale10 i.num i.den e).1 / (scale10 i.num i.den e).2 + 1) = true) :
    (i.onGrid e).isSome := by
  simp only [onGrid]
  split <;> first | rfl | simp_all

/-- On a grid of which the number is many steps away from zero one of its two neighbours is rounded
to it: the steps are shorter than the gap between numbers, and below a power of two, where the gap
is half as wide, the upper neighbour is near enough. -/
theorem Interval.onGrid_isSome (hmq : InRange m q)
    (hfine : 10 ^ 16 * (scale10 (Interval.of m q).num (Interval.of m q).den e).2 ≤
      4 * m * (scale10 (Interval.of m q).num (Interval.of m q).den e).1) :
    ((Interval.of m q).onGrid e).isSome := by
  apply onGrid_isSome_of_holds
  have hd := scale10_den_pos (Interval.of m q).num (den_pos m q) e
  generalize scale10 (Interval.of m q).num (Interval.of m q).den e = p at hfine hd
  obtain ⟨n, d⟩ := p
  have hmid : (Interval.of m q).mid = 4 * m := rfl
  have hhigh : (Interval.of m q).high * n = 4 * m * n + 2 * n := Nat.add_mul (4 * m) 2 n
  have hm := hmq.pos
  simp only [hmid] at *
  have hdiv : d * (4 * m * n / d) + 4 * m * n % d = 4 * m * n := Nat.div_add_mod _ _
  have hmod := Nat.mod_lt (4 * m * n) hd
  generalize 4 * m * n / d = a at *
  have hstep : d < 4 * n := by
    have hmul : m * n ≤ 2 ^ 53 * n := Nat.mul_le_mul_right n hmq.lt.le
    rw [Nat.mul_assoc] at hfine
    omega
  have ha : a * d = d * a := Nat.mul_comm a d
  have hb : (a + 1) * d = d * a + d := by rw [Nat.add_mul, Nat.one_mul, ha]
  by_cases hupper : (a + 1) * d < 4 * m * n + 2 * n
  · right
    apply holds_of_lt _ (by omega)
    have hle : (Interval.of m q).low * n ≤ 4 * m * n := by
      apply Nat.mul_le_mul_right
      simp only [Interval.of]
      split <;> omega
    omega
  · left
    have hregular : ¬ (m = 2 ^ 52 ∧ -1074 < q) := by
      rintro ⟨rfl, -⟩
      omega
    have hlow : (Interval.of m q).low * n + 2 * n = 4 * m * n := by
      have hlow : (Interval.of m q).low = 4 * m - 2 := by
        simp only [Interval.of, Nat.pow_eq, Bool.and_eq_true, decide_eq_true_eq]
        exact if_neg hregular
      rw [hlow, ← Nat.add_mul]
      congr 1
      omega
    exact holds_of_lt (by omega) (by omega)

theorem shortest_contains (hmq : InRange m q) :
    (Interval.of m q).Contains (shortest m q).toRat := by
  have hden := Interval.den_pos m q
  have hmid : (Interval.of m q).mid = 4 * m := rfl
  have hnum : 0 < (Interval.of m q).mid * (Interval.of m q).num :=
    Nat.mul_pos (Nat.mul_pos (by decide) hmq.pos) (Interval.num_pos m q)
  have hpoint := pow_decimalPoint_le hnum hden
  rw [shortest]
  generalize decimalPoint ((Interval.of m q).mid * (Interval.of m q).num) (Interval.of m q).den =
    point at *
  obtain ⟨x, hx⟩ : ∃ x, (Interval.of m q).search point 17 1 = some x := by
    apply Interval.exists_search (k := 16) (by norm_num)
    apply Interval.onGrid_isSome hmq
    have hexponent : (10 : ℚ) ^ 16 * 10 ^ (point - (1 + 16 : ℕ)) = 10 ^ (point - 1) := by
      rw [← zpow_natCast, ← zpow_add₀ (by norm_num)]
      congr 1
      push_cast
      ring
    rw [← le_mul_unit_iff hden, Nat.cast_pow, Nat.cast_ofNat, hexponent, ← mul_div_assoc, ← hmid]
    exact_mod_cast hpoint
  rw [hx, Option.getD_some, Decimal.toRat_strip]
  exact Interval.search_contains hden hx

end FlowTyping.Number
