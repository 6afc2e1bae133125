import FlowTyping.Text.Utf16
import Mathlib.Algebra.GroupWithZero.Nat
import Mathlib.Data.FinEnum

namespace FlowTyping.Text

def encode (xs : List Char) : Text := xs.flatMap String.utf8EncodeChar

def units (x : Char) : ℕ := if x.toNat < 0x10000 then 1 else 2

theorem isTail_iff {a : UInt8} : isTail a = true ↔ 0x80 ≤ a.toNat ∧ a.toNat < 0xc0 := by
  revert a
  decide +kernel

theorem low_toNat (a : UInt8) : (a &&& 0x3f).toNat = a.toNat % 0x40 := by
  rw [UInt8.toNat_and]
  exact Nat.and_two_pow_sub_one_eq_mod _ 6

theorem scalarOf3_eq (a b c : UInt8) : scalarOf3 a b c =
    a.toNat % 0x10 * 0x1000 + b.toNat % 0x40 * 0x40 + c.toNat % 0x40 := by
  have ha : (a &&& 0x0f).toNat = a.toNat % 0x10 := by
    rw [UInt8.toNat_and]
    exact Nat.and_two_pow_sub_one_eq_mod _ 4
  rw [scalarOf3, ha, low_toNat, low_toNat]

theorem scalarOf4_eq (a b c d : UInt8) : scalarOf4 a b c d = a.toNat % 0x08 * 0x40000 +
    b.toNat % 0x40 * 0x1000 + c.toNat % 0x40 * 0x40 + d.toNat % 0x40 := by
  have ha : (a &&& 0x07).toNat = a.toNat % 0x08 := by
    rw [UInt8.toNat_and]
    exact Nat.and_two_pow_sub_one_eq_mod _ 3
  rw [scalarOf4, ha, low_toNat, low_toNat, low_toNat]

/-- The bytes `w` stand for the scalar value `x`: as many as `x` needs, each of them in range. -/
inductive Represents : Text → Char → Prop
  | one {a : UInt8} {x : Char} (ha : a.toNat < 0x80) (hx : x.toNat = a.toNat) : Represents [a] x
  | two {a b : UInt8} {x : Char} (ha : 0xc2 ≤ a.toNat ∧ a.toNat < 0xe0) (hb : isTail b = true)
    (hx : x.toNat = a.toNat % 0x20 * 0x40 + b.toNat % 0x40) : Represents [a, b] x
  | three {a b c : UInt8} {x : Char} (ha : 0xe0 ≤ a.toNat ∧ a.toNat < 0xf0) (hb : isTail b = true)
    (hc : isTail c = true) (hx : x.toNat = scalarOf3 a b c) (hlow : 0x800 ≤ x.toNat) :
    Represents [a, b, c] x
  | four {a b c d : UInt8} {x : Char} (ha : 0xf0 ≤ a.toNat ∧ a.toNat < 0xf8)
    (hb : isTail b = true) (hc : isTail c = true) (hd : isTail d = true)
    (hx : x.toNat = scalarOf4 a b c d) (hlow : 0x10000 ≤ x.toNat) : Represents [a, b, c, d] x

variable {t w r : Text} {x : Char} {xs : List Char} {n : ℕ}

theorem isValidChar_toNat (x : Char) : x.toNat.isValidChar := x.valid

theorem represents_utf8EncodeChar (x : Char) : Represents (String.utf8EncodeChar x) x := by
  have hvalid := isValidChar_toNat x
  have hval : x.val.toNat = x.toNat := rfl
  have hbyte {n : ℕ} (hn : n < 0x100) : (UInt8.ofNat n).toNat = n := UInt8.toNat_ofNat_of_lt' hn
  simp only [String.utf8EncodeChar, hval]
  split
  · refine .one ?_ ?_ <;> rw [hbyte (by omega)]
    omega
  · split
    · refine .two ?_ ?_ ?_ <;> simp (disch := omega) only [isTail_iff, hbyte] <;> omega
    · split
      · refine .three ?_ ?_ ?_ ?_ (by omega) <;>
          simp (disch := omega) only [isTail_iff, scalarOf3_eq, hbyte] <;> omega
      · refine .four ?_ ?_ ?_ ?_ ?_ (by omega) <;>
          simp (disch := omega) only [isTail_iff, scalarOf4_eq, hbyte] <;> omega

theorem Represents.eq_utf8EncodeChar (h : Represents w x) : w = String.utf8EncodeChar x := by
  have hval : x.val.toNat = x.toNat := rfl
  cases h with
  | @one a _ ha hx =>
    rw [String.utf8EncodeChar]
    simp only [hval]
    rw [if_pos (by omega), hx, UInt8.ofNat_toNat]
  | @two a b _ ha hb hx =>
    rw [isTail_iff] at hb
    have h₁ : x.toNat / 64 % 0x20 + 0xc0 = a.toNat := by omega
    have h₂ : x.toNat % 0x40 + 0x80 = b.toNat := by omega
    rw [String.utf8EncodeChar]
    simp only [hval]
    rw [if_neg (by omega), if_pos (by omega), h₁, h₂, UInt8.ofNat_toNat, UInt8.ofNat_toNat]
  | @three a b c _ ha hb hc hx hlow =>
    rw [isTail_iff] at hb hc
    rw [scalarOf3_eq] at hx
    have h₁ : x.toNat / 4096 % 0x10 + 0xe0 = a.toNat := by omega
    have h₂ : x.toNat / 64 % 0x40 + 0x80 = b.toNat := by omega
    have h₃ : x.toNat % 0x40 + 0x80 = c.toNat := by omega
    rw [String.utf8EncodeChar]
    simp only [hval]
    rw [if_neg (by omega), if_neg (by omega), if_pos (by omega), h₁, h₂, h₃, UInt8.ofNat_toNat,
      UInt8.ofNat_toNat, UInt8.ofNat_toNat]
  | @four a b c d _ ha hb hc hd hx hlow =>
    rw [isTail_iff] at hb hc hd
    rw [scalarOf4_eq] at hx
    have h₁ : x.toNat / 262144 % 0x08 + 0xf0 = a.toNat := by omega
    have h₂ : x.toNat / 4096 % 0x40 + 0x80 = b.toNat := by omega
    have h₃ : x.toNat / 64 % 0x40 + 0x80 = c.toNat := by omega
    have h₄ : x.toNat % 0x40 + 0x80 = d.toNat := by omega
    rw [String.utf8EncodeChar]
    simp only [hval]
    rw [if_neg (by omega), if_neg (by omega), if_neg (by omega), h₁, h₂, h₃, h₄, UInt8.ofNat_toNat,
      UInt8.ofNat_toNat, UInt8.ofNat_toNat, UInt8.ofNat_toNat]

theorem two_lead_iff {a : UInt8} :
    (a >>> 5 == 0x06) = true ↔ 0xc0 ≤ a.toNat ∧ a.toNat < 0xe0 := by
  revert a
  decide +kernel

theorem three_lead_iff {a : UInt8} :
    (a >>> 4 == 0x0e) = true ↔ 0xe0 ≤ a.toNat ∧ a.toNat < 0xf0 := by
  revert a
  decide +kernel

theorem four_lead_iff {a : UInt8} :
    (a >>> 3 == 0x1e) = true ↔ 0xf0 ≤ a.toNat ∧ a.toNat < 0xf8 := by
  revert a
  decide +kernel

theorem not_overlong_iff {a : UInt8} (ha : (a >>> 5 == 0x06) = true) :
    (a &&& 0x1e != 0) = true ↔ 0xc2 ≤ a.toNat := by
  revert a
  decide +kernel

theorem not_one_of_le {a : UInt8} (ha : 0x80 ≤ a.toNat) : ¬a < 0x80 :=
  fun h => absurd (UInt8.lt_iff_toNat_lt.1 h) (Nat.not_lt.2 ha)

theorem Represents.utf16Length_append (h : Represents w x) (r : Text) :
    utf16Length (w ++ r) = (utf16Length r).map (· + units x) := by
  have hvalid := isValidChar_toNat x
  cases h with
  | @one a _ ha hx =>
    have hunits : units x = 1 := if_pos (by omega)
    have hone : a < 0x80 := UInt8.lt_iff_toNat_lt.2 ha
    rw [List.singleton_append, utf16Length.eq_def]
    simp only [hone, hunits, if_true]
  | @two a b _ ha hb hx =>
    have hunits : units x = 1 := if_pos (by omega)
    have htwo : (a >>> 5 == 0x06) = true := two_lead_iff.2 (by omega)
    have hshort := (not_overlong_iff htwo).2 ha.1
    rw [List.cons_append, List.singleton_append, utf16Length.eq_def]
    simp only [not_one_of_le (a := a) (by omega), htwo, hb, hshort, hunits, Bool.and_self, if_true,
      if_false]
  | @three a b c _ ha hb hc hx hlow =>
    have hunits : units x = 1 := if_pos (by rw [scalarOf3_eq] at hx; omega)
    have htwo : ¬(a >>> 5 == 0x06) = true := by rw [two_lead_iff]; omega
    have hthree : (a >>> 4 == 0x0e) = true := three_lead_iff.2 ha
    have hscalar : (!(0xd800 ≤ x.toNat && x.toNat ≤ 0xdfff)) = true := by
      simp only [Bool.not_eq_true', Bool.and_eq_false_iff, decide_eq_false_iff_not]
      omega
    rw [List.cons_append, List.cons_append, List.singleton_append, utf16Length.eq_def]
    simp only [not_one_of_le (a := a) (by omega), htwo, hthree, hb, hc, ← hx, hlow, hscalar, hunits,
      decide_true, Bool.and_self, Bool.false_eq_true, if_true, if_false]
  | @four a b c d _ ha hb hc hd hx hlow =>
    have hunits : units x = 2 := if_neg (by omega)
    have htwo : ¬(a >>> 5 == 0x06) = true := by rw [two_lead_iff]; omega
    have hthree : ¬(a >>> 4 == 0x0e) = true := by rw [three_lead_iff]; omega
    have hfour : (a >>> 3 == 0x1e) = true := four_lead_iff.2 ha
    have hhigh : x.toNat ≤ 0x10ffff := by omega
    rw [List.cons_append, List.cons_append, List.cons_append, List.singleton_append,
      utf16Length.eq_def]
    simp only [not_one_of_le (a := a) (by omega), htwo, hthree, hfour, hb, hc, hd, ← hx, hlow,
      hhigh, hunits, decide_true, Bool.and_self, Bool.false_eq_true, if_true, if_false]

theorem exists_char (hn : n.isValidChar) : ∃ x : Char, x.toNat = n :=
  ⟨Char.ofNatAux n hn, rfl⟩

theorem encode_cons (x : Char) (xs : List Char) :
    encode (x :: xs) = String.utf8EncodeChar x ++ encode xs := List.flatMap_cons

theorem Represents.exists_encode (h : Represents w x) (hr : ∃ xs, encode xs = r) :
    ∃ xs, encode xs = w ++ r := by
  obtain ⟨xs, rfl⟩ := hr
  exact ⟨x :: xs, by rw [encode_cons, h.eq_utf8EncodeChar]⟩

theorem utf16Length_encode (xs : List Char) :
    utf16Length (encode xs) = some (xs.map units).sum := by
  induction xs with
  | nil => rfl
  | cons x xs ih =>
    rw [encode_cons, (represents_utf8EncodeChar x).utf16Length_append, ih, Option.map_some,
      List.map_cons, List.sum_cons, Nat.add_comm]

theorem exists_encode_of_utf16Length (h : utf16Length t = some n) : ∃ xs, encode xs = t := by
  -- Where the counter goes on, it has passed over the bytes of one scalar value.
  fun_induction utf16Length t generalizing n with
  | case1 => exact ⟨[], rfl⟩
  | case2 a r hone ih =>
    obtain ⟨m, hm, -⟩ := Option.map_eq_some_iff.1 h
    have ha : a.toNat < 0x80 := UInt8.lt_iff_toNat_lt.1 hone
    obtain ⟨x, hx⟩ := exists_char (n := a.toNat) (by omega)
    exact (Represents.one ha hx).exists_encode (ih hm)
  | case3 a _ htwo b r hbytes ih =>
    obtain ⟨m, hm, -⟩ := Option.map_eq_some_iff.1 h
    rw [Bool.and_eq_true, not_overlong_iff htwo] at hbytes
    obtain ⟨x, hx⟩ := exists_char (n := a.toNat % 0x20 * 0x40 + b.toNat % 0x40) (by omega)
    have hw : Represents [a, b] x := .two ⟨hbytes.2, (two_lead_iff.1 htwo).2⟩ hbytes.1 hx
    exact hw.exists_encode (ih hm)
  | case6 a _ _ hthree b c r s hbytes =>
    rename_i ih
    obtain ⟨m, hm, -⟩ := Option.map_eq_some_iff.1 h
    simp only [Bool.and_eq_true, Bool.not_eq_true', Bool.and_eq_false_iff, decide_eq_true_eq,
      decide_eq_false_iff_not] at hbytes
    obtain ⟨⟨⟨hb, hc⟩, hlow⟩, hscalar⟩ := hbytes
    have hs : s = _ := scalarOf3_eq a b c
    obtain ⟨x, hx⟩ := exists_char (n := s) (by omega)
    have hw : Represents [a, b, c] x := .three (three_lead_iff.1 hthree) hb hc hx (hx ▸ hlow)
    exact hw.exists_encode (ih hm)
  | case9 a _ _ _ hfour b c d r s hbytes =>
    rename_i ih
    obtain ⟨m, hm, -⟩ := Option.map_eq_some_iff.1 h
    simp only [Bool.and_eq_true, decide_eq_true_eq] at hbytes
    obtain ⟨⟨⟨⟨hb, hc⟩, hd⟩, hlow⟩, hhigh⟩ := hbytes
    obtain ⟨x, hx⟩ := exists_char (n := s) (by omega)
    have hw : Represents [a, b, c, d] x := .four (four_lead_iff.1 hfour) hb hc hd hx (hx ▸ hlow)
    exact hw.exists_encode (ih hm)
  | _ => cases h

theorem encode_injective : Function.Injective encode := by
  intro xs ys h
  have hbytes : xs.utf8Encode = ys.utf8Encode := congrArg List.toByteArray h
  have hstring : String.ofList xs = String.ofList ys := String.toByteArray_inj.1 hbytes
  simpa only [String.toList_ofList] using congrArg String.toList hstring

/-- A text has a length exactly when it is the encoding of some sequence of scalar values. Then
there is only one such sequence, and the length counts its code units. -/
theorem utf16Length_isSome_iff_encode (t : Text) :
    ((utf16Length t).isSome = true ↔ ∃ xs, encode xs = t) ∧
      ∀ xs, encode xs = t → utf16Length t = some (xs.map units).sum ∧
        ∀ ys, encode ys = t → ys = xs := by
  refine ⟨⟨fun h => ?_, ?_⟩, ?_⟩
  · obtain ⟨n, hn⟩ := Option.isSome_iff_exists.1 h
    exact exists_encode_of_utf16Length hn
  · rintro ⟨xs, rfl⟩
    rw [utf16Length_encode, Option.isSome_some]
  · rintro xs rfl
    exact ⟨utf16Length_encode xs, fun ys hys => encode_injective hys⟩

theorem utf16Length_of_each_size :
    let xs := ['a', 'é', '€', '😀']
    let t : Text := [0x61, 0xc3, 0xa9, 0xe2, 0x82, 0xac, 0xf0, 0x9f, 0x98, 0x80]
    encode xs = t ∧ utf16Length t = some 5 ∧ ∀ ys, encode ys = t → ys = xs := by
  intro xs t
  have hencode : encode xs = t := by decide
  exact ⟨hencode, (utf16Length_isSome_iff_encode t).2 xs hencode⟩

-- Zero in two bytes, the first surrogate, and the number after the last scalar value.
example : utf16Length [0xc0, 0x80] = none ∧ utf16Length [0xed, 0xa0, 0x80] = none ∧
    utf16Length [0xf4, 0x90, 0x80, 0x80] = none := by decide

end FlowTyping.Text
