import FlowTyping.Number.Print
import FlowTyping.Number.Read
import FlowTyping.Proofs.ShortestDecimals
import FlowTyping.Proofs.WrittenForms

namespace FlowTyping

variable {t u : Text} {c : UInt8} {n : ℕ}

namespace Text

theorem toNat_append (t u : Text) : toNat (t ++ u) = toNat t * 10 ^ u.length + toNat u := by
  induction u using List.reverseRecOn with
  | nil => simp [toNat]
  | append_singleton u c ih =>
    simp only [toNat, ← List.append_assoc, List.foldl_append, List.foldl_cons, List.foldl_nil,
      List.length_append, List.length_cons, List.length_nil] at ih ⊢
    rw [ih]
    ring

theorem toNat_cons (c : UInt8) (t : Text) :
    toNat (c :: t) = (c.toNat - 0x30) * 10 ^ t.length + toNat t := by
  have h := toNat_append [c] t
  simpa [toNat] using h

theorem isDigit_iff : isDigit c = true ↔ 0x30 ≤ c.toNat ∧ c.toNat ≤ 0x39 := by
  simp [isDigit, UInt8.le_iff_toNat_le]

theorem toNat_lt (ht : ∀ c ∈ t, isDigit c = true) : toNat t < 10 ^ t.length := by
  induction t with
  | nil => simp [toNat]
  | cons c t ih =>
    have hc := isDigit_iff.1 (ht c (by simp))
    have ih := ih fun d hd => ht d (by simp [hd])
    have hmul : (c.toNat - 0x30) * 10 ^ t.length ≤ 9 * 10 ^ t.length :=
      Nat.mul_le_mul_right _ (by omega)
    rw [toNat_cons, List.length_cons, Nat.pow_succ]
    omega

theorem toNat_digitChar (hn : n < 10) : (n.digitChar.toUInt8).toNat = 0x30 + n := by
  revert n
  decide

theorem ofNat_of_lt (hn : n < 10) : ofNat n = [n.digitChar.toUInt8] := by
  rw [ofNat, Nat.toDigits_of_lt_base hn, List.map_singleton]

theorem ofNat_of_le (hn : 10 ≤ n) : ofNat n = ofNat (n / 10) ++ [(n % 10).digitChar.toUInt8] := by
  rw [ofNat, Nat.toDigits_of_base_le (by norm_num) hn, List.map_append, ← ofNat, List.map_singleton]

theorem length_ofNat (n : ℕ) : (ofNat n).length = Number.digitCount n := by
  rw [ofNat, List.length_map, Number.digitCount]

theorem isDigit_of_mem_ofNat (hc : c ∈ ofNat n) : isDigit c = true := by
  have hdigit (k : ℕ) (hk : k < 10) : isDigit k.digitChar.toUInt8 = true := by
    rw [isDigit_iff, toNat_digitChar hk]
    omega
  induction n using Nat.strongRecOn with
  | ind n ih =>
    by_cases hn : n < 10
    · rw [ofNat_of_lt hn, List.mem_singleton] at hc
      exact hc ▸ hdigit n hn
    · rw [ofNat_of_le (not_lt.1 hn), List.mem_append, List.mem_singleton] at hc
      cases hc with
      | inl hc => exact ih (n / 10) (by omega) hc
      | inr hc => exact hc ▸ hdigit (n % 10) (by omega)

@[simp] theorem toNat_ofNat (n : ℕ) : toNat (ofNat n) = n := by
  induction n using Nat.strongRecOn with
  | ind n ih =>
    by_cases hn : n < 10
    · rw [ofNat_of_lt hn, toNat_cons, toNat_digitChar hn]
      simp [toNat]
    · rw [ofNat_of_le (not_lt.1 hn), toNat_append, ih (n / 10) (by omega), toNat_cons,
        toNat_digitChar (by omega)]
      simp only [List.length_cons, List.length_nil, toNat, List.foldl_nil]
      omega

theorem ofNat_ne_nil (n : ℕ) : ofNat n ≠ [] := by
  apply List.ne_nil_of_length_pos
  rw [length_ofNat]
  exact Nat.length_toDigits_pos

theorem dropWhile_ofNat (hn : 0 < n) : (ofNat n).dropWhile (· == 0x30) = ofNat n := by
  cases hds : ofNat n with
  | nil => rfl
  | cons c t =>
    have hlt : toNat t < 10 ^ t.length := by
      apply toNat_lt
      intro d hd
      apply isDigit_of_mem_ofNat (n := n)
      rw [hds]
      exact List.mem_cons_of_mem c hd
    have hlength : t.length = Number.digitCount n - 1 := by
      rw [← length_ofNat, hds, List.length_cons, Nat.add_sub_cancel]
    have hne : c ≠ 0x30 := by
      rintro rfl
      have hvalue := toNat_ofNat n
      rw [hds, toNat_cons] at hvalue
      have hle := Number.pow_digitCount_le hn
      rw [← hlength] at hle
      simp at hvalue
      omega
    simp [hne]

theorem dropWhile_replicate_append (k : ℕ) (t : Text) :
    (List.replicate k 0x30 ++ t).dropWhile (· == 0x30) = t.dropWhile (· == 0x30) := by
  apply List.dropWhile_append_of_pos
  simp [List.mem_replicate]

theorem toNat_replicate_append (k : ℕ) (t : Text) :
    toNat (List.replicate k 0x30 ++ t) = toNat t := by
  induction k with
  | zero => rfl
  | succ k ih =>
    rw [List.replicate_succ, List.cons_append, toNat_cons, ih]
    simp

end Text

namespace Number

variable {w r f : Text} {x : Decimal} {e : ℤ}

theorem readWritten_of_point (hw : ∀ c ∈ w, Text.isDigit c = true) (hne : w ≠ [])
    (hf : ∀ c ∈ f, Text.isDigit c = true) (hr : ∀ c ∈ r.head?, Text.isDigit c = false)
    (he : readExponent r = some e) :
    readWritten (w ++ (text "." ++ (f ++ r))) = some ⟨w ++ f, f.length, e⟩ := by
  have hpoint : ∀ c ∈ (text "." ++ (f ++ r)).head?, Text.isDigit c = false := by
    intro c hc
    cases hc
    decide
  rw [readWritten, Text.takeWhile_append hw hpoint, Text.dropWhile_append hw hpoint]
  have hcons : text "." ++ (f ++ r) = 0x2e :: (f ++ r) := rfl
  simp [hcons, hne, Text.takeWhile_append hf hr, Text.dropWhile_append hf hr, he]

theorem readWritten_of_whole (hw : ∀ c ∈ w, Text.isDigit c = true) (hne : w ≠ [])
    (hr : ∀ c ∈ r.head?, Text.isDigit c = false ∧ c ≠ 0x2e) (he : readExponent r = some e) :
    readWritten (w ++ r) = some ⟨w, 0, e⟩ := by
  have hdigit : ∀ c ∈ r.head?, Text.isDigit c = false := fun c hc => (hr c hc).1
  rw [readWritten, Text.takeWhile_append hw hdigit, Text.dropWhile_append hw hdigit]
  cases r with
  | nil => simp [hne, he]
  | cons c r => simp [hne, (hr c rfl).2, he]

theorem exponentText_eq (e : ℤ) : ∃ ds, exponentText e = text (if e < 0 then "-" else "+") ++ ds ∧
    (∀ c ∈ ds, Text.isDigit c = true) ∧ ds ≠ [] ∧ Text.toNat ds = e.natAbs := by
  have hdigits (c) (hc : c ∈ Text.ofNat e.natAbs) : Text.isDigit c = true :=
    Text.isDigit_of_mem_ofNat hc
  refine ⟨_, rfl, ?_⟩
  split
  · refine ⟨?_, List.cons_ne_nil _ _, ?_⟩
    · intro c hc
      cases hc with
      | head => decide
      | tail _ hc => exact hdigits c hc
    · exact (Text.toNat_replicate_append 1 _).trans (Text.toNat_ofNat _)
  · exact ⟨hdigits, Text.ofNat_ne_nil _, Text.toNat_ofNat _⟩

theorem readExponent_exponentText (e : ℤ) : readExponent (text "e" ++ exponentText e) = some e := by
  obtain ⟨ds, heq, hdigits, hne, hvalue⟩ := exponentText_eq e
  have hall : ds.all Text.isDigit = true := by simpa using hdigits
  have hread : readExponent (text "e" ++ (text (if e < 0 then "-" else "+") ++ ds)) =
      if ds.isEmpty || !ds.all Text.isDigit then none
      else some (if e < 0 then -Int.ofNat (Text.toNat ds) else Int.ofNat (Text.toNat ds)) := by
    split <;> rfl
  rw [heq, hread, hall, hvalue, if_neg (by simp [hne]), Option.some_inj]
  split <;> simp only [Int.ofNat_eq_natCast] <;> omega

structure Written.Denotes (w : Written) (x : Decimal) : Prop where
  digits : Text.toNat w.digits = x.digits
  exponent : w.exponent - w.places = x.exponent
  count : (w.digits.dropWhile (· == 0x30)).length = digitCount x.digits

theorem readWritten_ofNat (n : ℕ) (hn : 0 < n) :
    ∃ w, readWritten (Text.ofNat n) = some w ∧ w.Denotes ⟨n, 0⟩ := by
  have hread := readWritten_of_whole (r := []) (fun c => Text.isDigit_of_mem_ofNat (n := n))
    (Text.ofNat_ne_nil n) (by simp) rfl
  rw [List.append_nil] at hread
  refine ⟨_, hread, Text.toNat_ofNat n, by simp, ?_⟩
  rw [Text.dropWhile_ofNat hn, Text.length_ofNat]

theorem readWritten_scientific (hx : 0 < x.digits) :
    ∃ w, readWritten x.scientific = some w ∧ w.Denotes x := by
  have hdigits (c) (hc : c ∈ Text.ofNat x.digits) : Text.isDigit c = true :=
    Text.isDigit_of_mem_ofNat hc
  have hne := Text.ofNat_ne_nil x.digits
  have hvalue := Text.toNat_ofNat x.digits
  have hdrop := Text.dropWhile_ofNat hx
  have hcount := Text.length_ofNat x.digits
  have hhead (k : ℕ) : ∀ c ∈ (text "e" ++ exponentText (x.exponent + k)).head?,
      Text.isDigit c = false ∧ c ≠ 0x2e := by
    intro c hc
    cases hc
    decide
  simp only [Decimal.scientific]
  generalize Text.ofNat x.digits = ds at *
  split
  · rename_i hone
    have hread := readWritten_of_whole hdigits hne (hhead _)
      (readExponent_exponentText (x.exponent + (ds.length - 1 : ℕ)))
    rw [List.append_assoc, hread]
    exact ⟨_, rfl, hvalue, by simp [hone], by rw [hdrop, hcount]⟩
  · have htake (c) (hc : c ∈ ds.take 1) := hdigits c (List.mem_of_mem_take hc)
    have hrest (c) (hc : c ∈ ds.drop 1) := hdigits c (List.mem_of_mem_drop hc)
    have hread := readWritten_of_point htake (by simpa using hne) hrest
      (fun c hc => (hhead _ c hc).1)
      (readExponent_exponentText (x.exponent + (ds.length - 1 : ℕ)))
    rw [List.append_assoc, List.append_assoc, List.append_assoc, hread]
    refine ⟨_, rfl, ?_, ?_, ?_⟩
    · rw [List.take_append_drop, hvalue]
    · rw [List.length_drop, add_sub_cancel_right]
    · rw [List.take_append_drop, hdrop, hcount]

theorem readWritten_positional {k : ℕ} (hx : 0 < x.digits) (he : x.exponent = .negSucc k)
    (whole : ℕ) :
    ∃ w, readWritten (x.positional whole) = some w ∧ w.Denotes x := by
  have hdigits (c) (hc : c ∈ Text.ofNat x.digits) : Text.isDigit c = true :=
    Text.isDigit_of_mem_ofNat hc
  have hvalue := Text.toNat_ofNat x.digits
  have hdrop := Text.dropWhile_ofNat hx
  have hcount := Text.length_ofNat x.digits
  simp only [Decimal.positional, he]
  generalize Text.ofNat x.digits = ds at *
  split
  · rename_i hlt
    have htake (c) (hc : c ∈ ds.take (ds.length - (k + 1))) := hdigits c (List.mem_of_mem_take hc)
    have hrest (c) (hc : c ∈ ds.drop (ds.length - (k + 1))) := hdigits c (List.mem_of_mem_drop hc)
    have hne : ds.take (ds.length - (k + 1)) ≠ [] :=
      List.ne_nil_of_length_pos (by rw [List.length_take]; omega)
    have hread := readWritten_of_point (r := []) htake hne hrest (by simp) rfl
    rw [List.append_nil] at hread
    rw [List.append_assoc, hread]
    refine ⟨_, rfl, ?_, ?_, ?_⟩
    · rw [List.take_append_drop, hvalue]
    · rw [List.length_drop, he]
      dsimp only
      omega
    · rw [List.take_append_drop, hdrop, hcount]
  · rename_i hle
    have hzeros (c) (hc : c ∈ List.replicate (k + 1 - ds.length) 0x30 ++ ds) :
        Text.isDigit c = true := by
      cases List.mem_append.1 hc with
      | inl hc =>
        rw [(List.mem_replicate.1 hc).2]
        decide
      | inr hc => exact hdigits c hc
    have hread := readWritten_of_point (w := text "0") (r := []) (by decide) (by decide) hzeros
      (by simp) rfl
    rw [List.append_nil] at hread
    have heq : text "0." ++ List.replicate (k + 1 - ds.length) 0x30 ++ ds =
        text "0" ++ (text "." ++ (List.replicate (k + 1 - ds.length) 0x30 ++ ds)) := by
      rw [List.append_assoc]
      rfl
    rw [heq, hread]
    refine ⟨_, rfl, ?_, ?_, ?_⟩
    · exact (Text.toNat_replicate_append 1 _).trans ((Text.toNat_replicate_append _ _).trans hvalue)
    · rw [List.length_append, List.length_replicate, he]
      dsimp only
      omega
    · have hskip := (Text.dropWhile_replicate_append 1 _).trans
        ((Text.dropWhile_replicate_append (k + 1 - ds.length) ds).trans hdrop)
      exact (congrArg List.length hskip).trans hcount

open TypeExpr (isNumeral)

theorem isNumeral_of_isDigit {c : UInt8} (hc : Text.isDigit c = true) : isNumeral c = true := by
  simp [isNumeral, hc]

structure IsDecimal (t : Text) : Prop where
  bytes : ∀ c ∈ t, isNumeral c = true
  head : ∃ c ∈ t.head?, Text.isDigit c = true

theorem isDecimal_of_isDigit (ht : ∀ c ∈ w, Text.isDigit c = true) (hne : w ≠ []) :
    IsDecimal w := by
  cases w with
  | nil => exact absurd rfl hne
  | cons c w => exact ⟨fun d hd => isNumeral_of_isDigit (ht d hd), c, rfl, ht c (by simp)⟩

theorem IsDecimal.append (hw : IsDecimal w) (hr : ∀ c ∈ r, isNumeral c = true) :
    IsDecimal (w ++ r) := by
  obtain ⟨c, hc, hdigit⟩ := hw.head
  constructor
  · intro d hd
    cases List.mem_append.1 hd with
    | inl hd => exact hw.bytes d hd
    | inr hd => exact hr d hd
  · exact ⟨c, by rw [List.head?_append, hc]; rfl, hdigit⟩

theorem isDecimal_ofNat (n : ℕ) : IsDecimal (Text.ofNat n) :=
  isDecimal_of_isDigit (fun _ => Text.isDigit_of_mem_ofNat) (Text.ofNat_ne_nil n)

theorem isNumeral_exponentText {c : UInt8} (hc : c ∈ exponentText e) : isNumeral c = true := by
  obtain ⟨ds, heq, hdigits, -⟩ := exponentText_eq e
  rw [heq] at hc
  cases List.mem_append.1 hc with
  | inl hc =>
    have hsigns : ∀ s ∈ ["-", "+"], ∀ c ∈ text s, isNumeral c = true := by decide
    exact hsigns _ (by split <;> simp) c hc
  | inr hc => exact isNumeral_of_isDigit (hdigits c hc)

theorem isDecimal_scientific (x : Decimal) : IsDecimal x.scientific := by
  have hdigits (c) (hc : c ∈ Text.ofNat x.digits) : Text.isDigit c = true :=
    Text.isDigit_of_mem_ofNat hc
  have hne := Text.ofNat_ne_nil x.digits
  simp only [Decimal.scientific]
  generalize Text.ofNat x.digits = ds at *
  apply IsDecimal.append (IsDecimal.append _ (by decide)) fun c hc => isNumeral_exponentText hc
  split
  · exact isDecimal_of_isDigit hdigits hne
  · apply IsDecimal.append (IsDecimal.append _ (by decide))
    · exact fun c hc => isNumeral_of_isDigit (hdigits c (List.mem_of_mem_drop hc))
    · exact isDecimal_of_isDigit (fun c hc => hdigits c (List.mem_of_mem_take hc))
        (by simpa using hne)

theorem isDecimal_positional (x : Decimal) (whole : ℕ) : IsDecimal (x.positional whole) := by
  have hdigits (c) (hc : c ∈ Text.ofNat x.digits) : Text.isDigit c = true :=
    Text.isDigit_of_mem_ofNat hc
  simp only [Decimal.positional]
  cases x.exponent with
  | ofNat k => exact isDecimal_ofNat whole
  | negSucc k =>
    dsimp only
    generalize Text.ofNat x.digits = ds at *
    split
    · rename_i hlt
      apply IsDecimal.append (IsDecimal.append _ (by decide))
      · exact fun c hc => isNumeral_of_isDigit (hdigits c (List.mem_of_mem_drop hc))
      · exact isDecimal_of_isDigit (fun c hc => hdigits c (List.mem_of_mem_take hc))
          (List.ne_nil_of_length_pos (by rw [List.length_take]; omega))
    · apply IsDecimal.append (IsDecimal.append ⟨by decide, by decide⟩ _)
      · exact fun c hc => isNumeral_of_isDigit (hdigits c hc)
      · intro c hc
        rw [(List.mem_replicate.1 hc).2]
        decide

end Number

end FlowTyping
