import FlowTyping.Proofs.NumberTexts
import FlowTyping.Spelling
import FlowTyping.TypeExpr.OfType
import Mathlib.Data.List.DropRight

namespace FlowTyping

variable {t : Ty} {ts : List Ty} {w v b r ds : Text} {c : UInt8}

namespace Text

theorem trim_of_blanks (hb : ∀ c ∈ b, isBlank c = true) (hr : ∀ c ∈ r, isBlank c = true)
    (hfirst : ∃ c ∈ w.head?, isBlank c = false) (hlast : ∃ c ∈ w.getLast?, isBlank c = false) :
    (b ++ w ++ r).trim = w := by
  obtain ⟨c, hc, hfirst⟩ := hfirst
  obtain ⟨d, hd, hlast⟩ := hlast
  have hfront : (b ++ (w ++ r)).dropWhile isBlank = w ++ r := by
    apply dropWhile_append hb
    intro c' hc'
    rw [List.head?_append, hc] at hc'
    cases hc'
    exact hfirst
  have hback : (r.reverse ++ w.reverse).dropWhile isBlank = w.reverse := by
    apply dropWhile_append fun c hc => hr c (List.mem_reverse.1 hc)
    intro d' hd'
    rw [List.head?_reverse, hd] at hd'
    cases hd'
    exact hlast
  rw [trim, List.append_assoc, hfront, List.reverse_append, hback, List.reverse_reverse]

end Text

namespace Spelling

theorem integer?_minus (w : Text) : integer? (0x2d :: w) =
    if w.isEmpty || !w.all Text.isDigit then none else some (canonicalDigits true w) := rfl

theorem integer?_of_head (hw : ∀ c ∈ w.head?, c ≠ 0x2d) : integer? w =
    if w.isEmpty || !w.all Text.isDigit then none else some (canonicalDigits false w) := by
  cases w with
  | nil => rfl
  | cons c w =>
    rw [integer?, if_neg (hw c rfl)]

theorem canonicalDigits_cases (negative : Bool) (hds : ∀ c ∈ ds, Text.isDigit c = true) :
    canonicalDigits negative ds = text "0" ∨ ∃ c e, (∀ d ∈ c :: e, Text.isDigit d = true) ∧
      (c :: e).dropWhile (· == 0x30) = c :: e ∧
      canonicalDigits negative ds = if negative then text "-" ++ c :: e else c :: e := by
  rw [canonicalDigits]
  cases hdrop : ds.dropWhile (· == 0x30) with
  | nil => exact .inl rfl
  | cons c e =>
    refine .inr ⟨c, e, ?_, ?_, rfl⟩
    · intro d hd
      rw [← hdrop] at hd
      exact hds d ((List.dropWhile_sublist _).subset hd)
    · rw [← hdrop, List.dropWhile_idempotent]

theorem integer?_canonicalDigits (negative : Bool) (hds : ∀ c ∈ ds, Text.isDigit c = true) :
    integer? (canonicalDigits negative ds) = some (canonicalDigits negative ds) := by
  cases canonicalDigits_cases negative hds with
  | inl hzero =>
    rw [hzero]
    exact integer?_of_head (w := text "0") (by decide)
  | inr hdigits =>
    obtain ⟨c, e, hdigits, hdrop, heq⟩ := hdigits
    have hall : ((c :: e).isEmpty || !(c :: e).all Text.isDigit) = false := by simpa using hdigits
    have hself (negative : Bool) :
        canonicalDigits negative (c :: e) = if negative then text "-" ++ c :: e else c :: e := by
      rw [canonicalDigits, hdrop]
    rw [heq]
    cases negative with
    | true =>
      have hminus := integer?_minus (c :: e)
      rw [hall, if_neg Bool.false_ne_true, hself] at hminus
      exact hminus
    | false =>
      have hhead : ∀ d ∈ (c :: e).head?, d ≠ 0x2d := by
        rintro d hd rfl
        cases hdigits _ (List.mem_of_mem_head? hd)
      have hplain := integer?_of_head hhead
      rw [hall, if_neg Bool.false_ne_true, hself] at hplain
      exact hplain

theorem exists_canonicalDigits (hds : integer? w = some ds) :
    ∃ negative e, (∀ c ∈ e, Text.isDigit c = true) ∧ ds = canonicalDigits negative e := by
  have hcanonical (negative : Bool) (e : Text)
      (he : (if e.isEmpty || !e.all Text.isDigit then none else some (canonicalDigits negative e)) =
        some ds) : ∃ negative e, (∀ c ∈ e, Text.isDigit c = true) ∧
          ds = canonicalDigits negative e := by
    split at he
    · cases he
    · rename_i hdigits
      cases he
      simp only [Bool.or_eq_true, Bool.not_eq_true', not_or, Bool.not_eq_false,
        List.all_eq_true] at hdigits
      exact ⟨negative, e, hdigits.2, rfl⟩
  by_cases hsign : ∃ e, w = 0x2d :: e
  · obtain ⟨e, rfl⟩ := hsign
    exact hcanonical true e (integer?_minus e ▸ hds)
  · rw [integer?_of_head] at hds
    · exact hcanonical false w hds
    · rintro c hc rfl
      exact hsign ⟨w.tail, List.eq_cons_of_mem_head? hc⟩

end Spelling

inductive Ty.Spelled : Ty → Prop
  | simple {s : Simple} (hs : s ∈ Spelling.words) : Spelled (.simple s)
  | string (v : Text) : Spelled (.string v)
  | number (x : Number) : Spelled (.number x)
  | bigint (negative : Bool) {ds : Text} (hds : ∀ c ∈ ds, Text.isDigit c = true) :
    Spelled (.bigint (Spelling.canonicalDigits negative ds))
  | boolean (b : Bool) : Spelled (.boolean b)

theorem Ty.Spelled.node? (ht : t.Spelled) : t.node? = none := by
  cases ht <;> rfl

namespace Spelling

theorem spelled_of_word? (ht : word? w = some t) : t.Spelled := by
  rw [word?] at ht
  split at ht
  · rename_i s hs
    cases ht
    exact .simple (List.mem_of_find?_eq_some hs)
  · split at ht
    · cases ht
      exact .boolean true
    · split at ht <;> cases ht
      exact .boolean false

theorem spelled_of_bigint? (hds : bigint? w = some ds) : (Ty.bigint ds).Spelled := by
  rw [bigint?] at hds
  split at hds
  · obtain ⟨negative, e, he, rfl⟩ := exists_canonicalDigits hds
    exact .bigint negative he
  · cases hds

theorem spelled_of_read (ht : read w = .ok t) : t.Spelled := by
  rw [read] at ht
  generalize w.trim = w at ht
  cases w with
  | nil => cases ht
  | cons c w =>
    simp only [readTrimmed] at ht
    split at ht
    · rename_i t' hword
      cases ht
      exact spelled_of_word? hword
    · split at ht
      · split at ht <;> cases ht
        exact .string _
      · split at ht
        · rename_i ds hds
          cases ht
          exact spelled_of_bigint? hds
        · split at ht <;> cases ht
          exact .number _

theorem spelled_of_readAll {args : List Text} (hts : readAll args = .ok ts) :
    ∀ t ∈ ts, t.Spelled := by
  rw [readAll] at hts
  generalize args.flatMap split = pieces at hts
  induction pieces generalizing ts with
  | nil =>
    cases hts
    simp
  | cons p pieces ih =>
    rw [List.mapM_cons] at hts
    cases hp : read p with
    | error e =>
      rw [hp] at hts
      cases hts
    | ok t =>
      cases hrest : pieces.mapM read with
      | error e =>
        rw [hp, hrest] at hts
        cases hts
      | ok rest =>
        rw [hp, hrest] at hts
        cases hts
        exact List.forall_mem_cons.2 ⟨spelled_of_read hp, ih hrest⟩

/-- Text that stands for a type, wherever there are blanks or bars around it. -/
structure Spells (w : Text) (t : Ty) : Prop where
  first : ∃ c ∈ w.head?, Text.isBlank c = false
  last : ∃ c ∈ w.getLast?, Text.isBlank c = false
  passes : ∀ piece r, splitFrom none piece (w ++ r) = splitFrom none (piece ++ w) r
  reads : readTrimmed w = .ok t

theorem Spells.read_blanks (h : Spells w t) (hb : ∀ c ∈ b, Text.isBlank c = true)
    (hr : ∀ c ∈ r, Text.isBlank c = true) : read (b ++ w ++ r) = .ok t := by
  rw [read, Text.trim_of_blanks hb hr h.first h.last, h.reads]

theorem splitFrom_bar (piece r : Text) : splitFrom none piece (text " | " ++ r) =
    (piece ++ [0x20]) :: splitFrom none [0x20] r := rfl

theorem mapM_read_join {spell : Ty → Text} (hts : ∀ t ∈ ts, Spells (spell t) t) (hne : ts ≠ [])
    (hb : ∀ c ∈ b, Text.isBlank c = true) :
    (splitFrom none b (Text.join (text " | ") (ts.map spell))).mapM read = .ok ts := by
  -- `b` is what stands between the last bar and the first of the alternatives.
  induction ts generalizing b with
  | nil => exact absurd rfl hne
  | cons t ts ih =>
    have ht := hts t List.mem_cons_self
    cases ts with
    | nil =>
      have hsplit := ht.passes b []
      have hread := ht.read_blanks hb (r := []) (by simp)
      rw [List.append_nil] at hsplit hread
      rw [List.map_singleton, Text.join, hsplit, splitFrom, List.mapM_cons, hread]
      rfl
    | cons t' ts =>
      have hjoin : Text.join (text " | ") ((t :: t' :: ts).map spell) =
          spell t ++ (text " | " ++ Text.join (text " | ") ((t' :: ts).map spell)) :=
        List.append_assoc _ _ _
      have hread := ht.read_blanks hb (r := [0x20]) (by decide)
      have hrest := ih (b := [0x20]) (fun t ht => hts t (List.mem_cons_of_mem _ ht)) (by simp)
        (by decide)
      rw [hjoin, ht.passes, splitFrom_bar, List.mapM_cons, hread, hrest]
      rfl

def isOrdinary (c : UInt8) : Bool := !Text.isBlank c && !isQuote c && c != 0x7c

theorem splitFrom_append (hw : ∀ c ∈ w, isQuote c = false ∧ c ≠ 0x7c) (piece r : Text) :
    splitFrom none piece (w ++ r) = splitFrom none (piece ++ w) r := by
  induction w generalizing piece with
  | nil => rw [List.nil_append, List.append_nil]
  | cons c w ih =>
    obtain ⟨hquote, hbar⟩ := hw c List.mem_cons_self
    rw [List.cons_append, splitFrom, hquote, if_neg Bool.false_ne_true, if_neg hbar,
      ih fun c hc => hw c (List.mem_cons_of_mem _ hc), List.append_assoc, List.singleton_append]

theorem splitFrom_append_of_open {q : UInt8} (hw : q ∉ w) (piece r : Text) :
    splitFrom (some q) piece (w ++ r) = splitFrom (some q) (piece ++ w) r := by
  induction w generalizing piece with
  | nil => rw [List.nil_append, List.append_nil]
  | cons c w ih =>
    rw [List.mem_cons, not_or] at hw
    rw [List.cons_append, splitFrom, if_neg (Ne.symm hw.1), ih hw.2, List.append_assoc,
      List.singleton_append]

theorem Spells.of_ordinary (hw : ∀ c ∈ w, isOrdinary c = true) (hne : w ≠ [])
    (ht : readTrimmed w = .ok t) : Spells w t := by
  simp only [isOrdinary, Bool.and_eq_true, Bool.not_eq_true', bne_iff_ne] at hw
  refine ⟨?_, ?_, splitFrom_append fun c hc => ⟨(hw c hc).1.2, (hw c hc).2⟩, ht⟩
  · exact ⟨w.head hne, List.head?_eq_some_head hne, (hw _ (List.head_mem hne)).1.1⟩
  · exact ⟨w.getLast hne, List.getLast?_eq_some_getLast hne, (hw _ (List.getLast_mem hne)).1.1⟩

theorem readTrimmed_of_word? (ht : word? w = some t) : readTrimmed w = .ok t := by
  rw [readTrimmed.eq_def, ht]

theorem word?_eq_none (hc : Text.isLetter c = false) (w : Text) : word? (c :: w) = none := by
  have hword (s : String) (hs : ∃ c ∈ (text s).head?, Text.isLetter c = true) :
      c :: w ≠ text s := by
    obtain ⟨c', hc', hs⟩ := hs
    intro heq
    rw [← heq] at hc'
    cases hc'
    rw [hc] at hs
    cases hs
  have hwords : words.find? (fun s => c :: w = text s.name) = none := by
    rw [List.find?_eq_none]
    intro s hs
    have hhead : ∀ s ∈ words, ∃ c ∈ (text s.name).head?, Text.isLetter c = true := by decide
    simpa using hword s.name (hhead s hs)
  rw [word?, hwords]
  simp only [if_neg (hword "true" (by decide)), if_neg (hword "false" (by decide))]

theorem spells_simple {s : Simple} (hs : s ∈ words) : Spells (text s.name) (.simple s) := by
  have hall : ∀ s ∈ words, (∀ c ∈ text s.name, isOrdinary c = true) ∧ text s.name ≠ [] ∧
      word? (text s.name) = some (.simple s) := by decide
  obtain ⟨hordinary, hne, hword⟩ := hall s hs
  exact .of_ordinary hordinary hne (readTrimmed_of_word? hword)

theorem spells_boolean (b : Bool) : Spells (text (if b then "true" else "false")) (.boolean b) := by
  have hall : ∀ b : Bool, (∀ c ∈ text (if b then "true" else "false"), isOrdinary c = true) ∧
      text (if b then "true" else "false") ≠ [] ∧
      word? (text (if b then "true" else "false")) = some (.boolean b) := by decide
  obtain ⟨hordinary, hne, hword⟩ := hall b
  exact .of_ordinary hordinary hne (readTrimmed_of_word? hword)

theorem spells_string (hv : 0x22 ∉ v) : Spells (text "\"" ++ v ++ text "\"") (.string v) := by
  have hcons : text "\"" ++ v ++ text "\"" = 0x22 :: (v ++ [0x22]) := rfl
  rw [hcons]
  constructor
  · exact ⟨0x22, rfl, by decide⟩
  · exact ⟨0x22, by rw [← List.cons_append, List.getLast?_concat]; rfl, by decide⟩
  · intro piece r
    have hopen : splitFrom none piece (0x22 :: (v ++ [0x22]) ++ r) =
        splitFrom (some 0x22) (piece ++ [0x22]) (v ++ (0x22 :: r)) := by
      rw [List.cons_append, List.append_assoc]
      rfl
    rw [hopen, splitFrom_append_of_open hv, splitFrom, if_pos rfl]
    simp
  · rw [readTrimmed, word?_eq_none (by decide)]
    simp [isQuote]

open TypeExpr (IsNumber isNumeral)

theorem isOrdinary_of_isNumeral (hc : isNumeral c = true) : isOrdinary c = true := by
  simp only [isNumeral, Bool.or_eq_true, beq_iff_eq] at hc
  rcases hc with (((hc | rfl) | rfl) | rfl) | rfl
  · have hdigit := Text.isDigit_iff.1 hc
    simp only [isOrdinary, Text.isBlank, isQuote, UInt8.le_iff_toNat_le, ← UInt8.toNat_inj,
      Bool.and_eq_true, Bool.not_eq_true', Bool.or_eq_false_iff, beq_eq_false_iff_ne, bne_iff_ne,
      Bool.and_eq_false_iff, decide_eq_false_iff_not, ne_eq, UInt8.reduceToNat]
    omega
  all_goals decide

theorem word?_of_isNumber (hw : IsNumber w) (r : Text) : word? (w ++ r) = none := by
  cases w with
  | nil => exact absurd rfl hw.ne_nil
  | cons c w =>
    apply word?_eq_none
    cases hw.head c rfl with
    | inl hc =>
      have hle := (Text.isDigit_iff.1 hc).2
      simp [Text.isLetter, UInt8.le_iff_toNat_le]
      omega
    | inr hc => rw [hc]; decide

theorem isNumber_canonicalDigits (negative : Bool) (hds : ∀ c ∈ ds, Text.isDigit c = true) :
    IsNumber (canonicalDigits negative ds) := by
  apply TypeExpr.IsBigint.isNumber
  cases canonicalDigits_cases negative hds with
  | inl hzero =>
    have hdigit : ∀ c ∈ text "0", Text.isDigit c = true := by decide
    exact hzero ▸ .positive (List.cons_ne_nil _ _) hdigit
  | inr hdigits =>
    obtain ⟨c, e, hdigits, -, heq⟩ := hdigits
    rw [heq]
    cases negative with
    | true => exact .negative (List.cons_ne_nil c e) hdigits
    | false => exact .positive (List.cons_ne_nil c e) hdigits

theorem isQuote_of_isOrdinary (hc : isOrdinary c = true) : isQuote c = false := by
  simp only [isOrdinary, Bool.and_eq_true, Bool.not_eq_true'] at hc
  exact hc.1.2

theorem Spells.of_bigint? (hw : ∀ c ∈ w, isOrdinary c = true) (hword : word? w = none)
    (hds : bigint? w = some ds) : Spells w (.bigint ds) := by
  cases w with
  | nil => cases hds
  | cons c w =>
    have hquote := isQuote_of_isOrdinary (hw c List.mem_cons_self)
    apply Spells.of_ordinary hw (List.cons_ne_nil c w)
    simp only [readTrimmed, hword, hquote, Bool.false_eq_true, if_false, hds]

theorem Spells.of_number {x : Number} (hw : ∀ c ∈ w, isOrdinary c = true) (hword : word? w = none)
    (hbigint : bigint? w = none) (hx : Number.read w = some x) : Spells w (.number x) := by
  cases w with
  | nil => cases hx
  | cons c w =>
    have hquote := isQuote_of_isOrdinary (hw c List.mem_cons_self)
    apply Spells.of_ordinary hw (List.cons_ne_nil c w)
    simp only [readTrimmed, hword, hquote, Bool.false_eq_true, if_false, hbigint, hx]

theorem spells_of_integer? (hw : IsNumber w) (hds : integer? w = some ds) :
    Spells (w ++ text "n") (.bigint ds) := by
  have hordinary : ∀ c ∈ w ++ text "n", isOrdinary c = true := by
    intro c hc
    cases List.mem_append.1 hc with
    | inl hc => exact isOrdinary_of_isNumeral (hw.bytes c hc)
    | inr hc =>
      have hsuffix : ∀ c ∈ text "n", isOrdinary c = true := by decide
      exact hsuffix c hc
  have hbigint : bigint? (w ++ text "n") = some ds := by
    have htext : text "n" = [0x6e] := rfl
    rw [bigint?, htext, List.getLast?_concat, if_pos rfl, List.dropLast_concat, hds]
  exact .of_bigint? hordinary (word?_of_isNumber hw _) hbigint

theorem spells_bigint (negative : Bool) (hds : ∀ c ∈ ds, Text.isDigit c = true) :
    Spells (canonicalDigits negative ds ++ text "n") (.bigint (canonicalDigits negative ds)) :=
  spells_of_integer? (isNumber_canonicalDigits negative hds) (integer?_canonicalDigits negative hds)

theorem isNumber_print {x : Number} {s : Bool} {m : ℕ} {q : ℤ} (hx : x.value = .finite s m q) :
    IsNumber x.print := by
  have hdecimal := Number.isDecimal_unsignedText m q
  rw [Number.print_of_finite hx]
  generalize Number.unsignedText m q = w at hdecimal
  obtain ⟨c, hc, hdigit⟩ := hdecimal.head
  obtain ⟨w, rfl⟩ : ∃ w', w = c :: w' := ⟨w.tail, List.eq_cons_of_mem_head? hc⟩
  cases s with
  | true =>
    refine ⟨List.cons_ne_nil _ _, ?_, ?_⟩
    · exact List.forall_mem_cons.2 ⟨by decide, hdecimal.bytes⟩
    · rintro _ ⟨⟩
      exact .inr rfl
  | false =>
    refine ⟨List.cons_ne_nil _ _, hdecimal.bytes, ?_⟩
    rintro _ ⟨⟩
    exact .inl hdigit

theorem spells_number (x : Number) : Spells x.print (.number x) := by
  have hread := Number.read_print x
  cases hx : x.value with
  | nan =>
    rw [Number.eq_nan hx] at hread ⊢
    exact .of_number (by decide) (by decide) (by decide) hread
  | infinite s =>
    rw [Number.eq_infinity hx] at hread ⊢
    cases s <;> exact .of_number (by decide) (by decide) (by decide) hread
  | finite s m q =>
    have hnumber := isNumber_print hx
    have hword := word?_of_isNumber hnumber []
    rw [List.append_nil] at hword
    have hbigint : bigint? x.print = none := by
      rw [bigint?, if_neg]
      intro hlast
      cases hnumber.bytes _ (List.mem_of_getLast? hlast)
    exact .of_number (fun c hc => isOrdinary_of_isNumeral (hnumber.bytes c hc)) hword hbigint hread

end Spelling

namespace Ty

def written : Ty → TypeExpr
  | .simple s => .ofSimple s
  | .string v => .string v
  | .number x => .number x.print
  | .bigint ds => .bigint ds
  | .symbol _ => .uniqueSymbol (text "unique symbol")
  | .boolean b => .boolean (text (if b then "true" else "false"))
  | .node _ => .any

def Verbatim : Ty → Prop
  | .string v => ∀ c ∈ v, c ∉ ([0x22, 0x5c, 0x0a, 0x09] : List UInt8)
  | _ => True

instance : DecidablePred Verbatim
  | .string v => inferInstanceAs (Decidable (∀ c ∈ v, c ∉ ([0x22, 0x5c, 0x0a, 0x09] : List UInt8)))
  | .simple _ | .number _ | .bigint _ | .symbol _ | .boolean _ | .node _ => .isTrue trivial

theorem Verbatim.quote (hv : (string v).Verbatim) :
    TypeExpr.quote v = text "\"" ++ v ++ text "\"" := by
  have hescape : ∀ c ∈ v, TypeExpr.escape c = [c] := by
    intro c hc
    have hc := hv c hc
    simp only [List.mem_cons, not_or] at hc
    simp only [TypeExpr.escape, hc, if_false]
  rw [TypeExpr.quote, List.flatMap_congr hescape, List.flatMap_singleton']

theorem Spelled.spells (ht : t.Spelled) (hverbatim : t.Verbatim) :
    Spelling.Spells t.written.render t := by
  cases ht with
  | @simple s hs =>
    have hrender : (written (.simple s)).render = text s.name := by
      cases s <;> first | rfl | exact absurd hs (by decide)
    rw [hrender]
    exact Spelling.spells_simple hs
  | string v =>
    have hquote : (written (.string v)).render = TypeExpr.quote v := by
      rw [written, TypeExpr.render]
    rw [hquote, hverbatim.quote]
    apply Spelling.spells_string
    intro hmem
    exact hverbatim _ hmem (by decide)
  | number x =>
    rw [written, TypeExpr.render]
    exact Spelling.spells_number x
  | bigint negative hds =>
    rw [written, TypeExpr.render]
    exact Spelling.spells_bigint negative hds
  | boolean b =>
    rw [written, TypeExpr.render]
    exact Spelling.spells_boolean b

end Ty

end FlowTyping
