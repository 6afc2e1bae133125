import FlowTyping.Proofs.AnnotationReader
import Mathlib.Data.List.TakeWhile

namespace FlowTyping.TypeExpr

variable {a b : TypeExpr} {s r t w : Text} {c : UInt8}

theorem renderAll_eq (as : List TypeExpr) : renderAll as = as.map render := by
  induction as with
  | nil => rfl
  | cons a as ih => rw [renderAll, ih, List.map_cons]

def renderField (f : Text × Bool × TypeExpr) : Text := f.1 ++ fieldMark f.2.1 ++ f.2.2.render

theorem renderFields_eq (fs : List (Text × Bool × TypeExpr)) :
    renderFields fs = fs.map renderField := by
  induction fs with
  | nil => rfl
  | cons f fs ih => rw [renderFields, ih, List.map_cons, renderField]

def renderFactor (a : TypeExpr) : Text := parenthesize (a.isSignature || a.isUnion) a.render

theorem renderFactors_eq (as : List TypeExpr) : renderFactors as = as.map renderFactor := by
  induction as with
  | nil => rfl
  | cons a as ih => rw [renderFactors, ih, List.map_cons, renderFactor]

def renderSummand (a : TypeExpr) : Text := parenthesize a.isSignature a.render

theorem renderSummands_eq (as : List TypeExpr) : renderSummands as = as.map renderSummand := by
  induction as with
  | nil => rfl
  | cons a as ih => rw [renderSummands, ih, List.map_cons, renderSummand]

def isIntersection : TypeExpr → Bool
  | .intersection _ => true
  | _ => false

def IsKeyword (w : Text) : Prop := ∃ s, ofSimple s = .keyword w

theorem isKeyword_iff : IsKeyword w ↔ w ∈ keywords := by
  constructor
  · rintro ⟨s, hs⟩
    cases s <;> cases hs <;> decide
  · intro hw
    simp only [keywords, List.mem_map] at hw
    obtain ⟨s, hs, rfl⟩ := hw
    exact ⟨s, by cases s <;> first | rfl | simp at hs⟩

structure IsName (w : Text) : Prop where
  ne_nil : w ≠ []
  bytes : ∀ c ∈ w, isNameByte c = true
  head : ∀ c ∈ w.head?, Text.isDigit c = false

instance (w : Text) : Decidable (IsName w) :=
  decidable_of_iff (w ≠ [] ∧ (∀ c ∈ w, isNameByte c = true) ∧
      ∀ c ∈ w.head?, Text.isDigit c = false)
    ⟨fun h => ⟨h.1, h.2.1, h.2.2⟩, fun h => ⟨h.ne_nil, h.bytes, h.head⟩⟩

/-- Words that name no type, as they begin something else. -/
def reserved : List Text :=
  [text "new", text "typeof", text "unique", text "true", text "false"]

/-- Names of types; after `typeof` stands the name of a value. -/
inductive IsTypeName : Text → Prop
  | type {w : Text} (hname : IsName w) (hreserved : w ∉ reserved) (hkeyword : ¬ IsKeyword w) :
    IsTypeName w
  | value {w : Text} (hname : IsName w) : IsTypeName (text "typeof " ++ w)

structure IsNumber (w : Text) : Prop where
  ne_nil : w ≠ []
  bytes : ∀ c ∈ w, isNumeral c = true
  head : ∀ c ∈ w.head?, Text.isDigit c = true ∨ c = 0x2d

inductive IsBigint : Text → Prop
  | positive {w : Text} (hne : w ≠ []) (hdigits : ∀ c ∈ w, Text.isDigit c = true) : IsBigint w
  | negative {w : Text} (hne : w ≠ []) (hdigits : ∀ c ∈ w, Text.isDigit c = true) :
    IsBigint (0x2d :: w)

/-- Expressions with the words, names and numbers that annotations have, in which parts of unions
are no unions and parts of intersections no intersections. -/
inductive WellWritten : TypeExpr → Prop
  | keyword {w : Text} (hw : IsKeyword w) : WellWritten (.keyword w)
  | string (t : Text) : WellWritten (.string t)
  | number {w : Text} (hw : IsNumber w) : WellWritten (.number w)
  | bigint {w : Text} (hw : IsBigint w) : WellWritten (.bigint w)
  | boolean (b : Bool) : WellWritten (.boolean (text (if b then "true" else "false")))
  | uniqueSymbol : WellWritten (.uniqueSymbol (text "unique symbol"))
  | braces {fields : List (Text × Bool × TypeExpr)} (hnames : ∀ f ∈ fields, IsName f.1)
    (hfields : ∀ f ∈ fields, WellWritten f.2.2) : WellWritten (.braces fields)
  | signature {role : Role} {params : List (Text × Bool × TypeExpr)} {result : TypeExpr}
    (hnames : ∀ p ∈ params, IsName p.1) (hparams : ∀ p ∈ params, WellWritten p.2.2)
    (hresult : WellWritten result) : WellWritten (.signature role params [result])
  | reference {name : Text} {args : List TypeExpr} (hname : IsTypeName name)
    (hargs : ∀ a ∈ args, WellWritten a) : WellWritten (.reference name args)
  | intersection {parts : List TypeExpr} (hmany : 2 ≤ parts.length)
    (hflat : ∀ a ∈ parts, a.isIntersection = false) (hparts : ∀ a ∈ parts, WellWritten a) :
    WellWritten (.intersection parts)
  | union {parts : List TypeExpr} (hmany : 2 ≤ parts.length)
    (hflat : ∀ a ∈ parts, a.isUnion = false) (hparts : ∀ a ∈ parts, WellWritten a) :
    WellWritten (.union parts)

theorem parenthesize_append (t r : Text) :
    parenthesize true t ++ r = 0x28 :: (t ++ (text ")" ++ r)) := by
  have heq : parenthesize true t ++ r = 0x28 :: (t ++ text ")" ++ r) := rfl
  rw [heq, List.append_assoc]

theorem endsAt_bar (r : Text) : EndsAt [text " & "] (text " | " ++ r) :=
  endsAt_append (by decide) (by decide) r

theorem endsAt_and (r : Text) : EndsAt [] (text " & " ++ r) :=
  endsAt_append (by decide) (by decide) r

theorem endsAt_close (r : Text) : EndsAt [text " & ", text " | "] (text ")" ++ r) :=
  endsAt_append (by decide) (by decide) r

theorem opensParams_of_span (hspan : s.span isNameByte = (w, r))
    (hhead : ∀ c ∈ r.head?, c ≠ 0x3a ∧ c ≠ 0x3f ∧ (w = [] → c ≠ 0x29)) :
    opensParams s = false := by
  rw [opensParams, hspan]
  cases r with
  | nil => rfl
  | cons c r => simpa [and_assoc] using hhead c rfl

theorem role?_of_span (hspan : s.span isNameByte = (w, r)) (hne : w ≠ [])
    (hnew : w ≠ text "new") : role? s = none := by
  rw [role?, hspan]
  cases w with
  | nil => exact absurd rfl hne
  | cons c w => exact if_neg hnew

theorem role?_cons (hc : isNameByte c = false) (hparams : c = 0x28 → opensParams s = false) :
    role? (c :: s) = none := by
  rw [role?, Text.span_cons hc]
  exact if_neg fun h => by simp [hparams h.1] at h

/-- The text of an expression does not begin as the parameters of a signature do, nor, unless the
expression is one, as a signature does. -/
structure Opens (a : TypeExpr) : Prop where
  inside : ∀ r, EndsAt [] r → opensParams (a.render ++ r) = false
  outside : a.isSignature = false → ∀ r, EndsAt [] r → role? (a.render ++ r) = none

def afterWord : List UInt8 := stops ++ [0x2b, 0x2d, 0x2e, 0x3c]

theorem Opens.of_word (hbytes : ∀ c ∈ w, isNameByte c = true) (hne : w ≠ [])
    (hnew : w ≠ text "new") (hrender : ∀ r, EndsAt [] r →
      ∃ v, a.render ++ r = w ++ v ∧ ∀ c ∈ v.head?, c ∈ afterWord) : Opens a := by
  have hspan (r : Text) (hr : EndsAt [] r) :
      ∃ v, (a.render ++ r).span isNameByte = (w, v) ∧ ∀ c ∈ v.head?, c ∈ afterWord := by
    obtain ⟨v, heq, hv⟩ := hrender r hr
    have hother : ∀ c ∈ afterWord, isNameByte c = false := by decide
    exact ⟨v, heq ▸ Text.span_append hbytes fun c hc => hother c (hv c hc), hv⟩
  constructor
  · intro r hr
    obtain ⟨v, heq, hv⟩ := hspan r hr
    have hother : ∀ c ∈ afterWord, c ≠ 0x3a ∧ c ≠ 0x3f := by decide
    apply opensParams_of_span heq
    intro c hc
    exact ⟨(hother c (hv c hc)).1, (hother c (hv c hc)).2, fun hw => absurd hw hne⟩
  · intro _ r hr
    obtain ⟨v, heq, -⟩ := hspan r hr
    exact role?_of_span heq hne hnew

theorem Opens.of_name (hrender : a.render = w) (hname : IsName w) (hnew : w ≠ text "new") :
    Opens a := by
  apply Opens.of_word hname.bytes hname.ne_nil hnew
  intro r hr
  exact ⟨r, by rw [hrender], fun c hc => List.mem_append_left _ (hr.head c hc)⟩

theorem opensParams_cons (hc : isNameByte c = false) (hother : c ∉ [0x3a, 0x3f, 0x29]) (s : Text) :
    opensParams (c :: s) = false := by
  apply opensParams_of_span (Text.span_cons hc s)
  simpa using hother

theorem Opens.of_head (hrender : a.render = c :: s) (hc : isNameByte c = false)
    (hother : c ∉ [0x3a, 0x3f, 0x29, 0x28]) : Opens a := by
  simp only [List.mem_cons, not_or] at hother
  constructor
  · intro r _
    rw [hrender]
    exact opensParams_cons hc (by simp [hother]) (s ++ r)
  · intro _ r _
    rw [hrender]
    exact role?_cons hc fun h => absurd h hother.2.2.2.1

theorem Opens.parenthesize {needed : Bool} (h : Opens a)
    (hneeded : needed = false → a.isSignature = false) (hr : EndsAt [] r) :
    opensParams (parenthesize needed a.render ++ r) = false ∧
      role? (TypeExpr.parenthesize needed a.render ++ r) = none := by
  cases needed with
  | false => exact ⟨h.inside r hr, h.outside (hneeded rfl) r hr⟩
  | true =>
    have hinside := h.inside (text ")" ++ r) ((endsAt_close r).mono (by simp))
    rw [parenthesize_append]
    exact ⟨opensParams_cons (by decide) (by decide) _, role?_cons (by decide) fun _ => hinside⟩

theorem Opens.of_first {needed : Bool} {sep : Text} (h : Opens b)
    (hneeded : needed = false → b.isSignature = false)
    (hrender : a.render = TypeExpr.parenthesize needed b.render ++ (sep ++ t))
    (hsep : ∀ r, EndsAt [] (sep ++ r)) : Opens a := by
  have heq (r : Text) : a.render ++ r =
      TypeExpr.parenthesize needed b.render ++ (sep ++ (t ++ r)) := by
    simp [hrender]
  constructor
  · intro r _
    rw [heq r]
    exact (h.parenthesize hneeded (hsep _)).1
  · intro _ r _
    rw [heq r]
    exact (h.parenthesize hneeded (hsep _)).2

def renderArgs (args : List TypeExpr) : Text :=
  if args = [] then [] else text "<" ++ Text.join (text ", ") (args.map render) ++ text ">"

theorem render_reference (name : Text) (args : List TypeExpr) :
    (reference name args).render = name ++ renderArgs args := by
  cases args with
  | nil => simp [render, renderArgs]
  | cons a as => simp [render, renderArgs, renderAll_eq]

theorem renderArgs_head {args : List TypeExpr} (hr : EndsAt [] r) :
    ∀ c ∈ (renderArgs args ++ r).head?, c ∈ afterWord := by
  intro c hc
  rw [renderArgs] at hc
  split at hc
  · exact List.mem_append_left _ (hr.head c hc)
  · cases hc
    decide

theorem exists_cons_cons {as : List TypeExpr} (has : 2 ≤ as.length) :
    ∃ a b rest, as = a :: b :: rest := by
  cases as with
  | nil => cases has
  | cons a as =>
    cases as with
    | nil => exact absurd has (by simp)
    | cons b rest => exact ⟨a, b, rest, rfl⟩

theorem render_intersection {b : TypeExpr} {as : List TypeExpr} :
    (intersection (a :: b :: as)).render =
      renderFactor a ++ (text " & " ++ (intersection (b :: as)).render) := by
  simp [render, renderFactors, Text.join, renderFactor]

theorem render_union {b : TypeExpr} {as : List TypeExpr} :
    (union (a :: b :: as)).render =
      renderSummand a ++ (text " | " ++ (union (b :: as)).render) := by
  simp [render, renderSummands, Text.join, renderSummand]

theorem render_union_of_ne_nil {as : List TypeExpr} (has : as ≠ []) :
    (union as).render = Text.join (text " | ") (as.map renderSummand) := by
  cases as with
  | nil => exact absurd rfl has
  | cons a as => simp [render, renderSummands_eq]

theorem render_signature (role : Role) (params : List (Text × Bool × TypeExpr)) :
    (signature role params [a]).render = opening role ++
      (Text.join (text ", ") (params.map renderField) ++ (text ") => " ++ a.render)) := by
  cases role <;> simp [render, renderResult, renderFields_eq, opening]

theorem IsBigint.isNumber (h : IsBigint w) : IsNumber w := by
  have hnumeral (c : UInt8) (hc : Text.isDigit c = true) : isNumeral c = true := by
    simp [isNumeral, hc]
  cases h with
  | positive hne hdigits =>
    exact ⟨hne, fun c hc => hnumeral c (hdigits c hc),
      fun c hc => .inl (hdigits c (List.mem_of_mem_head? hc))⟩
  | negative hne hdigits =>
    refine ⟨by simp, ?_, by simp⟩
    intro c hc
    cases hc with
    | head => decide
    | tail _ hc => exact hnumeral c (hdigits c hc)

theorem isNameByte_of_isDigit (hc : Text.isDigit c = true) : isNameByte c = true := by
  simp [isNameByte, hc]

theorem mem_afterWord_of_isNumeral (hc : isNumeral c = true) (hname : isNameByte c = false) :
    c ∈ afterWord := by
  simp only [isNumeral, Bool.or_eq_true, beq_iff_eq] at hc
  rcases hc with (((hc | rfl) | rfl) | rfl) | rfl
  · rw [isNameByte_of_isDigit hc] at hname
    cases hname
  · decide
  · decide
  · decide
  · cases hname

theorem head_dropWhile_of_isNumeral (hw : ∀ c ∈ w, isNumeral c = true)
    (ht : ∀ c ∈ t, isNameByte c = true) :
    ∀ c ∈ ((w ++ t).dropWhile isNameByte).head?, c ∈ afterWord := by
  intro c hc
  have hname : isNameByte c = false := by
    have hnot := List.head?_dropWhile_not isNameByte (w ++ t)
    rwa [hc] at hnot
  have hmem : c ∈ w ++ t :=
    (List.dropWhile_sublist isNameByte).subset (List.mem_of_mem_head? hc)
  cases List.mem_append.1 hmem with
  | inl hmem => exact mem_afterWord_of_isNumeral (hw c hmem) hname
  | inr hmem =>
    rw [ht c hmem] at hname
    cases hname

theorem Opens.of_number (hrender : a.render = w ++ t) (hw : IsNumber w)
    (ht : ∀ c ∈ t, isNameByte c = true) : Opens a := by
  cases w with
  | nil => exact absurd rfl hw.ne_nil
  | cons c w =>
    cases hw.head c rfl with
    | inr hsign =>
      subst hsign
      exact Opens.of_head hrender (by decide) (by decide)
    | inl hdigit =>
      have htake : (c :: w ++ t).takeWhile isNameByte = c :: (w ++ t).takeWhile isNameByte := by
        simp [isNameByte_of_isDigit hdigit]
      apply Opens.of_word (w := (c :: w ++ t).takeWhile isNameByte)
      · exact fun d hd => List.mem_takeWhile_imp hd
      · rw [htake]
        exact List.cons_ne_nil _ _
      · rw [htake]
        intro hnew
        cases (List.cons.inj hnew).1
        cases hdigit
      · intro r hr
        have hhead := head_dropWhile_of_isNumeral hw.bytes ht
        refine ⟨(c :: w ++ t).dropWhile isNameByte ++ r, ?_, ?_⟩
        · rw [← List.append_assoc, List.takeWhile_append_dropWhile, hrender]
        · cases hv : (c :: w ++ t).dropWhile isNameByte with
          | nil => exact fun d hd => List.mem_append_left _ (hr.head d hd)
          | cons d v =>
            rw [hv] at hhead
            exact hhead

theorem isName_of_mem_keywords (hw : w ∈ keywords) : IsName w ∧ w ∉ reserved := by
  revert w
  decide

theorem isName_truth (b : Bool) : IsName (text (if b then "true" else "false")) := by
  revert b
  decide

theorem WellWritten.opens (h : WellWritten a) : Opens a := by
  induction h with
  | @keyword w hw =>
    obtain ⟨hname, hreserved⟩ := isName_of_mem_keywords (isKeyword_iff.1 hw)
    apply Opens.of_name (w := w) rfl hname
    rintro rfl
    exact hreserved (by decide)
  | string t => exact Opens.of_head rfl (by decide) (by decide)
  | number hw => exact Opens.of_number (t := []) (by simp [render]) hw (by simp)
  | bigint hw => exact Opens.of_number rfl hw.isNumber (by decide)
  | boolean b => exact Opens.of_name rfl (isName_truth b) (by cases b <;> decide)
  | uniqueSymbol =>
    apply Opens.of_word (w := text "unique") (by decide) (by decide) (by decide)
    intro r _
    exact ⟨text " symbol" ++ r, rfl, by intro c hc; cases hc; decide⟩
  | braces =>
    rename_i fields _ _ _
    cases fields with
    | nil => exact Opens.of_head rfl (by decide) (by decide)
    | cons f fs => exact Opens.of_head rfl (by decide) (by decide)
  | signature =>
    rename_i role params result _ _ _ _ _
    refine ⟨?_, fun h => by cases h⟩
    intro r _
    cases role with
    | call => exact opensParams_cons (by decide) (by decide) _
    | construct =>
      rw [render_signature, List.append_assoc]
      exact opensParams_of_span (Text.span_append (w := text "new") (by decide) (by
        intro c hc
        cases hc
        decide)) (by
        intro c hc
        cases hc
        decide)
  | reference hname =>
    cases hname with
    | type hname hreserved =>
      apply Opens.of_word hname.bytes hname.ne_nil (fun h => hreserved (by simp [h, reserved]))
      intro r hr
      exact ⟨_, by rw [render_reference, List.append_assoc], renderArgs_head hr⟩
    | value hname =>
      apply Opens.of_word (w := text "typeof") (by decide) (by decide) (by decide)
      intro r _
      rw [render_reference]
      exact ⟨_, by rfl, by intro c hc; cases hc; decide⟩
  | intersection hmany _ _ ih =>
    rename_i parts _ _
    obtain ⟨a, b, rest, rfl⟩ := exists_cons_cons hmany
    exact Opens.of_first (ih a (by simp)) (fun h => (Bool.or_eq_false_iff.1 h).1)
      render_intersection endsAt_and
  | union hmany _ _ ih =>
    rename_i parts _ _
    obtain ⟨a, b, rest, rfl⟩ := exists_cons_cons hmany
    exact Opens.of_first (ih a (by simp)) id render_union fun r => (endsAt_bar r).mono (by simp)

end FlowTyping.TypeExpr
