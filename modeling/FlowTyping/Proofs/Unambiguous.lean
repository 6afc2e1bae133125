import FlowTyping.Proofs.WrittenForms

namespace FlowTyping.TypeExpr

variable {a b : TypeExpr} {s r t w : Text} {n : Nat}

section

variable {read : Text → Option (TypeExpr × Text)}

/-- The reader `read` reads an expression back, up to where its text ends. -/
def Reads (read : Text → Option (TypeExpr × Text)) (a : TypeExpr) : Prop :=
  ∀ r, EndsAt [text " & ", text " | "] r → read (a.render ++ r) = some (a, r)

theorem readField_render {f : Text × Bool × TypeExpr} (hname : IsName f.1)
    (hread : Reads read f.2.2) (hr : EndsAt [text " & ", text " | "] r) :
    readField read (renderField f ++ r) = some (f, r) := by
  obtain ⟨name, optional, a⟩ := f
  have hspan : (name ++ (fieldMark optional ++ (a.render ++ r))).span isNameByte =
      (name, fieldMark optional ++ (a.render ++ r)) := by
    apply Text.span_append hname.bytes
    intro c hc
    cases optional <;> cases hc <;> decide
  have hmark : ((fieldMark optional ++ (a.render ++ r)).dropPrefix? (fieldMark true)).isSome =
      optional := by
    cases optional with
    | false => rw [Text.dropPrefix?_append_of_differs (by decide)]; rfl
    | true => rw [Text.dropPrefix?_append]; rfl
  simp [readField, renderField, -List.span_eq_takeWhile_dropWhile, hspan, hmark, hread r hr]

theorem readFields_render {fields : List (Text × Bool × TypeExpr)} {sep : Text}
    (hnames : ∀ f ∈ fields, IsName f.1) (hreads : ∀ f ∈ fields, Reads read f.2.2)
    (hsep : ∀ r, EndsAt [text " & ", text " | "] (sep ++ r))
    (hr : EndsAt [sep, text " & ", text " | "] r) (hne : fields ≠ []) (hn : fields.length ≤ n) :
    readList (readField read) sep n (Text.join sep (fields.map renderField) ++ r) =
      some (fields, r) :=
  readList_join (fun f hf _ hr => readField_render (hnames f hf) (hreads f hf) hr) hsep hr hne hn

theorem readArgs_render {args : List TypeExpr} (name : Text) (hreads : ∀ a ∈ args, Reads read a)
    (hr : EndsAt [] r) (hn : args.length ≤ n) :
    readArgs read n (renderArgs args ++ r) name = some (.reference name args, r) := by
  rw [renderArgs]
  split
  · rename_i hnil
    have hnone : r.dropPrefix? (text "<") = none := hr.dropPrefix?_of_head (by decide)
    simp [readArgs, hnil, hnone]
  · rename_i hne
    have hcomma (r : Text) : EndsAt [text " & ", text " | "] (text ", " ++ r) :=
      endsAt_append (by decide) (by decide) r
    have hlist := readList_join hreads hcomma
      (endsAt_append (t := text ">") (by decide) (by decide) r) hne hn
    simp [readArgs, hlist]

theorem readFactor_of_name (hname : IsName w) (s : Text) :
    readFactor read n (w ++ s) = readName read n (w ++ s) := by
  cases w with
  | nil => exact absurd rfl hname.ne_nil
  | cons c w =>
    have hother : ∀ d ∈ [0x28, 0x22, 0x7b, 0x2d], c ≠ d := by
      rintro d hd rfl
      have hnot : ∀ d ∈ [0x28, 0x22, 0x7b, 0x2d], isNameByte d = false := by decide
      have hc := hname.bytes c (by simp)
      rw [hnot c hd] at hc
      cases hc
    simp only [List.forall_mem_cons] at hother
    have hdigit : Text.isDigit c = false := hname.head c rfl
    simp [readFactor, hother, hdigit]

theorem readName_of_word (hbytes : ∀ c ∈ w, isNameByte c = true)
    (hs : ∀ c ∈ s.head?, isNameByte c = false) (hreserved : w ∉ reserved)
    (hkeyword : w ∉ keywords) : readName read n (w ++ s) = readArgs read n s w := by
  simp only [reserved, List.mem_cons, not_or] at hreserved
  simp [readName, -List.span_eq_takeWhile_dropWhile, Text.span_append hbytes hs, hreserved,
    hkeyword]

theorem readFactor_number (hw : IsNumber w) (s : Text) :
    readFactor read n (w ++ s) = readNumber (w ++ s) := by
  cases w with
  | nil => exact absurd rfl hw.ne_nil
  | cons c w =>
    have hother : c ≠ 0x28 ∧ c ≠ 0x22 ∧ c ≠ 0x7b := by
      have hc := hw.bytes c (by simp)
      refine ⟨?_, ?_, ?_⟩ <;>
      · rintro rfl
        cases hc
    rw [List.cons_append, readFactor, if_neg hother.1, if_neg hother.2.1, if_neg hother.2.2,
      if_pos (hw.head c rfl)]

theorem readTerm_of_readFactor (hfactor : readFactor read n s = some (a, r))
    (hr : EndsAt [text " & "] r) : readTerm read n s = some (a, r) := by
  simp [readTerm, readList, hfactor, hr.dropPrefix (text " & "), combine]

theorem readSum_of_readTerm (hterm : readTerm read n s = some (a, r))
    (hr : EndsAt [text " & ", text " | "] r) : readSum read n s = some (a, r) := by
  simp [readSum, readList, hterm, hr.dropPrefix (text " | "), combine]

theorem readFactor_parenthesize (hread : Reads read a) (r : Text) :
    readFactor read n (parenthesize true a.render ++ r) = some (a, r) := by
  have hinside := hread (text ")" ++ r) (endsAt_close r)
  rw [parenthesize_append]
  simp [readFactor, hinside]

end

theorem length_lt_sizeOf {α : Type} [SizeOf α] (xs : List α) : xs.length < sizeOf xs := by
  induction xs with
  | nil => simp
  | cons x xs ih =>
    simp only [List.length_cons, List.cons.sizeOf_spec]
    omega

theorem sizeOf_field_lt {f : Text × Bool × TypeExpr} {fields : List (Text × Bool × TypeExpr)}
    (hf : f ∈ fields) : sizeOf f.2.2 < sizeOf fields := by
  have hlt := List.sizeOf_lt_of_mem hf
  obtain ⟨name, optional, a⟩ := f
  simp only [Prod.mk.sizeOf_spec] at hlt ⊢
  omega

/-- An expression is read back at each place where it can stand: as a part of an intersection, as a
part of a union, and alone. -/
structure ReadsBack (a : TypeExpr) : Prop where
  factor : a.isIntersection = false → ∀ n r, sizeOf a ≤ n → EndsAt [] r →
    readFactor (readType n) n (renderFactor a ++ r) = some (a, r)
  summand : a.isUnion = false → ∀ n r, sizeOf a ≤ n → EndsAt [text " & "] r →
    readTerm (readType n) n (renderSummand a ++ r) = some (a, r)
  type : ∀ n, sizeOf a ≤ n → Reads (readType n) a

theorem readType_of_readTerm (hopens : Opens a) (hsignature : a.isSignature = false)
    (hterm : ∀ n r, sizeOf a ≤ n + 1 → EndsAt [text " & "] r →
      readTerm (readType n) n (a.render ++ r) = some (a, r)) (hn : sizeOf a ≤ n) :
    Reads (readType n) a := by
  intro r hr
  cases n with
  | zero => cases a <;> simp at hn
  | succ n =>
    rw [readType, hopens.outside hsignature r (hr.mono (by simp))]
    exact readSum_of_readTerm (hterm n r hn (hr.mono (by simp))) hr

theorem ReadsBack.of_readFactor (hopens : Opens a) (hsignature : a.isSignature = false)
    (hunion : a.isUnion = false)
    (hfactor : ∀ n r, sizeOf a ≤ n + 1 → EndsAt [] r →
      readFactor (readType n) n (a.render ++ r) = some (a, r)) : ReadsBack a := by
  have hterm (n : Nat) (r : Text) (hn : sizeOf a ≤ n + 1) (hr : EndsAt [text " & "] r) :
      readTerm (readType n) n (a.render ++ r) = some (a, r) :=
    readTerm_of_readFactor (hfactor n r hn (hr.mono (by simp))) hr
  constructor
  · intro _ n r hn hr
    rw [renderFactor, hsignature, hunion]
    exact hfactor n r (by omega) hr
  · intro _ n r hn hr
    rw [renderSummand, hsignature]
    exact hterm n r (by omega) hr
  · intro n hn
    exact readType_of_readTerm hopens hsignature hterm hn

theorem join_renderField (f : Text × Bool × TypeExpr) (fields : List (Text × Bool × TypeExpr))
    (sep r : Text) : ∃ v, Text.join sep ((f :: fields).map renderField) ++ r =
      f.1 ++ (fieldMark f.2.1 ++ v) := by
  cases fields with
  | nil => exact ⟨f.2.2.render ++ r, by simp [Text.join, renderField]⟩
  | cons f' fields =>
    exact ⟨f.2.2.render ++ (sep ++ (Text.join sep ((f' :: fields).map renderField) ++ r)),
      by simp [Text.join, renderField]⟩

theorem opensParams_join {params : List (Text × Bool × TypeExpr)}
    (hnames : ∀ p ∈ params, IsName p.1) (r : Text) :
    opensParams (Text.join (text ", ") (params.map renderField) ++ (text ")" ++ r)) = true := by
  cases params with
  | nil => rfl
  | cons p params =>
    obtain ⟨v, heq⟩ := join_renderField p params (text ", ") (text ")" ++ r)
    have hspan : (p.1 ++ (fieldMark p.2.1 ++ v)).span isNameByte = (p.1, fieldMark p.2.1 ++ v) := by
      apply Text.span_append (hnames p (by simp)).bytes
      intro c hc
      cases hoptional : p.2.1 <;> rw [hoptional] at hc <;> cases hc <;> decide
    rw [heq, opensParams, hspan]
    cases p.2.1 <;> rfl

theorem role?_open (hparams : opensParams s = true) : role? (text "(" ++ s) = some .call := by
  have hspan : (text "(" ++ s).span isNameByte = ([], 0x28 :: s) :=
    Text.span_append (w := []) (by simp) (by intro c hc; cases hc; decide)
  rw [role?, hspan]
  exact if_pos ⟨rfl, hparams⟩

theorem role?_new (s : Text) : role? (text "new (" ++ s) = some .construct := by
  have hspan : (text "new (" ++ s).span isNameByte = (text "new", text " (" ++ s) :=
    Text.span_append (w := text "new") (by decide) (by intro c hc; cases hc; decide)
  rw [role?, hspan]
  rfl

theorem role?_signature {role : Role} {params : List (Text × Bool × TypeExpr)}
    (hnames : ∀ p ∈ params, IsName p.1) (r : Text) :
    role? (opening role ++ (Text.join (text ", ") (params.map renderField) ++ (text ")" ++ r))) =
      some role := by
  cases role with
  | call => exact role?_open (opensParams_join hnames r)
  | construct => exact role?_new _

theorem readParams_render {read : Text → Option (TypeExpr × Text)}
    {params : List (Text × Bool × TypeExpr)} (hnames : ∀ p ∈ params, IsName p.1)
    (hparams : ∀ p ∈ params, Reads read p.2.2) (hn : params.length ≤ n) (r : Text) :
    readParams read n (Text.join (text ", ") (params.map renderField) ++ (text ")" ++ r)) =
      some (params, text ")" ++ r) := by
  cases hp : params with
  | nil => rfl
  | cons p ps =>
    rw [readParams, if_neg, ← hp]
    · exact readFields_render hnames hparams (fun r => endsAt_append (by decide) (by decide) r)
        (endsAt_append (by decide) (by decide) r) (by simp [hp]) hn
    · obtain ⟨v, heq⟩ := join_renderField p ps (text ", ") (text ")" ++ r)
      rw [heq]
      intro hhead
      have hname := hnames p (by simp [hp])
      cases hw : p.1 with
      | nil => exact hname.ne_nil hw
      | cons c w =>
        rw [hw] at hhead
        cases hhead
        exact absurd (hname.bytes 0x29 (by simp [hw])) (by decide)

theorem readType_signature {role : Role} {params : List (Text × Bool × TypeExpr)}
    (hnames : ∀ p ∈ params, IsName p.1) (hparams : ∀ p ∈ params, Reads (readType n) p.2.2)
    (hresult : Reads (readType n) a) (hn : params.length ≤ n) :
    Reads (readType (n + 1)) (.signature role params [a]) := by
  intro r hr
  have heq : (signature role params [a]).render ++ r = opening role ++
      (Text.join (text ", ") (params.map renderField) ++
        (text ")" ++ (text " => " ++ (a.render ++ r)))) := by
    rw [render_signature, List.append_assoc, List.append_assoc, List.append_assoc]
    rfl
  have hparams := readParams_render hnames hparams hn (text " => " ++ (a.render ++ r))
  have harrow : (text ")" ++ (text " => " ++ (a.render ++ r))).dropPrefix? (text ") => ") =
      some (a.render ++ r) :=
    Text.dropPrefix?_append (text ") => ") (a.render ++ r)
  rw [heq, readType, role?_signature hnames]
  simp only [readSignature, Text.dropPrefix?_append, hparams, harrow, hresult r hr,
    Option.bind_eq_bind, Option.bind_some, Option.pure_def]

theorem ReadsBack.of_signature {role : Role} {params : List (Text × Bool × TypeExpr)}
    {results : List TypeExpr} (htype : ∀ n, sizeOf (signature role params results) ≤ n + 1 →
      Reads (readType (n + 1)) (.signature role params results)) :
    ReadsBack (.signature role params results) := by
  have htype (n : Nat) (hn : sizeOf (signature role params results) ≤ n) :
      Reads (readType n) (.signature role params results) := by
    cases n with
    | zero => simp at hn
    | succ n => exact htype n hn
  constructor
  · intro _ n r hn _
    exact readFactor_parenthesize (htype n hn) r
  · intro _ n r hn hr
    exact readTerm_of_readFactor (readFactor_parenthesize (htype n hn) r) hr
  · exact htype

theorem readFactor_braces {read : Text → Option (TypeExpr × Text)}
    {fields : List (Text × Bool × TypeExpr)} (hnames : ∀ f ∈ fields, IsName f.1)
    (hreads : ∀ f ∈ fields, Reads read f.2.2) (hn : fields.length ≤ n) (r : Text) :
    readFactor read n ((braces fields).render ++ r) = some (.braces fields, r) := by
  cases hf : fields with
  | nil =>
    have hopen : readFactor read n ((braces []).render ++ r) =
        readBraces read n (text "\x7d" ++ r) := rfl
    simp [hopen, readBraces]
  | cons f fs =>
    have hsemicolon (r : Text) : EndsAt [text " & ", text " | "] (text "; " ++ r) :=
      endsAt_append (by decide) (by decide) r
    have hlist := readFields_render (r := text " \x7d" ++ r) hnames hreads hsemicolon
      (endsAt_append (by decide) (by decide) r) (by simp [hf]) hn
    have heq : (braces (f :: fs)).render ++ r = 0x7b :: (text " " ++
        (Text.join (text "; ") (fields.map renderField) ++ (text " \x7d" ++ r))) := by
      rw [render, renderFields_eq, hf]
      · simp only [List.append_assoc]
        rfl
      · simp
    have hopen : readFactor read n ((braces (f :: fs)).render ++ r) = readBraces read n (text " " ++
        (Text.join (text "; ") (fields.map renderField) ++ (text " \x7d" ++ r))) := by
      rw [heq]
      rfl
    rw [hopen, readBraces, Text.dropPrefix?_append_of_differs (by decide)]
    simpa [hlist] using hf

theorem readFactor_reference {read : Text → Option (TypeExpr × Text)} {name : Text}
    {args : List TypeExpr} (hname : IsTypeName name) (hreads : ∀ a ∈ args, Reads read a)
    (hn : args.length ≤ n) (hr : EndsAt [] r) :
    readFactor read n ((reference name args).render ++ r) = some (.reference name args, r) := by
  have hargs := readArgs_render name hreads hr hn
  have hnot : ∀ c ∈ afterWord, isNameByte c = false := by decide
  have hhead (c) (hc : c ∈ (renderArgs args ++ r).head?) : isNameByte c = false :=
    hnot c (renderArgs_head hr c hc)
  rw [render_reference, List.append_assoc]
  cases hname with
  | type hname hreserved hkeyword =>
    rw [readFactor_of_name hname, readName_of_word hname.bytes hhead hreserved
      (fun h => hkeyword (isKeyword_iff.2 h)), hargs]
  | @value w hname =>
    have hspan : (text "typeof" ++ (text " " ++ (w ++ (renderArgs args ++ r)))).span isNameByte =
        (text "typeof", text " " ++ (w ++ (renderArgs args ++ r))) :=
      Text.span_append (by decide) (by intro c hc; cases hc; decide)
    have heq : text "typeof " ++ w ++ (renderArgs args ++ r) =
        text "typeof" ++ (text " " ++ (w ++ (renderArgs args ++ r))) := by
      rw [List.append_assoc]
      rfl
    rw [heq, readFactor_of_name (by decide), readName, hspan]
    dsimp only
    rw [if_neg (by decide), if_pos rfl, Text.dropPrefix?_append, Option.bind_eq_bind,
      Option.bind_some, Text.span_append hname.bytes hhead]
    exact hargs

theorem readFactor_keyword {read : Text → Option (TypeExpr × Text)} (hw : w ∈ keywords)
    (hr : EndsAt [] r) : readFactor read n (w ++ r) = some (.keyword w, r) := by
  obtain ⟨hname, hreserved⟩ := isName_of_mem_keywords hw
  simp only [reserved, List.mem_cons, not_or] at hreserved
  have hspan := Text.span_append hname.bytes (hr.head_not (by decide))
  rw [readFactor_of_name hname]
  simp [readName, -List.span_eq_takeWhile_dropWhile, hspan, hreserved, hw]

theorem readFactor_boolean {read : Text → Option (TypeExpr × Text)} (b : Bool)
    (hr : EndsAt [] r) : readFactor read n (text (if b then "true" else "false") ++ r) =
      some (.boolean (text (if b then "true" else "false")), r) := by
  have hspan := Text.span_append (isName_truth b).bytes (hr.head_not (by decide))
  rw [readFactor_of_name (isName_truth b), readName, hspan]
  cases b <;> rfl

theorem readFactor_uniqueSymbol {read : Text → Option (TypeExpr × Text)} (r : Text) :
    readFactor read n (text "unique symbol" ++ r) =
      some (.uniqueSymbol (text "unique symbol"), r) := by
  have hspan : (text "unique" ++ (text " symbol" ++ r)).span isNameByte =
      (text "unique", text " symbol" ++ r) :=
    Text.span_append (by decide) (by intro c hc; cases hc; decide)
  have heq : text "unique symbol" ++ r = text "unique" ++ (text " symbol" ++ r) := rfl
  rw [heq, readFactor_of_name (by decide), readName, hspan]
  simp

theorem readFactor_string {read : Text → Option (TypeExpr × Text)} (t r : Text) :
    readFactor read n (quote t ++ r) = some (.string t, r) := by
  have hread : readFactor read n (quote t ++ r) =
      (readChars false (t.flatMap escape ++ text "\"" ++ r)).map fun p => (.string p.1, p.2) :=
    rfl
  rw [hread, readChars_escape, Option.map_some]

theorem readTerm_intersection {read : Text → Option (TypeExpr × Text)} {parts : List TypeExpr}
    (hmany : 2 ≤ parts.length) (hn : parts.length ≤ n) (hparts : ∀ a ∈ parts, ∀ r, EndsAt [] r →
      readFactor read n (renderFactor a ++ r) = some (a, r)) (hr : EndsAt [text " & "] r) :
    readTerm read n ((intersection parts).render ++ r) = some (.intersection parts, r) := by
  have hlist := readList_join (n := n + 1) hparts endsAt_and hr
    (List.ne_nil_of_length_pos (by omega)) (by omega)
  obtain ⟨a, b, rest, rfl⟩ := exists_cons_cons hmany
  rw [render, renderFactors_eq, readTerm, hlist]
  rfl

theorem readSum_union {read : Text → Option (TypeExpr × Text)} {parts : List TypeExpr}
    (hmany : 2 ≤ parts.length) (hn : parts.length ≤ n)
    (hparts : ∀ a ∈ parts, ∀ r, EndsAt [text " & "] r →
      readTerm read n (renderSummand a ++ r) = some (a, r))
    (hr : EndsAt [text " & ", text " | "] r) :
    readSum read n ((union parts).render ++ r) = some (.union parts, r) := by
  have hne := List.ne_nil_of_length_pos (Nat.lt_of_lt_of_le Nat.two_pos hmany)
  have hlist := readList_join (n := n + 1) (r := r) hparts endsAt_bar (hr.mono (by simp)) hne
    (by omega)
  obtain ⟨a, b, rest, rfl⟩ := exists_cons_cons hmany
  rw [render_union_of_ne_nil hne, readSum, hlist]
  rfl

theorem WellWritten.readsBack (h : WellWritten a) : ReadsBack a := by
  induction h with
  | keyword hw =>
    apply ReadsBack.of_readFactor (WellWritten.keyword hw).opens rfl rfl
    intro n r _ hr
    exact readFactor_keyword (isKeyword_iff.1 hw) hr
  | string t =>
    apply ReadsBack.of_readFactor (WellWritten.string t).opens rfl rfl
    intro n r _ _
    exact readFactor_string t r
  | number hw =>
    apply ReadsBack.of_readFactor (WellWritten.number hw).opens rfl rfl
    intro n r _ hr
    have hspan := Text.span_append hw.bytes (hr.head_not (p := isNumeral) (by decide))
    rw [render, readFactor_number hw, readNumber, hspan]
    simp only [hr.dropPrefix?_of_head (t := text "n") (by decide)]
  | bigint hw =>
    apply ReadsBack.of_readFactor (WellWritten.bigint hw).opens rfl rfl
    intro n r _ _
    have hhead : ∀ c ∈ (text "n" ++ r).head?, isNumeral c = false := by
      intro c hc
      cases hc
      decide
    rw [render, List.append_assoc, readFactor_number hw.isNumber, readNumber,
      Text.span_append hw.isNumber.bytes hhead]
    simp only [Text.dropPrefix?_append]
  | boolean b =>
    apply ReadsBack.of_readFactor (WellWritten.boolean b).opens rfl rfl
    intro n r _ hr
    exact readFactor_boolean b hr
  | uniqueSymbol =>
    apply ReadsBack.of_readFactor WellWritten.uniqueSymbol.opens rfl rfl
    intro n r _ _
    exact readFactor_uniqueSymbol r
  | @braces fields hnames hfields ih =>
    apply ReadsBack.of_readFactor (WellWritten.braces hnames hfields).opens rfl rfl
    intro n r hn _
    rw [braces.sizeOf_spec] at hn
    have hlength := length_lt_sizeOf fields
    apply readFactor_braces hnames _ (by omega) r
    intro f hf
    have hlt := sizeOf_field_lt hf
    exact (ih f hf).type n (by omega)
  | @signature role params result hnames _ _ ihparams ihresult =>
    apply ReadsBack.of_signature
    intro n hn
    rw [signature.sizeOf_spec, List.cons.sizeOf_spec] at hn
    have hlength := length_lt_sizeOf params
    apply readType_signature hnames _ (ihresult.type n (by omega)) (by omega)
    intro p hp
    have hlt := sizeOf_field_lt hp
    exact (ihparams p hp).type n (by omega)
  | @reference name args hname hargs ih =>
    apply ReadsBack.of_readFactor (WellWritten.reference hname hargs).opens rfl rfl
    intro n r hn hr
    rw [reference.sizeOf_spec] at hn
    have hlength := length_lt_sizeOf args
    apply readFactor_reference hname _ (by omega) hr
    intro a ha
    have hlt := List.sizeOf_lt_of_mem ha
    exact (ih a ha).type n (by omega)
  | @intersection parts hmany hflat hparts ih =>
    have hopens := (WellWritten.intersection hmany hflat hparts).opens
    have hlength := length_lt_sizeOf parts
    have hterm (n : Nat) (r : Text) (hn : sizeOf (TypeExpr.intersection parts) ≤ n + 1)
        (hr : EndsAt [text " & "] r) :
        readTerm (readType n) n ((TypeExpr.intersection parts).render ++ r) =
          some (.intersection parts, r) := by
      rw [intersection.sizeOf_spec] at hn
      apply readTerm_intersection hmany (by omega) _ hr
      intro a ha r hr
      have hlt := List.sizeOf_lt_of_mem ha
      exact (ih a ha).factor (hflat a ha) n r (by omega) hr
    exact ⟨fun h => Bool.noConfusion h, fun _ n r hn hr => hterm n r (by omega) hr,
      fun n hn => readType_of_readTerm hopens rfl hterm hn⟩
  | @union parts hmany hflat hparts ih =>
    have hopens := (WellWritten.union hmany hflat hparts).opens
    have hlength := length_lt_sizeOf parts
    have htype (n : Nat) (hn : sizeOf (TypeExpr.union parts) ≤ n) :
        Reads (readType n) (.union parts) := by
      intro r hr
      cases n with
      | zero => simp at hn
      | succ n =>
        rw [union.sizeOf_spec] at hn
        rw [readType, hopens.outside rfl r (hr.mono (by simp))]
        apply readSum_union hmany (by omega) _ hr
        intro a ha r hr
        have hlt := List.sizeOf_lt_of_mem ha
        exact (ih a ha).summand (hflat a ha) n r (by omega) hr
    exact ⟨fun _ n r hn _ => readFactor_parenthesize (htype n hn) r, fun h => Bool.noConfusion h,
      htype⟩

/-- No two expressions have the same text. -/
theorem WellWritten.eq_of_render_eq (ha : WellWritten a) (hb : WellWritten b)
    (heq : a.render = b.render) : a = b := by
  let n := max (sizeOf a) (sizeOf b)
  have hend : EndsAt [text " & ", text " | "] [] := endsAt_nil (by decide)
  have hreada := ha.readsBack.type n (le_max_left _ _) [] hend
  have hreadb := hb.readsBack.type n (le_max_right _ _) [] hend
  rw [heq, hreadb, Option.some_inj, Prod.mk.injEq] at hreada
  exact hreada.1.symm

theorem nested_unique : ∃! a, WellWritten a ∧ a.render =
    text "(((new: string) => \"a\\\"b\" | -1n) | typeof x) & (new () => \x7b k?: 1e+21 \x7d)" := by
  let call : TypeExpr := .signature .call [(text "new", false, .keyword (text "string"))]
    [.union [.string (text "a\"b"), .bigint (text "-1")]]
  let value : TypeExpr := .reference (text "typeof x") []
  let construct : TypeExpr := .signature .construct []
    [.braces [(text "k", true, .number (text "1e+21"))]]
  have hcall : WellWritten call := by
    have hstring : WellWritten (.keyword (text "string")) := .keyword ⟨.string, rfl⟩
    have hone : WellWritten (.bigint (text "-1")) :=
      .bigint (.negative (w := text "1") (by decide) (by decide))
    refine .signature (by decide) (by simp [hstring]) (.union (by decide) (by decide) ?_)
    simp [hone, WellWritten.string]
  have hvalue : WellWritten value := .reference (.value (w := text "x") (by decide)) (by simp)
  have hconstruct : WellWritten construct := by
    have hnumber : WellWritten (.number (text "1e+21")) := .number ⟨by decide, by decide, by decide⟩
    exact .signature (by simp) (by simp) (.braces (by decide) (by simp [hnumber]))
  have hunion : WellWritten (.union [call, value]) :=
    .union (by decide) (by decide) (by simp [hcall, hvalue])
  have hall : WellWritten (.intersection [.union [call, value], construct]) :=
    .intersection (by decide) (by decide) (by simp [hunion, hconstruct])
  refine ⟨_, ⟨hall, by decide⟩, ?_⟩
  intro b hb
  exact hb.1.eq_of_render_eq hall (hb.2.trans (by decide))

end FlowTyping.TypeExpr
