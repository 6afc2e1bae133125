import FlowTyping.TypeExpr.OfType
import Mathlib.Data.List.Basic
import Mathlib.Data.List.TakeDrop

namespace FlowTyping

namespace TypeExpr

def isNameByte (c : UInt8) : Bool :=
  Text.isLetter c || Text.isDigit c || c == 0x5f || c == 0x24 || 0x80 ≤ c

def isNumeral (c : UInt8) : Bool :=
  Text.isDigit c || c == 0x2b || c == 0x2d || c == 0x2e || c == 0x65

def keywords : List Text :=
  [Simple.never, .any, .unknown, .object, .void, .null, .undefined, .string, .number, .bigint,
    .symbol, .boolean].map fun s => text s.name

def unescape (c : UInt8) : UInt8 :=
  if c = 0x6e then 0x0a else if c = 0x74 then 0x09 else c

/-- The bytes of a string literal, up to the quote that closes it; `escaped` says that the byte
before was a backslash. -/
def readChars : (escaped : Bool) → Text → Option (Text × Text)
  | _, [] => none
  | true, c :: s => (readChars false s).map fun (t, s) => (unescape c :: t, s)
  | false, c :: s =>
    if c = 0x22 then some ([], s)
    else if c = 0x5c then readChars true s
    else (readChars false s).map fun (t, s) => (c :: t, s)

def readList {α : Type} (read : Text → Option (α × Text)) (sep : Text) :
    Nat → Text → Option (List α × Text)
  | 0, _ => none
  | n + 1, s => do
    let (x, s) ← read s
    match s.dropPrefix? sep with
    | some s =>
      let (xs, s) ← readList read sep n s
      return (x :: xs, s)
    | none => return ([x], s)

section

variable (read : Text → Option (TypeExpr × Text)) (n : Nat) (s : Text)

def readField : Option ((Text × Bool × TypeExpr) × Text) := do
  let (name, s) := s.span isNameByte
  let optional := (s.dropPrefix? (fieldMark true)).isSome
  let s ← s.dropPrefix? (fieldMark optional)
  let (a, s) ← read s
  return ((name, optional, a), s)

def readArgs (name : Text) : Option (TypeExpr × Text) :=
  match s.dropPrefix? (text "<") with
  | some s => do
    let (args, s) ← readList read (text ", ") n s
    let s ← s.dropPrefix? (text ">")
    return (.reference name args, s)
  | none => some (.reference name [], s)

def readName : Option (TypeExpr × Text) := do
  let (w, s) := s.span isNameByte
  if w = text "unique" then
    let s ← s.dropPrefix? (text " symbol")
    return (.uniqueSymbol (text "unique symbol"), s)
  else if w = text "typeof" then
    let s ← s.dropPrefix? (text " ")
    let (w, s) := s.span isNameByte
    readArgs read n s (text "typeof " ++ w)
  else if w = text "true" ∨ w = text "false" then return (.boolean w, s)
  else if keywords.contains w then return (.keyword w, s)
  else readArgs read n s w

def readNumber : Option (TypeExpr × Text) :=
  let (w, s) := s.span isNumeral
  match s.dropPrefix? (text "n") with
  | some s => some (.bigint w, s)
  | none => some (.number w, s)

def readBraces : Option (TypeExpr × Text) :=
  match s.dropPrefix? (text "\x7d") with
  | some s => some (.braces [], s)
  | none => do
    let s ← s.dropPrefix? (text " ")
    let (fields, s) ← readList (readField read) (text "; ") n s
    let s ← s.dropPrefix? (text " \x7d")
    return (.braces fields, s)

def readFactor : Text → Option (TypeExpr × Text)
  | [] => none
  | c :: s =>
    if c = 0x28 then do
      let (a, s) ← read s
      let s ← s.dropPrefix? (text ")")
      return (a, s)
    else if c = 0x22 then (readChars false s).map fun (t, s) => (.string t, s)
    else if c = 0x7b then readBraces read n s
    else if Text.isDigit c ∨ c = 0x2d then readNumber (c :: s)
    else readName read n (c :: s)

def combine (several : List TypeExpr → TypeExpr) : List TypeExpr → TypeExpr
  | [a] => a
  | as => several as

def readTerm : Option (TypeExpr × Text) := do
  let (as, s) ← readList (readFactor read n) (text " & ") (n + 1) s
  return (combine .intersection as, s)

def readSum : Option (TypeExpr × Text) := do
  let (as, s) ← readList (readTerm read n) (text " | ") (n + 1) s
  return (combine .union as, s)

def opening (role : Role) : Text :=
  text (match role with
    | .call => "("
    | .construct => "new (")

def readParams : Option (List (Text × Bool × TypeExpr) × Text) :=
  if s.head? = some 0x29 then some ([], s) else readList (readField read) (text ", ") n s

def readSignature (role : Role) : Option (TypeExpr × Text) := do
  let s ← s.dropPrefix? (opening role)
  let (params, s) ← readParams read n s
  let s ← s.dropPrefix? (text ") => ")
  let (a, s) ← read s
  return (.signature role params [a], s)

end

def opensParams (s : Text) : Bool :=
  match s.span isNameByte with
  | (_, []) => false
  | (w, c :: _) => c == 0x3a || c == 0x3f || (w.isEmpty && c == 0x29)

def role? (s : Text) : Option Role :=
  match s.span isNameByte with
  | ([], c :: s) => if c = 0x28 ∧ opensParams s then some .call else none
  | (w, _) => if w = text "new" then some .construct else none

/-- Reads a type in which types stand inside one another less than `n` deep. -/
def readType : Nat → Text → Option (TypeExpr × Text)
  | 0, _ => none
  | n + 1, s =>
    match role? s with
    | some role => readSignature (readType n) n s role
    | none => readSum (readType n) n s

end TypeExpr

variable {s r t w u : Text} {c : UInt8} {n : Nat}

namespace Text

/-- What holds of all bytes of a text is decided by its bytes, not by all the values of a byte. -/
instance decidableForallMem (t : Text) (p : UInt8 → Prop) [DecidablePred p] :
    Decidable (∀ c ∈ t, p c) :=
  List.decidableBAll p t

instance decidableForallHead (o : Option UInt8) (p : UInt8 → Prop) [DecidablePred p] :
    Decidable (∀ c ∈ o, p c) :=
  Option.decidableForallMem o

theorem takeWhile_append {p : UInt8 → Bool} (hw : ∀ c ∈ w, p c = true)
    (hr : ∀ c ∈ r.head?, p c = false) : (w ++ r).takeWhile p = w := by
  have htake : r.takeWhile p = [] := by cases r <;> simp_all
  rw [List.takeWhile_append_of_pos hw, htake, List.append_nil]

theorem dropWhile_append {p : UInt8 → Bool} (hw : ∀ c ∈ w, p c = true)
    (hr : ∀ c ∈ r.head?, p c = false) : (w ++ r).dropWhile p = r := by
  have hdrop : r.dropWhile p = r := by cases r <;> simp_all
  rw [List.dropWhile_append_of_pos hw, hdrop]

theorem span_append {p : UInt8 → Bool} (hw : ∀ c ∈ w, p c = true)
    (hr : ∀ c ∈ r.head?, p c = false) : (w ++ r).span p = (w, r) := by
  rw [List.span_eq_takeWhile_dropWhile, takeWhile_append hw hr, dropWhile_append hw hr]

theorem span_cons {p : UInt8 → Bool} (hc : p c = false) (s : Text) :
    (c :: s).span p = ([], c :: s) :=
  span_append (w := []) (by simp) (by simpa using hc)

@[simp] theorem dropPrefix?_append (t r : Text) : (t ++ r).dropPrefix? t = some r :=
  List.dropPrefix?_append_of_beq r (beq_self_eq_true t)

theorem dropPrefix?_append_of_differs (h : (t.zip u).any (fun p => p.1 != p.2) = true) (r : Text) :
    (t ++ r).dropPrefix? u = none := by
  induction t generalizing u with
  | nil => simp at h
  | cons c t ih =>
    cases u with
    | nil => simp at h
    | cons d u =>
      simp only [List.zip_cons_cons, List.any_cons, Bool.or_eq_true, bne_iff_ne] at h
      rw [List.cons_append, List.dropPrefix?]
      split
      · rename_i hcd
        exact ih (h.resolve_left fun hne => hne (eq_of_beq hcd))
      · rfl

end Text

namespace TypeExpr

def stops : List UInt8 := [0x20, 0x29, 0x2c, 0x3b, 0x3e]

/-- A text that ends what stands before it: it begins with a byte that no type goes on with, and
with none of the separators that join types. -/
structure EndsAt (seps : List Text) (r : Text) : Prop where
  head : ∀ c ∈ r.head?, c ∈ stops
  dropPrefix : ∀ sep ∈ seps, r.dropPrefix? sep = none

theorem EndsAt.mono {seps seps' : List Text} (h : EndsAt seps r) (hsub : seps' ⊆ seps) :
    EndsAt seps' r :=
  ⟨h.head, fun sep hsep => h.dropPrefix sep (hsub hsep)⟩

theorem endsAt_nil {seps : List Text} (hseps : ∀ sep ∈ seps, sep ≠ []) : EndsAt seps [] := by
  constructor
  · simp
  · intro sep hsep
    cases hs : sep with
    | nil => exact absurd hs (hseps sep hsep)
    | cons c sep => rfl

theorem endsAt_append {seps : List Text} (hhead : ∃ c ∈ t.head?, c ∈ stops)
    (hseps : ∀ sep ∈ seps, (t.zip sep).any (fun p => p.1 != p.2) = true) (r : Text) :
    EndsAt seps (t ++ r) := by
  obtain ⟨c, hc, hstop⟩ := hhead
  constructor
  · intro d hd
    have hcd : (t ++ r).head? = some c := by rw [List.head?_append, hc, Option.some_or]
    rw [hcd, Option.mem_some_iff] at hd
    exact hd ▸ hstop
  · intro sep hsep
    exact Text.dropPrefix?_append_of_differs (hseps sep hsep) r

theorem EndsAt.head_not {seps : List Text} {p : UInt8 → Bool} (h : EndsAt seps r)
    (hp : ∀ c ∈ stops, p c = false) : ∀ c ∈ r.head?, p c = false :=
  fun c hc => hp c (h.head c hc)

theorem EndsAt.dropPrefix?_of_head {seps : List Text} (h : EndsAt seps r)
    (ht : ∃ c ∈ t.head?, c ∉ stops) : r.dropPrefix? t = none := by
  obtain ⟨c, hc, hstop⟩ := ht
  obtain ⟨t, rfl⟩ : ∃ t', t = c :: t' := ⟨t.tail, List.eq_cons_of_mem_head? hc⟩
  cases r with
  | nil => rfl
  | cons d r =>
    have hcd : d ≠ c := fun hcd => hstop (hcd ▸ h.head d rfl)
    simp [List.dropPrefix?, hcd]

theorem readList_join {α : Type} {read : Text → Option (α × Text)} {sep : Text}
    {seps : List Text} {show' : α → Text} {xs : List α}
    (hread : ∀ x ∈ xs, ∀ r, EndsAt seps r → read (show' x ++ r) = some (x, r))
    (hsep : ∀ r, EndsAt seps (sep ++ r)) (hr : EndsAt (sep :: seps) r) (hne : xs ≠ [])
    (hn : xs.length ≤ n) :
    readList read sep n (Text.join sep (xs.map show') ++ r) = some (xs, r) := by
  induction xs generalizing n with
  | nil => exact absurd rfl hne
  | cons x xs ih =>
    cases n with
    | zero => simp at hn
    | succ n =>
      cases xs with
      | nil =>
        have hx := hread x (by simp) r (hr.mono (by simp))
        simp [readList, Text.join, hx, hr.dropPrefix sep (by simp)]
      | cons y ys =>
        have hx := hread x (by simp) (sep ++ (Text.join sep ((y :: ys).map show') ++ r)) (hsep _)
        have hxs := ih (fun z hz => hread z (by simp [hz])) (by simp) (by simpa using hn)
        rw [List.map_cons] at hxs hx
        simp [readList, Text.join, hx, hxs]

theorem readChars_escape (t r : Text) :
    readChars false (t.flatMap escape ++ text "\"" ++ r) = some (t, r) := by
  induction t with
  | nil => rfl
  | cons c t ih =>
    have hstep : readChars false (escape c ++ (t.flatMap escape ++ text "\"" ++ r)) =
        some (c :: t, r) := by
      rw [escape]
      split_ifs with hquote hback hline htab
      · subst hquote
        exact congrArg (Option.map fun p => (0x22 :: p.1, p.2)) ih
      · subst hback
        exact congrArg (Option.map fun p => (0x5c :: p.1, p.2)) ih
      · subst hline
        exact congrArg (Option.map fun p => (0x0a :: p.1, p.2)) ih
      · subst htab
        exact congrArg (Option.map fun p => (0x09 :: p.1, p.2)) ih
      · rw [List.singleton_append, readChars, if_neg hquote, if_neg hback, ih, Option.map_some]
    simpa using hstep

end TypeExpr

end FlowTyping
