import FlowTyping.Proofs.RunOutput

namespace FlowTyping.Spelling

variable {open? : Option UInt8} {s₁ w : Text}

def quoteAfter (open? : Option UInt8) (c : UInt8) : Option UInt8 :=
  match open? with
  | some q => if c = q then none else some q
  | none => if isQuote c then some c else none

def openQuote (t : Text) : Option UInt8 := t.foldl quoteAfter none

theorem splitFrom_cons (open? : Option UInt8) (piece : Text) (c : UInt8) (rest : Text) :
    splitFrom open? piece (c :: rest) =
      if open? = none ∧ c = 0x7c then piece :: split rest
      else splitFrom (quoteAfter open? c) (piece ++ [c]) rest := by
  cases open? with
  | some q => simp [splitFrom, quoteAfter]
  | none =>
    by_cases hc : c = 0x7c
    · subst hc
      rfl
    · simp only [splitFrom, quoteAfter, hc, and_false, if_false]
      split <;> rfl

theorem splitFrom_append_bar (hw : w.foldl quoteAfter open? = none) (piece r : Text) :
    splitFrom open? piece (w ++ 0x7c :: r) = splitFrom open? piece w ++ split r := by
  -- The induction is on the text, with any quote open and any piece begun before it.
  induction w generalizing open? piece with
  | nil =>
    obtain rfl : open? = none := hw
    rfl
  | cons c w ih =>
    rw [List.cons_append, splitFrom_cons, splitFrom_cons]
    by_cases hcut : open? = none ∧ c = 0x7c
    · obtain ⟨rfl, rfl⟩ := hcut
      rw [if_pos ⟨rfl, rfl⟩, if_pos ⟨rfl, rfl⟩, List.cons_append]
      have hw : w.foldl quoteAfter none = none := hw
      exact congrArg _ (ih hw [])
    · rw [if_neg hcut, if_neg hcut]
      exact ih hw (piece ++ [c])

theorem split_append_bar (hs : openQuote s₁ = none) (s₂ : Text) :
    split (s₁ ++ text "|" ++ s₂) = split s₁ ++ split s₂ := by
  rw [List.append_assoc]
  exact splitFrom_append_bar hs [] s₂

def FirstFault (pieces : List Text) (f : Fault) : Prop :=
  ∃ before p after, pieces = before ++ p :: after ∧ (∀ q ∈ before, ∃ t, read q = .ok t) ∧
    read p = .error f

theorem FirstFault.category {pieces : List Text} {f : Fault} (h : FirstFault pieces f) :
    f.category = .config := by
  obtain ⟨before, p, after, -, -, hp⟩ := h
  exact category_of_read hp

theorem mapM_read_cases (pieces : List Text) :
    (∃ ts, pieces.mapM read = .ok ts ∧ List.Forall₂ (fun p t => read p = .ok t) pieces ts) ∨
      ∃ f, pieces.mapM read = .error f ∧ FirstFault pieces f := by
  induction pieces with
  | nil => exact .inl ⟨[], rfl, .nil⟩
  | cons p pieces ih =>
    cases hp : read p with
    | error f =>
      refine .inr ⟨f, ?_, [], p, pieces, rfl, by simp, hp⟩
      rw [List.mapM_cons, hp]
      rfl
    | ok t =>
      rcases ih with ⟨ts, hrun, hts⟩ | ⟨f, hrun, before, q, after, rfl, hbefore, hq⟩
      · refine .inl ⟨t :: ts, ?_, .cons hp hts⟩
        rw [List.mapM_cons, hp, hrun]
        rfl
      · refine .inr ⟨f, ?_, p :: before, q, after, rfl, ?_, hq⟩
        · rw [List.mapM_cons, hp, hrun]
          rfl
        · exact List.forall_mem_cons.2 ⟨⟨t, hp⟩, hbefore⟩

/-- Spellings with a bar between them are read as if they were given one by one: either way each
piece of each of them gives a type, or both ways fail for the same piece. -/
theorem readAll_joined_eq_separate (pre post : List Text) (hs : openQuote s₁ = none) (s₂ : Text) :
    let joined := pre ++ [s₁ ++ text "|" ++ s₂] ++ post
    let separate := pre ++ [s₁, s₂] ++ post
    let pieces := pre.flatMap split ++ (split s₁ ++ split s₂) ++ post.flatMap split
    (∃ ts, readAll joined = .ok ts ∧ readAll separate = .ok ts ∧
        List.Forall₂ (fun p t => read p = .ok t) pieces ts) ∨
      ∃ f, readAll joined = .error f ∧ readAll separate = .error f ∧ f.category = .config ∧
        FirstFault pieces f := by
  intro joined separate pieces
  have hjoined : joined.flatMap split = pieces := by
    simp only [joined, pieces, List.flatMap_append, List.flatMap_singleton, split_append_bar hs]
  have hseparate : separate.flatMap split = pieces := by
    simp only [separate, pieces, List.flatMap_append, List.flatMap_cons, List.flatMap_nil,
      List.append_nil]
  rw [readAll, readAll, hjoined, hseparate]
  rcases mapM_read_cases pieces with ⟨ts, hrun, hts⟩ | ⟨f, hrun, hf⟩
  · exact .inl ⟨ts, hrun, hrun, hts⟩
  · exact .inr ⟨f, hrun, hrun, hf.category, hf⟩

theorem mixed_joined_eq_separate :
    let s₁ := text "'a|\"b' | x\"|\"||"
    let s₂ := text "'c|d"
    openQuote s₁ = none ∧ openQuote s₂ = some 0x27 ∧
      readAll ([text "null"] ++ [s₁ ++ text "|" ++ s₂] ++ []) =
        .error (.unknownSpelling (text "x\"|\"")) ∧
      readAll ([text "null"] ++ [s₁, s₂] ++ []) = .error (.unknownSpelling (text "x\"|\"")) := by
  intro s₁ s₂
  have hs : openQuote s₁ = none := by decide
  have hseparate : readAll ([text "null"] ++ [s₁, s₂] ++ []) =
      .error (.unknownSpelling (text "x\"|\"")) := by decide +kernel
  refine ⟨hs, by decide, ?_, hseparate⟩
  rcases readAll_joined_eq_separate [text "null"] [] hs s₂ with ⟨ts, -, hok, -⟩ | ⟨f, hf, herror, -⟩
  · cases hseparate.symm.trans hok
  · cases hseparate.symm.trans herror
    exact hf

example : readAll [text "'a" ++ text "|" ++ text "b'"] = .ok [.string (text "a|b")] ∧
    readAll [text "'a", text "b'"] = .error (.unterminatedString (text "'a")) := by
  decide +kernel

end FlowTyping.Spelling
