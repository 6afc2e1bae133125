import FlowTyping.CommandLine.Parse
import Mathlib.Data.List.TakeWhile

/-!
The command line one token at a time. The parser looks ahead for the value of a flag; here it is a
machine that remembers how the next token is to be read. A value may stand in the token of its flag
or in the next one, whatever it looks like.
-/

namespace FlowTyping.CommandLine

variable {f g : Flag} {arg v : Text} {args : List Text} {o o' : Options}

namespace Flag

theorem mem_all (f : Flag) : f ∈ all := by
  cases f <;> decide

def IsName (f : Flag) (arg : Text) : Prop := arg = text f.name ∨ ∃ a ∈ f.alias?, arg = text a

instance (f : Flag) : DecidablePred f.IsName := fun arg =>
  inferInstanceAs (Decidable (arg = text f.name ∨ ∃ a ∈ f.alias?, arg = text a))

def joined (f : Flag) (v : Text) : Text := text f.name ++ text "=" ++ v

def Names (f : Flag) (arg : Text) : Prop := f.IsName arg ∨ text f.name ++ text "=" <+: arg

instance (f : Flag) : DecidablePred f.Names := fun arg =>
  inferInstanceAs (Decidable (f.IsName arg ∨ text f.name ++ text "=" <+: arg))

theorem names_joined (f : Flag) (v : Text) : f.Names (f.joined v) := .inr ⟨v, rfl⟩

theorem Names.cases (h : f.Names arg) : f.IsName arg ∨ ∃ v, arg = f.joined v := by
  cases h with
  | inl h => exact .inl h
  | inr h =>
    obtain ⟨v, hv⟩ := h
    exact .inr ⟨v, hv.symm⟩

def stem (arg : Text) : Text := arg.takeWhile (· != 0x3d)

theorem stem_of_isName (h : f.IsName arg) : stem arg = arg := by
  have hall : ∀ f ∈ all, stem (text f.name) = text f.name ∧
      ∀ a ∈ f.alias?, stem (text a) = text a := by decide
  obtain rfl | ⟨a, ha, rfl⟩ := h
  · exact (hall f f.mem_all).1
  · exact (hall f f.mem_all).2 a ha

theorem stem_joined (f : Flag) (v : Text) : stem (f.joined v) = text f.name := by
  have hstem : stem (text f.name) = text f.name := stem_of_isName (.inl rfl : f.IsName _)
  have hname : ∀ c ∈ text f.name, (c != 0x3d) = true := List.takeWhile_eq_self_iff.1 hstem
  rw [stem, joined, List.append_assoc, List.takeWhile_append_of_pos hname]
  exact List.append_nil _

theorem not_isName_joined (f g : Flag) (v : Text) : ¬f.IsName (g.joined v) := by
  intro h
  have hmem : 0x3d ∈ g.joined v := List.mem_append_left v (List.mem_append_right _ (by decide))
  rw [← stem_of_isName h] at hmem
  exact absurd (List.mem_takeWhile_imp hmem) (by decide)

theorem isName_stem (h : f.Names arg) : f.IsName (stem arg) := by
  obtain h | ⟨v, rfl⟩ := h.cases
  · rwa [stem_of_isName h]
  · rw [stem_joined]
    exact .inl rfl

theorem eq_of_isName (hf : f.IsName arg) (hg : g.IsName arg) : f = g := by
  have hall : ∀ f ∈ all, ∀ g ∈ all, (g.IsName (text f.name) → f = g) ∧
      ∀ a ∈ f.alias?, g.IsName (text a) → f = g := by decide
  obtain rfl | ⟨a, ha, rfl⟩ := hf
  · exact (hall f f.mem_all g g.mem_all).1 hg
  · exact (hall f f.mem_all g g.mem_all).2 a ha hg

theorem Names.unique (hf : f.Names arg) (hg : g.Names arg) : f = g :=
  eq_of_isName (isName_stem hf) (isName_stem hg)

theorem isName_iff : f.IsName arg ↔
    (arg = text f.name || f.alias?.any fun a => arg = text a) = true := by
  simp [IsName, Option.any_eq_true]

theorem form?_of_isName (h : f.IsName arg) : f.form? arg = some .bare := by
  rw [form?]
  exact if_pos (isName_iff.1 h)

theorem form?_joined (f : Flag) (v : Text) : f.form? (f.joined v) = some (.valued v) := by
  have hprefix : (text f.name ++ text "=").isPrefixOf (f.joined v) = true :=
    List.isPrefixOf_iff_prefix.2 ⟨v, rfl⟩
  have hdrop : (f.joined v).drop ((text f.name).length + 1) = v :=
    List.drop_left' List.length_append
  rw [form?, if_neg (mt isName_iff.2 (not_isName_joined f f v)), if_pos hprefix, hdrop]

theorem form?_eq_none (h : ¬f.Names arg) : f.form? arg = .none := by
  rw [Names, not_or, isName_iff, ← List.isPrefixOf_iff_prefix] at h
  rw [form?, if_neg h.1, if_neg h.2]

theorem recognize_eq_none (h : ∀ f : Flag, ¬f.Names arg) : recognize arg = .none := by
  rw [recognize, List.findSome?_eq_none_iff]
  intro f _
  rw [form?_eq_none (h f), Option.map_none]

theorem recognize_of_form? {form : Form} (hnames : f.Names arg) (h : f.form? arg = some form) :
    recognize arg = some (f, form) := by
  have hother (g : Flag) (hg : g ≠ f) : (g.form? arg).map (g, ·) = .none := by
    rw [form?_eq_none fun hnamed => hg (hnamed.unique hnames), Option.map_none]
  have hfound : (f.form? arg).map (f, ·) = some (f, form) := by
    rw [h, Option.map_some]
  rw [recognize, List.findSome?_eq_some_iff]
  obtain ⟨before, after, hall, hnot⟩ := List.eq_append_cons_of_mem f.mem_all
  exact ⟨before, f, after, hall, hfound, fun g hg => hother g fun heq => hnot (heq ▸ hg)⟩

theorem recognize_of_isName (h : f.IsName arg) : recognize arg = some (f, .bare) :=
  recognize_of_form? (.inl h) (form?_of_isName h)

theorem recognize_joined (f : Flag) (v : Text) : recognize (f.joined v) = some (f, .valued v) :=
  recognize_of_form? (f.names_joined v) (f.form?_joined v)

theorem not_names_divider (f : Flag) : ¬f.Names (text "--") := by
  cases f <;> decide

theorem Names.ne_divider (h : f.Names arg) : arg ≠ text "--" :=
  fun heq => f.not_names_divider (heq ▸ h)

theorem eq_name_of_isName (hf : f.arity = .required) (h : f.IsName arg) : arg = text f.name := by
  have hall : ∀ f ∈ all, f.arity = .required → f.alias? = .none := by decide
  obtain rfl | ⟨a, ha, -⟩ := h
  · rfl
  · rw [hall f f.mem_all hf] at ha
    cases ha

end Flag

inductive OptionToken : Text → Prop
  | divider : OptionToken (text "--")
  | awaiting {f : Flag} (hf : f.arity = .required) : OptionToken (text f.name)
  | bare {f : Flag} {arg : Text} (hf : f.arity ≠ .required) (h : f.IsName arg) : OptionToken arg
  | joined (f : Flag) (v : Text) : OptionToken (f.joined v)
  | other {arg : Text} (hne : arg ≠ text "--") (h : ∀ f : Flag, ¬f.Names arg) : OptionToken arg

theorem optionToken (arg : Text) : OptionToken arg := by
  by_cases hne : arg = text "--"
  · exact hne ▸ .divider
  · by_cases hnames : ∃ f : Flag, f.Names arg
    · obtain ⟨f, hf⟩ := hnames
      obtain hname | ⟨v, rfl⟩ := hf.cases
      · by_cases harity : f.arity = .required
        · exact Flag.eq_name_of_isName harity hname ▸ .awaiting harity
        · exact .bare harity hname
      · exact .joined f v
    · exact .other hne (not_exists.1 hnames)

/-- How a token is read: as a flag or a spelling, as the value of the flag before it, or as a
spelling whatever it looks like. -/
inductive Mode
  | options
  | value (f : Flag)
  | spellings
deriving DecidableEq

namespace Mode

/-- The flag that a token names and that takes the next token for its value. -/
def awaiting? (arg : Text) : Option Flag :=
  Flag.all.find? fun f => f.arity = .required ∧ arg = text f.name

def after : Mode → Text → Mode
  | .options, arg =>
    if arg = text "--" then .spellings
    else match awaiting? arg with
      | some f => .value f
      | none => .options
  | .value _, _ => .options
  | .spellings, _ => .spellings

def afterAll (args : List Text) : Mode := args.foldl after .options

def proceed : Options × Option UsageError → Except Parsed Options
  | (o, some e) => .error ⟨o, some e⟩
  | (o, none) => if o.help then .error ⟨o, none⟩ else .ok o

def read : Mode → Options → Text → Except Parsed Options
  | .options, o, arg =>
    if arg = text "--" then .ok o
    else match Flag.recognize arg with
      | none =>
        if looksLikeOption arg then .error ⟨o, some (.unknownOption arg)⟩
        else .ok (o.addSpelling arg)
      | some (f, .bare) => if f.arity = .required then .ok o else proceed (f.apply none o)
      | some (f, .valued v) =>
        if f.arity = .none then .error ⟨o, some (.unexpectedValue f.name)⟩
        else proceed (f.apply v o)
  | .value f, o, arg => proceed (f.apply arg o)
  | .spellings, o, arg => .ok (o.addSpelling arg)

def step (s : Mode × Options) (arg : Text) : Except Parsed (Mode × Options) :=
  (s.1.read s.2 arg).map (s.1.after arg, ·)

def ending : Except Parsed (Mode × Options) → Parsed
  | .error p => p
  | .ok (.value f, o) => ⟨o, some (.missingValue f.metavar f.name)⟩
  | .ok (_, o) => o.conclude

theorem awaiting?_name (hf : f.arity = .required) : awaiting? (text f.name) = some f := by
  revert hf
  cases f <;> decide

theorem awaiting?_eq_none (h : ∀ f : Flag, f.arity = .required → ¬f.IsName arg) :
    awaiting? arg = none := by
  rw [awaiting?, List.find?_eq_none]
  intro f _ hf
  rw [decide_eq_true_iff] at hf
  exact h f hf.1 (.inl hf.2)

theorem after_awaiting (hf : f.arity = .required) : options.after (text f.name) = .value f := by
  have hnames : f.Names (text f.name) := .inl (.inl rfl)
  rw [after, if_neg hnames.ne_divider, awaiting?_name hf]

theorem after_of_not_awaiting (hne : arg ≠ text "--")
    (h : ∀ f : Flag, f.arity = .required → ¬f.IsName arg) : options.after arg = .options := by
  rw [after, if_neg hne, awaiting?_eq_none h]

theorem after_joined (f : Flag) (v : Text) : options.after (f.joined v) = .options :=
  after_of_not_awaiting (f.names_joined v).ne_divider fun g _ => Flag.not_isName_joined g f v

theorem read_awaiting (hf : f.arity = .required) (o : Options) :
    options.read o (text f.name) = .ok o := by
  have hname : f.IsName (text f.name) := .inl rfl
  rw [read, if_neg (Flag.Names.ne_divider (.inl hname)), Flag.recognize_of_isName hname]
  exact if_pos hf

theorem read_bare (hf : f.arity ≠ .required) (h : f.IsName arg) (o : Options) :
    options.read o arg = proceed (f.apply none o) := by
  rw [read, if_neg (Flag.Names.ne_divider (.inl h)), Flag.recognize_of_isName h]
  exact if_neg hf

theorem read_joined (f : Flag) (v : Text) (o : Options) : options.read o (f.joined v) =
    if f.arity = .none then .error ⟨o, some (.unexpectedValue f.name)⟩
    else proceed (f.apply v o) := by
  rw [read, if_neg (f.names_joined v).ne_divider, f.recognize_joined v]

theorem read_other (hne : arg ≠ text "--") (h : ∀ f : Flag, ¬f.Names arg) (o : Options) :
    options.read o arg = if looksLikeOption arg then .error ⟨o, some (.unknownOption arg)⟩
      else .ok (o.addSpelling arg) := by
  rw [read, if_neg hne, Flag.recognize_eq_none h]

theorem foldlM_step_cons (m : Mode) (o : Options) (arg : Text) (args : List Text) :
    (arg :: args).foldlM step (m, o) =
      (m.read o arg).bind fun o' => args.foldlM step (m.after arg, o') := by
  rw [List.foldlM_cons, step]
  cases m.read o arg <;> rfl

theorem foldlM_step_spellings (args : List Text) (o : Options) :
    args.foldlM step (.spellings, o) = .ok (.spellings, args.foldl Options.addSpelling o) := by
  induction args generalizing o with
  | nil => rfl
  | cons arg args ih => exact ih (o.addSpelling arg)

end Mode

def resume (next : Options → Parsed) : Except Parsed Options → Parsed
  | .error p => p
  | .ok o => next o

theorem ending_foldlM_cons (m : Mode) (o : Options) (arg : Text) (rest : List Text) :
    Mode.ending ((arg :: rest).foldlM Mode.step (m, o)) =
      resume (fun o => Mode.ending (rest.foldlM Mode.step (m.after arg, o))) (m.read o arg) := by
  rw [Mode.foldlM_step_cons]
  cases m.read o arg <;> rfl

theorem parseFrom_of_apply {took : Bool} {r : Options × Option UsageError} (hne : arg ≠ text "--")
    (rest : List Text) (hread : readFlag arg rest.head? o = .ofApply took r) :
    parseFrom o (arg :: rest) =
      resume (parseFrom · (if took then rest.tail else rest)) (Mode.proceed r) := by
  rw [parseFrom, if_neg hne, hread]
  obtain ⟨o, e | _⟩ := r
  · by_cases hhelp : o.help = true
    · simp only [Reading.ofApply, Mode.proceed, resume, hhelp, if_true]
    · simp only [Reading.ofApply, Mode.proceed, resume, hhelp]
      cases took <;> cases rest <;> rfl
  · rfl

theorem parseFrom_awaiting (hf : f.arity = .required) (o : Options) (v : Text) (rest : List Text) :
    parseFrom o (text f.name :: v :: rest) =
      resume (parseFrom · rest) (Mode.proceed (f.apply v o)) := by
  have hname : f.IsName (text f.name) := .inl rfl
  have hread : readFlag (text f.name) (some v) o = .ofApply true (f.apply v o) := by
    simp only [readFlag, Flag.recognize_of_isName hname, hf]
  exact parseFrom_of_apply (Flag.Names.ne_divider (.inl hname)) (v :: rest) hread

theorem parseFrom_missing (hf : f.arity = .required) (o : Options) :
    parseFrom o [text f.name] = ⟨o, some (.missingValue f.metavar f.name)⟩ := by
  have hname : f.IsName (text f.name) := .inl rfl
  have hread : readFlag (text f.name) none o =
      .refused (.missingValue f.metavar f.name) o false := by
    simp only [readFlag, Flag.recognize_of_isName hname, hf]
  rw [parseFrom, if_neg (Flag.Names.ne_divider (.inl hname)), List.head?_nil, hread]

theorem parseFrom_cons (hne : arg ≠ text "--")
    (h : ∀ f : Flag, f.arity = .required → ¬f.IsName arg) (o : Options) (rest : List Text) :
    parseFrom o (arg :: rest) = resume (parseFrom · rest) (Mode.options.read o arg) := by
  cases optionToken arg with
  | divider => exact absurd rfl hne
  | awaiting hf => exact absurd (.inl rfl) (h _ hf)
  | @bare f _ hf hname =>
    have hread : readFlag arg rest.head? o = .ofApply false (f.apply none o) := by
      simp only [readFlag, Flag.recognize_of_isName hname]
    rw [parseFrom_of_apply hne rest hread, Mode.read_bare hf hname]
    rfl
  | joined f v =>
    rw [Mode.read_joined]
    by_cases hf : f.arity = .none
    · have hread : readFlag (f.joined v) rest.head? o =
          .refused (.unexpectedValue f.name) o false := by
        simp only [readFlag, f.recognize_joined v, hf]
      rw [parseFrom, if_neg hne, hread, if_pos hf]
      rfl
    · have hread : readFlag (f.joined v) rest.head? o = .ofApply false (f.apply v o) := by
        simp only [readFlag, f.recognize_joined v]
      rw [parseFrom_of_apply hne rest hread, if_neg hf]
      rfl
  | other _ hnames =>
    have hread : readFlag arg rest.head? o = .unmatched := by
      simp only [readFlag, Flag.recognize_eq_none hnames]
    rw [parseFrom, if_neg hne, hread, Mode.read_other hne hnames]
    cases looksLikeOption arg <;> rfl

/-- The parser that looks ahead is the machine that reads token by token. A flag that takes the next
token is two steps of the machine, every other token is one. -/
theorem parseFrom_eq_ending (o : Options) (args : List Text) :
    parseFrom o args = Mode.ending (args.foldlM Mode.step (.options, o)) := by
  match args with
  | [] => rfl
  | arg :: rest =>
    rw [ending_foldlM_cons]
    by_cases hawaiting : ∃ f : Flag, f.arity = .required ∧ f.IsName arg
    · obtain ⟨f, hf, hname⟩ := hawaiting
      obtain rfl := Flag.eq_name_of_isName hf hname
      rw [Mode.after_awaiting hf, Mode.read_awaiting hf, resume]
      cases rest with
      | nil => exact parseFrom_missing hf o
      | cons v rest =>
        rw [ending_foldlM_cons, parseFrom_awaiting hf]
        simp only [parseFrom_eq_ending _ rest]
        rfl
    · have hnot : ∀ f : Flag, f.arity = .required → ¬f.IsName arg := by simpa using hawaiting
      by_cases hne : arg = text "--"
      · rw [hne, parseFrom, if_pos rfl, Mode.read, if_pos rfl]
        simp only [resume, Mode.after, if_true, Mode.foldlM_step_spellings]
        rfl
      · rw [Mode.after_of_not_awaiting hne hnot, parseFrom_cons hne hnot]
        simp only [parseFrom_eq_ending _ rest]
termination_by args.length

theorem Mode.foldlM_step_fst {m : Mode} {s : Mode × Options}
    (h : args.foldlM step (m, o) = .ok s) : s.1 = args.foldl after m := by
  induction args generalizing m o with
  | nil =>
    cases h
    rfl
  | cons arg args ih =>
    rw [foldlM_step_cons] at h
    cases hread : m.read o arg with
    | error p =>
      rw [hread] at h
      cases h
    | ok o' =>
      rw [hread] at h
      exact ih h

theorem parse_append_congr {pre xs ys : List Text}
    (h : ∀ o, Mode.ending (xs.foldlM Mode.step (Mode.afterAll pre, o)) =
      Mode.ending (ys.foldlM Mode.step (Mode.afterAll pre, o))) :
    parse (pre ++ xs) = parse (pre ++ ys) := by
  rw [parse, parse, parseFrom_eq_ending, parseFrom_eq_ending, List.foldlM_append,
    List.foldlM_append]
  cases hrun : pre.foldlM Mode.step (.options, {}) with
  | error p => rfl
  | ok s =>
    obtain ⟨m, o⟩ := s
    obtain rfl : m = Mode.afterAll pre := Mode.foldlM_step_fst hrun
    exact h o

/-- In the place of an option, a value after `=` and a value in the next token come to the same,
whatever the value is and whatever follows it. -/
theorem parse_joined_eq_separate (hf : f = .property ∨ f = .logPath) {pre : List Text}
    (hpre : Mode.afterAll pre = .options) (v : Text) (post : List Text) :
    parse (pre ++ [text f.name ++ text "=" ++ v] ++ post) =
      parse (pre ++ [text f.name, v] ++ post) := by
  have harity : f.arity = .required := by
    obtain rfl | rfl := hf <;> rfl
  rw [List.append_assoc, List.append_assoc pre]
  apply parse_append_congr
  intro o
  change Mode.ending ((f.joined v :: post).foldlM _ _) =
    Mode.ending ((text f.name :: v :: post).foldlM _ _)
  rw [hpre, ending_foldlM_cons, Mode.after_joined, Mode.read_joined, ending_foldlM_cons,
    Mode.after_awaiting harity, Mode.read_awaiting harity, resume, ending_foldlM_cons]
  simp only [harity]
  rfl

theorem parse_joined_divider :
    let pre := [text "--log-path", text "--optional", text "string"]
    let post := [text "-1", text "--", text "-x"]
    Mode.afterAll pre = .options ∧
      parse (pre ++ [text "--property=--"] ++ post) =
        parse (pre ++ [text "--property", text "--"] ++ post) := by
  intro pre post
  have hpre : Mode.afterAll pre = .options := by decide
  exact ⟨hpre, parse_joined_eq_separate (f := .property) (.inl rfl) hpre (text "--") post⟩

end FlowTyping.CommandLine
