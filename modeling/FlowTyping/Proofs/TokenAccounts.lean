import FlowTyping.Proofs.TokenReading
import Mathlib.Logic.Function.Basic

namespace FlowTyping.CommandLine

variable {f g : Flag} {arg : Text} {v : Option Text} {args : List Text} {o o' : Options} {m : Mode}

namespace Mode

/-! ### What tokens say -/

/-- Whether a token is kept as a spelling. In the place of an option, a flag is not, and neither is
the token that ends the options. -/
def keeps : Mode → Text → Bool
  | .options, arg => arg ≠ [] ∧ arg ≠ text "--" ∧ ∀ f ∈ Flag.all, ¬f.Names arg
  | .value _, _ => false
  | .spellings, arg => arg ≠ []

/-- Whether a token completes an occurrence of a flag, and the value that it has there. -/
def gives (f : Flag) : Mode → Text → Option (Option Text)
  | .options, arg =>
    if f.arity ≠ .required ∧ f.IsName arg then some none
    else if text f.name ++ text "=" <+: arg then
      some (some (arg.drop (text f.name ++ text "=").length))
    else none
  | .value g, arg => if f = g then some (some arg) else none
  | .spellings, _ => none

def readings (m : Mode) : List Text → List (Mode × Text)
  | [] => []
  | arg :: rest => (m, arg) :: readings (m.after arg) rest

theorem readings_append (m : Mode) (args rest : List Text) :
    readings m (args ++ rest) = readings m args ++ readings (args.foldl after m) rest := by
  induction args generalizing m with
  | nil => rfl
  | cons arg args ih =>
    rw [List.cons_append, readings, ih, readings, List.foldl_cons, List.cons_append]

theorem readings_spellings (args : List Text) :
    readings .spellings args = args.map (Mode.spellings, ·) := by
  induction args with
  | nil => rfl
  | cons arg args ih => rw [readings, after, ih, List.map_cons]

theorem afterAll_concat (args : List Text) (arg : Text) :
    afterAll (args ++ [arg]) = (afterAll args).after arg :=
  List.foldl_append

theorem keeps_of_names (h : f.Names arg) : options.keeps arg = false :=
  decide_eq_false fun hkept => hkept.2.2 f f.mem_all h

theorem gives_eq_none (h : ¬f.Names arg) : options.gives f arg = none := by
  rw [Flag.Names, not_or] at h
  rw [gives, if_neg fun hname => h.1 hname.2, if_neg h.2]

theorem gives_of_names (h : f.Names arg) (g : Flag) :
    options.gives g arg = if g = f then options.gives f arg else none := by
  by_cases heq : g = f
  · rw [if_pos heq, heq]
  · rw [if_neg heq, gives_eq_none fun hnames => heq (hnames.unique h)]

theorem gives_awaiting (hf : f.arity = .required) : options.gives f (text f.name) = none := by
  have hnot : ¬text f.name ++ text "=" <+: text f.name := by
    rintro ⟨v, hv⟩
    exact Flag.not_isName_joined f f v (.inl hv)
  rw [gives, if_neg fun h => h.1 hf, if_neg hnot]

theorem gives_bare (hf : f.arity ≠ .required) (h : f.IsName arg) :
    options.gives f arg = some none := by
  rw [gives, if_pos ⟨hf, h⟩]

theorem gives_joined (f : Flag) (v : Text) : options.gives f (f.joined v) = some (some v) := by
  rw [gives, if_neg fun h => Flag.not_isName_joined f f v h.2, if_pos ⟨v, rfl⟩, Flag.joined,
    List.drop_left]

end Mode

def spellingsIn (args : List Text) : List Text :=
  ((Mode.readings .options args).filter fun r => r.1.keeps r.2).map (·.2)

def valuesIn (args : List Text) (f : Flag) : List (Option Text) :=
  (Mode.readings .options args).filterMap fun r => r.1.gives f r.2

def latest (args : List Text) (f : Flag) : Option (Option Text) := (valuesIn args f).getLast?

theorem spellingsIn_append (args rest : List Text) : spellingsIn (args ++ rest) =
    spellingsIn args ++
      ((Mode.readings (Mode.afterAll args) rest).filter fun r => r.1.keeps r.2).map (·.2) := by
  rw [spellingsIn, Mode.readings_append, List.filter_append, List.map_append, ← spellingsIn]
  rfl

theorem spellingsIn_concat (args : List Text) (arg : Text) : spellingsIn (args ++ [arg]) =
    spellingsIn args ++ if (Mode.afterAll args).keeps arg then [arg] else [] := by
  rw [spellingsIn_append, Mode.readings, Mode.readings, List.filter_cons, List.filter_nil]
  cases (Mode.afterAll args).keeps arg <;> rfl

theorem spellingsIn_divider {pre : List Text} (hpre : Mode.afterAll pre = .options)
    (post : List Text) :
    spellingsIn (pre ++ text "--" :: post) = spellingsIn pre ++ post.filter (· ≠ []) := by
  rw [spellingsIn_append, hpre, Mode.readings, Mode.after, if_pos rfl, Mode.readings_spellings,
    List.filter_cons_of_neg (by decide), List.filter_map, List.map_map]
  exact congrArg (_ ++ ·) (List.map_id _)

theorem latest_concat (args : List Text) (arg : Text) (f : Flag) : latest (args ++ [arg]) f =
    ((Mode.afterAll args).gives f arg).or (latest args f) := by
  have hvalues : valuesIn (args ++ [arg]) f =
      valuesIn args f ++ ((Mode.afterAll args).gives f arg).toList := by
    rw [valuesIn, Mode.readings_append, List.filterMap_append, ← valuesIn]
    change _ ++ List.filterMap _ [(Mode.afterAll args, arg)] = _
    cases h : (Mode.afterAll args).gives f arg <;> simp [h]
  rw [latest, hvalues, List.getLast?_append, ← latest]
  cases (Mode.afterAll args).gives f arg <;> rfl

/-! ### What the options hold -/

def formatAsked : Option Text → Option MetricsFormat
  | none => some .text
  | some v =>
    if v = text "text" then some .text
    else if v = text "json" then some .json
    else none

structure Options.Holds (o : Options) (types : List Text) (last : Flag → Option (Option Text)) :
    Prop where
  types : o.types = types
  property : o.property = (last .property).join
  property_ne : ∀ key ∈ o.property, key ≠ []
  logPath : o.logPath = (last .logPath).join.getD []
  format : (last .metrics).elim (some .text) formatAsked = some o.format
  optional : o.optional = (last .optional).isSome
  logTypes : o.logTypes = (last .logTypes).isSome
  metrics : o.metrics = (last .metrics).isSome

namespace Options.Holds

variable {types : List Text} {last : Flag → Option (Option Text)}

theorem empty : ({} : Options).Holds [] fun _ => none where
  types := rfl
  property := rfl
  property_ne := nofun
  logPath := rfl
  format := rfl
  optional := rfl
  logTypes := rfl
  metrics := rfl

theorem addSpelling (h : o.Holds types last) (arg : Text) :
    (o.addSpelling arg).Holds (types ++ if arg ≠ [] then [arg] else []) last := by
  cases arg with
  | nil =>
    rw [if_neg (not_not.2 rfl), List.append_nil]
    exact h
  | cons c arg =>
    rw [if_pos (List.cons_ne_nil c arg)]
    exact { h with types := congrArg (· ++ [c :: arg]) h.types }

end Options.Holds

theorem Flag.apply_property (h : Flag.property.apply v o = (o', none)) :
    ∃ key, key ≠ [] ∧ v = some key ∧ o' = { o with property := some key } := by
  obtain _ | _ | ⟨c, key⟩ := v
  · cases h
  · cases h
  · cases h
    exact ⟨c :: key, List.cons_ne_nil c key, rfl, rfl⟩

theorem Flag.apply_logPath (h : Flag.logPath.apply v o = (o', none)) :
    ∃ dir, v = some dir ∧ o' = { o with logPath := dir } := by
  obtain _ | _ | ⟨c, dir⟩ := v
  · cases h
  · cases h
  · cases h
    exact ⟨c :: dir, rfl, rfl⟩

theorem Flag.apply_metrics (h : Flag.metrics.apply v o = (o', none)) :
    ∃ format, formatAsked v = some format ∧
      o' = { o with metrics := true, format := format } := by
  cases v with
  | none =>
    cases h
    exact ⟨.text, rfl, rfl⟩
  | some v =>
    simp only [Flag.apply, formatAsked] at h ⊢
    split at h
    · cases h
      exact ⟨.text, if_pos ‹_›, rfl⟩
    · rw [if_neg ‹_›]
      split at h
      · cases h
        exact ⟨.json, if_pos ‹_›, rfl⟩
      · cases h

theorem Options.Holds.apply {types : List Text} {last : Flag → Option (Option Text)}
    (h : o.Holds types last) (happly : f.apply v o = (o', none)) (hhelp : o'.help = false) :
    o'.Holds types (Function.update last f (some v)) := by
  cases f with
  | help =>
    cases happly
    cases hhelp
  | optional =>
    cases happly
    exact { h with optional := rfl }
  | property =>
    obtain ⟨key, hne, rfl, rfl⟩ := Flag.apply_property happly
    exact { h with
      property := rfl
      property_ne := fun _ hmem => Option.mem_some.1 hmem ▸ hne }
  | logPath =>
    obtain ⟨dir, rfl, rfl⟩ := Flag.apply_logPath happly
    exact { h with logPath := rfl }
  | logTypes =>
    cases happly
    exact { h with logTypes := rfl }
  | metrics =>
    obtain ⟨format, hasked, rfl⟩ := Flag.apply_metrics happly
    exact { h with
      format := hasked
      metrics := rfl }

/-! ### One token -/

namespace Mode

/-- What a token does to the options when the parser goes on after it. -/
inductive Effect (m : Mode) (arg : Text) (o : Options) : Options → Prop
  | nothing (hkeeps : m.keeps arg = false) (hgives : ∀ g, m.gives g arg = none) : Effect m arg o o
  | flag {f : Flag} {v : Option Text} {o' : Options} (happly : f.apply v o = (o', none))
      (hhelp : o'.help = false) (hkeeps : m.keeps arg = false)
      (hgives : ∀ g, m.gives g arg = if g = f then some v else none) : Effect m arg o o'
  | spelling (hkeeps : m.keeps arg = decide (arg ≠ [])) (hgives : ∀ g, m.gives g arg = none)
      (hplain : m ≠ .spellings → looksLikeOption arg = false) : Effect m arg o (o.addSpelling arg)

theorem proceed_eq_ok {r : Options × Option UsageError} (h : proceed r = .ok o) :
    r = (o, none) ∧ o.help = false := by
  obtain ⟨o', _ | e⟩ := r
  · rw [proceed] at h
    split at h
    · cases h
    · cases h
      exact ⟨rfl, eq_false_of_ne_true ‹_›⟩
  · cases h

theorem effect_of_proceed (h : proceed (f.apply v o) = .ok o') (hkeeps : m.keeps arg = false)
    (hgives : ∀ g, m.gives g arg = if g = f then some v else none) : m.Effect arg o o' :=
  .flag (proceed_eq_ok h).1 (proceed_eq_ok h).2 hkeeps hgives

theorem effect_of_read (h : m.read o arg = .ok o') : m.Effect arg o o' := by
  cases m with
  | value f => exact effect_of_proceed h rfl fun g => rfl
  | spellings =>
    cases h
    exact .spelling rfl (fun _ => rfl) fun hne => absurd rfl hne
  | options =>
    cases optionToken arg with
    | divider =>
      rw [read, if_pos rfl] at h
      cases h
      exact .nothing (by decide) fun g => gives_eq_none g.not_names_divider
    | @awaiting f hf =>
      have hnames : f.Names (text f.name) := .inl (.inl rfl)
      rw [read_awaiting hf] at h
      cases h
      refine .nothing (keeps_of_names hnames) fun g => ?_
      rw [gives_of_names hnames, gives_awaiting hf, ite_self]
    | @bare f _ hf hname =>
      have hnames : f.Names arg := .inl hname
      rw [read_bare hf hname] at h
      refine effect_of_proceed h (keeps_of_names hnames) fun g => ?_
      rw [gives_of_names hnames, gives_bare hf hname]
    | joined f v =>
      rw [read_joined] at h
      split at h
      · cases h
      · refine effect_of_proceed h (keeps_of_names (f.names_joined v)) fun g => ?_
        rw [gives_of_names (f.names_joined v), gives_joined]
    | other hne hnames =>
      rw [read_other hne hnames] at h
      split at h
      · cases h
      · cases h
        have hplain : looksLikeOption arg = false := eq_false_of_ne_true ‹_›
        refine .spelling ?_ (fun g => gives_eq_none (hnames g)) fun _ => hplain
        simp only [keeps, hne, hnames, not_false_eq_true, implies_true, and_true, ne_eq]

theorem Effect.holds {types : List Text} {last : Flag → Option (Option Text)}
    (heffect : m.Effect arg o o') (h : o.Holds types last) :
    o'.Holds (types ++ if m.keeps arg then [arg] else []) fun g => (m.gives g arg).or (last g) := by
  cases heffect with
  | nothing hkeeps hgives =>
    simp only [hkeeps, hgives, Bool.false_eq_true, if_false, List.append_nil, Option.none_or]
    exact h
  | @flag f v _ happly hhelp hkeeps hgives =>
    have hlast : (fun g => (m.gives g arg).or (last g)) = Function.update last f (some v) := by
      funext g
      rw [hgives, Function.update_apply]
      split <;> rfl
    rw [hlast, hkeeps, if_neg Bool.false_ne_true, List.append_nil]
    exact h.apply happly hhelp
  | spelling hkeeps hgives =>
    simp only [hkeeps, hgives, decide_eq_true_eq, Option.none_or]
    exact h.addSpelling arg

theorem Effect.plain (heffect : m.Effect arg o o') (hne : m ≠ .spellings)
    (hkept : m.keeps arg = true) : looksLikeOption arg = false := by
  cases heffect with
  | nothing hkeeps => cases hkept.symm.trans hkeeps
  | flag _ _ hkeeps => cases hkept.symm.trans hkeeps
  | spelling _ _ hplain => exact hplain hne

theorem help_of_proceed {p : Parsed} {r : Options × Option UsageError} (h : proceed r = .error p)
    (hnone : p.refusal = none) : p.options.help = true := by
  obtain ⟨o, _ | e⟩ := r
  · rw [proceed] at h
    split at h
    · cases h
      assumption
    · cases h
  · cases h
    cases hnone

theorem help_of_read {p : Parsed} (h : m.read o arg = .error p) (hnone : p.refusal = none) :
    p.options.help = true := by
  cases m with
  | value f => exact help_of_proceed h hnone
  | spellings => cases h
  | options =>
    cases optionToken arg with
    | divider =>
      rw [read, if_pos rfl] at h
      cases h
    | awaiting hf =>
      rw [read_awaiting hf] at h
      cases h
    | bare hf hname =>
      rw [read_bare hf hname] at h
      exact help_of_proceed h hnone
    | joined f v =>
      rw [read_joined] at h
      split at h
      · cases h
        cases hnone
      · exact help_of_proceed h hnone
    | other hne hnames =>
      rw [read_other hne hnames] at h
      split at h
      · cases h
        cases hnone
      · cases h

end Mode

/-! ### All tokens -/

structure Options.Tallies (o : Options) (args : List Text) : Prop extends
    o.Holds (spellingsIn args) (latest args) where
  plain : Mode.afterAll args ≠ .spellings → ∀ arg ∈ spellingsIn args, looksLikeOption arg = false

namespace Options.Tallies

theorem concat (h : o.Tallies args) (heffect : (Mode.afterAll args).Effect arg o o') :
    o'.Tallies (args ++ [arg]) := by
  have hlatest : latest (args ++ [arg]) =
      fun g => ((Mode.afterAll args).gives g arg).or (latest args g) :=
    funext (latest_concat args arg)
  refine ⟨?_, fun hne t ht => ?_⟩
  · rw [spellingsIn_concat, hlatest]
    exact heffect.holds h.toHolds
  · -- Nothing but spellings follows the token that ends the options.
    have hbefore : Mode.afterAll args ≠ .spellings := by
      intro hspellings
      rw [Mode.afterAll_concat, hspellings] at hne
      exact hne rfl
    rw [spellingsIn_concat, List.mem_append] at ht
    obtain ht | ht := ht
    · exact h.plain hbefore t ht
    · obtain ⟨hkept, rfl⟩ : (Mode.afterAll args).keeps arg = true ∧ t = arg := by
        simpa using ht
      exact heffect.plain hbefore hkept

theorem run {pre : List Text} (h : o.Tallies pre)
    (hrun : args.foldlM Mode.step (Mode.afterAll pre, o) = .ok (m, o')) :
    o'.Tallies (pre ++ args) := by
  -- The induction is on the tokens that are left; what is known is about those already read.
  induction args generalizing pre o with
  | nil =>
    cases hrun
    rwa [List.append_nil]
  | cons arg args ih =>
    rw [Mode.foldlM_step_cons] at hrun
    cases hread : (Mode.afterAll pre).read o arg with
    | error p =>
      rw [hread] at hrun
      cases hrun
    | ok o₁ =>
      rw [hread] at hrun
      rw [List.append_cons]
      apply ih (h.concat (Mode.effect_of_read hread))
      rw [Mode.afterAll_concat]
      exact hrun

theorem of_run (hrun : args.foldlM Mode.step (.options, {}) = .ok (m, o)) : o.Tallies args := by
  have hnil : ({} : Options).Tallies [] := ⟨.empty, fun _ _ => nofun⟩
  exact hnil.run hrun

theorem plain_of_append {pre post : List Text}
    (hrun : (pre ++ post).foldlM Mode.step (.options, {}) = .ok (m, o))
    (hne : Mode.afterAll pre ≠ .spellings) :
    ∀ arg ∈ spellingsIn pre, looksLikeOption arg = false := by
  rw [List.foldlM_append] at hrun
  cases hpre : pre.foldlM Mode.step (.options, {}) with
  | error p =>
    rw [hpre] at hrun
    cases hrun
  | ok s => exact (of_run hpre).plain hne

end Options.Tallies

theorem Mode.help_of_run {p : Parsed} (h : args.foldlM step (m, o) = .error p)
    (hnone : p.refusal = none) : p.options.help = true := by
  induction args generalizing m o with
  | nil => cases h
  | cons arg args ih =>
    rw [foldlM_step_cons] at h
    cases hread : m.read o arg with
    | error p' =>
      rw [hread] at h
      cases h
      exact help_of_read hread hnone
    | ok o' =>
      rw [hread] at h
      exact ih h

theorem Options.conclude_accepts (h : o.conclude.refusal = none) :
    o.conclude.options = o ∧ o.types ≠ [] ∧ (o.logTypes = true → o.logPath ≠ []) := by
  rw [conclude] at h ⊢
  split at h
  · cases h
  · next htypes =>
    rw [if_neg htypes]
    split at h
    · cases h
    · next hpath =>
      rw [if_neg hpath]
      exact ⟨rfl, by simpa using htypes, by simpa using hpath⟩

theorem minus_of_plain (h : looksLikeOption arg = false) :
    arg.head? ≠ some 0x2d ∨ ∃ c rest, arg = 0x2d :: c :: rest ∧ (Text.isDigit c ∨ c = 0x2e) := by
  rw [looksLikeOption, Bool.and_eq_false_iff, beq_eq_false_iff_ne, Bool.not_eq_false'] at h
  refine h.imp id fun hnumber => ?_
  match arg, hnumber with
  | a :: c :: rest, hnumber =>
    rw [isNegativeNumber, Bool.and_eq_true, beq_iff_eq, Bool.or_eq_true, beq_iff_eq] at hnumber
    obtain ⟨rfl, hc⟩ := hnumber
    exact ⟨c, rest, rfl, hc⟩

/-- The options account for every token. -/
structure Options.Accounts (o : Options) (args : List Text) : Prop extends
    o.Holds (spellingsIn args) (latest args) where
  types_ne : o.types ≠ []
  before : ∀ pre post, args = pre ++ post → Mode.afterAll pre ≠ .spellings →
    ∀ arg ∈ spellingsIn pre, arg.head? ≠ some 0x2d ∨
      ∃ c rest, arg = 0x2d :: c :: rest ∧ (Text.isDigit c ∨ c = 0x2e)
  divider : ∀ pre post, args = pre ++ text "--" :: post → Mode.afterAll pre = .options →
    o.types = spellingsIn pre ++ post.filter (· ≠ [])
  logTypes_path : o.logTypes = true → o.logPath ≠ []

/-- A command line that is neither refused nor asks for help is accounted for, token by token. -/
theorem parse_accounts (hparse : (parse args).refusal = none)
    (hhelp : (parse args).options.help = false) : (parse args).options.Accounts args := by
  rw [parse, parseFrom_eq_ending] at *
  cases hrun : args.foldlM Mode.step (.options, {}) with
  | error p =>
    rw [hrun] at hparse hhelp
    cases (Mode.help_of_run hrun hparse).symm.trans hhelp
  | ok s =>
    obtain ⟨m, o⟩ := s
    have hend : Mode.ending (.ok (m, o)) = o.conclude := by
      cases m with
      | value f =>
        rw [hrun] at hparse
        cases hparse
      | options => rfl
      | spellings => rfl
    rw [hrun, hend] at hparse
    obtain ⟨heq, hne, hpath⟩ := Options.conclude_accepts hparse
    rw [hend, heq]
    have htallies := Options.Tallies.of_run hrun
    refine ⟨htallies.toHolds, hne, ?_, ?_, hpath⟩
    · rintro pre post rfl hpre arg harg
      exact minus_of_plain (Options.Tallies.plain_of_append hrun hpre arg harg)
    · rintro pre post rfl hpre
      rw [htallies.types, spellingsIn_divider hpre]

theorem parse_accounts_values :
    let args := [text "--property", text "--", text "-1", text "--metrics=json", text "",
      text "--property=--optional", text "--log-path", text "--help", text "--log-types",
      text "--", text "", text "--metrics", text "--"]
    spellingsIn args = [text "-1", text "--metrics", text "--"] ∧
      latest args .property = some (some (text "--optional")) ∧
      latest args .logPath = some (some (text "--help")) ∧
      (parse args).options.Accounts args := by
  intro args
  refine ⟨by decide, by decide, by decide, ?_⟩
  exact parse_accounts (by decide) (by decide)

end FlowTyping.CommandLine
