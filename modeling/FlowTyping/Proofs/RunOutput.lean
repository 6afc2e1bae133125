import FlowTyping.CommandLine.Run
import FlowTyping.Proofs.SpellingRoundTrip
import FlowTyping.Proofs.UnionReads

namespace FlowTyping

variable {g : Graph} {t : Ty} {ts xs : List Ty} {st st' : Store} {w : Text}

def Text.IsLine (w : Text) : Prop := 0x0a ∉ w

instance : DecidablePred Text.IsLine := fun w => inferInstanceAs (Decidable (0x0a ∉ w))

namespace Text

theorem IsLine.append {v : Text} (hw : w.IsLine) (hv : v.IsLine) : (w ++ v).IsLine := by
  rw [IsLine, List.mem_append, not_or]
  exact ⟨hw, hv⟩

theorem isLine_join {sep : Text} {ws : List Text} (hsep : sep.IsLine) (hws : ∀ w ∈ ws, w.IsLine) :
    (join sep ws).IsLine := by
  fun_induction join sep ws with
  | case1 => exact List.not_mem_nil
  | case2 w => exact hws w List.mem_cons_self
  | case3 w ws _ ih =>
    have hrest := ih fun v hv => hws v (List.mem_cons_of_mem _ hv)
    exact ((hws w List.mem_cons_self).append hsep).append hrest

theorem isLine_of_isNumeral (hw : ∀ c ∈ w, TypeExpr.isNumeral c = true) : w.IsLine := by
  intro hmem
  cases hw _ hmem

end Text

namespace TypeExpr

theorem isLine_escape (c : UInt8) : (escape c).IsLine := by
  simp only [escape]
  split
  · decide
  · split
    · decide
    · split
      · decide
      · split
        · decide
        · rename_i hfeed _
          simpa [Text.IsLine, eq_comm] using hfeed

theorem isLine_quote (v : Text) : (quote v).IsLine := by
  have hescaped : Text.IsLine (v.flatMap escape) := by
    intro hmem
    obtain ⟨c, -, hc⟩ := List.mem_flatMap.1 hmem
    exact isLine_escape c hc
  exact (Text.IsLine.append (by decide) hescaped).append (by decide)

end TypeExpr

theorem Number.isLine_print (x : Number) : x.print.IsLine := by
  cases hx : x.value with
  | nan =>
    rw [eq_nan hx]
    decide
  | infinite s =>
    rw [eq_infinity hx]
    cases s <;> decide
  | finite s m q => exact Text.isLine_of_isNumeral (Spelling.isNumber_print hx).bytes

theorem Ty.Spelled.isLine_render (ht : t.Spelled) : t.written.render.IsLine := by
  cases ht with
  | @simple s hs => cases s <;> decide
  | string v =>
    rw [written, TypeExpr.render]
    exact TypeExpr.isLine_quote v
  | number x =>
    rw [written, TypeExpr.render]
    exact x.isLine_print
  | bigint negative hds =>
    rw [written, TypeExpr.render]
    have hnumber := Spelling.isNumber_canonicalDigits negative hds
    exact (Text.isLine_of_isNumeral hnumber.bytes).append (by decide)
  | boolean b => cases b <;> decide

theorem Graph.Spelled.isLine_print (ht : g.Spelled t) : (g.print t).IsLine := by
  rw [ht.print]
  refine Text.isLine_join (by decide) fun w hw => ?_
  obtain ⟨m, hm, rfl⟩ := List.mem_map.1 hw
  exact (ht.mem_parts m hm).isLine_render

theorem Fold.exists_spelled_of_types (hts : ∀ t ∈ ts, g.Spelled t) :
    ∃ f, ts.foldlM (absorb g) .never = .ok f ∧ f.Spelled ∧ f.Reached g := by
  have hparts : ∀ m ∈ ts.flatMap g.parts, m.Spelled := by
    intro m hm
    obtain ⟨t, ht, hm⟩ := List.mem_flatMap.1 hm
    exact (hts t ht).mem_parts m hm
  obtain ⟨f, hf, hspelled⟩ := exists_spelled g hparts
  rw [foldlM_absorb_of_spelled hparts] at hf
  exact ⟨f, by rw [foldlM_absorb_eq, hf], hspelled⟩

theorem Graph.Spelled.kind_ne (ht : g.Spelled t) : g.kind t ≠ .instantiation := by
  cases ht with
  | single ht => exact (ht.kind_ne g).2
  | union hi _ _ =>
    rw [kind_of_union hi]
    exact Kind.noConfusion

namespace Resolvers

variable {r : Resolvers}

theorem unite_spelled_types (hlimit : 0 < r.limit) (hts : ∀ t ∈ ts, st.graph.Spelled t) :
    ∃ t st', (r.unite ts).Returns st t st' ∧ st'.graph.Spelled t := by
  match ts, hts with
  | [], _ => exact ⟨.undefined, st, .pure _ st, .single (.simple (by decide))⟩
  | [t], hts => exact ⟨t, st, .pure t st, hts t List.mem_cons_self⟩
  | a :: b :: ts, hts =>
    obtain ⟨f, hf, hspelled, hreached⟩ := Fold.exists_spelled_of_types hts
    rw [← List.map_id (a :: b :: ts)] at hf
    obtain ⟨t, st', hrun, hends, -⟩ := unite_returns (r := r) (by simp)
      (fun t ht => opens_of_kind_ne hlimit (hts t ht).kind_ne) hf
    exact ⟨t, st', hrun, hspelled.endsIn hreached hends⟩

theorem widen_spelled (hlimit : 0 < r.limit) (optional : Bool) (ht : st.graph.Spelled t) :
    ∃ t' st', (r.widen optional t).Returns st t' st' ∧ st'.graph.Spelled t' := by
  cases optional with
  | false => exact ⟨t, st, .pure t st, ht⟩
  | true =>
    rw [widen, if_pos rfl]
    refine unite_spelled_types hlimit fun x hx => ?_
    rcases List.mem_pair.1 hx with rfl | rfl
    · exact .single (.simple (by decide))
    · exact ht

theorem simpleProperty_spelled {s : Simple} (hs : s ∈ Spelling.words) (key : PropertyKey) :
    (simpleProperty s key).Spelled := by
  cases s with
  | error => exact absurd hs (by decide)
  | string =>
    rw [simpleProperty]
    split <;> exact .simple (by decide)
  | _ => exact .simple (by decide)

theorem stringProperty_spelled (v : Text) (key : PropertyKey) :
    (stringProperty v key).Spelled := by
  rw [stringProperty]
  split
  · split
    · exact .number _
    · exact .simple (by decide)
  · exact .simple (by decide)

theorem memberProperty_spelled (r : Resolvers) (key : PropertyKey) (ht : t.Spelled) :
    ∃ x : Ty, x.Spelled ∧ ∀ st, (r.memberProperty t key).Returns st x st := by
  cases ht with
  | @simple s hs => exact ⟨_, simpleProperty_spelled hs key, fun st => .pure _ st⟩
  | string v => exact ⟨_, stringProperty_spelled v key, fun st => .pure _ st⟩
  | _ => exact ⟨.unknown, .simple (by decide), fun st => .pure _ st⟩

theorem uniteReads_spelled (key : PropertyKey) (hlimit : 0 < r.limit) (hxs : ∀ x ∈ xs, x.Spelled)
    (st : Store) :
    ∃ t st', (r.uniteReads (r.memberProperty · key) xs).Returns st t st' ∧ st'.graph.Spelled t := by
  obtain ⟨n, hn⟩ := Nat.exists_eq_add_one.2 hlimit
  have : Nonempty Ty := ⟨.never⟩
  choose! answer hspelled hread using fun x hx => r.memberProperty_spelled key (hxs x hx)
  have hanswers : ∀ y ∈ xs.map answer, y.Spelled := by
    simpa only [List.forall_mem_map] using hspelled
  obtain ⟨f, hf, hfold, hreached⟩ := Fold.exists_spelled st.graph hanswers
  rw [List.foldlM_map] at hf
  have hreads : (xs.foldlM (fun f x => do r.addTo f (← r.memberProperty x key)) .never).Returns
      st f st := by
    refine .foldlM (fun acc x hx acc' hacc => (hread x hx st).bind ?_) hf
    rw [addTo, hn]
    exact Fold.add_returns r.unwrap n ((hspelled x hx).kind_ne st.graph).2 hacc
  obtain ⟨t, st', hfinish, hends, -⟩ := f.finish_returns st
  exact ⟨t, st', hreads.bind hfinish, hfold.endsIn hreached hends⟩

theorem property_spelled (hr : r.property? = none) (hlimit : 0 < r.limit) (key : PropertyKey)
    (ht : st.graph.Spelled t) :
    ∃ x st', (r.property t key).Returns st x st' ∧ st'.graph.Spelled x := by
  have hsettle : (Fold.settle r.unwrap r.limit t).Returns st t st :=
    Fold.settle_of_pos hlimit ht.kind_ne
  simp only [property, hr]
  cases ht with
  | single ht =>
    obtain ⟨x, hx, hread⟩ := r.memberProperty_spelled key ht
    refine ⟨x, st, ?_, .single hx⟩
    exact (run_builtinProperty hsettle (ht.kind_ne st.graph).1).trans (hread st)
  | union hi hu _ =>
    obtain ⟨x, st', hread, hx⟩ := uniteReads_spelled key hlimit (fun m hm => hu.mem hm) st
    exact ⟨x, st', (run_builtinProperty_union hsettle hi).trans hread, hx⟩

end Resolvers

theorem Spelling.category_of_read {f : Fault} (hf : read w = .error f) : f.category = .config := by
  rw [read] at hf
  generalize w.trim = w at hf
  cases w with
  | nil =>
    cases hf
    rfl
  | cons c w =>
    simp only [readTrimmed] at hf
    split at hf
    · cases hf
    · split at hf
      · split at hf <;> cases hf
        rfl
      · split at hf
        · cases hf
        · split at hf <;> cases hf
          rfl

theorem Spelling.category_of_readAll {args : List Text} {f : Fault}
    (hf : readAll args = .error f) : f.category = .config := by
  rw [readAll] at hf
  generalize args.flatMap split = pieces at hf
  induction pieces with
  | nil => cases hf
  | cons p pieces ih =>
    rw [List.mapM_cons] at hf
    cases hp : read p with
    | error e =>
      rw [hp] at hf
      cases hf
      exact category_of_read hp
    | ok t =>
      cases hrest : pieces.mapM read with
      | error e =>
        rw [hp, hrest] at hf
        cases hf
        exact ih hrest
      | ok rest =>
        rw [hp, hrest] at hf
        cases hf

def Always {m : Type → Type} [Functor m] {α : Type} (p : α → Prop) (x : m α) : Prop :=
  ∃ y : m { a // p a }, Subtype.val <$> y = x

namespace Always

variable {m : Type → Type} [Monad m] [LawfulMonad m] {α β : Type} {p : α → Prop} {q : β → Prop}

theorem pure {a : α} (ha : p a) : Always p (Pure.pure a : m α) :=
  ⟨Pure.pure ⟨a, ha⟩, map_pure _ _⟩

theorem bind {x : m α} {k : α → m β} (hk : ∀ a, Always q (k a)) : Always q (x >>= k) := by
  choose y hy using hk
  refine ⟨x >>= y, ?_⟩
  rw [map_bind]
  exact bind_congr hy

end Always

namespace CommandLine

variable {m : Type → Type} [Monad m] {o : Options}

/-- The spellings stand for `ts`, and `t` is their fold, widened and read off as the options say. -/
def Options.ComesTo (o : Options) (st : Store) (ts : List Ty) (t : Ty) (st' : Store) : Prop :=
  let r : Resolvers := {}
  Spelling.readAll o.types = .ok ts ∧ ∃ t₁ st₁ t₂ st₂,
    (r.unite ts).Returns st t₁ st₁ ∧ (r.widen o.optional t₁).Returns st₁ t₂ st₂ ∧
    match o.property with
    | some key => (r.property t₂ (.named key)).Returns st₂ t st'
    | none => t = t₂ ∧ st' = st₂

theorem Options.ComesTo.foldSpellings (h : o.ComesTo st ts t st') :
    (foldSpellings o).Returns st (ts, t) st' := by
  obtain ⟨hread, t₁, st₁, t₂, st₂, hunite, hwiden, hproperty⟩ := h
  refine (TypeM.Returns.ofExcept hread st).bind (hunite.bind (hwiden.bind ?_))
  cases hkey : o.property with
  | none =>
    simp only [hkey] at hproperty
    obtain ⟨rfl, rfl⟩ := hproperty
    exact .pure _ _
  | some key =>
    simp only [hkey] at hproperty
    exact hproperty.bind (.pure _ _)

theorem exists_comesTo (o : Options) (st : Store) (hread : Spelling.readAll o.types = .ok ts) :
    ∃ t st', o.ComesTo st ts t st' ∧ st'.graph.Spelled t := by
  have hlimit : 0 < ({} : Resolvers).limit := by decide
  obtain ⟨t₁, st₁, hunite, ht₁⟩ :=
    Resolvers.unite_spelled hlimit (Spelling.spelled_of_readAll hread) st
  obtain ⟨t₂, st₂, hwiden, ht₂⟩ := Resolvers.widen_spelled hlimit o.optional ht₁
  cases hkey : o.property with
  | none => exact ⟨t₂, st₂, ⟨hread, t₁, st₁, t₂, st₂, hunite, hwiden, by simp [hkey]⟩, ht₂⟩
  | some key =>
    obtain ⟨t, st', hproperty, ht⟩ := Resolvers.property_spelled rfl hlimit (.named key) ht₂
    refine ⟨t, st', ⟨hread, t₁, st₁, t₂, st₂, hunite, hwiden, ?_⟩, ht⟩
    simpa only [hkey] using hproperty

theorem foldSpellings_error {f : Fault} (hread : Spelling.readAll o.types = .error f) (st : Store) :
    (foldSpellings o).run.run st = (.error f, st) := by
  have hthrow : (TypeM.ofExcept (Spelling.readAll o.types)).run.run st = (.error f, st) := by
    rw [hread]
    rfl
  exact ExceptT.run_bind_of_error hthrow

/-- What a run with these options may end in: one line with the type that the spellings come to, or
a fault of the user's with nothing printed, because a spelling cannot be read or the log cannot be
written. -/
def Options.Allows (o : Options) (metrics : Metrics) : Except Fault Text → Prop
  | .ok output => ∃ ts t st, o.ComesTo { metrics } ts t st ∧
      output = st.graph.print t ++ [0x0a] ∧ 0x0a ∉ st.graph.print t
  | .error f => f.category = .config ∧ (Spelling.readAll o.types = .error f ∨
      o.logTypes = true ∧ ∃ path, f = .unwritableLog path ∨ f = .unfinishedLog path)

/-- Whatever the spellings, the options and the surroundings are, a run ends as it may. -/
theorem run_allowed [LawfulMonad m] (h : Host m) (o : Options) (metrics : Metrics) :
    Always (fun result => o.Allows metrics result.1) (run h o { metrics }) := by
  rw [run]
  refine .bind fun start => ?_
  cases hread : Spelling.readAll o.types with
  | error f =>
    have hrun : (foldSpellings o).run { metrics } = (.error f, { metrics }) :=
      foldSpellings_error hread _
    simp only [hrun]
    exact .bind fun stop => .pure ⟨Spelling.category_of_readAll hread, .inl hread⟩
  | ok ts =>
    obtain ⟨t, st, hcomes, hspelled⟩ := exists_comesTo o { metrics } hread
    have hrun : (foldSpellings o).run { metrics } = (.ok (ts, t), st) := hcomes.foldSpellings
    have hline := hspelled.isLine_print
    simp only [hrun]
    refine .bind fun stop => ?_
    split
    · rename_i hlog
      simp only [writeLog, bind_assoc]
      refine .bind fun stamp => .bind fun writing => ?_
      cases writing with
      | unopened =>
        simp only [pure_bind]
        exact .pure ⟨rfl, .inr ⟨hlog, _, .inl rfl⟩⟩
      | unfinished =>
        simp only [pure_bind]
        exact .pure ⟨rfl, .inr ⟨hlog, _, .inr rfl⟩⟩
      | finished =>
        simp only [pure_bind]
        exact .pure ⟨ts, t, st, hcomes, rfl, hline⟩
    · exact .pure ⟨ts, t, st, hcomes, rfl, hline⟩

def still : Host Id where
  clock := 0
  stamp := []
  write _ _ := pure false
  duration := Metrics.millis

theorem feed_run_allowed :
    let o : Options := { types := [text "'a\nb' | boolean"], optional := true }
    (Id.run (run still o {})).1 = .ok (text "\"a\\nb\" | undefined | boolean\n") ∧
      o.Allows {} (Id.run (run still o {})).1 := by
  intro o
  obtain ⟨result, hresult⟩ := run_allowed still o {}
  exact ⟨by decide, hresult ▸ result.2⟩

end CommandLine

end FlowTyping
