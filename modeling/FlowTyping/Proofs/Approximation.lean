import FlowTyping.Analysis
import FlowTyping.Proofs.Execution
import FlowTyping.Proofs.InStep

namespace FlowTyping

variable {a a' a₁ a₂ : Analysis} {ρ ρ' : Env} {n name : Text} {t : Ty} {v : Value} {log : Log}
  {new : List Text} {sites : List Nat} {c : Analysis.Setting} {kind : ScopeKind}

namespace AnalysisM

variable {α : Type} {x : α}

theorem returns_ofScopeM {m : ScopeM α} {s : Scopes} (hm : m.Returns a.toScopes x s) :
    (ofScopeM m).Returns a x { a with toScopes := s } := by
  have hm' : m a.toScopes = (.ok x, s) := hm
  simp only [ExceptT.Returns, ofScopeM, ExceptT.run, StateT.run, hm']

theorem returns_ofTypeM {m : TypeM α} {st : Store} (hm : m.Returns a.store x st) :
    (ofTypeM m).Returns a x { a with store := st } :=
  returns_ofScopeM (ScopeM.returns_ofTypeM hm)

theorem returns_stack (a : Analysis) : stack.Returns a a.stack a := rfl

theorem returns_onFault {m : AnalysisM α} (cleanup : AnalysisM Unit) (hm : m.Returns a x a') :
    (onFault m cleanup).Returns a x a' := by
  have hm' : m.run.run a = (.ok x, a') := hm
  simp only [ExceptT.Returns, onFault, ExceptT.run_tryCatch, StateT.run_bind]
  rw [hm']
  rfl

end AnalysisM

namespace Analysis

structure Quiet (a a' : Analysis) : Prop where
  stack : a'.stack = a.stack
  graph : a'.store.graph = a.store.graph
  types : a'.types = a.types

/-- The stores differ at most in what is counted under these options. -/
structure Options.Shares (o : Options) (st st' : Store) : Prop where
  types : st.SameTypes st'
  exact : o.metrics = false → st = st'

structure Silent (o : Options) (a a' : Analysis) : Prop where
  stack : a'.stack = a.stack
  store : o.Shares a'.store a.store
  diagnostics : a'.diagnostics = a.diagnostics
  types : a'.types = a.types

section

variable {o : Options}

theorem Options.Shares.refl (st : Store) : o.Shares st st := ⟨⟨rfl, rfl⟩, fun _ => rfl⟩

theorem Options.Shares.trans {st₁ st₂ st₃ : Store} (h : o.Shares st₁ st₂) (h' : o.Shares st₂ st₃) :
    o.Shares st₁ st₃ :=
  ⟨h.types.trans h'.types, fun ho => (h.exact ho).trans (h'.exact ho)⟩

theorem Silent.refl (a : Analysis) : a.Silent o a := ⟨rfl, .refl _, rfl, rfl⟩

theorem Silent.trans (h₁ : a.Silent o a₁) (h₂ : a₁.Silent o a₂) : a.Silent o a₂ where
  stack := h₂.stack.trans h₁.stack
  store := h₂.store.trans h₁.store
  diagnostics := h₂.diagnostics.trans h₁.diagnostics
  types := h₂.types.trans h₁.types

theorem Silent.quiet (h : a.Silent o a') : a.Quiet a' := ⟨h.stack, h.store.types.graph, h.types⟩

end

theorem count_returns (o : Options) (key : Text) (k : Nat) (a : Analysis) :
    ∃ a', (count o key k).Returns a () a' ∧ a.Silent o a' := by
  rw [count]
  split
  · rename_i hmetrics
    exact ⟨_, .modify _ a, rfl, ⟨⟨rfl, rfl⟩, by simp [hmetrics]⟩, rfl, rfl⟩
  · exact ⟨a, .pure () a, .refl a⟩

theorem record_returns (o : Options) (event : ScopeEvent) (a : Analysis) :
    ∃ a', (record o event).Returns a () a' ∧ a.Silent o a' := by
  rw [record]
  split
  · exact ⟨_, .modify _ a, rfl, .refl _, rfl, rfl⟩
  · exact ⟨a, .pure () a, .refl a⟩

theorem report_returns (o : Options) (finding : Finding) (loc : Location) (a : Analysis) :
    ∃ a', (report o finding loc).Returns a () a' ∧ a.Quiet a' ∧
      a'.diagnostics = a.diagnostics ++ [⟨finding, loc⟩] := by
  obtain ⟨a', hcount, hsilent⟩ := count_returns o Metrics.diagnostics 1
    { a with diagnostics := a.diagnostics ++ [⟨finding, loc⟩] }
  have hquiet := hsilent.quiet
  refine ⟨a', (ExceptT.Returns.modify _ a).bind hcount, ?_, hsilent.diagnostics⟩
  exact ⟨hquiet.stack, hquiet.graph, hquiet.types⟩

/-- A step of the scopes, in which the expressions with the given numbers were evaluated. -/
structure Step (a : Analysis) (new : List Text) (sites : List Nat) (a' : Analysis) : Prop where
  scopes : a.toScopes.Step new a'.toScopes
  types : ∃ ts, a'.types = ts ++ a.types ∧ (ts.map Prod.fst).Perm sites

namespace Step

theorem refl (ha : a.Sound) : a.Step [] [] a := ⟨.refl ha, [], rfl, .refl _⟩

theorem trans {new' : List Text} {sites' : List Nat} (h₁ : a.Step new sites a₁)
    (h₂ : a₁.Step new' sites' a₂) : a.Step (new' ++ new) (sites ++ sites') a₂ := by
  refine ⟨h₁.scopes.trans h₂.scopes, ?_⟩
  obtain ⟨ts₁, hts₁, hperm₁⟩ := h₁.types
  obtain ⟨ts₂, hts₂, hperm₂⟩ := h₂.types
  refine ⟨ts₂ ++ ts₁, by rw [hts₂, hts₁, List.append_assoc], ?_⟩
  rw [List.map_append]
  exact (hperm₂.append hperm₁).trans List.perm_append_comm

theorem subset (hs : a.Step new sites a') : a.types ⊆ a'.types := by
  obtain ⟨ts, hts, -⟩ := hs.types
  rw [hts]
  exact List.subset_append_right ts _

end Step

theorem Quiet.step (h : a.Quiet a') (ha : a.Sound) : a.Step [] [] a' where
  scopes := by
    refine ⟨⟨?_, ?_⟩, ?_, ?_, ?_, ?_⟩
    · exact h.graph ▸ ha.plain
    · rw [h.graph, h.stack]
      exact ha.stacked
    · exact h.graph ▸ .refl _
    · rw [h.stack]
    · rw [h.stack]
    · rw [h.stack]
      rfl
  types := ⟨[], h.types, .refl _⟩

theorem Step.quiet (h : a.Step new sites a₁) (hquiet : a₁.Quiet a₂) : a.Step new sites a₂ := by
  simpa using h.trans (hquiet.step h.scopes.sound)

theorem Quiet.knows (h : a.Quiet a') (hn : a.Knows n v) : a'.Knows n v := by
  rw [Scopes.Knows, h.stack, h.graph]
  exact hn

def declared (a : Analysis) : List (List Text) := a.stack.frames.map (·.declared)

theorem Step.declared_eq (h : a.Step [] sites a') : a'.declared = a.declared := by
  simp [declared, ScopeStack.frames, h.scopes.below, h.scopes.declared]

def SameNames (names : List Text) (scope : List (Text × Value)) : Prop :=
  ∀ n, n ∈ names ↔ (scope.lookup n).isSome

/-- The state of the analysis over-approximates that of a run. -/
structure Matches (a : Analysis) (ρ : Env) : Prop where
  declared : List.Forall₂ SameNames a.declared ρ
  knows : ∀ n v, ρ.read n = some v → a.Knows n v

def Logged (a : Analysis) (log : Log) : Prop :=
  ∀ p ∈ log, ∃ t, (p.1, t) ∈ a.types ∧ a.store.graph.Describes t p.2

theorem logged_nil (a : Analysis) : a.Logged [] := by simp [Logged]

theorem Logged.mono (h : a.Step new sites a') (hlog : a.Logged log) : a'.Logged log := by
  intro p hp
  obtain ⟨t, ht, hv⟩ := hlog p hp
  exact ⟨t, h.subset ht, hv.mono h.scopes.grows⟩

theorem Logged.append {log' : Log} (hlog : a.Logged log) (hlog' : a.Logged log') :
    a.Logged (log ++ log') := by
  intro p hp
  exact (List.mem_append.1 hp).elim (hlog p) (hlog' p)

namespace Matches

theorem of_knows (hm : a.Matches ρ) (hdeclared : a'.declared = a.declared)
    (hknows : ∀ n v, a.Knows n v → a'.Knows n v) : a'.Matches ρ :=
  ⟨hdeclared ▸ hm.declared, fun n v hn => hknows n v (hm.knows n v hn)⟩

theorem quiet (hm : a.Matches ρ) (h : a.Quiet a') : a'.Matches ρ :=
  hm.of_knows (by rw [Analysis.declared, h.stack]; rfl) fun _ _ => h.knows

end Matches

theorem names_eq (a : Analysis) : a.names = a.declared.flatten := by
  rw [Scopes.names, Frame.names, declared, List.flatMap_def]

theorem SameNames.cons {names : List Text} {scope : List (Text × Value)}
    (h : SameNames names scope) : SameNames (name :: names) ((name, v) :: scope) := by
  intro n
  rw [List.mem_cons, Text.lookup_cons]
  by_cases hn : n = name
  · simp [hn]
  · simp [hn, h n]

theorem mem_iff_read {names : List (List Text)} (h : List.Forall₂ SameNames names ρ) :
    n ∈ names.flatten ↔ (ρ.read n).isSome := by
  induction h with
  | nil => simp [Env.read]
  | @cons ns scope _ ρ hscope _ ih =>
    rw [List.flatten_cons, List.mem_append, hscope n, ih, Env.read_cons]
    cases scope.lookup n <;> simp

theorem Matches.mem_names_iff (hm : a.Matches ρ) : n ∈ a.names ↔ (ρ.read n).isSome := by
  rw [names_eq, mem_iff_read hm.declared]

theorem sameNames_write {names : List (List Text)} (h : List.Forall₂ SameNames names ρ)
    (hw : Env.write name v ρ = some ρ') : List.Forall₂ SameNames names ρ' := by
  induction h generalizing ρ' with
  | nil => cases hw
  | @cons ns scope _ _ hscope hrest ih =>
    rw [Env.write] at hw
    split at hw
    · rename_i hsome
      cases hw
      refine .cons (fun n => ?_) hrest
      rw [hscope n, Text.lookup_cons]
      split
      · rename_i hn
        simp [hn, hsome]
      · rfl
    · obtain ⟨ρ₁, hρ₁, rfl⟩ := Option.map_eq_some_iff.1 hw
      exact .cons hscope (ih hρ₁)

theorem assign_returns (hname : name ∈ a.names) (loc : Location) :
    (assign c name t loc).Returns a () { a with stack := a.stack.bind name t } := by
  have hdeclared : a.stack.assign? name t = some (a.stack.bind name t) := by
    rw [ScopeStack.assign?, if_pos]
    simpa [ScopeStack.isDeclared, Scopes.names, Frame.names] using hname
  refine (AnalysisM.returns_stack a).bind ?_
  simp only [hdeclared]
  exact AnalysisM.returns_ofScopeM (.modify _ _)

theorem step_bind (ha : a.Sound) (hname : name ∈ a.names) (ht : a.store.graph.Has t) :
    a.Step [] [] { a with stack := a.stack.bind name t } :=
  ⟨ha.bind hname ⟨.refl _, ha.plain, ht⟩, [], rfl, .refl _⟩

theorem step_declare (ha : a.Sound) (hname : name ∉ a.names) (ht : a.store.graph.Has t) :
    a.Step [name] [] { a with stack := a.stack.declare name t } :=
  ⟨ha.declare hname ht, [], rfl, .refl _⟩

theorem step_store {st : Store} (ha : a.Sound) (ht : a.store.Yields t st) :
    a.Step [] [] { a with store := st } :=
  ⟨⟨⟨ht.plain, ha.stacked.mono ht.grows⟩, ht.grows, rfl, rfl, rfl⟩, [], rfl, .refl _⟩

theorem Matches.store {st : Store} (hm : a.Matches ρ) (hgrows : a.store.graph.Extends st.graph) :
    Matches { a with store := st } ρ :=
  hm.of_knows rfl fun _ _ hn => hn.mono hgrows

theorem Matches.write (hm : a.Matches ρ) (hv : a.store.graph.Describes t v)
    (hw : Env.write name v ρ = some ρ') :
    Matches { a with stack := a.stack.bind name t } ρ' := by
  refine ⟨sameNames_write hm.declared hw, fun n w hn => ?_⟩
  rw [Env.read_write hw] at hn
  refine Scopes.knows_bind.2 ?_
  split at hn
  · rename_i hname
    cases hn
    rwa [if_pos hname]
  · rename_i hname
    rw [if_neg hname]
    exact hm.knows n w hn

theorem Matches.declare (hm : a.Matches ρ) (hname : name ∉ a.names)
    (hv : a.store.graph.Describes t v) :
    Matches { a with stack := a.stack.declare name t } (Env.declare name v ρ) := by
  have htop : name ∉ a.stack.top.declared := fun hmem => hname (List.mem_append_left _ hmem)
  obtain ⟨hdeclared, hknows⟩ := hm
  cases hdeclared with
  | @cons _ scope _ ρ₀ hscope hrest =>
    refine ⟨?_, fun n w hn => Scopes.knows_declare.2 ?_⟩
    · simp only [Analysis.declared, ScopeStack.frames, ScopeStack.declare, Frame.declare_eq htop]
      exact .cons hscope.cons hrest
    · rw [Env.read_declare] at hn
      split at hn
      · rename_i hn'
        cases hn
        rwa [if_pos hn']
      · rename_i hn'
        rw [if_neg hn']
        exact hknows n w hn

structure Setting.Builtin (c : Setting) : Prop where
  property : c.resolvers.property? = none
  limit : 0 < c.resolvers.limit

structure Pushed (kind : ScopeKind) (a a' : Analysis) : Prop where
  stack : a'.stack = a.stack.push kind
  graph : a'.store.graph = a.store.graph
  types : a'.types = a.types

namespace Pushed

theorem declared_eq (h : Pushed kind a a') : a'.declared = [] :: a.declared := by
  rw [declared, h.stack]
  rfl

theorem names_eq (h : Pushed kind a a') : a'.names = a.names := by
  rw [Analysis.names_eq, h.declared_eq, Analysis.names_eq]
  rfl

theorem sound (h : Pushed kind a a') (ha : a.Sound) : a'.Sound := by
  refine ⟨h.graph ▸ ha.plain, ?_⟩
  rw [h.graph, h.stack]
  exact ⟨.new _ _ kind, ha.stacked⟩

end Pushed

theorem Matches.pushed (hm : a.Matches ρ) (h : Pushed kind a a') : a'.Matches ([] :: ρ) := by
  refine ⟨?_, fun n v hn => ?_⟩
  · rw [h.declared_eq]
    exact .cons (fun n => by simp) hm.declared
  · obtain ⟨t, ht, hv⟩ := hm.knows n v hn
    refine ⟨t, ?_, h.graph ▸ hv⟩
    rw [h.stack]
    exact ht

theorem enterScope_returns (c : Setting) (hkind : kind ≠ .other) (a : Analysis) :
    ∃ a', (enterScope c kind).Returns a () a' ∧
      Silent c.options { a with stack := a.stack.push kind } a' := by
  have hpush : enterScope c kind = pushScope c kind := by
    cases kind <;> first | rfl | contradiction
  let a₁ : Analysis := { a with stack := a.stack.push kind }
  obtain ⟨a₂, hcount, hsilent₂⟩ := count_returns c.options Metrics.scopesPushed 1 a₁
  obtain ⟨a₃, hrecord, hsilent₃⟩ := record_returns c.options (.pushed kind a₂.stack.depth) a₂
  refine ⟨a₃, ?_, hsilent₂.trans hsilent₃⟩
  rw [hpush]
  have hmodify : (AnalysisM.ofScopeM (.modifyStack (·.push kind))).Returns a () a₁ :=
    AnalysisM.returns_ofScopeM (.modify _ _)
  exact hmodify.bind (hcount.bind ((AnalysisM.returns_stack a₂).bind hrecord))

theorem Matches.read_cons {scope : List (Text × Value)} (ha : a.Sound)
    (hm : a.Matches (scope :: ρ)) (hn : ρ.read n = some v) :
    n ∉ a.stack.top.declared ∧ a.Knows n v := by
  -- The top frame does not declare the name again, so its scope hides nothing.
  obtain ⟨hdeclared, hknows⟩ := hm
  cases hdeclared with
  | cons hscope hrest =>
    have hmem : n ∈ Frame.names a.stack.below := by
      rw [Frame.names, List.flatMap_def]
      exact (mem_iff_read hrest).2 (by simp [hn])
    have htop : n ∉ a.stack.top.declared := fun h => ha.stacked.1.fresh n h hmem
    refine ⟨htop, hknows n v ?_⟩
    rw [hscope n, Option.not_isSome_iff_eq_none] at htop
    rw [Env.read_cons, htop]
    exact hn

theorem popScope_silent {merged : Nat} {s : Scopes}
    (hpop : (ScopeM.pop c.resolvers).Returns a.toScopes merged s) :
    ∃ a', (popScope c).Returns a () a' ∧ Silent c.options { a with toScopes := s } a' := by
  obtain ⟨a₁, hcount, hsilent₁⟩ :=
    count_returns c.options Metrics.mergedBindings merged { a with toScopes := s }
  obtain ⟨a₂, hrecord, hsilent₂⟩ :=
    record_returns c.options (.popped a.stack.top.kind a₁.stack.depth merged) a₁
  refine ⟨a₂, ?_, hsilent₁.trans hsilent₂⟩
  refine (AnalysisM.returns_stack a).bind ((AnalysisM.returns_ofScopeM hpop).bind ?_)
  exact hcount.bind ((AnalysisM.returns_stack a₁).bind hrecord)

theorem popScope_returns (hc : c.Builtin) (h₁ : Pushed kind a a₁)
    (h₂ : a₁.Step new sites a₂) :
    ∃ a', (popScope c).Returns a₂ () a' ∧ a.Step [] sites a' ∧
      (∀ scope ρ, a₂.Matches (scope :: ρ) → a'.Matches ρ) ∧
      (∀ log, a₂.Logged log → a'.Logged log) ∧
      (kind.MaySkip → ∀ ρ, a.Matches ρ → a'.Matches ρ) := by
  have hbelow : a₂.stack.below = a.stack.frames := by
    rw [h₂.scopes.below, h₁.stack]
    rfl
  have hkind : a₂.stack.top.kind = kind := by
    rw [h₂.scopes.kind, h₁.stack]
    rfl
  have hgrows : a.store.graph.Extends a₂.store.graph := h₁.graph ▸ h₂.scopes.grows
  obtain ⟨s, hpop, hstep, hran, hskip⟩ :=
    ScopeM.pop_returns (r := c.resolvers) hc.limit h₂.scopes.sound hbelow
  obtain ⟨a', hrun, hsilent⟩ := popScope_silent hpop
  have hquiet := hsilent.quiet
  have hstep' : a.Step [] sites a' := by
    obtain ⟨ts, hts, hperm⟩ := h₂.types
    have hscopes : a.toScopes.Step [] s :=
      ⟨hstep.sound, hgrows.trans hstep.grows, hstep.below, hstep.kind, hstep.declared⟩
    have hpopped : a.Step [] sites { a₂ with toScopes := s } :=
      ⟨hscopes, ts, h₁.types ▸ hts, hperm⟩
    exact hpopped.quiet hquiet
  refine ⟨a', hrun, hstep', fun scope ρ hm => ?_, fun log hlog => ?_, fun hmay ρ hm => ?_⟩
  · refine ⟨?_, fun n v hn => ?_⟩
    · have hdeclared := hm.declared
      rw [Analysis.declared, ScopeStack.frames, hbelow] at hdeclared
      rw [hstep'.declared_eq]
      cases hdeclared
      assumption
    · obtain ⟨htop, hknows⟩ := hm.read_cons h₂.scopes.sound hn
      exact hquiet.knows (hran n v htop hknows)
  · intro p hp
    obtain ⟨t, ht, hv⟩ := hlog p hp
    refine ⟨t, hquiet.types ▸ ht, ?_⟩
    rw [hquiet.graph]
    exact hv.mono hstep.grows
  · refine hm.of_knows hstep'.declared_eq fun n v hn => hquiet.knows ?_
    exact hskip (hkind ▸ hmay) n v (hn.mono hgrows)

/-- From the state `a`, the computation returns and over-approximates all runs of a certain form. -/
def Approximates (m : AnalysisM Unit) (a : Analysis) (new : List Text) (sites : List Nat)
    (runs : Env → Env → Log → Prop) : Prop :=
  ∃ a', m.Returns a () a' ∧ a.Step new sites a' ∧
    ∀ ρ ρ' log, a.Matches ρ → runs ρ ρ' log → a'.Matches ρ' ∧ a'.Logged log

namespace Approximates

variable {m m' : AnalysisM Unit} {runs runs' : Env → Env → Log → Prop}

theorem pure (ha : a.Sound) :
    Approximates (Pure.pure ()) a [] [] fun ρ ρ' log => ρ' = ρ ∧ log = [] := by
  refine ⟨a, .pure () a, .refl ha, ?_⟩
  rintro ρ _ _ hm ⟨rfl, rfl⟩
  exact ⟨hm, logged_nil _⟩

theorem seq {new' : List Text} {sites' : List Nat} (hm : Approximates m a new sites runs)
    (hm' : ∀ a₁, a.Step new sites a₁ → Approximates m' a₁ new' sites' runs') :
    Approximates (m >>= fun _ => m') a (new' ++ new) (sites ++ sites') fun ρ ρ' log =>
      ∃ ρ₁ log₁ log₂, runs ρ ρ₁ log₁ ∧ runs' ρ₁ ρ' log₂ ∧ log = log₁ ++ log₂ := by
  obtain ⟨a₁, hrun₁, hstep₁, hsim₁⟩ := hm
  obtain ⟨a₂, hrun₂, hstep₂, hsim₂⟩ := hm' a₁ hstep₁
  refine ⟨a₂, hrun₁.bind hrun₂, hstep₁.trans hstep₂, ?_⟩
  rintro ρ ρ' _ hmatch ⟨ρ₁, log₁, log₂, hρ₁, hρ', rfl⟩
  obtain ⟨hmatch₁, hlog₁⟩ := hsim₁ ρ ρ₁ log₁ hmatch hρ₁
  obtain ⟨hmatch₂, hlog₂⟩ := hsim₂ ρ₁ ρ' log₂ hmatch₁ hρ'
  exact ⟨hmatch₂, (hlog₁.mono hstep₂).append hlog₂⟩

theorem imp (hm : Approximates m a new sites runs)
    (h : ∀ ρ ρ' log, runs' ρ ρ' log → runs ρ ρ' log) : Approximates m a new sites runs' := by
  obtain ⟨a', hrun, hstep, hsim⟩ := hm
  exact ⟨a', hrun, hstep, fun ρ ρ' log hmatch hruns => hsim ρ ρ' log hmatch (h ρ ρ' log hruns)⟩

end Approximates

theorem inScope_approximates (kind : ScopeKind) {body : AnalysisM Unit}
    {runs : Env → Env → Log → Prop} (hc : c.Builtin) (hkind : kind ≠ .other) (ha : a.Sound)
    (hbody : ∀ a₁, a₁.Sound → a₁.names = a.names → Approximates body a₁ new sites runs) :
    Approximates (inScope c kind body) a [] sites fun ρ ρ' log =>
      (∃ scope, runs ([] :: ρ) (scope :: ρ') log) ∨ kind.MaySkip ∧ ρ' = ρ ∧ log = [] := by
  obtain ⟨a₁, henter, hsilent⟩ := enterScope_returns c hkind a
  have hpushed : Pushed kind a a₁ := ⟨hsilent.stack, hsilent.store.types.graph, hsilent.types⟩
  obtain ⟨a₂, hrun, hstep, hsim⟩ := hbody a₁ (hpushed.sound ha) hpushed.names_eq
  obtain ⟨a', hpop, hstep', hran, hlogged, hskip⟩ := popScope_returns hc hpushed hstep
  refine ⟨a', henter.bind ((AnalysisM.returns_onFault _ hrun).bind hpop), hstep', ?_⟩
  rintro ρ ρ' log hm (⟨scope, hruns⟩ | ⟨hmay, rfl, rfl⟩)
  · obtain ⟨hm₂, hlog⟩ := hsim _ _ _ (hm.pushed hpushed) hruns
    exact ⟨hran scope ρ' hm₂, hlogged log hlog⟩
  · exact ⟨hskip hmay _ hm, logged_nil _⟩

end Analysis

end FlowTyping
