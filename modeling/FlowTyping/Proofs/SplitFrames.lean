import FlowTyping.Proofs.DeclaredNames

/-!
A frame in two parts. Where one stack has a frame upon another, a second stack has a single frame
that holds what the two show. Every step of the analysis runs in step on both stacks, since it reads
names through all frames, writes to the top and pops only what it has pushed.
-/

namespace ExceptT.InStep

variable {ε σ α : Type} {R Q E : σ → σ → Prop} {m m' : ExceptT ε (StateM σ) α} {s s' s₁ : σ} {x : α}

theorem exists_right (hm : InStep R Q E m m') (hs : R s s') (hrun : m.Returns s x s₁) :
    ∃ s₁', m'.Returns s' x s₁' ∧ Q s₁ s₁' := by
  match hleft : m.run.run s, hright : m'.run.run s', hm s s' hs with
  | _, _, .ok h =>
    cases hleft.symm.trans hrun
    exact ⟨_, hright, h⟩
  | _, _, .error h => cases hleft.symm.trans hrun

theorem exists_left (hm : InStep R Q E m m') (hs : R s s') (hrun : m'.Returns s' x s₁) :
    ∃ s₁', m.Returns s x s₁' ∧ Q s₁' s₁ := by
  match hleft : m.run.run s, hright : m'.run.run s', hm s s' hs with
  | _, _, .ok h =>
    cases hright.symm.trans hrun
    exact ⟨_, hleft, h⟩
  | _, _, .error h => cases hright.symm.trans hrun

end ExceptT.InStep

namespace FlowTyping

variable {α β : Type} {d : Nat} {f p q : Frame} {fs gs : List Frame} {s s' : ScopeStack}

/-- The frame `q` holds what the frame `f` upon the frame `p` shows. -/
structure Frame.Joins (f p q : Frame) : Prop where
  kind : q.kind = p.kind
  lookup : ∀ n, q.bindings.lookup n = (f.bindings.lookup n).or (p.bindings.lookup n)
  declared : ∀ n, n ∈ q.declared ↔ n ∈ f.declared ∨ n ∈ p.declared
  once : (f.bindings.map Prod.fst).Nodup

namespace Frame

theorem Joins.new (kind : ScopeKind) (p : Frame) : Joins { kind } p p where
  kind := rfl
  lookup _ := rfl
  declared := by simp
  once := List.nodup_nil

theorem Joins.bind (h : f.Joins p q) (name : Text) (t : Ty) :
    (f.bind name t).Joins p (q.bind name t) where
  kind := h.kind
  lookup n := by
    rw [lookup_bind, lookup_bind]
    split
    · rfl
    · exact h.lookup n
  declared := h.declared
  once := nodup_bind h.once

theorem Joins.declare (h : f.Joins p q) (name : Text) (t : Ty) :
    (f.declare name t).Joins p (q.declare name t) where
  kind := by
    rw [Frame.declare]
    split <;> exact h.kind
  lookup n := by
    rw [bindings_declare, bindings_declare]
    exact (h.bind name t).lookup n
  declared n := by rw [declared_declare, declared_declare, h.declared, or_assoc]
  once := by
    rw [bindings_declare]
    exact nodup_bind h.once

/-- Under the first `d` frames, which are the same, the second list has one frame for two of the
first. -/
inductive Split : Nat → List Frame → List Frame → Prop
  | here {f p q : Frame} {fs : List Frame} (h : f.Joins p q) : Split 0 (f :: p :: fs) (q :: fs)
  | under {d : Nat} {fs gs : List Frame} (f : Frame) (h : Split d fs gs) :
    Split (d + 1) (f :: fs) (f :: gs)

theorem Split.lookup (h : Split d fs gs) (n : Text) :
    fs.findSome? (·.bindings.lookup n) = gs.findSome? (·.bindings.lookup n) := by
  induction h with
  | @here f p q fs h =>
    rw [List.findSome?_cons, List.findSome?_cons, List.findSome?_cons, h.lookup]
    cases f.bindings.lookup n <;> rfl
  | under f h ih => rw [List.findSome?_cons, List.findSome?_cons, ih]

theorem Split.isDeclared (h : Split d fs gs) (n : Text) :
    fs.any (n ∈ ·.declared) = gs.any (n ∈ ·.declared) := by
  induction h with
  | here h => simp [h.declared, Bool.or_assoc]
  | under f h ih => rw [List.any_cons, List.any_cons, ih]

theorem Split.exists_stacks (h : Split d fs gs) :
    ∃ s s' : ScopeStack, fs = s.frames ∧ gs = s'.frames := by
  cases h with
  | @here f p q fs h => exact ⟨⟨f, p :: fs⟩, ⟨q, fs⟩, rfl, rfl⟩
  | @under d fs gs f h => exact ⟨⟨f, fs⟩, ⟨f, gs⟩, rfl, rfl⟩

end Frame

def ScopeStack.Split (d : Nat) (s s' : ScopeStack) : Prop := Frame.Split d s.frames s'.frames

namespace ScopeStack.Split

theorem push (h : s.Split d s') (kind : ScopeKind) : (s.push kind).Split (d + 1) (s'.push kind) :=
  .under _ h

theorem bind (h : s.Split d s') (name : Text) (t : Ty) :
    (s.bind name t).Split d (s'.bind name t) := by
  obtain ⟨top, below⟩ := s
  obtain ⟨top', below'⟩ := s'
  cases h with
  | here h => exact .here (h.bind name t)
  | under _ h => exact .under _ h

theorem declare (h : s.Split d s') (name : Text) (t : Ty) :
    (s.declare name t).Split d (s'.declare name t) := by
  obtain ⟨top, below⟩ := s
  obtain ⟨top', below'⟩ := s'
  cases h with
  | here h => exact .here (h.declare name t)
  | under _ h => exact .under _ h

theorem lookup (h : s.Split d s') (n : Text) : s.lookup n = s'.lookup n := Frame.Split.lookup h n

theorem isDeclared (h : s.Split d s') (n : Text) : s.isDeclared n = s'.isDeclared n :=
  Frame.Split.isDeclared h n

theorem below (h : s.Split (d + 1) s') : s.top = s'.top ∧
    ∃ base base' : ScopeStack, s.below = base.frames ∧ s'.below = base'.frames ∧
      base.Split d base' := by
  obtain ⟨top, below⟩ := s
  obtain ⟨top', below'⟩ := s'
  cases h with
  | under _ h =>
    obtain ⟨base, base', rfl, rfl⟩ := h.exists_stacks
    exact ⟨rfl, base, base', rfl, rfl, h⟩

theorem joins {base : ScopeStack} (h : s.Split 0 s') (hbelow : s.below = base.frames) :
    s.top.Joins base.top s'.top ∧ s'.below = base.below := by
  obtain ⟨top, below⟩ := s
  obtain ⟨top', below'⟩ := s'
  obtain rfl : below = base.frames := hbelow
  cases h with
  | here h => exact ⟨h, rfl⟩

end ScopeStack.Split

namespace Analysis

variable {o : Options}

theorem Options.Shares.symm {st st' : Store} (h : o.Shares st st') : o.Shares st' st :=
  ⟨⟨h.types.graph.symm, h.types.nextSymbol.symm⟩, fun ho => (h.exact ho).symm⟩

theorem Options.respects_shares {m : TypeM α} (hm : o.metrics = true → m.Unmetered) :
    m.Respects o.Shares := by
  -- Where nothing is counted the stores are the same, and the computation may read all.
  intro st st' hst
  cases ho : o.metrics with
  | false =>
    cases hst.exact ho
    match m.run.run st with
    | (.ok x, st₁) => exact .ok (.refl st₁)
    | (.error e, st₁) => exact .error (.refl st₁)
  | true =>
    have hshares (st st' : Store) (h : st.SameTypes st') : o.Shares st st' := ⟨h, by simp [ho]⟩
    exact (hm ho st st' hst.types).imp hshares hshares

def Setting.Unmetered (c : Setting) : Prop := c.options.metrics = true → c.resolvers.Unmetered

end Analysis

theorem Resolvers.Unmetered.mergeBinding {r : Resolvers} (hr : r.Unmetered) (kind : ScopeKind)
    (before : Option Ty) (after : Ty) : (r.mergeBinding kind before after).Unmetered := by
  cases kind with
  | normal | other => exact .pure after
  | indeterminate | loop => exact hr.unite [before.getD .undefined, after]

structure Scopes.Split (o : Analysis.Options) (d : Nat) (s s' : Scopes) : Prop where
  stack : s.stack.Split d s'.stack
  store : o.Shares s.store s'.store

namespace ScopeM

open Analysis (Options Setting)

variable {o : Options} {c : Setting}

theorem ofTypeM_split {m : TypeM α} (hm : m.Respects o.Shares) :
    (ofTypeM m).Respects (Scopes.Split o d) := by
  intro s s' hs
  have hrun (s : Scopes) : (ofTypeM m).run.run s =
      ((m.run.run s.store).1, { s with store := (m.run.run s.store).2 }) := rfl
  rw [hrun, hrun]
  match m.run.run s.store, m.run.run s'.store, hm _ _ hs.store with
  | _, _, .ok hst => exact .ok ⟨hs.stack, hst⟩
  | _, _, .error hst => exact .error ⟨hs.stack, hst⟩

theorem mergeAll_split (hc : c.Unmetered) (kind : ScopeKind) (os : List (Text × Ty)) :
    (mergeAll c.resolvers kind os).Respects (Scopes.Split c.options d) := by
  induction os with
  | nil => exact .pure ()
  | cons p os ih =>
    refine .get_bind fun s s' hs => ?_
    dsimp only
    -- The type from before is looked up through all frames, so both sides merge the same two types.
    rw [hs.stack.lookup]
    have hmerge : (c.resolvers.mergeBinding kind (s'.stack.lookup p.1) p.2).Respects
        c.options.Shares :=
      Options.respects_shares fun hmetrics => (hc hmetrics).mergeBinding kind _ _
    refine (ofTypeM_split hmerge).bind fun merged => ?_
    refine .bind (.modify fun _ _ hs => ?_) fun _ => ih
    exact ⟨hs.stack.bind p.1 merged, hs.store⟩

theorem pop_split (hc : c.Unmetered) :
    ExceptT.InStep (Scopes.Split c.options (d + 1)) (Scopes.Split c.options d)
      (Scopes.Split c.options d) (pop c.resolvers) (pop c.resolvers) := by
  intro s s' hs
  obtain ⟨htop, base, base', hbelow, hbelow', hbase⟩ := hs.stack.below
  rw [run_pop _ hbelow, run_pop _ hbelow', htop]
  exact (mergeAll_split hc _ _).bind (fun _ => .pure _) _ _ ⟨hbase, hs.store⟩

theorem discard_split {E : Scopes → Scopes → Prop} :
    ExceptT.InStep (Scopes.Split o (d + 1)) (Scopes.Split o d) E discard discard := by
  intro s s' hs
  obtain ⟨-, base, base', hbelow, hbelow', hbase⟩ := hs.stack.below
  rw [discard_returns hbelow, discard_returns hbelow']
  exact .ok ⟨hbase, hs.store⟩

end ScopeM

namespace Analysis

open AnalysisM (ofScopeM ofTypeM stack onFault)

variable {o : Options} {c : Setting} {a a' b b' : Analysis} {E : Analysis → Analysis → Prop}
  {kind : ScopeKind}

structure Alike (R : Scopes → Scopes → Prop) (a b : Analysis) : Prop where
  scopes : R a.toScopes b.toScopes
  diagnostics : a.diagnostics = b.diagnostics
  types : a.types = b.types

abbrev Split (o : Options) (d : Nat) : Analysis → Analysis → Prop := Alike (Scopes.Split o d)

theorem ofScopeM_alike {R Q S : Scopes → Scopes → Prop} {m m' : ScopeM α}
    (hm : ExceptT.InStep R Q S m m') :
    ExceptT.InStep (Alike R) (Alike Q) (Alike S) (ofScopeM m) (ofScopeM m') := by
  intro a b hab
  have hrun (m : ScopeM α) (a : Analysis) : (ofScopeM m).run.run a =
      ((m.run.run a.toScopes).1, { a with toScopes := (m.run.run a.toScopes).2 }) := rfl
  rw [hrun, hrun]
  match m.run.run a.toScopes, m'.run.run b.toScopes, hm _ _ hab.scopes with
  | _, _, .ok hs => exact .ok ⟨hs, hab.diagnostics, hab.types⟩
  | _, _, .error hs => exact .error ⟨hs, hab.diagnostics, hab.types⟩

theorem Split.silent (h : a.Split o d b) (ha : a.Silent o a') (hb : b.Silent o b') :
    a'.Split o d b' where
  scopes := by
    refine ⟨?_, ha.store.trans (h.scopes.store.trans hb.store.symm)⟩
    rw [ha.stack, hb.stack]
    exact h.scopes.stack
  diagnostics := by rw [ha.diagnostics, hb.diagnostics, h.diagnostics]
  types := by rw [ha.types, hb.types, h.types]

theorem inStep_of_silent {m m' : AnalysisM Unit}
    (hm : ∀ a, ∃ a', m.Returns a () a' ∧ a.Silent o a')
    (hm' : ∀ a, ∃ a', m'.Returns a () a' ∧ a.Silent o a') :
    ExceptT.InStep (Split o d) (Split o d) E m m' := by
  intro a b hab
  obtain ⟨a', hrun, ha⟩ := hm a
  obtain ⟨b', hrun', hb⟩ := hm' b
  rw [hrun, hrun']
  exact .ok (hab.silent ha hb)

theorem inStep_stack_bind {k k' : ScopeStack → AnalysisM α} {Q : Analysis → Analysis → Prop}
    (hk : ∀ s s', s.Split d s' → ExceptT.InStep (Split o d) Q E (k s) (k' s')) :
    ExceptT.InStep (Split o d) Q E (stack >>= k) (stack >>= k') :=
  fun a b hab => hk a.stack b.stack hab.scopes.stack a b hab

theorem inStep_onFault {R Q E E' : Analysis → Analysis → Prop} {m m' : AnalysisM α}
    {cleanup cleanup' : AnalysisM Unit} (hm : ExceptT.InStep R Q E m m')
    (hcleanup : ExceptT.InStep E E' E' cleanup cleanup') :
    ExceptT.InStep R Q E' (onFault m cleanup) (onFault m' cleanup') := by
  intro a b hab
  match hrun : m.run.run a, hrun' : m'.run.run b, hm a b hab with
  | _, _, .ok hs =>
    rw [AnalysisM.returns_onFault cleanup hrun, AnalysisM.returns_onFault cleanup' hrun']
    exact .ok hs
  | _, _, .error (e := f) hs =>
    rw [run_onFault_of_error cleanup hrun, run_onFault_of_error cleanup' hrun']
    exact hcleanup.bind (fun _ => .throw f) _ _ hs

theorem enterScope_split (hkind : kind ≠ .other) :
    ExceptT.InStep (Split c.options d) (Split c.options (d + 1)) E (enterScope c kind)
      (enterScope c kind) := by
  intro a b hab
  obtain ⟨a', hrun, ha⟩ := enterScope_returns c hkind a
  obtain ⟨b', hrun', hb⟩ := enterScope_returns c hkind b
  rw [hrun, hrun']
  refine .ok (Split.silent ?_ ha hb)
  exact ⟨⟨hab.scopes.stack.push kind, hab.scopes.store⟩, hab.diagnostics, hab.types⟩

theorem discardScope_split :
    ExceptT.InStep (Split c.options (d + 1)) (Split c.options d) (Split c.options d)
      (discardScope c) (discardScope c) := by
  refine inStep_stack_bind fun s s' _ => ?_
  refine (ofScopeM_alike ScopeM.discard_split).bind fun _ => inStep_stack_bind fun s s' _ => ?_
  exact inStep_of_silent (record_returns _ _) (record_returns _ _)

theorem popScope_split (hc : c.Unmetered) :
    ExceptT.InStep (Split c.options (d + 1)) (Split c.options d) (Split c.options d) (popScope c)
      (popScope c) := by
  refine inStep_stack_bind fun s s' _ => ?_
  refine (ofScopeM_alike (ScopeM.pop_split hc)).bind fun merged => ?_
  refine .bind (inStep_of_silent (count_returns _ _ _) (count_returns _ _ _)) fun _ => ?_
  refine inStep_stack_bind fun s s' _ => ?_
  exact inStep_of_silent (record_returns _ _) (record_returns _ _)

/-- Whichever frame is in two parts on one side, the computation stays in step with itself. -/
def IgnoresSplits (o : Options) (m : AnalysisM α) : Prop := ∀ d, m.Respects (Split o d)

namespace IgnoresSplits

theorem pure (x : α) : IgnoresSplits o (Pure.pure x) := fun _ => .pure x

theorem throw (f : Fault) : IgnoresSplits o (MonadExcept.throw f : AnalysisM α) := fun _ => .throw f

theorem bind {m : AnalysisM α} {k : α → AnalysisM β} (hm : IgnoresSplits o m)
    (hk : ∀ x, IgnoresSplits o (k x)) : IgnoresSplits o (m >>= k) :=
  fun d => (hm d).bind fun x => hk x d

theorem ofTypeM {m : TypeM α} (hm : o.metrics = true → m.Unmetered) :
    IgnoresSplits o (AnalysisM.ofTypeM m) :=
  fun _ => ofScopeM_alike (ScopeM.ofTypeM_split (Options.respects_shares hm))

theorem declare (name : Text) (t : Ty) :
    IgnoresSplits o (ofScopeM (.modifyStack (·.declare name t))) :=
  fun _ => ofScopeM_alike (.modify fun _ _ hs => ⟨hs.stack.declare name t, hs.store⟩)

theorem report (finding : Finding) (loc : Location) :
    IgnoresSplits o (Analysis.report o finding loc) := by
  intro d
  refine .bind (Q := Split o d) (.modify fun a b hab => ?_) fun _ => ?_
  · exact ⟨hab.scopes, congrArg (· ++ _) hab.diagnostics, hab.types⟩
  · exact inStep_of_silent (count_returns o _ _) (count_returns o _ _)

theorem evaluated (site : Site) (t : Ty) : IgnoresSplits o (Analysis.evaluated site t) := by
  intro d
  refine .bind (.modify fun a b hab => ?_) fun _ => .pure t
  exact ⟨hab.scopes, hab.diagnostics, congrArg (_ :: ·) hab.types⟩

theorem assign (name : Text) (t : Ty) (loc : Location) :
    IgnoresSplits c.options (Analysis.assign c name t loc) := by
  refine fun d => inStep_stack_bind fun s s' hs => ?_
  rw [ScopeStack.assign?, ScopeStack.assign?, hs.isDeclared]
  by_cases hname : s'.isDeclared name
  · rw [if_pos hname, if_pos hname]
    exact ofScopeM_alike (.modify fun _ _ hscopes => ⟨hs.bind name t, hscopes.store⟩)
  · rw [if_neg hname, if_neg hname]
    exact (report _ loc).bind (fun _ => declare name t) d

theorem readName (name : Text) (loc : Location) :
    IgnoresSplits c.options (Analysis.readName c name loc) := by
  refine fun d => inStep_stack_bind fun s s' hs => ?_
  rw [hs.lookup]
  split
  · exact .pure _
  · split
    · exact .pure _
    · exact (report _ loc).bind (fun _ => pure _) d

theorem readAttribute (hc : c.Unmetered) (receiver : Ty) (attr : Text) (loc : Location) :
    IgnoresSplits c.options (Analysis.readAttribute c receiver attr loc) := by
  have hread : IgnoresSplits c.options
      (AnalysisM.ofTypeM (c.resolvers.property receiver (.named attr))) :=
    ofTypeM fun hmetrics => (hc hmetrics).readProperty receiver _
  refine (ofTypeM fun _ => .graph).bind fun g => ?_
  dsimp only
  split
  · exact (report _ loc).bind fun _ => hread
  · exact hread

theorem inScope (hc : c.Unmetered) (hkind : kind ≠ .other) {body : AnalysisM Unit}
    (hbody : IgnoresSplits c.options body) :
    IgnoresSplits c.options (Analysis.inScope c kind body) := by
  refine fun d => (enterScope_split hkind).bind fun _ => ?_
  exact (inStep_onFault (hbody (d + 1)) discardScope_split).bind fun _ => popScope_split hc

theorem inBranch (hc : c.Unmetered) (s : Stmt) {body : AnalysisM Unit}
    (hbody : IgnoresSplits c.options body) :
    IgnoresSplits c.options (Analysis.inBranch c s body) := by
  rw [Analysis.inBranch]
  split
  · exact pure ()
  · exact inScope hc (by decide) hbody

mutual

theorem eval (hc : c.Unmetered) : ∀ e : Expr, IgnoresSplits c.options (Analysis.eval c e)
  | .missing => pure _
  | .string site value => evaluated site _
  | .number site value => evaluated site _
  | .boolean site value => evaluated site _
  | .null site => evaluated site _
  | .name site id => by
    rw [Analysis.eval]
    exact (readName id site.loc).bind fun t => evaluated site t
  | .attribute site value attr => by
    rw [Analysis.eval]
    refine (eval hc value).bind fun receiver => ?_
    exact (readAttribute hc receiver attr site.loc).bind fun t => evaluated site t
  | .assign site target value => by
    rw [Analysis.eval]
    refine (eval hc value).bind fun t => ?_
    exact (assign target t site.loc).bind fun _ => evaluated site t
  | .object site fields => by
    rw [Analysis.eval]
    refine (evalFields hc fields []).bind fun slots => ?_
    exact (ofTypeM fun _ => .alloc _).bind fun i => evaluated site (.node i)
  | .unsupported site => throw _

theorem evalFields (hc : c.Unmetered) : ∀ (fields : List (Text × Expr)) (slots : List Slot),
    IgnoresSplits c.options (Analysis.evalFields c fields slots)
  | [], slots => pure slots
  | (key, value) :: rest, slots => by
    rw [Analysis.evalFields]
    exact (eval hc value).bind fun t => evalFields hc rest _

end

theorem initialType (hc : c.Unmetered) (ascribed : Option Ty) (optional : Bool) (init : Expr) :
    IgnoresSplits c.options (Analysis.initialType c ascribed optional init) := by
  unfold Analysis.initialType
  split
  · split
    · exact ofTypeM fun hmetrics => (hc hmetrics).widen optional _
    · exact pure _
  · exact eval hc init

mutual

theorem exec (hc : c.Unmetered) : ∀ s : Stmt, IgnoresSplits c.options (Analysis.exec c s)
  | .missing => pure ()
  | .expr value => by
    rw [Analysis.exec]
    exact (eval hc value).bind fun _ => pure ()
  | .assign loc target value => by
    rw [Analysis.exec]
    exact (eval hc value).bind fun t => assign target t loc
  | .declare name ascribed optional init => by
    rw [Analysis.exec]
    exact (initialType hc ascribed optional init).bind fun t => declare name t
  | .block body => by
    rw [Analysis.exec]
    exact inScope hc (by decide) (execAll hc body)
  | .branch cond consequent alternate => by
    rw [Analysis.exec]
    refine (eval hc cond).bind fun _ => ?_
    refine (inBranch hc consequent (exec hc consequent)).bind fun _ => ?_
    exact inBranch hc alternate (exec hc alternate)
  | .loop cond body => by
    rw [Analysis.exec]
    have hcond : IgnoresSplits c.options (do let _ ← Analysis.eval c cond) :=
      (eval hc cond).bind fun _ => pure ()
    refine (inScope hc (by decide) hcond).bind fun _ => ?_
    exact inScope hc (by decide) (exec hc body)
  | .unsupported => throw _

theorem execAll (hc : c.Unmetered) :
    ∀ body : List Stmt, IgnoresSplits c.options (Analysis.execAll c body)
  | [] => pure ()
  | s :: rest => by
    rw [Analysis.execAll]
    exact (exec hc s).bind fun _ => execAll hc rest

end

end IgnoresSplits

end Analysis

end FlowTyping
