import FlowTyping.Proofs.Approximation

namespace ExceptT

variable {ε σ α β : Type} {m : ExceptT ε (StateM σ) α} {k : α → ExceptT ε (StateM σ) β}

/-- However the computation ends, the state it leaves is related to the one it starts in. -/
def Keeps (R : σ → σ → Prop) (m : ExceptT ε (StateM σ) α) : Prop := ∀ s, R s (m.run.run s).2

namespace Keeps

variable {R : σ → σ → Prop}

theorem bind [IsTrans σ R] (hm : Keeps R m) (hk : ∀ a, Keeps R (k a)) : Keeps R (m >>= k) := by
  intro s
  have hs := hm s
  match hrun : m.run.run s with
  | (.error e, s₁) =>
    rw [run_bind_of_error hrun]
    rwa [hrun] at hs
  | (.ok a, s₁) =>
    rw [run_bind_of_ok hrun]
    rw [hrun] at hs
    exact trans_of R hs (hk a s₁)

end Keeps

end ExceptT

namespace FlowTyping

variable {α β : Type} {s s' s₁ s₂ base : ScopeStack} {name : Text} {t : Ty}

structure ScopeStack.SameBelow (s s' : ScopeStack) : Prop where
  below : s'.below = s.below
  kind : s'.top.kind = s.top.kind

namespace ScopeStack.SameBelow

theorem refl (s : ScopeStack) : s.SameBelow s := ⟨rfl, rfl⟩

theorem trans (h₁ : s.SameBelow s₁) (h₂ : s₁.SameBelow s₂) : s.SameBelow s₂ :=
  ⟨h₂.below.trans h₁.below, h₂.kind.trans h₁.kind⟩

theorem depth_eq (h : s.SameBelow s') : s'.depth = s.depth := by simp [depth, frames, h.below]

theorem bind (s : ScopeStack) (name : Text) (t : Ty) : s.SameBelow (s.bind name t) := ⟨rfl, rfl⟩

theorem declare (s : ScopeStack) (name : Text) (t : Ty) : s.SameBelow (s.declare name t) := by
  refine ⟨rfl, ?_⟩
  simp only [ScopeStack.declare, Frame.declare]
  split <;> rfl

end ScopeStack.SameBelow

def ScopeStack.bindAll (s : ScopeStack) (os : List (Text × Ty)) : ScopeStack :=
  os.foldl (fun s o => s.bind o.1 o.2) s

namespace ScopeM

abbrev KeepsBelow (m : ScopeM α) : Prop :=
  m.Keeps fun s s' : Scopes => s.stack.SameBelow s'.stack

instance : IsTrans Scopes fun s s' => s.stack.SameBelow s'.stack := ⟨fun _ _ _ => .trans⟩

theorem mergeAll_keepsBelow (r : Resolvers) (kind : ScopeKind) (os : List (Text × Ty)) :
    (mergeAll r kind os).KeepsBelow := by
  induction os with
  | nil => exact fun s => .refl s.stack
  | cons o os ih =>
    refine .bind (fun s => .refl s.stack) fun scopes => ?_
    refine .bind (fun s => .refl s.stack) fun merged => ?_
    exact .bind (fun s => .bind s.stack o.1 merged) fun _ => ih

theorem mergeAll_normal_returns (r : Resolvers) (os : List (Text × Ty)) (s : Scopes) :
    (mergeAll r .normal os).Returns s () { s with stack := s.stack.bindAll os } := by
  induction os generalizing s with
  | nil => exact .pure () s
  | cons o os ih => exact ih { s with stack := s.stack.bind o.1 o.2 }

theorem run_pop (r : Resolvers) {s : Scopes} (hbelow : s.stack.below = base.frames) :
    (pop r).run.run s = (do
      mergeAll r s.stack.top.kind s.stack.top.overrides
      return s.stack.top.overrides.length : ScopeM Nat).run.run { s with stack := base } := by
  rw [pop, ExceptT.run_bind_of_ok (ExceptT.Returns.get s)]
  simp only [ScopeStack.drop?_eq hbelow]
  rfl

theorem pop_sameBelow (r : Resolvers) {s : Scopes} (hbelow : s.stack.below = base.frames) :
    base.SameBelow ((pop r).run.run s).2.stack := by
  rw [run_pop r hbelow]
  refine ExceptT.Keeps.bind (mergeAll_keepsBelow r _ _) (fun _ => ?_) { s with stack := base }
  exact fun s => .refl s.stack

theorem discard_returns {s : Scopes} (hbelow : s.stack.below = base.frames) :
    discard.Returns s () { s with stack := base } := by
  refine (ExceptT.Returns.get s).bind ?_
  rw [ScopeStack.drop?_eq hbelow]
  rfl

theorem pop_normal_returns (r : Resolvers) {s : Scopes} (hbelow : s.stack.below = base.frames)
    (hkind : s.stack.top.kind = .normal) :
    (pop r).Returns s s.stack.top.overrides.length
      { s with stack := base.bindAll s.stack.top.overrides } := by
  rw [ExceptT.Returns, run_pop r hbelow, hkind]
  exact (mergeAll_normal_returns r s.stack.top.overrides { s with stack := base }).bind (.pure _ _)

end ScopeM

namespace Analysis

open AnalysisM (ofScopeM ofTypeM stack onFault)

variable {c : Setting} {kind : ScopeKind} {a a' : Analysis} {body : AnalysisM Unit}

abbrev KeepsBelow (m : AnalysisM α) : Prop :=
  m.Keeps fun a a' : Analysis => a.stack.SameBelow a'.stack

instance : IsTrans Analysis fun a a' => a.stack.SameBelow a'.stack := ⟨fun _ _ _ => .trans⟩

theorem keepsBelow_pure (x : α) : KeepsBelow (pure x) := fun a => .refl a.stack

theorem keepsBelow_throw (f : Fault) : KeepsBelow (throw f : AnalysisM α) := fun a => .refl a.stack

theorem keepsBelow_ofTypeM (m : TypeM α) : KeepsBelow (ofTypeM m) := fun a => .refl a.stack

theorem keepsBelow_declare (name : Text) (t : Ty) :
    KeepsBelow (ofScopeM (.modifyStack (·.declare name t))) :=
  fun a => .declare a.stack name t

theorem keepsBelow_report (o : Options) (finding : Finding) (loc : Location) :
    KeepsBelow (report o finding loc) := by
  intro a
  obtain ⟨a', hrun, hquiet, -⟩ := report_returns o finding loc a
  rw [hrun, hquiet.stack]
  exact .refl a.stack

theorem keepsBelow_evaluated (site : Site) (t : Ty) : KeepsBelow (evaluated site t) :=
  fun a => .refl a.stack

theorem keepsBelow_assign (c : Setting) (name : Text) (t : Ty) (loc : Location) :
    KeepsBelow (assign c name t loc) := by
  intro a
  rw [assign, ExceptT.run_bind_of_ok (AnalysisM.returns_stack a)]
  split
  · rename_i s hs
    rw [ScopeStack.assign?] at hs
    split at hs
    · cases hs
      exact .bind a.stack name t
    · cases hs
  · exact (keepsBelow_report _ _ loc).bind (fun _ => keepsBelow_declare name t) a

theorem keepsBelow_readName (c : Setting) (name : Text) (loc : Location) :
    KeepsBelow (readName c name loc) := by
  refine .bind (fun a => .refl a.stack) fun scopes => ?_
  split
  · exact keepsBelow_pure _
  · split
    · exact keepsBelow_pure _
    · exact (keepsBelow_report _ _ loc).bind fun _ => keepsBelow_pure _

theorem keepsBelow_readAttribute (c : Setting) (receiver : Ty) (attr : Text) (loc : Location) :
    KeepsBelow (readAttribute c receiver attr loc) := by
  refine (keepsBelow_ofTypeM _).bind fun g => ?_
  dsimp only
  split
  · exact (keepsBelow_report _ _ loc).bind fun _ => keepsBelow_ofTypeM _
  · exact keepsBelow_ofTypeM _

theorem discardScope_returns (c : Setting) (hbelow : a.stack.below = base.frames) :
    ∃ a', (discardScope c).Returns a () a' ∧ a'.stack = base := by
  let a₁ : Analysis := { a with stack := base }
  obtain ⟨a₂, hrecord, hsilent⟩ :=
    record_returns c.options (.discarded a.stack.top.kind base.depth) a₁
  have hdrop : ScopeM.discard.Returns a.toScopes () a₁.toScopes := ScopeM.discard_returns hbelow
  refine ⟨a₂, ?_, hsilent.stack⟩
  refine (AnalysisM.returns_stack a).bind ((AnalysisM.returns_ofScopeM hdrop).bind ?_)
  exact (AnalysisM.returns_stack a₁).bind hrecord

theorem popScope_silently (c : Setting) (a : Analysis) :
    Silent c.options { a with toScopes := ((ScopeM.pop c.resolvers).run.run a.toScopes).2 }
      ((popScope c).run.run a).2 := by
  match hrun : (ScopeM.pop c.resolvers).run.run a.toScopes with
  | (.error f, s) =>
    have hfault : (ofScopeM (ScopeM.pop c.resolvers)).run.run a =
        (.error f, { a with toScopes := s }) := by
      have hrun' : ScopeM.pop c.resolvers a.toScopes = (.error f, s) := hrun
      simp only [ofScopeM, ExceptT.run, StateT.run, hrun']
    rw [popScope, ExceptT.run_bind_of_ok (AnalysisM.returns_stack a),
      ExceptT.run_bind_of_error hfault]
    exact .refl _
  | (.ok n, s) =>
    obtain ⟨a', hrun', hsilent⟩ := popScope_silent hrun
    rw [hrun']
    exact hsilent

theorem popScope_sameBelow (c : Setting) (hbelow : a.stack.below = base.frames) :
    base.SameBelow ((popScope c).run.run a).2.stack := by
  rw [(popScope_silently c a).stack]
  exact ScopeM.pop_sameBelow c.resolvers hbelow

theorem popScope_normal_returns (c : Setting) (hbelow : a.stack.below = base.frames)
    (hkind : a.stack.top.kind = .normal) :
    ∃ a', (popScope c).Returns a () a' ∧
      Silent c.options { a with stack := base.bindAll a.stack.top.overrides } a' :=
  popScope_silent (ScopeM.pop_normal_returns c.resolvers hbelow hkind)

theorem run_onFault_of_error {m : AnalysisM α} {f : Fault} (cleanup : AnalysisM Unit)
    (hm : m.run.run a = (.error f, a')) :
    (onFault m cleanup).run.run a = (cleanup >>= fun _ => throw f : AnalysisM α).run.run a' := by
  rw [onFault, ExceptT.run_tryCatch, StateT.run_bind, hm]
  rfl

theorem inScope_cases (c : Setting) (hkind : kind ≠ .other) (hbody : KeepsBelow body)
    (a : Analysis) :
    (∃ f a', (inScope c kind body).run.run a = (.error f, a') ∧ a'.stack = a.stack) ∨
      ∃ a₁, (inScope c kind body).run.run a = (popScope c).run.run a₁ ∧
        a₁.stack.below = a.stack.frames ∧ a₁.stack.top.kind = kind := by
  obtain ⟨a₁, henter, hsilent⟩ := enterScope_returns c hkind a
  have hstack : a₁.stack = a.stack.push kind := hsilent.stack
  have hsame : (a.stack.push kind).SameBelow (body.run.run a₁).2.stack := hstack ▸ hbody a₁
  rw [inScope, ExceptT.run_bind_of_ok henter]
  match hrun : body.run.run a₁ with
  | (.error f, a₂) =>
    rw [hrun] at hsame
    obtain ⟨a', hdiscard, hstack⟩ := discardScope_returns c hsame.below
    have hfault : (onFault body (discardScope c)).run.run a₁ = (.error f, a') :=
      (run_onFault_of_error _ hrun).trans (ExceptT.run_bind_of_ok hdiscard)
    exact .inl ⟨f, a', ExceptT.run_bind_of_error hfault, hstack⟩
  | (.ok (), a₂) =>
    rw [hrun] at hsame
    have hbody : (onFault body (discardScope c)).Returns a₁ () a₂ := AnalysisM.returns_onFault _ hrun
    exact .inr ⟨a₂, ExceptT.run_bind_of_ok hbody, hsame.below, hsame.kind⟩

theorem keepsBelow_inScope (c : Setting) (hkind : kind ≠ .other) (hbody : KeepsBelow body) :
    KeepsBelow (inScope c kind body) := by
  intro a
  rcases inScope_cases c hkind hbody a with ⟨f, a', hrun, hstack⟩ | ⟨a₁, hrun, hbelow, -⟩
  · rw [hrun, hstack]
    exact .refl a.stack
  · rw [hrun]
    exact popScope_sameBelow c hbelow

theorem keepsBelow_inBranch (c : Setting) (s : Stmt) (hbody : KeepsBelow body) :
    KeepsBelow (inBranch c s body) := by
  rw [inBranch]
  split
  · exact keepsBelow_pure ()
  · exact keepsBelow_inScope c (by decide) hbody

mutual

theorem keepsBelow_eval (c : Setting) : ∀ e : Expr, KeepsBelow (eval c e)
  | .missing => keepsBelow_pure _
  | .string site value => keepsBelow_evaluated site _
  | .number site value => keepsBelow_evaluated site _
  | .boolean site value => keepsBelow_evaluated site _
  | .null site => keepsBelow_evaluated site _
  | .name site id => by
    rw [eval]
    exact (keepsBelow_readName c id site.loc).bind fun t => keepsBelow_evaluated site t
  | .attribute site value attr => by
    rw [eval]
    refine (keepsBelow_eval c value).bind fun receiver => ?_
    refine (keepsBelow_readAttribute c receiver attr site.loc).bind fun t => ?_
    exact keepsBelow_evaluated site t
  | .assign site target value => by
    rw [eval]
    refine (keepsBelow_eval c value).bind fun t => ?_
    exact (keepsBelow_assign c target t site.loc).bind fun _ => keepsBelow_evaluated site t
  | .object site fields => by
    rw [eval]
    refine (keepsBelow_evalFields c fields []).bind fun slots => ?_
    exact (keepsBelow_ofTypeM _).bind fun i => keepsBelow_evaluated site (.node i)
  | .unsupported site => keepsBelow_throw _

theorem keepsBelow_evalFields (c : Setting) :
    ∀ (fields : List (Text × Expr)) (slots : List Slot), KeepsBelow (evalFields c fields slots)
  | [], slots => keepsBelow_pure slots
  | (key, value) :: rest, slots => by
    rw [evalFields]
    exact (keepsBelow_eval c value).bind fun t => keepsBelow_evalFields c rest _

end

theorem keepsBelow_initialType (c : Setting) (ascribed : Option Ty) (optional : Bool) (init : Expr) :
    KeepsBelow (initialType c ascribed optional init) := by
  unfold initialType
  split
  · split
    · exact keepsBelow_ofTypeM _
    · exact keepsBelow_pure _
  · exact keepsBelow_eval c init

mutual

theorem keepsBelow_exec (c : Setting) : ∀ s : Stmt, KeepsBelow (exec c s)
  | .missing => keepsBelow_pure ()
  | .expr value => by
    rw [exec]
    exact (keepsBelow_eval c value).bind fun _ => keepsBelow_pure ()
  | .assign loc target value => by
    rw [exec]
    exact (keepsBelow_eval c value).bind fun t => keepsBelow_assign c target t loc
  | .declare name ascribed optional init => by
    rw [exec]
    refine (keepsBelow_initialType c ascribed optional init).bind fun t => ?_
    exact keepsBelow_declare name t
  | .block body => by
    rw [exec]
    exact keepsBelow_inScope c (by decide) (keepsBelow_execAll c body)
  | .branch cond consequent alternate => by
    rw [exec]
    refine (keepsBelow_eval c cond).bind fun _ => ?_
    refine (keepsBelow_inBranch c consequent (keepsBelow_exec c consequent)).bind fun _ => ?_
    exact keepsBelow_inBranch c alternate (keepsBelow_exec c alternate)
  | .loop cond body => by
    rw [exec]
    have hcond : KeepsBelow (do let _ ← eval c cond) :=
      (keepsBelow_eval c cond).bind fun _ => keepsBelow_pure ()
    refine (keepsBelow_inScope c (by decide) hcond).bind fun _ => ?_
    exact keepsBelow_inScope c (by decide) (keepsBelow_exec c body)
  | .unsupported => keepsBelow_throw _

theorem keepsBelow_execAll (c : Setting) : ∀ body : List Stmt, KeepsBelow (execAll c body)
  | [] => keepsBelow_pure ()
  | s :: rest => by
    rw [execAll]
    exact (keepsBelow_exec c s).bind fun _ => keepsBelow_execAll c rest

end

theorem stack_of_block_error (c : Setting) {body : List Stmt} {f : Fault}
    (hrun : (exec c (.block body)).run.run a = (.error f, a')) : a'.stack = a.stack := by
  -- A block is a frame that always runs, so its pop has nothing to merge that could fail.
  rw [exec] at hrun
  have hnormal : ScopeKind.normal ≠ .other := by decide
  rcases inScope_cases c hnormal (keepsBelow_execAll c body) a with
    ⟨f', a₁, hfault, hstack⟩ | ⟨a₁, hpop, hbelow, hkind⟩
  · cases hrun.symm.trans hfault
    exact hstack
  · obtain ⟨a₂, hreturns, -⟩ := popScope_normal_returns c hbelow hkind
    cases (hrun.symm.trans hpop).trans hreturns

/-- However an expression, a statement or a list of statements ends, the stack has the same depth
as before and the same frames below its top; a block that ends in a fault leaves the whole stack as
it was. -/
theorem scopes_kept (c : Setting) (a : Analysis) :
    (∀ e : Expr, ((eval c e).run.run a).2.stack.depth = a.stack.depth ∧
      ((eval c e).run.run a).2.stack.below = a.stack.below) ∧
    (∀ s : Stmt, ((exec c s).run.run a).2.stack.depth = a.stack.depth ∧
      ((exec c s).run.run a).2.stack.below = a.stack.below) ∧
    (∀ body : List Stmt, ((execAll c body).run.run a).2.stack.depth = a.stack.depth ∧
      ((execAll c body).run.run a).2.stack.below = a.stack.below) ∧
    (∀ (body : List Stmt) (f : Fault) (a' : Analysis),
      (exec c (.block body)).run.run a = (.error f, a') → a'.stack = a.stack) := by
  refine ⟨fun e => ?_, fun s => ?_, fun body => ?_, fun body f a' => stack_of_block_error c⟩
  · exact ⟨(keepsBelow_eval c e a).depth_eq, (keepsBelow_eval c e a).below⟩
  · exact ⟨(keepsBelow_exec c s a).depth_eq, (keepsBelow_exec c s a).below⟩
  · exact ⟨(keepsBelow_execAll c body a).depth_eq, (keepsBelow_execAll c body a).below⟩

theorem scopes_kept_of_raised :
    let c : Setting := { resolvers := { property? := some fun _ _ => throw (.raised .config []) } }
    let read : Expr := .attribute ⟨1, {}⟩ (.name ⟨2, {}⟩ (text "x")) (text "k")
    let block : Stmt := .block
      [.declare (text "x") none false (.boolean ⟨0, {}⟩ true), .loop .missing (.expr read)]
    ((exec c block).run.run {}).1 = .error (.raised .config []) ∧
      ((exec c block).run.run {}).2.stack = .initial := by
  intro c read block
  have hfault : ((exec c block).run.run {}).1 = .error (.raised .config []) := rfl
  exact ⟨hfault, (scopes_kept c {}).2.2.2 _ _ _ (Prod.ext hfault rfl)⟩

end Analysis

end FlowTyping
