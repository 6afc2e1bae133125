import FlowTyping.Proofs.NormalFrames
import FlowTyping.Proofs.SplitFrames

/-!
Blocks without declarations of their own. The frame of a block upon the current frame shows what the
current frame alone would hold if the statements had run in it. The pop puts the two together again,
unless the frame of the block has declared a name; and it does so only for a declaration among its
statements or for a write that is reported.
-/

namespace FlowTyping

variable {α β : Type}

def Finding.isUndeclaredWrite : Finding → Bool
  | .undeclaredWrite _ => true
  | _ => false

structure Frame.Same (f g : Frame) : Prop where
  kind : f.kind = g.kind
  lookup : ∀ n, f.bindings.lookup n = g.bindings.lookup n
  declared : ∀ n, n ∈ f.declared ↔ n ∈ g.declared

theorem Frame.Same.refl (f : Frame) : f.Same f := ⟨rfl, fun _ => rfl, fun _ => .rfl⟩

theorem ScopeM.declared_mergeAll (r : Resolvers) (kind : ScopeKind) (os : List (Text × Ty))
    (s : Scopes) :
    ((mergeAll r kind os).run.run s).2.stack.top.declared = s.stack.top.declared := by
  induction os generalizing s with
  | nil => rfl
  | cons o os ih =>
    match hrun : (r.mergeBinding kind (s.stack.lookup o.1) o.2).run.run s.store with
    | (.error e, st) => rw [run_mergeAll_of_error os hrun]
    | (.ok t, st) =>
      rw [run_mergeAll_of_ok os hrun, ih]
      rfl

namespace Analysis

open AnalysisM (ofScopeM stack onFault)

variable {c : Setting} {kind : ScopeKind} {a a' a₁ a₂ : Analysis} {ns ns' : List Text}
  {body : AnalysisM Unit} {ss : List Stmt}

theorem returns_of_onFault {m : AnalysisM α} {cleanup : AnalysisM Unit} {x : α}
    (hrun : (onFault m cleanup).Returns a x a') : m.Returns a x a' := by
  match hm : m.run.run a with
  | (.ok y, a₁) =>
    cases (AnalysisM.returns_onFault cleanup hm).symm.trans hrun
    exact hm
  | (.error f, a₁) =>
    obtain ⟨_, a₂, -, hthrow⟩ :=
      ExceptT.Returns.exists_of_bind ((run_onFault_of_error cleanup hm).symm.trans hrun)
    cases hthrow

/-- Diagnostics have been added, and unless one of them is a write to an undeclared name, the top
frame declares the names `ns` in addition. -/
def Declares (ns : List Text) (a a' : Analysis) : Prop :=
  ∃ new, a'.diagnostics = a.diagnostics ++ new ∧
    ((∃ d ∈ new, d.finding.isUndeclaredWrite = true) ∨
      ∀ n, n ∈ a'.stack.top.declared ↔ n ∈ ns ∨ n ∈ a.stack.top.declared)

theorem Declares.trans (h : a.Declares ns a₁) (h' : a₁.Declares ns' a₂) :
    a.Declares (ns' ++ ns) a₂ := by
  obtain ⟨new, hnew, hdeclared⟩ := h
  obtain ⟨new', hnew', hdeclared'⟩ := h'
  refine ⟨new ++ new', by rw [hnew', hnew, List.append_assoc], ?_⟩
  rcases hdeclared with ⟨d, hd, hwrite⟩ | hdeclared
  · exact .inl ⟨d, List.mem_append_left _ hd, hwrite⟩
  · rcases hdeclared' with ⟨d, hd, hwrite⟩ | hdeclared'
    · exact .inl ⟨d, List.mem_append_right _ hd, hwrite⟩
    · refine .inr fun n => ?_
      rw [hdeclared', hdeclared, List.mem_append, or_assoc]

theorem Declares.of_eq (hdiagnostics : a'.diagnostics = a.diagnostics)
    (hdeclared : a'.stack.top.declared = a.stack.top.declared) : a.Declares [] a' :=
  ⟨[], by rw [hdiagnostics, List.append_nil], .inr fun n => by simp [hdeclared]⟩

def Declaring (ns : List Text) (m : AnalysisM α) : Prop :=
  ∀ a x a', m.Returns a x a' → a.Declares ns a'

namespace Declaring

theorem throw (f : Fault) : Declaring ns (MonadExcept.throw f : AnalysisM α) := by
  intro a x a' hrun
  cases hrun

theorem of_eq {m : AnalysisM α} (hdiagnostics : ∀ a, (m.run.run a).2.diagnostics = a.diagnostics)
    (hdeclared : ∀ a, (m.run.run a).2.stack.top.declared = a.stack.top.declared) :
    Declaring [] m := by
  intro a x a' hrun
  have hrun' : m.run.run a = (.ok x, a') := hrun
  have h := hdiagnostics a
  have h' := hdeclared a
  rw [hrun'] at h h'
  exact .of_eq h h'

theorem pure (x : α) : Declaring [] (Pure.pure x) := of_eq (fun _ => rfl) fun _ => rfl

theorem ofTypeM (m : TypeM α) : Declaring [] (AnalysisM.ofTypeM m) :=
  of_eq (fun _ => rfl) fun _ => rfl

theorem evaluated (site : Site) (t : Ty) : Declaring [] (Analysis.evaluated site t) :=
  of_eq (fun _ => rfl) fun _ => rfl

theorem seq {m : AnalysisM α} {k : α → AnalysisM β} (hm : Declaring ns m)
    (hk : ∀ x, Declaring ns' (k x)) : Declaring (ns' ++ ns) (m >>= k) := by
  intro a y a₂ hrun
  obtain ⟨x, a₁, hrun, hrun'⟩ := hrun.exists_of_bind
  exact (hm a x a₁ hrun).trans (hk x a₁ y a₂ hrun')

theorem bind {m : AnalysisM α} {k : α → AnalysisM β} (hm : Declaring [] m)
    (hk : ∀ x, Declaring ns (k x)) : Declaring ns (m >>= k) := by
  have hseq := hm.seq hk
  rwa [List.append_nil] at hseq

theorem declare (name : Text) (t : Ty) :
    Declaring [name] (ofScopeM (.modifyStack (·.declare name t))) := by
  rintro a x a' ⟨⟩
  refine ⟨[], (List.append_nil _).symm, .inr fun n => ?_⟩
  rw [List.mem_singleton]
  exact Frame.declared_declare

theorem report (o : Options) (finding : Finding) (loc : Location) :
    Declaring [] (Analysis.report o finding loc) := by
  intro a x a' hrun
  obtain ⟨a₁, hrun₁, hquiet, hdiagnostics⟩ := report_returns o finding loc a
  cases hrun.symm.trans hrun₁
  exact ⟨_, hdiagnostics, .inr fun n => by simp [hquiet.stack]⟩

theorem assign (name : Text) (t : Ty) (loc : Location) :
    Declaring [] (Analysis.assign c name t loc) := by
  intro a x a' hrun
  have hrun' := (ExceptT.run_bind_of_ok (AnalysisM.returns_stack a)).symm.trans hrun
  rw [ScopeStack.assign?] at hrun'
  by_cases hname : a.stack.isDeclared name
  · rw [if_pos hname] at hrun'
    cases hrun'
    exact .of_eq rfl rfl
  · rw [if_neg hname] at hrun'
    obtain ⟨a₁, hreport, hquiet, hdiagnostics⟩ :=
      report_returns c.options (.undeclaredWrite name) loc a
    cases (ExceptT.run_bind_of_ok hreport).symm.trans hrun'
    exact ⟨_, hdiagnostics, .inl ⟨_, List.mem_singleton_self _, rfl⟩⟩

theorem readName (name : Text) (loc : Location) :
    Declaring [] (Analysis.readName c name loc) := by
  refine (of_eq (fun _ => rfl) fun _ => rfl : Declaring [] stack).bind fun scopes => ?_
  split
  · exact pure _
  · split
    · exact pure _
    · exact (report _ _ loc).bind fun _ => pure _

theorem readAttribute (receiver : Ty) (attr : Text) (loc : Location) :
    Declaring [] (Analysis.readAttribute c receiver attr loc) := by
  refine (ofTypeM _).bind fun g => ?_
  dsimp only
  split
  · exact (report _ _ loc).bind fun _ => ofTypeM _
  · exact ofTypeM _

theorem inScope (hkind : kind ≠ .other) (hbelow : KeepsBelow body) (hbody : Declaring ns body) :
    Declaring [] (Analysis.inScope c kind body) := by
  intro a x a' hrun
  obtain ⟨a₁, henter, hsilent⟩ := enterScope_returns c hkind a
  have hrun' := (ExceptT.run_bind_of_ok henter).symm.trans hrun
  obtain ⟨_, a₂, hguarded, hpop⟩ := ExceptT.Returns.exists_of_bind hrun'
  have hreturns : body.run.run a₁ = (.ok _, a₂) := returns_of_onFault hguarded
  have hsame := hbelow a₁
  rw [hreturns] at hsame
  obtain ⟨new, hnew, -⟩ := hbody a₁ _ a₂ hreturns
  have hstack : a₂.stack.below = a.stack.frames := hsame.below.trans (by rw [hsilent.stack]; rfl)
  have hpopped := popScope_silently c a₂
  rw [hpop] at hpopped
  refine ⟨new, ?_, .inr fun n => ?_⟩
  · rw [hpopped.diagnostics, hnew, hsilent.diagnostics]
  · rw [hpopped.stack, ScopeM.stack_pop _ hstack, ScopeM.declared_mergeAll]
    simp

theorem inBranch (s : Stmt) (hbelow : KeepsBelow body) (hbody : Declaring ns body) :
    Declaring [] (Analysis.inBranch c s body) := by
  rw [Analysis.inBranch]
  split
  · exact pure ()
  · exact inScope (by decide) hbelow hbody

mutual

theorem eval : ∀ e : Expr, Declaring [] (Analysis.eval c e)
  | .missing => pure _
  | .string site value => evaluated site _
  | .number site value => evaluated site _
  | .boolean site value => evaluated site _
  | .null site => evaluated site _
  | .name site id => by
    rw [Analysis.eval]
    exact (readName id site.loc).bind fun t => evaluated site t
  | .attribute site value attr => by
    rw [Analysis.eval]
    refine (eval value).bind fun receiver => ?_
    exact (readAttribute receiver attr site.loc).bind fun t => evaluated site t
  | .assign site target value => by
    rw [Analysis.eval]
    refine (eval value).bind fun t => ?_
    exact (assign target t site.loc).bind fun _ => evaluated site t
  | .object site fields => by
    rw [Analysis.eval]
    refine (evalFields fields []).bind fun slots => ?_
    exact (ofTypeM _).bind fun i => evaluated site (.node i)
  | .unsupported site => throw _

theorem evalFields : ∀ (fields : List (Text × Expr)) (slots : List Slot),
    Declaring [] (Analysis.evalFields c fields slots)
  | [], slots => pure slots
  | (key, value) :: rest, slots => by
    rw [Analysis.evalFields]
    exact (eval value).bind fun t => evalFields rest _

end

theorem initialType (ascribed : Option Ty) (optional : Bool) (init : Expr) :
    Declaring [] (Analysis.initialType c ascribed optional init) := by
  unfold Analysis.initialType
  split
  · split
    · exact ofTypeM _
    · exact pure _
  · exact eval init

mutual

theorem exec : ∀ s : Stmt, Declaring s.binds (Analysis.exec c s)
  | .missing => pure ()
  | .expr value => by
    rw [Analysis.exec]
    exact (eval value).bind fun _ => pure ()
  | .assign loc target value => by
    rw [Analysis.exec]
    exact (eval value).bind fun t => assign target t loc
  | .declare name ascribed optional init => by
    rw [Analysis.exec]
    exact (initialType ascribed optional init).bind fun t => declare name t
  | .block body => by
    rw [Analysis.exec]
    exact inScope (by decide) (keepsBelow_execAll c body) (execAll body)
  | .branch cond consequent alternate => by
    rw [Analysis.exec]
    refine (eval cond).bind fun _ => ?_
    refine (inBranch _ (keepsBelow_exec c consequent) (exec consequent)).bind fun _ => ?_
    exact inBranch _ (keepsBelow_exec c alternate) (exec alternate)
  | .loop cond body => by
    rw [Analysis.exec]
    have hcond : Declaring [] (do let _ ← Analysis.eval c cond) :=
      (eval cond).bind fun _ => pure ()
    have hbelow : KeepsBelow (do let _ ← Analysis.eval c cond) :=
      (keepsBelow_eval c cond).bind fun _ => keepsBelow_pure ()
    refine (inScope (by decide) hbelow hcond).bind fun _ => ?_
    exact inScope (by decide) (keepsBelow_exec c body) (exec body)
  | .unsupported => throw _

theorem execAll : ∀ body : List Stmt, Declaring (Stmt.bindsAll body) (Analysis.execAll c body)
  | [] => pure ()
  | s :: rest => by
    rw [Analysis.execAll]
    exact (exec s).seq fun _ => execAll rest

end

end Declaring

theorem split_of_pushed {b : Analysis} {o : Options}
    (hsilent : Silent o { a with stack := a.stack.push kind } b) : b.Split o 0 a := by
  refine ⟨⟨?_, hsilent.store⟩, hsilent.diagnostics, hsilent.types⟩
  rw [hsilent.stack]
  exact .here (.new kind a.stack.top)

theorem returns_of_block (hc : c.Unmetered) (hrun : (exec c (.block ss)).Returns a () a') :
    ∃ a₁, (execAll c ss).Returns a () a₁ := by
  have hnormal : ScopeKind.normal ≠ .other := by decide
  obtain ⟨b, henter, hsilent⟩ := enterScope_returns c hnormal a
  rw [exec] at hrun
  have hrest := (ExceptT.run_bind_of_ok henter).symm.trans hrun
  obtain ⟨_, b₁, hguarded, -⟩ := ExceptT.Returns.exists_of_bind hrest
  obtain ⟨a₁, hreturns, -⟩ := (IgnoresSplits.execAll hc ss 0).exists_right
    (split_of_pushed hsilent) (returns_of_onFault hguarded)
  exact ⟨a₁, hreturns⟩

theorem block_returns (hc : c.Unmetered) (hrun : (execAll c ss).Returns a () a₁) :
    ∃ (f : Frame) (a₂ : Analysis), (exec c (.block ss)).Returns a () a₂ ∧
      f.Joins a.stack.top a₁.stack.top ∧ a₁.stack.below = a.stack.below ∧
      Silent c.options { a₁ with stack := a.stack.bindAll f.overrides } a₂ ∧
      ∃ new, a₁.diagnostics = a.diagnostics ++ new ∧
        ((∃ d ∈ new, d.finding.isUndeclaredWrite = true) ∨
          ∀ n, n ∈ f.declared ↔ n ∈ Stmt.bindsAll ss) := by
  -- The frame of the block upon the old top shows what the top frame holds in the other run.
  have hnormal : ScopeKind.normal ≠ .other := by decide
  obtain ⟨b, henter, hsilent⟩ := enterScope_returns c hnormal a
  obtain ⟨b₁, hbody, hends⟩ := (IgnoresSplits.execAll hc ss 0).exists_left
    (split_of_pushed hsilent) hrun
  have hstack : b.stack = a.stack.push .normal := hsilent.stack
  have hsame := keepsBelow_execAll c ss b
  rw [hbody, hstack] at hsame
  -- The frame of a block always runs, so its pop has no union to build and cannot fail.
  obtain ⟨a₂, hpop, hpopped⟩ := popScope_normal_returns c hsame.below hsame.kind
  obtain ⟨hjoins, hbelow⟩ := hends.scopes.stack.joins hsame.below
  obtain ⟨new, hnew, hdeclared⟩ := Declaring.execAll ss b () b₁ hbody
  refine ⟨b₁.stack.top, a₂, ?_, hjoins, hbelow, ?_, new, ?_, ?_⟩
  · rw [exec]
    exact henter.bind ((AnalysisM.returns_onFault _ hbody).bind hpop)
  · refine ⟨hpopped.stack, hpopped.store.trans hends.scopes.store, ?_, ?_⟩
    · exact hpopped.diagnostics.trans hends.diagnostics
    · exact hpopped.types.trans hends.types
  · rw [← hends.diagnostics, hnew, hsilent.diagnostics]
  · rw [hstack] at hdeclared
    exact hdeclared.imp_right fun h n => (h n).trans (or_iff_left (List.not_mem_nil))

/-- The run returns and reports no write to an undeclared name. -/
def Clean (m : AnalysisM Unit) (a : Analysis) : Prop :=
  ∃ a' new, m.Returns a () a' ∧ a'.diagnostics = a.diagnostics ++ new ∧
    ∀ d ∈ new, d.finding.isUndeclaredWrite = false

/-- A block with no declaration among its statements is transparent: if it, or its statements in the
current frame, return without a write to an undeclared name, then both return, and both leave the
same bindings and declarations in every frame, the same diagnostics and the same types. -/
theorem block_transparent (hc : c.Unmetered) (hlets : Stmt.bindsAll ss = [])
    (hclean : Clean (execAll c ss) a ∨ Clean (exec c (.block ss)) a) :
    ∃ a₁ a₂, (execAll c ss).Returns a () a₁ ∧ (exec c (.block ss)).Returns a () a₂ ∧
      List.Forall₂ Frame.Same a₁.stack.frames a₂.stack.frames ∧
      a₁.diagnostics = a₂.diagnostics ∧ a₁.store.SameTypes a₂.store ∧ a₁.types = a₂.types := by
  have hreturns : ∃ a₁, (execAll c ss).Returns a () a₁ := by
    rcases hclean with ⟨a₁, -, hrun, -⟩ | ⟨a₂, -, hrun, -⟩
    · exact ⟨a₁, hrun⟩
    · exact returns_of_block hc hrun
  obtain ⟨a₁, hrun⟩ := hreturns
  obtain ⟨f, a₂, hblock, hjoins, hbelow, hsilent, new, hnew, hdeclared⟩ := block_returns hc hrun
  -- Both runs report the same, so either hypothesis is about `new`.
  have hquiet : ∀ d ∈ new, d.finding.isUndeclaredWrite = false := by
    rcases hclean with ⟨a', new', hrun', hnew', hquiet⟩ | ⟨a', new', hrun', hnew', hquiet⟩
    · cases hrun.symm.trans hrun'
      exact List.append_cancel_left (hnew'.symm.trans hnew) ▸ hquiet
    · cases hblock.symm.trans hrun'
      have hsame := (hsilent.diagnostics.symm.trans hnew').symm.trans hnew
      exact List.append_cancel_left hsame ▸ hquiet
  have hnone (n : Text) : n ∉ f.declared := by
    rcases hdeclared with ⟨d, hd, hwrite⟩ | hdeclared
    · simp [hquiet d hd] at hwrite
    · rw [hdeclared, hlets]
      exact List.not_mem_nil
  refine ⟨a₁, a₂, hrun, hblock, ?_, hsilent.diagnostics.symm, hsilent.store.symm.types,
    hsilent.types.symm⟩
  rw [hsilent.stack, ScopeStack.frames, ScopeStack.frames, hbelow,
    (ScopeStack.SameBelow.bindAll a.stack _).below]
  refine .cons ⟨?_, fun n => ?_, fun n => ?_⟩ (List.forall₂_same.2 fun f _ => .refl f)
  · exact hjoins.kind.trans (ScopeStack.SameBelow.bindAll a.stack _).kind.symm
  · rw [ScopeStack.lookup_top_bindAll (Frame.nodup_overrides hjoins.once), Frame.lookup_overrides,
      if_neg (hnone n)]
    exact hjoins.lookup n
  · rw [ScopeStack.declared_bindAll, hjoins.declared, or_iff_right (hnone n)]

theorem block_transparent_branch :
    let c : Setting := { options := { metrics := true } }
    let a : Analysis := { stack := ScopeStack.initial.declare (text "x") (.simple .string) }
    let write index value : Stmt := .assign {} (text "x") (.boolean ⟨index, {}⟩ value)
    let ss : List Stmt := [write 0 true, .branch .missing (write 1 false) .missing]
    c.Unmetered ∧ Stmt.bindsAll ss = [] ∧ Clean (execAll c ss) a ∧
      ∃ a₁ a₂, (execAll c ss).Returns a () a₁ ∧ (exec c (.block ss)).Returns a () a₂ ∧
        List.Forall₂ Frame.Same a₁.stack.frames a₂.stack.frames ∧
        a₂.stack.lookup (text "x") = some (.simple .boolean) := by
  intro c a write ss
  have hc : c.Unmetered := fun _ => ⟨by simp [c], by simp [c]⟩
  have hclean : Clean (execAll c ss) a := ⟨_, [], rfl, rfl, by simp⟩
  obtain ⟨a₁, a₂, hrun, hblock, hframes, -⟩ := block_transparent hc rfl (.inl hclean)
  have hx : ((exec c (.block ss)).run.run a).2.stack.lookup (text "x") =
      some (.simple .boolean) := by decide +kernel
  rw [hblock] at hx
  exact ⟨hc, rfl, hclean, a₁, a₂, hrun, hblock, hframes, hx⟩

end Analysis

end FlowTyping
