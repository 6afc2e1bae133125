import FlowTyping.Proofs.ExpressionTypes

namespace FlowTyping

variable {a : Analysis} {name : Text} {new : List Text} {sites : List Nat} {c : Analysis.Setting}
  {value : Expr}

def Stmt.indices (s : Stmt) : List Nat := s.sites.map (·.2.index)

def Stmt.indicesAll (body : List Stmt) : List Nat := (Stmt.sitesAll body).map (·.2.index)

namespace Analysis

namespace Covers

variable {m : AnalysisM Ty} {runs : Env → Value → Env → Log → Prop}

theorem seq {m' : AnalysisM Unit} {runs' : Env → Env → Log → Prop} {sites' : List Nat}
    (hm : Covers m a sites runs)
    (hm' : ∀ a₁, a.Step [] sites a₁ → Approximates m' a₁ new sites' runs') :
    Approximates (m >>= fun _ => m') a new (sites ++ sites') fun ρ ρ' log =>
      ∃ v ρ₁ log₁ log₂, runs ρ v ρ₁ log₁ ∧ runs' ρ₁ ρ' log₂ ∧ log = log₁ ++ log₂ := by
  obtain ⟨t, a₁, hrun₁, hstep₁, -, hsim₁⟩ := hm
  obtain ⟨a₂, hrun₂, hstep₂, hsim₂⟩ := hm' a₁ hstep₁
  refine ⟨a₂, hrun₁.bind hrun₂, by simpa using hstep₁.trans hstep₂, ?_⟩
  rintro ρ ρ' _ hmatch ⟨v, ρ₁, log₁, log₂, hruns₁, hruns₂, rfl⟩
  obtain ⟨hmatch₁, hlog₁, -⟩ := hsim₁ ρ v ρ₁ log₁ hmatch hruns₁
  obtain ⟨hmatch₂, hlog₂⟩ := hsim₂ ρ₁ ρ' log₂ hmatch₁ hruns₂
  exact ⟨hmatch₂, (hlog₁.mono hstep₂).append hlog₂⟩

theorem store {k : Ty → AnalysisM Unit} {R : Value → Env → Env → Prop}
    (hm : Covers m a sites runs)
    (hk : ∀ t a₁, a₁.Sound → a₁.names = a.names → a₁.store.graph.Has t →
      ∃ a', (k t).Returns a₁ () a' ∧ a₁.Step new [] a' ∧
        ∀ ρ v ρ', a₁.Matches ρ → a₁.store.graph.Describes t v → R v ρ ρ' → a'.Matches ρ') :
    Approximates (m >>= k) a new sites fun ρ ρ' log => ∃ v ρ₁, runs ρ v ρ₁ log ∧ R v ρ₁ ρ' := by
  obtain ⟨t, a₁, hrun, hstep, hhas, hsim⟩ := hm
  obtain ⟨a', hrun', hstep', hsim'⟩ := hk t a₁ hstep.scopes.sound hstep.scopes.names_eq hhas
  refine ⟨a', hrun.bind hrun', by simpa using hstep.trans hstep', ?_⟩
  rintro ρ ρ' log hmatch ⟨v, ρ₁, hruns, hnext⟩
  obtain ⟨hmatch₁, hlog, hv⟩ := hsim ρ v ρ₁ log hmatch hruns
  exact ⟨hsim' ρ₁ v ρ' hmatch₁ hv hnext, hlog.mono hstep'⟩

theorem discard (hm : Covers m a sites runs) :
    Approximates (m >>= fun _ => Pure.pure ()) a [] sites fun ρ ρ' log => ∃ v, runs ρ v ρ' log := by
  refine (hm.store (R := fun _ ρ ρ' => ρ' = ρ) fun t a₁ ha _ _ =>
    ⟨a₁, .pure () a₁, .refl ha, ?_⟩).imp ?_
  · rintro ρ v _ hmatch - rfl
    exact hmatch
  · rintro ρ ρ' log ⟨v, hruns⟩
    exact ⟨v, ρ', hruns, rfl⟩

end Covers

def ApproximatesStmt (c : Setting) (a : Analysis) (s : Stmt) : Prop :=
  Approximates (exec c s) a s.binds s.indices fun ρ => Executes ρ s

theorem initialType_none (optional : Bool) (init : Expr) :
    initialType c none optional init = eval c init := by
  cases init <;> rfl

theorem assign_approximates (hvalue : CoversExpr c a value) (loc : Location)
    (hname : name ∈ a.names) : ApproximatesStmt c a (.assign loc name value) := by
  rw [ApproximatesStmt, exec]
  refine (hvalue.store (R := fun v ρ ρ' => Env.write name v ρ = some ρ')
    fun t a₁ ha hnames ht => ?_).imp ?_
  · rw [← hnames] at hname
    exact ⟨_, assign_returns hname loc, step_bind ha hname ht,
      fun ρ v ρ' hmatch hv hwrite => hmatch.write hv hwrite⟩
  · intro ρ ρ' log hruns
    cases hruns with
    | assign hvalue hwrite => exact ⟨_, _, hvalue, hwrite⟩

theorem declare_approximates (hvalue : CoversExpr c a value) (optional : Bool)
    (hname : name ∉ a.names) : ApproximatesStmt c a (.declare name none optional value) := by
  rw [ApproximatesStmt, exec, initialType_none]
  refine (hvalue.store (R := fun v ρ ρ' => ρ' = Env.declare name v ρ)
    fun t a₁ ha hnames ht => ?_).imp ?_
  · rw [← hnames] at hname
    refine ⟨_, AnalysisM.returns_ofScopeM (.modify _ _), step_declare ha hname ht, ?_⟩
    rintro ρ v _ hmatch hv rfl
    exact hmatch.declare hname hv
  · intro ρ ρ' log hruns
    cases hruns with
    | declare hvalue => exact ⟨_, _, hvalue, rfl⟩

theorem inBranch_approximates {s : Stmt} (hc : c.Builtin) (ha : a.Sound)
    (hs : ∀ a₁, a₁.Sound → a₁.names = a.names → ApproximatesStmt c a₁ s) :
    Approximates (inBranch c s (exec c s)) a [] s.indices fun ρ ρ' log =>
      (∃ scope, Executes ([] :: ρ) s (scope :: ρ') log) ∨ ρ' = ρ ∧ log = [] := by
  rw [inBranch]
  split
  · rename_i hmissing
    cases s <;> cases hmissing
    refine (Approximates.pure ha).imp ?_
    rintro ρ ρ' log (⟨scope, hruns⟩ | hskip)
    · cases hruns
      exact ⟨rfl, rfl⟩
    · exact hskip
  · refine (inScope_approximates .indeterminate hc (by simp) ha hs).imp ?_
    rintro ρ ρ' log (hruns | hskip)
    · exact .inl hruns
    · exact .inr ⟨.inl rfl, hskip⟩

theorem branch_approximates {cond : Expr} {consequent alternate : Stmt} (hc : c.Builtin)
    (hcond : CoversExpr c a cond)
    (hconsequent : ∀ a₁, a₁.Sound → a₁.names = a.names → ApproximatesStmt c a₁ consequent)
    (halternate : ∀ a₁, a₁.Sound → a₁.names = a.names → ApproximatesStmt c a₁ alternate) :
    ApproximatesStmt c a (.branch cond consequent alternate) := by
  have hindices : (Stmt.branch cond consequent alternate).indices =
      cond.indices ++ (consequent.indices ++ alternate.indices) := by
    simp [Stmt.indices, Expr.indices, Stmt.sites]
  rw [ApproximatesStmt, exec, hindices]
  refine (hcond.seq fun a₁ h₁ => (inBranch_approximates hc h₁.scopes.sound
    fun a₂ ha₂ hnames => hconsequent a₂ ha₂ (hnames.trans h₁.scopes.names_eq)).seq fun a₂ h₂ =>
      inBranch_approximates hc h₂.scopes.sound fun a₃ ha₃ hnames => halternate a₃ ha₃ ?_).imp ?_
  · exact hnames.trans (h₂.scopes.names_eq.trans h₁.scopes.names_eq)
  · intro ρ ρ' log hruns
    cases hruns with
    | consequent hcond hruns =>
      exact ⟨_, _, _, _, hcond, ⟨_, _, [], .inl ⟨_, hruns⟩, .inr ⟨rfl, rfl⟩, by simp⟩, rfl⟩
    | alternate hcond hruns =>
      exact ⟨_, _, _, _, hcond, ⟨_, [], _, .inr ⟨rfl, rfl⟩, .inl ⟨_, hruns⟩, rfl⟩, rfl⟩

theorem loop_approximates {cond : Expr} {body : Stmt} (hc : c.Builtin) (ha : a.Sound)
    (hcond : ∀ a₁, a₁.Sound → a₁.names = a.names → CoversExpr c a₁ cond)
    (hbody : ∀ a₁, a₁.Sound → a₁.names = a.names → ApproximatesStmt c a₁ body) :
    ApproximatesStmt c a (.loop cond body) := by
  have hindices : (Stmt.loop cond body).indices = cond.indices ++ body.indices := by
    simp [Stmt.indices, Expr.indices, Stmt.sites]
  rw [ApproximatesStmt, exec, hindices]
  have htest := inScope_approximates .indeterminate hc (by simp) ha
    fun a₁ ha₁ hnames => (hcond a₁ ha₁ hnames).discard
  refine (htest.seq fun a₁ h₁ => inScope_approximates .loop hc (by simp)
    h₁.scopes.sound fun a₂ ha₂ hnames => hbody a₂ ha₂ (hnames.trans h₁.scopes.names_eq)).imp ?_
  intro ρ ρ' log hruns
  -- The test is analysed in a frame of its own, which its run does not have.
  cases hruns with
  | skipped hcond =>
    exact ⟨_, _, [], .inl ⟨[], _, hcond.nil_cons⟩, .inr ⟨.inr rfl, rfl, rfl⟩, by simp⟩
  | once hcond hruns =>
    exact ⟨_, _, _, .inl ⟨[], _, hcond.nil_cons⟩, .inl ⟨_, hruns⟩, rfl⟩

mutual

theorem exec_approximates (hc : c.Builtin) (s : Stmt) {a : Analysis} (ha : a.Sound)
    (hs : s.inOrder a.names = true) (hlets : s.lets.Nodup) (hfresh : ∀ n ∈ s.lets, n ∉ a.names) :
    ApproximatesStmt c a s := by
  match s with
  | .missing =>
    rw [ApproximatesStmt, exec]
    refine (Approximates.pure ha).imp fun ρ ρ' log hruns => ?_
    cases hruns
    exact ⟨rfl, rfl⟩
  | .expr value =>
    rw [Stmt.inOrder] at hs
    rw [ApproximatesStmt, exec]
    refine (eval_covers hc value ha hs).discard.imp fun ρ ρ' log hruns => ?_
    cases hruns with
    | expr hvalue => exact ⟨_, hvalue⟩
  | .assign loc name value =>
    rw [Stmt.inOrder, Bool.and_eq_true, List.contains_iff_mem] at hs
    exact assign_approximates (eval_covers hc value ha hs.2) loc hs.1
  | .declare name ascribed optional init =>
    rw [Stmt.inOrder, Bool.and_eq_true, Option.isNone_iff_eq_none] at hs
    obtain ⟨rfl, hinit⟩ := hs
    have hname : name ∉ a.names := hfresh name (by simp [Stmt.lets])
    exact declare_approximates (eval_covers hc init ha hinit) optional hname
  | .block body =>
    rw [Stmt.inOrder] at hs
    rw [Stmt.lets] at hlets hfresh
    rw [ApproximatesStmt, exec]
    refine (inScope_approximates .normal hc (by simp) ha fun a₁ ha₁ hnames =>
      execAll_approximates hc body ha₁ (hnames ▸ hs) hlets (hnames ▸ hfresh)).imp ?_
    intro ρ ρ' log hruns
    cases hruns with
    | block hbody => exact .inl ⟨_, hbody⟩
  | .branch cond consequent alternate =>
    rw [Stmt.inOrder, Bool.and_eq_true, Bool.and_eq_true] at hs
    rw [Stmt.lets] at hlets hfresh
    refine branch_approximates hc (eval_covers hc cond ha hs.1.1) ?_ ?_
    · intro a₁ ha₁ hnames
      exact exec_approximates hc consequent ha₁ (hnames ▸ hs.1.2) hlets.of_append_left
        fun n hn => hnames ▸ hfresh n (List.mem_append_left _ hn)
    · intro a₁ ha₁ hnames
      exact exec_approximates hc alternate ha₁ (hnames ▸ hs.2) hlets.of_append_right
        fun n hn => hnames ▸ hfresh n (List.mem_append_right _ hn)
  | .loop cond body =>
    rw [Stmt.inOrder, Bool.and_eq_true] at hs
    rw [Stmt.lets] at hlets hfresh
    refine loop_approximates hc ha ?_ ?_
    · intro a₁ ha₁ hnames
      exact eval_covers hc cond ha₁ (hnames ▸ hs.1)
    · intro a₁ ha₁ hnames
      exact exec_approximates hc body ha₁ (hnames ▸ hs.2) hlets (hnames ▸ hfresh)
  | .unsupported => cases hs

theorem execAll_approximates (hc : c.Builtin) (body : List Stmt) {a : Analysis} (ha : a.Sound)
    (hbody : Stmt.inOrderAll a.names body = true) (hlets : (Stmt.letsAll body).Nodup)
    (hfresh : ∀ n ∈ Stmt.letsAll body, n ∉ a.names) :
    Approximates (execAll c body) a (Stmt.bindsAll body) (Stmt.indicesAll body)
      fun ρ => ExecutesAll ρ body := by
  match body with
  | [] =>
    rw [execAll]
    refine (Approximates.pure ha).imp fun ρ ρ' log hruns => ?_
    cases hruns
    exact ⟨rfl, rfl⟩
  | s :: rest =>
    rw [Stmt.inOrderAll, Bool.and_eq_true] at hbody
    rw [Stmt.letsAll] at hlets hfresh
    have hs := exec_approximates hc s ha hbody.1 hlets.of_append_left
      fun n hn => hfresh n (List.mem_append_left _ hn)
    have hindices : Stmt.indicesAll (s :: rest) = s.indices ++ Stmt.indicesAll rest := by
      simp [Stmt.indices, Stmt.indicesAll, Stmt.sitesAll]
    rw [execAll, hindices]
    have hrest : ∀ n ∈ Stmt.letsAll rest, n ∉ s.binds ++ a.names := by
      intro n hn
      rw [List.mem_append, not_or]
      refine ⟨fun hbind => ?_, hfresh n (List.mem_append_right _ hn)⟩
      exact List.disjoint_of_nodup_append hlets (s.binds_subset_lets hbind) hn
    refine (hs.seq fun a₁ h₁ => execAll_approximates hc rest h₁.scopes.sound
      (h₁.scopes.names_eq ▸ hbody.2) hlets.of_append_right (h₁.scopes.names_eq ▸ hrest)).imp ?_
    intro ρ ρ' log hruns
    cases hruns with
    | cons hs hrest => exact ⟨_, _, _, hs, hrest, rfl⟩

end

theorem sound_initial : Scopes.Sound ({} : Analysis).toScopes :=
  ⟨.empty, .new _ _ _, trivial⟩

theorem matches_initial : Matches {} [[]] := by
  refine ⟨.cons (fun n => by simp [ScopeStack.initial]) .nil, fun n v hn => ?_⟩
  cases hn

/-- The analysis over-approximates every run of a program in which no name is declared twice and all
names are in scope: it ends without a fault, it evaluates every expression once, and its types
describe the values that the names and the expressions have in the run. -/
theorem execAll_covers_runs {body : List Stmt} (hproperty : c.resolvers.property? = none)
    (hlimit : 0 < c.resolvers.limit) (hlets : (Stmt.letsAll body).Nodup)
    (hbody : Stmt.inOrderAll [] body = true) :
    ∃ a, (execAll c body).Returns {} () a ∧
      (a.types.map Prod.fst).Perm ((Stmt.sitesAll body).map (·.2.index)) ∧
      ∀ ρ log, ExecutesAll [[]] body ρ log →
        (∀ n v, ρ.read n = some v →
          ∃ t, a.stack.lookup n = some t ∧ a.store.graph.Describes t v) ∧
        ∀ i v, (i, v) ∈ log → ∃ t, (i, t) ∈ a.types ∧ a.store.graph.Describes t v := by
  obtain ⟨a, hrun, hstep, hsim⟩ :=
    execAll_approximates ⟨hproperty, hlimit⟩ body sound_initial hbody hlets
      fun _ _ => List.not_mem_nil
  refine ⟨a, hrun, ?_, fun ρ log hruns => ?_⟩
  · obtain ⟨ts, hts, hperm⟩ := hstep.types
    rw [hts, List.append_nil]
    exact hperm
  · obtain ⟨hmatch, hlog⟩ := hsim [[]] ρ log matches_initial hruns
    exact ⟨hmatch.knows, fun i v hp => hlog (i, v) hp⟩

def walk : List Stmt :=
  let length (i j : Nat) : Expr := .attribute ⟨i, {}⟩ (.name ⟨j, {}⟩ (text "name")) (text "length")
  let tag (i j : Nat) : Expr := .attribute ⟨i, {}⟩ (.name ⟨j, {}⟩ (text "box")) (text "tag")
  [.declare (text "name") none false (.string ⟨0, {}⟩ (text "né")),
    .declare (text "box") none false
      (.object ⟨1, {}⟩ [(text "size", length 2 3), (text "tag", .null ⟨4, {}⟩)]),
    .branch (tag 5 6)
      (.block [.declare (text "inner") none false (length 7 8),
        .assign {} (text "box") (.object ⟨9, {}⟩ [(text "tag", .name ⟨10, {}⟩ (text "inner"))])])
      (.assign {} (text "name") (.null ⟨11, {}⟩)),
    .loop (.name ⟨12, {}⟩ (text "name")) (.assign {} (text "name") (tag 13 14))]

theorem walk_executes : ∃ ρ log, ExecutesAll [[]] walk ρ log ∧
    ρ.read (text "name") = some (.number (.ofNat 2)) := by
  exact ⟨_, _, .cons (.declare .string) (.cons
    (.declare (.object (.cons (.property (.name rfl) (.length rfl)) (.cons .null .nil)))) (.cons
      (.consequent (.property (.name rfl) (.field rfl)) (.block (.cons
        (.declare (.property (.name rfl) (.length rfl))) (.cons
          (.assign (.object (.cons (.name rfl) .nil)) rfl) .nil)))) (.cons
            (.once (.name rfl) (.assign (.property (.name rfl) (.field rfl)) rfl)) .nil))), rfl⟩

theorem walk_covers_runs : (Stmt.letsAll walk).Nodup ∧ Stmt.inOrderAll [] walk = true ∧
    ∃ a ρ log, (execAll {} walk).Returns {} () a ∧ ExecutesAll [[]] walk ρ log ∧
      ρ.read (text "name") = some (.number (.ofNat 2)) ∧
      ∃ t, a.stack.lookup (text "name") = some t ∧
        a.store.graph.Describes t (.number (.ofNat 2)) := by
  have hlets : (Stmt.letsAll walk).Nodup := by decide
  have hbody : Stmt.inOrderAll [] walk = true := by decide
  obtain ⟨a, hrun, -, hcovers⟩ := execAll_covers_runs (c := {}) rfl (by decide) hlets hbody
  obtain ⟨ρ, log, hruns, hname⟩ := walk_executes
  exact ⟨hlets, hbody, a, ρ, log, hrun, hruns, hname, (hcovers ρ log hruns).1 _ _ hname⟩

end Analysis

end FlowTyping
