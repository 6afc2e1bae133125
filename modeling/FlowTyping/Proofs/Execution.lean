import FlowTyping.Program
import FlowTyping.Proofs.ScopeLaws

/-!
Running programs on values. A run is a derivation: a branch is chosen freely, and a loop evaluates
its test and then runs its body once or not at all. A run that has to read a property of `null` or
`undefined` has no derivation.
-/

namespace FlowTyping

/-- The scopes of a run, innermost first. Each has the values of the names declared in it, newest
first. -/
abbrev Env := List (List (Text × Value))

namespace Env

def read (ρ : Env) (n : Text) : Option Value := ρ.findSome? (·.lookup n)

def declare (n : Text) (v : Value) : Env → Env
  | [] => []
  | scope :: ρ => ((n, v) :: scope) :: ρ

def write (n : Text) (v : Value) : Env → Option Env
  | [] => none
  | scope :: ρ =>
    if (scope.lookup n).isSome then some (((n, v) :: scope) :: ρ)
    else (write n v ρ).map (scope :: ·)

variable {ρ ρ' : Env} {n name : Text} {v : Value}

theorem write_nil_cons : write name v ([] :: ρ) = (write name v ρ).map ([] :: ·) := rfl

theorem read_cons {scope : List (Text × Value)} :
    read (scope :: ρ) n = (scope.lookup n).or (ρ.read n) := by
  simp only [read, List.findSome?_cons]
  cases scope.lookup n <;> rfl

theorem read_declare {scope : List (Text × Value)} :
    read (declare name v (scope :: ρ)) n = if n = name then some v else read (scope :: ρ) n := by
  rw [declare, read_cons, read_cons, Text.lookup_cons]
  split <;> rfl

theorem read_write (hw : write name v ρ = some ρ') :
    ρ'.read n = if n = name then some v else ρ.read n := by
  induction ρ generalizing ρ' with
  | nil => cases hw
  | cons scope ρ ih =>
    rw [write] at hw
    split at hw
    · cases hw
      exact read_declare
    · rename_i hnone
      obtain ⟨ρ₁, hρ₁, rfl⟩ := Option.map_eq_some_iff.1 hw
      rw [read_cons, read_cons, ih hρ₁]
      by_cases hn : n = name
      · subst hn
        simp only [Option.not_isSome_iff_eq_none] at hnone
        simp [hnone]
      · rw [if_neg hn, if_neg hn]

end Env

abbrev Log := List (Nat × Value)

mutual

inductive Evaluates : Env → Expr → Value → Env → Log → Prop
  | missing {ρ} : Evaluates ρ .missing .undefined ρ []
  | string {ρ site x} : Evaluates ρ (.string site x) (.string x) ρ [(site.index, .string x)]
  | number {ρ site x} : Evaluates ρ (.number site x) (.number x) ρ [(site.index, .number x)]
  | boolean {ρ site b} : Evaluates ρ (.boolean site b) (.boolean b) ρ [(site.index, .boolean b)]
  | null {ρ site} : Evaluates ρ (.null site) .null ρ [(site.index, .null)]
  | name {ρ : Env} {site id v} : ρ.read id = some v →
      Evaluates ρ (.name site id) v ρ [(site.index, v)]
  | undefined {ρ : Env} {site} : ρ.read (text "undefined") = none →
      Evaluates ρ (.name site (text "undefined")) .undefined ρ [(site.index, .undefined)]
  | property {ρ site value attr v w ρ' log} : Evaluates ρ value v ρ' log → v.Reads attr w →
      Evaluates ρ (.attribute site value attr) w ρ' ((site.index, w) :: log)
  | assign {ρ site target value v ρ₁ ρ' log} : Evaluates ρ value v ρ₁ log →
      Env.write target v ρ₁ = some ρ' →
      Evaluates ρ (.assign site target value) v ρ' ((site.index, v) :: log)
  | object {ρ site fields out ρ' log} : EvaluatesFields ρ fields [] out ρ' log →
      Evaluates ρ (.object site fields) (.object out) ρ' ((site.index, .object out) :: log)

inductive EvaluatesFields :
    Env → List (Text × Expr) → List (Text × Value) → List (Text × Value) → Env → Log → Prop
  | nil {ρ out} : EvaluatesFields ρ [] out out ρ []
  | cons {ρ key value rest done v ρ₁ log₁ out ρ' log} : Evaluates ρ value v ρ₁ log₁ →
      EvaluatesFields ρ₁ rest ((key, v) :: done) out ρ' log →
      EvaluatesFields ρ ((key, value) :: rest) done out ρ' (log₁ ++ log)

end

mutual

theorem Evaluates.nil_cons {ρ ρ' : Env} {e : Expr} {v : Value} {log : Log}
    (h : Evaluates ρ e v ρ' log) : Evaluates ([] :: ρ) e v ([] :: ρ') log := by
  cases h with
  | missing => exact .missing
  | string => exact .string
  | number => exact .number
  | boolean => exact .boolean
  | null => exact .null
  | name hread => exact .name hread
  | undefined hread => exact .undefined hread
  | property hvalue hreads => exact .property hvalue.nil_cons hreads
  | assign hvalue hwrite =>
    refine .assign hvalue.nil_cons ?_
    rw [Env.write_nil_cons, hwrite]
    rfl
  | object hfields => exact .object hfields.nil_cons

theorem EvaluatesFields.nil_cons {ρ ρ' : Env} {fields : List (Text × Expr)}
    {done out : List (Text × Value)} {log : Log} (h : EvaluatesFields ρ fields done out ρ' log) :
    EvaluatesFields ([] :: ρ) fields done out ([] :: ρ') log := by
  cases h with
  | nil => exact .nil
  | cons hvalue hrest => exact .cons hvalue.nil_cons hrest.nil_cons

end

mutual

/-- Runs a statement. A block, a branch and the body of a loop have a scope of their own, which is
gone afterwards. -/
inductive Executes : Env → Stmt → Env → Log → Prop
  | missing {ρ} : Executes ρ .missing ρ []
  | expr {ρ value v ρ' log} : Evaluates ρ value v ρ' log → Executes ρ (.expr value) ρ' log
  | assign {ρ loc target value v ρ₁ ρ' log} : Evaluates ρ value v ρ₁ log →
      Env.write target v ρ₁ = some ρ' → Executes ρ (.assign loc target value) ρ' log
  | declare {ρ name ascribed optional init v ρ' log} : Evaluates ρ init v ρ' log →
      Executes ρ (.declare name ascribed optional init) (Env.declare name v ρ') log
  | block {ρ body scope ρ' log} : ExecutesAll ([] :: ρ) body (scope :: ρ') log →
      Executes ρ (.block body) ρ' log
  | consequent {ρ cond consequent alternate v ρ₁ log₁ scope ρ' log} :
      Evaluates ρ cond v ρ₁ log₁ → Executes ([] :: ρ₁) consequent (scope :: ρ') log →
      Executes ρ (.branch cond consequent alternate) ρ' (log₁ ++ log)
  | alternate {ρ cond consequent alternate v ρ₁ log₁ scope ρ' log} :
      Evaluates ρ cond v ρ₁ log₁ → Executes ([] :: ρ₁) alternate (scope :: ρ') log →
      Executes ρ (.branch cond consequent alternate) ρ' (log₁ ++ log)
  | skipped {ρ cond body v ρ' log} : Evaluates ρ cond v ρ' log →
      Executes ρ (.loop cond body) ρ' log
  | once {ρ cond body v ρ₁ log₁ scope ρ' log} : Evaluates ρ cond v ρ₁ log₁ →
      Executes ([] :: ρ₁) body (scope :: ρ') log → Executes ρ (.loop cond body) ρ' (log₁ ++ log)

inductive ExecutesAll : Env → List Stmt → Env → Log → Prop
  | nil {ρ} : ExecutesAll ρ [] ρ []
  | cons {ρ s rest ρ₁ log₁ ρ' log} : Executes ρ s ρ₁ log₁ → ExecutesAll ρ₁ rest ρ' log →
      ExecutesAll ρ (s :: rest) ρ' (log₁ ++ log)

end

mutual

/-- Whether every name that is read or assigned is in scope, apart from reads of `undefined`. An
expression of no known form is never in order. -/
def Expr.inOrder (names : List Text) : Expr → Bool
  | .name _ id => id == text "undefined" || names.contains id
  | .attribute _ value _ => value.inOrder names
  | .assign _ target value => names.contains target && value.inOrder names
  | .object _ fields => Expr.inOrderAll names fields
  | .unsupported _ => false
  | _ => true

def Expr.inOrderAll (names : List Text) : List (Text × Expr) → Bool
  | [] => true
  | (_, value) :: rest => value.inOrder names && Expr.inOrderAll names rest

end

def Stmt.binds : Stmt → List Text
  | .declare name _ _ _ => [name]
  | _ => []

def Stmt.bindsAll : List Stmt → List Text
  | [] => []
  | s :: rest => Stmt.bindsAll rest ++ s.binds

mutual

def Stmt.lets : Stmt → List Text
  | .declare name _ _ _ => [name]
  | .block body => Stmt.letsAll body
  | .branch _ consequent alternate => consequent.lets ++ alternate.lets
  | .loop _ body => body.lets
  | _ => []

def Stmt.letsAll : List Stmt → List Text
  | [] => []
  | s :: rest => s.lets ++ Stmt.letsAll rest

end

theorem Stmt.binds_subset_lets (s : Stmt) : s.binds ⊆ s.lets := by
  cases s <;> simp [binds, lets]

mutual

/-- Whether every name that is read or assigned is in scope where it stands, no declaration has an
annotation, and there is no statement of no known form. -/
def Stmt.inOrder (names : List Text) : Stmt → Bool
  | .missing => true
  | .expr value => value.inOrder names
  | .assign _ target value => names.contains target && value.inOrder names
  | .declare _ ascribed _ init => ascribed.isNone && init.inOrder names
  | .block body => Stmt.inOrderAll names body
  | .branch cond consequent alternate =>
    cond.inOrder names && consequent.inOrder names && alternate.inOrder names
  | .loop cond body => cond.inOrder names && body.inOrder names
  | .unsupported => false

def Stmt.inOrderAll (names : List Text) : List Stmt → Bool
  | [] => true
  | s :: rest => s.inOrder names && Stmt.inOrderAll (s.binds ++ names) rest

end

end FlowTyping
