import FlowTyping.Ty

namespace FlowTyping

structure Location where
  file : Text := []
  line : Int := 0
  column : Int := 0
deriving DecidableEq

inductive Form
  | module
  | exprStmt
  | assignStmt
  | letStmt
  | blockStmt
  | ifStmt
  | whileStmt
  | stringLiteral
  | numberLiteral
  | boolLiteral
  | nullLiteral
  | name
  | attribute
  | namedExpr
  | objectLiteral
  | unsupported
deriving DecidableEq, Repr

namespace Form

def all : List Form :=
  [.module, .exprStmt, .assignStmt, .letStmt, .blockStmt, .ifStmt, .whileStmt, .stringLiteral,
    .numberLiteral, .boolLiteral, .nullLiteral, .name, .attribute, .namedExpr, .objectLiteral]

def label : Form → String
  | .module => "Module"
  | .exprStmt => "ExprStmt"
  | .assignStmt => "AssignStmt"
  | .letStmt => "LetStmt"
  | .blockStmt => "BlockStmt"
  | .ifStmt => "IfStmt"
  | .whileStmt => "WhileStmt"
  | .stringLiteral => "StringLiteral"
  | .numberLiteral => "NumberLiteral"
  | .boolLiteral => "BoolLiteral"
  | .nullLiteral => "NullLiteral"
  | .name => "Name"
  | .attribute => "Attribute"
  | .namedExpr => "NamedExpr"
  | .objectLiteral => "ObjectLiteral"
  | .unsupported => "?"

def ofIndex (n : Nat) : Form := all[n]?.getD .unsupported

end Form

structure Site where
  index : Nat
  loc : Location := {}
deriving DecidableEq

inductive Expr
  /-- A child that is not there. It reads as `undefined`. -/
  | missing
  | string (site : Site) (value : Text)
  | number (site : Site) (value : Number)
  | boolean (site : Site) (value : Bool)
  | null (site : Site)
  | name (site : Site) (id : Text)
  | attribute (site : Site) (value : Expr) (attr : Text)
  /-- `(target = value)` used as a value. -/
  | assign (site : Site) (target : Text) (value : Expr)
  /-- An object in braces; a later field with the same key wins. -/
  | object (site : Site) (fields : List (Text × Expr))
  | unsupported (site : Site)

inductive Stmt
  | missing
  | expr (value : Expr)
  | assign (loc : Location) (target : Text) (value : Expr)
  | declare (name : Text) (ascribed : Option Ty) (optional : Bool) (init : Expr)
  | block (body : List Stmt)
  | branch (cond : Expr) (consequent alternate : Stmt)
  | loop (cond : Expr) (body : Stmt)
  | unsupported

def Stmt.isMissing : Stmt → Bool
  | .missing => true
  | _ => false

mutual

def Expr.sites : Expr → List (Form × Site)
  | .missing => []
  | .string s _ => [(.stringLiteral, s)]
  | .number s _ => [(.numberLiteral, s)]
  | .boolean s _ => [(.boolLiteral, s)]
  | .null s => [(.nullLiteral, s)]
  | .name s _ => [(.name, s)]
  | .attribute s value _ => (.attribute, s) :: value.sites
  | .assign s _ value => (.namedExpr, s) :: value.sites
  | .object s fields => (.objectLiteral, s) :: Expr.sitesAll fields
  | .unsupported s => [(.unsupported, s)]

def Expr.sitesAll : List (Text × Expr) → List (Form × Site)
  | [] => []
  | (_, e) :: rest => e.sites ++ Expr.sitesAll rest

end

mutual

def Stmt.sites : Stmt → List (Form × Site)
  | .missing => []
  | .expr value => value.sites
  | .assign _ _ value => value.sites
  | .declare _ _ _ init => init.sites
  | .block body => Stmt.sitesAll body
  | .branch cond consequent alternate => cond.sites ++ consequent.sites ++ alternate.sites
  | .loop cond body => cond.sites ++ body.sites
  | .unsupported => []

def Stmt.sitesAll : List Stmt → List (Form × Site)
  | [] => []
  | s :: rest => s.sites ++ Stmt.sitesAll rest

end

end FlowTyping
