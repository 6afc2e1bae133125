import FlowTyping.Shape

namespace FlowTyping

inductive TypeExpr
  | keyword (word : Text)
  | string (value : Text)
  | number (digits : Text)
  | bigint (digits : Text)
  | boolean (word : Text)
  | uniqueSymbol (word : Text)
  | braces (fields : List (Text × Bool × TypeExpr))
  /-- Parameters and results; the last result is the one that is shown. -/
  | signature (role : Role) (params : List (Text × Bool × TypeExpr)) (results : List TypeExpr)
  | reference (name : Text) (args : List TypeExpr)
  | intersection (parts : List TypeExpr)
  | union (parts : List TypeExpr)

namespace TypeExpr

def any : TypeExpr := .keyword (text "any")

def isSignature : TypeExpr → Bool
  | .signature _ _ _ => true
  | _ => false

def isUnion : TypeExpr → Bool
  | .union _ => true
  | _ => false

end TypeExpr

end FlowTyping
