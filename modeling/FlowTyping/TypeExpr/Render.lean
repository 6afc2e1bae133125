import FlowTyping.TypeExpr

namespace FlowTyping.TypeExpr

def escape (c : UInt8) : Text :=
  if c = 0x22 then text "\\\""
  else if c = 0x5c then text "\\\\"
  else if c = 0x0a then text "\\n"
  else if c = 0x09 then text "\\t"
  else [c]

def quote (t : Text) : Text := text "\"" ++ t.flatMap escape ++ text "\""

def parenthesize (needed : Bool) (t : Text) : Text :=
  if needed then text "(" ++ t ++ text ")" else t

def fieldMark (optional : Bool) : Text := text (if optional then "?: " else ": ")

mutual

def render : TypeExpr → Text
  | .keyword word => word
  | .string value => quote value
  | .number digits => digits
  | .bigint digits => digits ++ text "n"
  | .boolean word => word
  | .uniqueSymbol word => word
  | .braces [] => text "\x7b\x7d"
  | .braces fields => text "\x7b " ++ Text.join (text "; ") (renderFields fields) ++ text " \x7d"
  | .signature role params results =>
    text (match role with
      | .call => "("
      | .construct => "new (") ++
    Text.join (text ", ") (renderFields params) ++ text ") => " ++ renderResult results
  | .reference name [] => name
  | .reference name args => name ++ text "<" ++ Text.join (text ", ") (renderAll args) ++ text ">"
  | .intersection parts => Text.join (text " & ") (renderFactors parts)
  | .union [] => text "never"
  | .union parts => Text.join (text " | ") (renderSummands parts)

def renderFields : List (Text × Bool × TypeExpr) → List Text
  | [] => []
  | (name, optional, a) :: rest => (name ++ fieldMark optional ++ render a) :: renderFields rest

def renderResult : List TypeExpr → Text
  | [] => text "void"
  | [a] => render a
  | _ :: rest => renderResult rest

def renderAll : List TypeExpr → List Text
  | [] => []
  | a :: rest => render a :: renderAll rest

def renderFactors : List TypeExpr → List Text
  | [] => []
  | a :: rest => parenthesize (a.isSignature || a.isUnion) (render a) :: renderFactors rest

def renderSummands : List TypeExpr → List Text
  | [] => []
  | a :: rest => parenthesize a.isSignature (render a) :: renderSummands rest

end

end FlowTyping.TypeExpr
