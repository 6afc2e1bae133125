import FlowTyping.TypeExpr.Render
import FlowTyping.Graph
import FlowTyping.Number.Print

/-!
The annotation of a type. A node met again while it is still being written is shown as `any`, so
that cyclic types have finite annotations; a node that is merely shared is written each time.
-/

namespace FlowTyping

abbrev WriteM := StateM (List NodeId)

namespace TypeExpr

def guarded (i : NodeId) (write : WriteM TypeExpr) : WriteM TypeExpr := do
  if i ∈ (← get) then return .any
  modify (i :: ·)
  let a ← write
  modify (·.erase i)
  return a

def ofSimple : Simple → TypeExpr
  | .error => .any
  | s => .keyword (text s.name)

def fields (write : Ty → WriteM TypeExpr) (slots : List Slot) :
    WriteM (List (Text × Bool × TypeExpr)) :=
  slots.mapM fun s => return (s.key.toText, s.optional, ← write s.type)

def params (write : Ty → WriteM TypeExpr) (ps : List Param) :
    WriteM (List (Text × Bool × TypeExpr)) :=
  ps.mapM fun p => return (p.name, p.optional, ← write p.type)

def genericName (g : Graph) : Option NodeId → Text
  | some i =>
    match g.shape i with
    | .generic name _ _ => name
    | _ => text "?"
  | none => text "?"

def ofShape (g : Graph) (write : Ty → WriteM TypeExpr) : Shape → WriteM TypeExpr
  | .record slots => return .braces (← fields write slots)
  | .callable role ps returns => return .signature role (← params write ps) [← write returns]
  | .interface name _ => return .reference name []
  | .intersection members => return .intersection (← members.mapM write)
  | .nameSpace name _ => return .reference (text "typeof " ++ name) []
  | .generic name _ _ => return .reference name []
  | .intrinsic name => return .reference name []
  | .instantiation origin args => return .reference (genericName g origin) (← args.mapM write)
  | .unresolved name => return .reference name []
  | .union _ => return .any

end TypeExpr

namespace Graph

/-- The annotation of a type, to a given depth. Unions are not guarded: every cycle through one also
passes through another shape. -/
def describeTo (g : Graph) : Nat → Ty → WriteM TypeExpr
  | 0, _ => return .any
  | fuel + 1, t =>
    match t with
    | .simple s => return .ofSimple s
    | .string value => return .string value
    | .number value => return .number value.print
    | .bigint digits => return .bigint digits
    | .symbol _ => return .uniqueSymbol (text "unique symbol")
    | .boolean value => return .boolean (text (if value then "true" else "false"))
    | .node i =>
      match g.shape i with
      | .union u => return .union (← u.toList.mapM (g.describeTo fuel))
      | s => TypeExpr.guarded i (TypeExpr.ofShape g (g.describeTo fuel) s)

/-- On a path that opens no node twice at most every second type is a union. -/
def describeDepth (g : Graph) : Nat := 2 * g.size + 4

def describe (g : Graph) (t : Ty) : TypeExpr :=
  (Id.run ((g.describeTo g.describeDepth t).run [])).1

def describeUnion (g : Graph) (u : Members) : TypeExpr :=
  .union (Id.run ((u.toList.mapM (g.describeTo g.describeDepth)).run [])).1

def print (g : Graph) (t : Ty) : Text := (g.describe t).render

end Graph

end FlowTyping
