import FlowTyping.Literals
import FlowTyping.Ty

namespace FlowTyping

structure Members where
  strings : Literals Text := .vacant
  numbers : Literals Number := .vacant
  bigints : Literals Text := .vacant
  symbols : Literals SymbolId := .vacant
  object : Bool := false
  void : Bool := false
  null : Bool := false
  undefined : Bool := false
  hasTrue : Bool := false
  hasFalse : Bool := false
  /-- The shapes, no two of which described the same type when they were added. -/
  shapes : List NodeId := []
  /-- The placeholders. Two of them may still turn out to be different types, so all are kept. -/
  unresolved : List NodeId := []
deriving DecidableEq

namespace Members

def flag (present : Bool) (s : Simple) : List Ty := if present then [.simple s] else []

def booleans : Bool → Bool → List Ty
  | true, true => [.simple .boolean]
  | true, false => [.boolean true]
  | false, true => [.boolean false]
  | false, false => []

def toList (u : Members) : List Ty :=
  u.strings.types (.simple .string) .string ++
  u.numbers.types (.simple .number) .number ++
  u.bigints.types (.simple .bigint) .bigint ++
  u.symbols.types (.simple .symbol) .symbol ++
  flag u.object .object ++ flag u.void .void ++ flag u.null .null ++ flag u.undefined .undefined ++
  booleans u.hasTrue u.hasFalse ++
  u.shapes.map .node ++
  u.unresolved.map .node

theorem node_mem_toList {u : Members} {i : NodeId} :
    .node i ∈ u.toList ↔ i ∈ u.shapes ∨ i ∈ u.unresolved := by
  have hflag (p : Bool) (s : Simple) : Ty.node i ∉ flag p s := by cases p <;> simp [flag]
  have hbool (p q : Bool) : Ty.node i ∉ booleans p q := by
    cases p <;> cases q <;> simp [booleans]
  have hlit {α : Type} (l : Literals α) (w : Simple) (f : α → Ty) (hf : ∀ v, f v ≠ .node i) :
      Ty.node i ∉ l.types (.simple w) f := by
    cases l <;> simp [Literals.types, hf]
  simp [toList, hflag, hbool, hlit]

end Members

end FlowTyping
