namespace FlowTyping

structure LiteralList (α : Type) where
  values : List α
  nodup : values.Nodup
  nonempty : values ≠ []
deriving DecidableEq

namespace LiteralList

variable {α : Type}

def singleton (v : α) : LiteralList α := ⟨[v], by simp, by simp⟩

def insert [DecidableEq α] (v : α) (l : LiteralList α) : LiteralList α :=
  if h : v ∈ l.values then l
  else ⟨l.values ++ [v],
    by simpa [List.nodup_append, l.nodup] using fun a ha => ne_of_mem_of_not_mem ha h, by simp⟩

end LiteralList

inductive Literals (α : Type)
  | vacant
  | listed (literals : LiteralList α)
  | every
deriving DecidableEq

namespace Literals

variable {α : Type}

def values : Literals α → List α
  | .listed l => l.values
  | _ => []

def isVacant : Literals α → Bool
  | .vacant => true
  | _ => false

def isEvery : Literals α → Bool
  | .every => true
  | _ => false

/-- Records a literal. One that is there already, or any once the whole kind is in, changes
nothing. -/
def insert [DecidableEq α] (v : α) : Literals α → Literals α
  | .vacant => .listed (.singleton v)
  | .listed l => .listed (l.insert v)
  | .every => .every

def same [DecidableEq α] : Literals α → Literals α → Bool
  | .vacant, .vacant => true
  | .listed l, .listed m => l.values.all (· ∈ m.values) && m.values.all (· ∈ l.values)
  | .every, .every => true
  | _, _ => false

def types {β : Type} (whole : β) (literal : α → β) : Literals α → List β
  | .vacant => []
  | .listed l => l.values.map literal
  | .every => [whole]

end Literals

end FlowTyping
