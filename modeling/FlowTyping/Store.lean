import FlowTyping.Fault
import FlowTyping.Graph
import FlowTyping.Metrics

/-!
The store that operations on types work in: the graph so far, the next unique symbol and the
metrics. An operation may end in a fault; what it did to the store before that stays done.
-/

namespace FlowTyping

structure Store where
  graph : Graph := {}
  nextSymbol : SymbolId := 1
  metrics : Metrics := {}

abbrev TypeM := ExceptT Fault (StateM Store)

namespace TypeM

def graph : TypeM Graph := return (← get).graph

def alloc (s : Shape) : TypeM NodeId := do
  let i := (← graph).size
  modify fun st => { st with graph := st.graph.push s }
  return i

def fill (i : NodeId) (s : Shape) : TypeM Unit :=
  modify fun st => { st with graph := st.graph.replace i s }

def count (key : Text) : TypeM Unit :=
  modify fun st => { st with metrics := st.metrics.count key 1 }

def newSymbol : TypeM SymbolId := do
  let id := (← get).nextSymbol
  modify fun st => { st with nextSymbol := st.nextSymbol + 1 }
  return id

def ofExcept {α : Type} : Except Fault α → TypeM α
  | .ok a => pure a
  | .error f => throw f

@[simp] theorem liftM_self {α : Type} (x : TypeM α) : (liftM x : TypeM α) = x := rfl

end TypeM

def Ty.ofKind : Kind → Except Fault Ty
  | .simple s => .ok (.simple s)
  | k => .error (.payloadKind k)

end FlowTyping
