import FlowTyping.Program
import FlowTyping.Property
import FlowTyping.Scope

namespace FlowTyping

inductive Finding
  | undeclaredWrite (name : Text)
  | undeclaredRead (name : Text)
  | nullishRead (attr : Text)
deriving DecidableEq

def Finding.message : Finding → Text
  | .undeclaredWrite name => text "assignment to undeclared name: " ++ name
  | .undeclaredRead name => text "read of undeclared name: " ++ name
  | .nullishRead attr =>
    text "property '" ++ attr ++ text "' read on a value that is always null or undefined"

structure Diagnostic where
  finding : Finding
  loc : Location
deriving DecidableEq

inductive ScopeEvent
  | pushed (kind : ScopeKind) (depth : Nat)
  | popped (kind : ScopeKind) (depth merged : Nat)
  | discarded (kind : ScopeKind) (depth : Nat)
deriving DecidableEq

def ScopeEvent.line : ScopeEvent → Text
  | .pushed kind depth => text "push " ++ text kind.name ++ text " depth=" ++ Text.ofNat depth
  | .popped kind depth merged =>
    text "pop " ++ text kind.name ++ text " depth=" ++ Text.ofNat depth ++ text " merged=" ++
      Text.ofNat merged
  | .discarded kind depth => text "discard " ++ text kind.name ++ text " depth=" ++ Text.ofNat depth

structure Analysis.Options where
  trace : Bool := false
  metrics : Bool := false
  nullishReads : Bool := true

structure Analysis.Setting where
  options : Analysis.Options := {}
  resolvers : Resolvers := {}

structure Analysis extends Scopes where
  diagnostics : List Diagnostic := []
  trace : List ScopeEvent := []
  types : List (Nat × Ty) := []

abbrev AnalysisM := ExceptT Fault (StateM Analysis)

namespace AnalysisM

def ofScopeM {α : Type} (m : ScopeM α) : AnalysisM α := fun s =>
  let (a, scopes) := m s.toScopes
  (a, { s with toScopes := scopes })

def ofTypeM {α : Type} (m : TypeM α) : AnalysisM α := ofScopeM (.ofTypeM m)

def stack : AnalysisM ScopeStack := return (← get).stack

def onFault {α : Type} (m : AnalysisM α) (cleanup : AnalysisM Unit) : AnalysisM α :=
  tryCatch m fun f => do
    cleanup
    throw f

end AnalysisM

namespace Analysis

open AnalysisM (ofScopeM ofTypeM stack onFault)

def count (o : Options) (key : Text) (n : Nat) : AnalysisM Unit :=
  if o.metrics then
    modify fun s =>
      { s with store := { s.store with metrics := s.store.metrics.count key (UInt64.ofNat n) } }
  else return ()

def record (o : Options) (event : ScopeEvent) : AnalysisM Unit :=
  if o.trace then modify fun s => { s with trace := s.trace ++ [event] } else return ()

def report (o : Options) (finding : Finding) (loc : Location) : AnalysisM Unit := do
  modify fun s => { s with diagnostics := s.diagnostics ++ [⟨finding, loc⟩] }
  count o Metrics.diagnostics 1

def pushScope (c : Setting) (kind : ScopeKind) : AnalysisM Unit := do
  ofScopeM (.modifyStack (·.push kind))
  count c.options Metrics.scopesPushed 1
  record c.options (.pushed kind (← stack).depth)

def popScope (c : Setting) : AnalysisM Unit := do
  let kind := (← stack).top.kind
  let merged ← ofScopeM (ScopeM.pop c.resolvers)
  count c.options Metrics.mergedBindings merged
  record c.options (.popped kind (← stack).depth merged)

def discardScope (c : Setting) : AnalysisM Unit := do
  let kind := (← stack).top.kind
  ofScopeM ScopeM.discard
  record c.options (.discarded kind (← stack).depth)

/-- Opens a scope of a given kind. A scope of no particular kind has no frame of its own. -/
def enterScope (c : Setting) : ScopeKind → AnalysisM Unit
  | .other => return ()
  | kind => pushScope c kind

/-- Runs `body` in a scope of its own. After a fault the scope is discarded, so that nothing half
done is merged. -/
def inScope (c : Setting) (kind : ScopeKind) (body : AnalysisM Unit) : AnalysisM Unit := do
  enterScope c kind
  onFault body (discardScope c)
  popScope c

/-- Gives a name a type. A name that is not declared is reported, and then declared here. -/
def assign (c : Setting) (name : Text) (t : Ty) (loc : Location) : AnalysisM Unit := do
  match (← stack).assign? name t with
  | some s => ofScopeM (.modifyStack fun _ => s)
  | none =>
    report c.options (.undeclaredWrite name) loc
    ofScopeM (.modifyStack (·.declare name t))

def isNullishWord : Ty → Bool
  | .simple .null | .simple .undefined | .simple .void => true
  | _ => false

def isNullish (g : Graph) (t : Ty) : Bool :=
  match t with
  | .node i =>
    match g.shape i with
    | .union u => u.toList.all isNullishWord
    | _ => false
  | t => isNullishWord t

def setSlot (key : PropertyKey) (t : Ty) : List Slot → List Slot
  | [] => [⟨key, t, false⟩]
  | s :: rest => if s.key = key then { s with type := t } :: rest else s :: setSlot key t rest

def readName (c : Setting) (name : Text) (loc : Location) : AnalysisM Ty := do
  match (← stack).lookup name with
  | some t => return t
  | none =>
    if name = text "undefined" then return .undefined
    else
      report c.options (.undeclaredRead name) loc
      return .unknown

def readAttribute (c : Setting) (receiver : Ty) (attr : Text) (loc : Location) : AnalysisM Ty := do
  let g ← ofTypeM TypeM.graph
  if c.options.nullishReads && isNullish g receiver then
    report c.options (.nullishRead attr) loc
  ofTypeM (c.resolvers.property receiver (.named attr))

def evaluated (site : Site) (t : Ty) : AnalysisM Ty := do
  modify fun s => { s with types := (site.index, t) :: s.types }
  return t

mutual

def eval (c : Setting) : Expr → AnalysisM Ty
  | .missing => return .undefined
  | .string site value => evaluated site (.string value)
  | .number site value => evaluated site (.number value)
  | .boolean site value => evaluated site (.boolean value)
  | .null site => evaluated site (.simple .null)
  | .name site id => do evaluated site (← readName c id site.loc)
  | .attribute site value attr => do
    let receiver ← eval c value
    evaluated site (← readAttribute c receiver attr site.loc)
  | .assign site target value => do
    let t ← eval c value
    assign c target t site.loc
    evaluated site t
  | .object site fields => do
    let slots ← evalFields c fields []
    evaluated site (.node (← ofTypeM (TypeM.alloc (.record slots))))
  | .unsupported _ => throw .unsupportedForm

def evalFields (c : Setting) : List (Text × Expr) → List Slot → AnalysisM (List Slot)
  | [], slots => return slots
  | (key, value) :: rest, slots => do
    let t ← eval c value
    evalFields c rest (setSlot (.named key) t slots)

end

def initialType (c : Setting) (ascribed : Option Ty) (optional : Bool) : Expr → AnalysisM Ty
  | .missing =>
    match ascribed with
    | some t => ofTypeM (c.resolvers.widen optional t)
    | none => return .undefined
  | init => eval c init

def inBranch (c : Setting) (s : Stmt) (body : AnalysisM Unit) : AnalysisM Unit :=
  if s.isMissing then return () else inScope c .indeterminate body

mutual

def exec (c : Setting) : Stmt → AnalysisM Unit
  | .missing => return ()
  | .expr value => do let _ ← eval c value
  | .assign loc target value => do assign c target (← eval c value) loc
  | .declare name ascribed optional init => do
    let t ← initialType c ascribed optional init
    ofScopeM (.modifyStack (·.declare name t))
  | .block body => inScope c .normal (execAll c body)
  | .branch cond consequent alternate => do
    let _ ← eval c cond
    inBranch c consequent (exec c consequent)
    inBranch c alternate (exec c alternate)
  | .loop cond body => do
    inScope c .indeterminate (do let _ ← eval c cond)
    inScope c .loop (exec c body)
  | .unsupported => throw .unsupportedForm

def execAll (c : Setting) : List Stmt → AnalysisM Unit
  | [] => return ()
  | s :: rest => do
    exec c s
    execAll c rest

end

end Analysis

end FlowTyping
