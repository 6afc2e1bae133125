import FlowTyping.Proofs.FoldAlgebra

namespace FlowTyping

variable {g h : Graph} {t : Ty} {u : Members} {f f' : Fold} {st st' : Store}

/-- The graph may have changed in any way but for the kinds of its nodes. -/
structure Graph.KindsStay (g h : Graph) : Prop where
  size_le : g.size ≤ h.size
  kind_eq : ∀ i < g.size, h.kind (.node i) = g.kind (.node i)

namespace Graph.KindsStay

variable {k : Graph}

theorem refl (g : Graph) : g.KindsStay g := ⟨Nat.le_refl _, fun _ _ => rfl⟩

theorem trans (hgh : g.KindsStay h) (hhk : h.KindsStay k) : g.KindsStay k where
  size_le := hgh.size_le.trans hhk.size_le
  kind_eq i hi := (hhk.kind_eq i (hi.trans_le hgh.size_le)).trans (hgh.kind_eq i hi)

theorem has (hgh : g.KindsStay h) (ht : g.Has t) : h.Has t := by
  cases t with
  | node i => exact Nat.lt_of_lt_of_le ht hgh.size_le
  | _ => trivial

theorem sorted (hgh : g.KindsStay h) (hu : u.Sorted g) (hhas : ∀ x ∈ u.toList, g.Has x) :
    u.Sorted h :=
  hu.of_kind_eq fun i hi => hgh.kind_eq i (hhas _ hi)

theorem push (g : Graph) (s : Shape) : g.KindsStay (g.push s) := by
  refine ⟨by simp, fun i hi => ?_⟩
  simp only [kind, shape_push_of_lt s hi]

end Graph.KindsStay

def Graph.Proper (g : Graph) : Prop :=
  ∀ i u, g.shape i = .union u → u.Sorted g ∧ ∀ x ∈ u.toList, g.Has x

theorem Graph.Proper.push (hg : g.Proper) (hu : u.Sorted g) (hhas : ∀ x ∈ u.toList, g.Has x) :
    (g.push (.union u)).Proper := by
  have hkinds : g.KindsStay (g.push (.union u)) := .push g _
  intro i v hi
  have hlt : i < (g.push (.union u)).size := Graph.lt_size_of_shape hi (by simp)
  rw [Graph.size_push] at hlt
  rcases Nat.lt_succ_iff_lt_or_eq.1 hlt with hlt | rfl
  · rw [Graph.shape_push_of_lt _ hlt] at hi
    obtain ⟨hsorted, hhas⟩ := hg i v hi
    exact ⟨hkinds.sorted hsorted hhas, fun x hx => hkinds.has (hhas x hx)⟩
  · rw [Graph.shape_push_size] at hi
    cases hi
    exact ⟨hkinds.sorted hu hhas, fun x hx => hkinds.has (hhas x hx)⟩

/-- A resolver may do what it likes with the store, also before it fails, as long as nodes keep
their kinds and unions are made by adding. -/
def Careful (unwrap : NodeId → TypeM Ty) : Prop :=
  ∀ i (st : Store), st.graph.Proper → st.graph.kind (.node i) = .instantiation →
    st.graph.KindsStay ((unwrap i).run.run st).2.graph ∧ ((unwrap i).run.run st).2.graph.Proper ∧
      ∀ t, ((unwrap i).run.run st).1 = .ok t → ((unwrap i).run.run st).2.graph.Has t

structure Fold.Proper (g : Graph) (f : Fold) : Prop where
  reached : f.Reached g
  has : ∀ j, .node j ∈ f.members.toList → g.Has (.node j)

namespace Fold.Proper

theorem has_of_mem (hf : f.Proper g) (ht : t ∈ f.members.toList) : g.Has t := by
  cases t with
  | node j => exact hf.has j ht
  | _ => trivial

theorem never (g : Graph) : Fold.Proper g .never :=
  ⟨reached_never g, by simp [members, Members.node_mem_toList]⟩

theorem mono (hgh : g.KindsStay h) (hf : f.Proper g) : f.Proper h := by
  refine ⟨fun u hu => ?_, fun j hj => hgh.has (hf.has j hj)⟩
  obtain ⟨hsorted, hne⟩ := hf.reached u hu
  subst hu
  exact ⟨hgh.sorted hsorted fun x hx => hf.has_of_mem hx, hne⟩

theorem foldlM {xs : List Ty} (hf : f.Proper g) (hhas : ∀ x ∈ xs, g.Has x)
    (hxs : ∀ x ∈ xs, g.kind x ≠ .union ∧ g.kind x ≠ .instantiation) :
    ∃ f', xs.foldlM (absorbMember g) f = .ok f' ∧ f'.Proper g := by
  induction xs generalizing f with
  | nil => exact ⟨f, rfl, hf⟩
  | cons x xs ih =>
    obtain ⟨hunion, hopen⟩ := hxs x (by simp)
    obtain ⟨f₁, hf₁, hnodes⟩ := absorbMember_ok (f := f) hunion hopen
    have hproper : f₁.Proper g := by
      refine ⟨hf.reached.absorbMember hunion hopen hf₁, fun j hj => ?_⟩
      rcases hnodes j hj with hj | rfl
      · exact hf.has j hj
      · exact hhas _ (by simp)
    rw [List.foldlM_cons, hf₁]
    exact ih hproper (fun y hy => hhas y (by simp [hy])) fun y hy => hxs y (by simp [hy])

end Fold.Proper

inductive Builder.State
  | never
  | compound
  | error
  | any
  | unknown
deriving DecidableEq

structure Builder where
  state : Builder.State := .never
  held : Option Members := none
deriving DecidableEq

/-- A computation on a builder and the store. Both stay as they are left when it ends in a fault. -/
abbrev BuilderM := ExceptT Fault (StateM (Builder × Store))

namespace Builder

variable {b b' : Builder} {unwrap : NodeId → TypeM Ty} {n : Nat}

def isTerminal (b : Builder) : Bool := b.state = .error || b.state = .any || b.state = .unknown

def ofTypeM {α : Type} (m : TypeM α) : BuilderM α := fun s =>
  let (a, store) := m s.2
  (a, (s.1, store))

def current : BuilderM Builder := return (← get).1

def set (b : Builder) : BuilderM Unit := modify fun s => (b, s.2)

def start : BuilderM Unit :=
  modify fun s => if s.1.state = .never then (⟨.compound, some {}⟩, s.2) else s

def addMember (g : Graph) (t : Ty) : BuilderM Unit := do
  start
  let b ← current
  match b.held with
  | none => throw .missingNode
  | some u =>
    match u.add g t with
    | .ok u => set { b with held := some u }
    | .error e => throw e

def addPart (g : Graph) (t : Ty) : BuilderM Unit :=
  match g.kind t with
  | .simple .error | .generic | .intrinsic | .nameSpace => set ⟨.error, none⟩
  | .simple .any => set ⟨.any, none⟩
  | .simple .unknown => set ⟨.unknown, none⟩
  | .simple .never => return
  | _ => addMember g t

/-- Sends a type where it belongs, with `again` for the calls this takes: one for each member of a
union, and one for what an instantiation opens to. -/
def dispatch (unwrap : NodeId → TypeM Ty) (again : Ty → BuilderM Unit) (g : Graph) (t : Ty) :
    BuilderM Unit :=
  match t with
  | .node i =>
    match g.shape i with
    | .union u => u.toList.forM again
    | .instantiation _ _ => do again (← ofTypeM (unwrap i))
    | _ => addPart g t
  | _ => addPart g t

def add (unwrap : NodeId → TypeM Ty) : Nat → Ty → BuilderM Unit
  | 0, _ => throw .unendingInstance
  | depth + 1, t => do
    if (← current).isTerminal then return
    dispatch unwrap (add unwrap depth) (← ofTypeM TypeM.graph) t

def build : BuilderM Ty := do
  let b ← current
  set { b with state := .never }
  match b.state with
  | .never => return .never
  | .error => return .error
  | .any => return .any
  | .unknown => return .unknown
  | .compound =>
    match b.held with
    | none => throw .missingNode
    | some u =>
      set {}
      match u.toList with
      | [t] => return t
      | _ => return .node (← ofTypeM (TypeM.alloc (.union u)))

def ofFold : Fold → Builder
  | .never => {}
  | .compound u => ⟨.compound, some u⟩
  | .error => ⟨.error, none⟩
  | .any => ⟨.any, none⟩
  | .unknown => ⟨.unknown, none⟩

@[simp] theorem isTerminal_ofFold (f : Fold) : (ofFold f).isTerminal = f.isTerminal := by
  cases f <;> rfl

theorem run_add_of_isTerminal (hb : b.isTerminal = true) :
    (add unwrap (n + 1) t).run.run (b, st) = (.ok (), (b, st)) := by
  have hcurrent : current.run.run (b, st) = (.ok b, (b, st)) := rfl
  rw [add, ExceptT.run_bind_of_ok hcurrent, if_pos hb]
  rfl

theorem run_add (hb : b.isTerminal = false) :
    (add unwrap (n + 1) t).run.run (b, st) =
      (dispatch unwrap (add unwrap n) st.graph t).run.run (b, st) := by
  have hcurrent : current.run.run (b, st) = (.ok b, (b, st)) := rfl
  rw [add, ExceptT.run_bind_of_ok hcurrent, if_neg (by simp [hb])]
  rfl

theorem dispatch_part {again : Ty → BuilderM Unit} (hunion : g.kind t ≠ .union)
    (hopen : g.kind t ≠ .instantiation) : dispatch unwrap again g t = addPart g t := by
  cases t with
  | node i =>
    simp only [Graph.kind] at hunion hopen
    cases hi : g.shape i <;> simp_all [dispatch, Shape.kind]
  | _ => rfl

theorem run_start (hf : f.isTerminal = false) :
    start.run.run (ofFold f, st) = (.ok (), (ofFold (.compound f.members), st)) := by
  cases f with
  | never | compound => rfl
  | _ => cases hf

theorem run_addMember (hf : f.isTerminal = false) (hu : f.members.add g t = .ok u) :
    (addMember g t).run.run (ofFold f, st) = (.ok (), (ofFold (.compound u), st)) := by
  rw [addMember, ExceptT.run_bind_of_ok (run_start hf)]
  have hcurrent (b : Builder) : current.run.run (b, st) = (.ok b, (b, st)) := rfl
  rw [ExceptT.run_bind_of_ok (hcurrent _)]
  simp only [ofFold, hu]
  rfl

theorem run_addPart (hf : f.isTerminal = false) (hunion : g.kind t ≠ .union)
    (hopen : g.kind t ≠ .instantiation) (hf' : f.absorbMember g t = .ok f') :
    (addPart g t).run.run (ofFold f, st) = (.ok (), (ofFold f', st)) := by
  rcases Fold.part_cases hunion hopen with rfl | ⟨k, hk⟩ | ⟨hmember, -⟩
  · rw [Fold.absorbMember_never] at hf'
    cases hf'
    rfl
  · rw [Fold.absorbMember_of_escalation hf hk] at hf'
    cases hf'
    rw [Fold.escalation] at hk
    rw [addPart]
    split at hk <;> cases hk <;> simp only [*] <;> rfl
  · obtain ⟨u, hu⟩ := Members.exists_add f.members hmember
    rw [Fold.absorbMember_of_isMember hf hmember, hu] at hf'
    cases hf'
    rw [← run_addMember hf hu, addPart]
    split <;> simp_all [Kind.isMember, Kind.isValueShape]

theorem run_add_part (hunion : st.graph.kind t ≠ .union) (hopen : st.graph.kind t ≠ .instantiation)
    (hf' : f.absorbMember st.graph t = .ok f') :
    (add unwrap (n + 1) t).run.run (ofFold f, st) = (.ok (), (ofFold f', st)) := by
  cases hf : f.isTerminal with
  | true =>
    rw [Fold.absorbMember_of_isTerminal hf] at hf'
    cases hf'
    exact run_add_of_isTerminal (by rw [isTerminal_ofFold, hf])
  | false =>
    rw [run_add (by rw [isTerminal_ofFold, hf]), dispatch_part hunion hopen]
    exact run_addPart hf hunion hopen hf'

theorem run_forM_add {xs : List Ty}
    (hxs : ∀ x ∈ xs, st.graph.kind x ≠ .union ∧ st.graph.kind x ≠ .instantiation)
    (hf' : xs.foldlM (Fold.absorbMember st.graph) f = .ok f') :
    (xs.forM (add unwrap (n + 1))).run.run (ofFold f, st) = (.ok (), (ofFold f', st)) := by
  induction xs generalizing f with
  | nil =>
    cases hf'
    rfl
  | cons x xs ih =>
    obtain ⟨hunion, hopen⟩ := hxs x (by simp)
    obtain ⟨f₁, hf₁, -⟩ := Fold.absorbMember_ok (f := f) hunion hopen
    rw [List.foldlM_cons, hf₁] at hf'
    refine (ExceptT.run_bind_of_ok (run_add_part hunion hopen hf₁)).trans ?_
    exact ih (fun y hy => hxs y (by simp [hy])) hf'

theorem run_forM_zero (xs : List Ty) (b : Builder) (st : Store) :
    (xs.forM (add unwrap 0)).run.run (b, st) = (.ok (), (b, st)) ∨
      (xs.forM (add unwrap 0)).run.run (b, st) = (.error .unendingInstance, (b, st)) := by
  -- Without depth left not even the first member is added, so no union is half added.
  cases xs with
  | nil => exact .inl rfl
  | cons x xs => exact .inr rfl

/-- How a call of `add` ends: with a fold that may have moved on, or in a fault and with the fold it
was called with. Such a fault is the resolver's, or the calls went too deep. -/
inductive Outcome (unwrap : NodeId → TypeM Ty) (f : Fold) (st : Store) :
    Except Fault Unit × Builder × Store → Prop
  | returned {f' : Fold} {st' : Store} (hf' : f'.Proper st'.graph) (hst : st'.graph.Proper)
      (hkinds : st.graph.KindsStay st'.graph) (hterm : f.isTerminal = true → f' = f ∧ st' = st) :
      Outcome unwrap f st (.ok (), ofFold f', st')
  | failed {e : Fault} {st' : Store} (hst : st'.graph.Proper)
      (hkinds : st.graph.KindsStay st'.graph)
      (he : e = .unendingInstance ∨ ∃ i s s', (unwrap i).run.run s = (.error e, s')) :
      Outcome unwrap f st (.error e, ofFold f, st')

theorem call_cases (g : Graph) (t : Ty) :
    (∃ i u, t = .node i ∧ g.shape i = .union u) ∨
      (∃ i, t = .node i ∧ g.kind (.node i) = .instantiation) ∨
        g.kind t ≠ .union ∧ g.kind t ≠ .instantiation := by
  cases t with
  | node i =>
    by_cases hunion : g.kind (.node i) = .union
    · obtain ⟨u, hi⟩ := Shape.exists_union_of_kind hunion
      exact .inl ⟨i, u, rfl, hi⟩
    · by_cases hopen : g.kind (.node i) = .instantiation
      · exact .inr (.inl ⟨i, rfl, hopen⟩)
      · exact .inr (.inr ⟨hunion, hopen⟩)
  | _ => simp [Graph.kind]

theorem run_add_union (hb : b.isTerminal = false) {i : NodeId} (hi : st.graph.shape i = .union u) :
    (add unwrap (n + 1) (.node i)).run.run (b, st) =
      (u.toList.forM (add unwrap n)).run.run (b, st) := by
  rw [run_add hb]
  simp only [dispatch, hi]

theorem run_add_instantiation (hb : b.isTerminal = false) {i : NodeId}
    (hi : st.graph.kind (.node i) = .instantiation) :
    (add unwrap (n + 1) (.node i)).run.run (b, st) =
      (ofTypeM (unwrap i) >>= add unwrap n).run.run (b, st) := by
  obtain ⟨origin, args, hi⟩ := Shape.exists_instantiation_of_kind hi
  rw [run_add hb]
  simp only [dispatch, hi]

theorem run_ofTypeM {α : Type} {m : TypeM α} {x : Except Fault α} (hm : m.run.run st = (x, st')) :
    (ofTypeM m).run.run (b, st) = (x, (b, st')) := by
  have hm' : m st = (x, st') := hm
  simp only [ofTypeM, ExceptT.run, StateT.run, hm']

theorem union_outcome (hf : f.Proper st.graph) (hst : st.graph.Proper)
    (hterm : f.isTerminal = false) {i : NodeId} (hi : st.graph.shape i = .union u) :
    Outcome unwrap f st ((u.toList.forM (add unwrap n)).run.run (ofFold f, st)) := by
  obtain ⟨hsorted, hhas⟩ := hst i u hi
  have hflat : ∀ x ∈ u.toList, st.graph.kind x ≠ .union ∧ st.graph.kind x ≠ .instantiation :=
    fun x hx => Kind.ne_of_isMember (hsorted.isMember hx)
  cases n with
  | zero =>
    rcases run_forM_zero u.toList (ofFold f) st with hrun | hrun
    · rw [hrun]
      exact .returned hf hst (.refl _) fun _ => ⟨rfl, rfl⟩
    · rw [hrun]
      exact .failed hst (.refl _) (.inl rfl)
  | succ n =>
    obtain ⟨f', hfold, hf'⟩ := hf.foldlM hhas hflat
    rw [run_forM_add hflat hfold]
    exact .returned hf' hst (.refl _) (by simp [hterm])

theorem add_outcome (hunwrap : Careful unwrap) (hf : f.Proper st.graph) (hst : st.graph.Proper)
    (ht : st.graph.Has t) : Outcome unwrap f st ((add unwrap n t).run.run (ofFold f, st)) := by
  induction n generalizing t st with
  | zero => exact .failed hst (.refl _) (.inl rfl)
  | succ n ih =>
    cases hterm : f.isTerminal with
    | true =>
      rw [run_add_of_isTerminal (by rw [isTerminal_ofFold, hterm])]
      exact .returned hf hst (.refl _) fun _ => ⟨rfl, rfl⟩
    | false =>
      have hb : (ofFold f).isTerminal = false := by rw [isTerminal_ofFold, hterm]
      rcases call_cases st.graph t with ⟨i, u, rfl, hi⟩ | ⟨i, rfl, hi⟩ | ⟨hunion, hopen⟩
      · rw [run_add_union hb hi]
        exact union_outcome hf hst hterm hi
      · rw [run_add_instantiation hb hi]
        obtain ⟨hkinds, hst₁, hhas⟩ := hunwrap i st hst hi
        match hrun : (unwrap i).run.run st with
        | (.error e, st₁) =>
          rw [hrun] at hkinds hst₁
          rw [ExceptT.run_bind_of_error (run_ofTypeM hrun)]
          exact .failed hst₁ hkinds (.inr ⟨i, st, st₁, hrun⟩)
        | (.ok t', st₁) =>
          rw [hrun] at hkinds hst₁ hhas
          rw [ExceptT.run_bind_of_ok (run_ofTypeM hrun)]
          generalize hout : (add unwrap n t').run.run (ofFold f, st₁) = out
          cases hout ▸ ih (hf.mono hkinds) hst₁ (hhas t' rfl) with
          | returned hf' hst' hkinds' =>
            exact .returned hf' hst' (hkinds.trans hkinds') (by simp [hterm])
          | failed hst' hkinds' he => exact .failed hst' (hkinds.trans hkinds') he
      · have hhas : ∀ x ∈ [t], st.graph.Has x := by simpa using ht
        obtain ⟨f', hfold, hf'⟩ := hf.foldlM hhas (by simp [hunion, hopen])
        rw [run_add_part hunion hopen (by simpa using hfold)]
        exact .returned hf' hst (.refl _) (by simp [hterm])

theorem run_fold_add_instantiation {i : NodeId} (hf : f.isTerminal = false)
    (hi : st.graph.kind (.node i) = .instantiation) :
    (Fold.add unwrap (n + 1) f (.node i)).run.run st =
      (unwrap i >>= Fold.add unwrap n f).run.run st := by
  have hadd (m : Nat) (t : Ty) : Fold.add unwrap m f t = (do
      let t ← Fold.settle unwrap m t
      TypeM.ofExcept (f.absorb (← TypeM.graph) t)) := by
    rw [Fold.add, if_neg (by simp [hf])]
    rfl
  have hsettle : (Fold.settle unwrap (n + 1) (.node i)).run.run st =
      (unwrap i >>= Fold.settle unwrap n).run.run st :=
    Fold.run_settle_instantiation hi
  rcases hrun : (unwrap i).run.run st with ⟨e | t, st₁⟩
  · rw [ExceptT.run_bind_of_error hrun] at hsettle ⊢
    rw [hadd, ExceptT.run_bind_of_error hsettle]
  · rw [ExceptT.run_bind_of_ok hrun] at hsettle ⊢
    rw [hadd, hadd]
    simp only [ExceptT.run_bind, StateT.run_bind, hsettle]

def outcomeOf (f : Fold) : Except Fault Fold × Store → Except Fault Unit × Builder × Store
  | (.ok f', st) => (.ok (), ofFold f', st)
  | (.error e, st) => (.error e, ofFold f, st)

theorem run_add_ofFold (hunwrap : Careful unwrap) (hf : f.Proper st.graph) (hst : st.graph.Proper)
    (hends : ((Fold.add unwrap n f t).run.run st).1 ≠ .error .unendingInstance) :
    (add unwrap (n + 1) t).run.run (ofFold f, st) =
      outcomeOf f ((Fold.add unwrap n f t).run.run st) := by
  cases hterm : f.isTerminal with
  | true =>
    rw [run_add_of_isTerminal (by rw [isTerminal_ofFold, hterm]), Fold.add, if_pos hterm]
    rfl
  | false =>
    have hb : (ofFold f).isTerminal = false := by rw [isTerminal_ofFold, hterm]
    induction n generalizing t st with
    | zero =>
      rw [Fold.add, if_neg (by simp [hterm])] at hends
      exact absurd rfl hends
    | succ n ih =>
      rcases call_cases st.graph t with ⟨i, u, rfl, hi⟩ | ⟨i, rfl, hi⟩ | ⟨hunion, hopen⟩
      · obtain ⟨hsorted, hhas⟩ := hst i u hi
        have hflat : ∀ x ∈ u.toList,
            st.graph.kind x ≠ .union ∧ st.graph.kind x ≠ .instantiation :=
          fun x hx => Kind.ne_of_isMember (hsorted.isMember hx)
        have hopen : st.graph.kind (.node i) ≠ .instantiation := by simp [Graph.kind_of_union hi]
        obtain ⟨f', hf', -⟩ := hf.foldlM hhas hflat
        have habsorb : f.absorb st.graph (.node i) = .ok f' := by
          simpa only [Fold.absorb, hi] using hf'
        rw [run_add_union hb hi, run_forM_add hflat hf', Fold.add_returns unwrap n hopen habsorb]
        rfl
      · rw [run_add_instantiation hb hi, run_fold_add_instantiation hterm hi]
        rw [run_fold_add_instantiation hterm hi] at hends
        obtain ⟨hkinds, hst₁, -⟩ := hunwrap i st hst hi
        rcases hrun : (unwrap i).run.run st with ⟨e | t', st₁⟩
        · rw [ExceptT.run_bind_of_error (run_ofTypeM hrun), ExceptT.run_bind_of_error hrun]
          rfl
        · rw [ExceptT.run_bind_of_ok hrun] at hends
          rw [ExceptT.run_bind_of_ok (run_ofTypeM hrun), ExceptT.run_bind_of_ok hrun]
          rw [hrun] at hkinds hst₁
          exact ih (hf.mono hkinds) hst₁ hends
      · obtain ⟨f', hf', -⟩ := Fold.absorbMember_ok (f := f) hunion hopen
        have hadd := Fold.add_returns unwrap n hopen (Fold.absorb_of_kind_ne hunion ▸ hf')
        rw [run_add_part hunion hopen hf', hadd]
        rfl

theorem run_build {f : Fold} (hrun : f.build.Returns st t st') :
    build.run.run (ofFold f, st) = (.ok t, ({}, st')) := by
  cases f with
  | compound u =>
    have hcurrent : current.run.run (ofFold (.compound u), st) =
        (.ok (ofFold (.compound u)), (ofFold (.compound u), st)) := rfl
    have hset (b b' : Builder) : (set b).run.run (b', st) = (.ok (), (b, st)) := rfl
    rw [build, ExceptT.run_bind_of_ok hcurrent, ExceptT.run_bind_of_ok (hset _ _)]
    simp only [ofFold]
    rw [ExceptT.run_bind_of_ok (hset _ _)]
    rw [Fold.build] at hrun
    rcases hlist : u.toList with _ | ⟨a, _ | ⟨b, rest⟩⟩ <;>
      simp only [hlist] at hrun ⊢ <;> cases hrun <;> rfl
  | _ =>
    cases hrun
    rfl

/-- Any sequence of calls on a new builder, with anything else done to the store in between. -/
inductive Reached (unwrap : NodeId → TypeM Ty) : Builder → Store → Prop
  | new (st : Store) (hst : st.graph.Proper) : Reached unwrap {} st
  | add {b b' : Builder} {st st' : Store} {out : Except Fault Unit} (n : Nat) {t : Ty}
      (hb : Reached unwrap b st) (ht : st.graph.Has t)
      (hrun : (add unwrap n t).run.run (b, st) = (out, (b', st'))) : Reached unwrap b' st'
  | build {b b' : Builder} {st st' : Store} {out : Except Fault Ty} (hb : Reached unwrap b st)
      (hrun : build.run.run (b, st) = (out, (b', st'))) : Reached unwrap b' st'
  | other {b : Builder} {st st' : Store} (hb : Reached unwrap b st)
      (hkinds : st.graph.KindsStay st'.graph) (hst : st'.graph.Proper) : Reached unwrap b st'

/-- What the laws of folds say of a builder at any point: its fields are in step, a terminal state
stays, a fault is the resolver's and leaves the builder as it was, and the end of a fold is a word, a
single member or a new union, after which the builder is as new. -/
structure Lawful (unwrap : NodeId → TypeM Ty) (b : Builder) (st : Store) : Prop where
  held_iff : b.held.isSome = true ↔ b.state = .compound
  nonempty : ∀ u, b.held = some u → u.toList ≠ []
  terminal : b.isTerminal = true → ∀ n t, ((add unwrap n t).run.run (b, st)).2 = (b, st)
  fault : ∀ n t, st.graph.Has t → ∀ e b' st',
    (add unwrap n t).run.run (b, st) = (.error e, (b', st')) →
      b' = b ∧ (e = .unendingInstance ∨ ∃ i s s', (unwrap i).run.run s = (.error e, s'))
  built : ∃ t st', build.run.run (b, st) = (.ok t, ({}, st')) ∧
    (t ∈ [Ty.never, .error, .any, .unknown] ∧ st' = st ∨
      (st.graph.kind t).isMember = true ∧ st' = st ∨
      ∃ u, t = .node st.graph.size ∧ st' = { st with graph := st.graph.push (.union u) } ∧
        2 ≤ u.toList.length ∧ ∀ x ∈ u.toList, (st'.graph.kind x).isMember = true)
  folds : ∃ f : Fold, b = ofFold f ∧
    (∀ n t, ((Fold.add unwrap n f t).run.run st).1 ≠ .error .unendingInstance →
      (add unwrap (n + 1) t).run.run (b, st) = outcomeOf f ((Fold.add unwrap n f t).run.run st)) ∧
    ∀ t st', f.build.Returns st t st' → build.run.run (b, st) = (.ok t, ({}, st'))

theorem build_cases (hf : f.Proper st.graph) :
    ∃ t st', f.build.Returns st t st' ∧
      (t ∈ [Ty.never, .error, .any, .unknown] ∧ st' = st ∨
        (st.graph.kind t).isMember = true ∧ st' = st ∨
        t = .node st.graph.size ∧ st' = { st with graph := st.graph.push (.union f.members) } ∧
          2 ≤ f.members.toList.length) := by
  cases f with
  | compound u =>
    obtain ⟨hsorted, hne⟩ := hf.reached u rfl
    rw [Fold.build]
    rcases hu : u.toList with _ | ⟨t, _ | ⟨t', ts⟩⟩
    · exact absurd hu hne
    · exact ⟨t, st, .pure t st, .inr (.inl ⟨hsorted.isMember (by simp [hu]), rfl⟩)⟩
    · refine ⟨_, _, (TypeM.Returns.alloc (.union u) st).bind (.pure _ _), .inr (.inr ⟨rfl, rfl, ?_⟩)⟩
      simp [Fold.members, hu]
  | _ => exact ⟨_, st, .pure _ st, .inl ⟨by simp, rfl⟩⟩

theorem Reached.exists_fold (hunwrap : Careful unwrap) (hb : Reached unwrap b st) :
    st.graph.Proper ∧ ∃ f : Fold, b = ofFold f ∧ f.Proper st.graph := by
  induction hb with
  | new st hst => exact ⟨hst, .never, rfl, .never _⟩
  | @add b b' st st' out n t hb ht hrun ih =>
    obtain ⟨hst, f, rfl, hf⟩ := ih
    cases hrun ▸ add_outcome (n := n) hunwrap hf hst ht with
    | returned hf' hst' => exact ⟨hst', _, rfl, hf'⟩
    | failed hst' hkinds => exact ⟨hst', f, rfl, hf.mono hkinds⟩
  | @build b b' st st' out hb hrun ih =>
    obtain ⟨hst, f, rfl, hf⟩ := ih
    obtain ⟨t, st₁, hbuild, hcases⟩ := build_cases hf
    cases hrun.symm.trans (run_build hbuild)
    refine ⟨?_, .never, rfl, .never _⟩
    rcases hcases with ⟨-, rfl⟩ | ⟨-, rfl⟩ | ⟨-, rfl, -⟩
    · exact hst
    · exact hst
    · exact hst.push hf.reached.sorted fun x hx => hf.has_of_mem hx
  | other hb hkinds hst ih =>
    obtain ⟨-, f, rfl, hf⟩ := ih
    exact ⟨hst, f, rfl, hf.mono hkinds⟩

/-- Whatever calls are made on a builder, with whatever resolver, the laws of folds hold of it. -/
theorem Reached.lawful (hunwrap : Careful unwrap) (hb : Reached unwrap b st) :
    Lawful unwrap b st := by
  obtain ⟨hst, f, rfl, hf⟩ := hb.exists_fold hunwrap
  obtain ⟨t, st', hbuild, hcases⟩ := build_cases hf
  refine ⟨?_, ?_, fun hterm n t => ?_, fun n t ht e b' st' hrun => ?_, ?_, f, rfl, ?_, ?_⟩
  · cases f <;> simp [ofFold]
  · intro u hu
    cases f with
    | compound v =>
      cases hu
      exact (hf.reached u rfl).2
    | _ => cases hu
  · cases n with
    | zero => rfl
    | succ n => rw [run_add_of_isTerminal hterm]
  · cases hrun ▸ add_outcome (n := n) hunwrap hf hst ht with
    | failed hst' hkinds he => exact ⟨rfl, he⟩
  · refine ⟨t, st', run_build hbuild, hcases.imp_right (.imp_right ?_)⟩
    rintro ⟨rfl, rfl, hlen⟩
    refine ⟨f.members, rfl, rfl, hlen, fun x hx => ?_⟩
    have hkinds : st.graph.KindsStay (st.graph.push (.union f.members)) := .push _ _
    exact (hkinds.sorted hf.reached.sorted fun x hx => hf.has_of_mem hx).isMember hx
  · exact fun n t hends => run_add_ofFold hunwrap hf hst hends
  · exact fun t st' hbuild => run_build hbuild

def flaky (i : NodeId) : TypeM Ty := do
  if i = 0 then return .simple .string
  throw (.raised .config [])

theorem careful_flaky : Careful flaky := by
  intro i st hst _
  rw [flaky]
  split
  · exact ⟨.refl _, hst, by rintro _ ⟨⟩; trivial⟩
  · exact ⟨.refl _, hst, by rintro _ ⟨⟩⟩

theorem lawful_flaky :
    let st : Store := { graph := ⟨#[.instantiation none [], .instantiation none []]⟩ }
    let u : Members := { strings := .every, null := true }
    Lawful flaky ⟨.compound, some u⟩ st := by
  intro st u
  have hst : st.graph.Proper := by
    intro i v hi
    match i with
    | 0 | 1 => cases hi
    | i + 2 => rw [Graph.shape_of_size_le (by simp [st, Graph.size])] at hi; cases hi
  have hfirst : Reached flaky ⟨.compound, some { strings := .every }⟩ st :=
    .add 2 (t := .node 0) (.new st hst) (by decide) rfl
  have hsecond : Reached flaky ⟨.compound, some { strings := .every }⟩ st :=
    .add 1 (t := .node 1) hfirst (by decide) rfl
  exact (Reached.add 1 (t := .simple .null) hsecond trivial rfl).lawful careful_flaky

end Builder

end FlowTyping
