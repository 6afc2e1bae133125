import FlowTyping.Proofs.RecordedFolds
import Mathlib.Algebra.GroupWithZero.Nat
import Mathlib.Algebra.Order.BigOperators.Group.List
import Mathlib.Algebra.Order.Group.Nat

namespace FlowTyping

variable {g h : Graph} {f : Fold} {t : Ty} {ts : List Ty} {st : Store} {i : NodeId} {s : Shape}

theorem Graph.WellFormed.has_slot {slots : List Slot} {slot : Slot} {key : PropertyKey}
    (hg : g.WellFormed) (hi : g.shape i = s) (hslots : s.children = slots.map (·.type))
    (hslot : slot ∈ Shape.findSlot key slots) : g.Has slot.type := by
  refine hg.closed (.node i) slot.type ?_
  rw [Graph.child_node, hi, hslots]
  exact List.mem_map_of_mem (List.mem_of_find?_eq_some hslot)

theorem Graph.WellFormed.has_intersectionSlot {slot : Slot} {key : PropertyKey}
    (hg : g.WellFormed) (hslot : slot ∈ Resolvers.intersectionSlot g key t) : g.Has slot.type := by
  cases t with
  | node k =>
    rw [Resolvers.intersectionSlot] at hslot
    split at hslot
    · exact hg.has_slot ‹_› rfl hslot
    · exact hg.has_slot ‹_› rfl hslot
    · cases hslot
  | _ => cases hslot

/-- The computation leaves the store alone: it fails, or it answers with a type that is there. -/
def TypeM.Passive (g : Graph) (m : TypeM Ty) : Prop :=
  ∀ st : Store, g.KindsStay st.graph →
    ∃ out, m.run.run st = (out, st) ∧ ∀ t, out = .ok t → st.graph.Has t

structure Resolvers.Passive (g : Graph) (r : Resolvers) : Prop where
  read : ∀ read, r.property? = some read → ∀ t key, (read t key).Passive g
  resolve : ∀ resolve, r.instance? = some resolve → ∀ i, (resolve i).Passive g

theorem Resolvers.Passive.later {r : Resolvers} (hr : r.Passive g) (hgh : g.KindsStay h) :
    r.Passive h where
  read read hread t key st hst := hr.read read hread t key st (hgh.trans hst)
  resolve resolve hresolve i st hst := hr.resolve resolve hresolve i st (hgh.trans hst)

namespace Records

variable {r : Resolvers}

theorem passive {m : TypeM Ty} (hm : m.Passive g) : Records g Ty.In (LedgerM.ofTypeM m) m := by
  refine .ofTypeM fun st hst hg => ?_
  obtain ⟨out, hrun, hout⟩ := hm st hg
  exact ⟨out, st, hrun, hst, .refl st, hout⟩

theorem unwrapWithin (hr : r.Passive g) (depth : Nat) (i : NodeId) :
    Records g Ty.In (r.recorded.unwrapWithin depth i) (r.unwrapWithin depth i) := by
  induction depth generalizing g i with
  | zero => exact .throw _
  | succ depth ih =>
    rw [Resolvers.unwrapWithin, Resolvers.unwrapWithin, r.recorded_instance?]
    refine countUnwrapped.bind fun _ h hgh _ _ => ?_
    have hr := hr.later hgh
    cases hinstance : r.instance? with
    | some resolve => exact passive (hr.resolve resolve hinstance i)
    | none =>
      -- Folds inside the body open instantiations with one level less.
      exact instantiate (fun f t k hk => add (fun i => ih (hr.later hk) i) r.limit) i

theorem unwrap (hr : r.Passive g) (i : NodeId) :
    Records g Ty.In (r.recorded.unwrap i) (r.unwrap i) :=
  unwrapWithin hr r.limit i

theorem addTo (hr : r.Passive g) (hf : f.Proper g) (ht : g.Has t) :
    Records g (fun f h => f.Proper h) (r.recorded.addTo f t) (r.addTo f t) :=
  add (unwrap hr) r.limit hf ht

theorem unite (hr : r.Passive g) (hts : ∀ t ∈ ts, g.Has t) :
    Records g Ty.In (r.recorded.unite ts) (r.unite ts) := by
  match ts with
  | [] => exact .pure fun _ _ => trivial
  | [t] => exact .pure fun _ hgh => hgh.has (hts t (by simp))
  | x :: y :: ts =>
    have hfold : Records g (fun f h => f.Proper h) ((x :: y :: ts).foldlM (r.recorded.addTo) .never)
        ((x :: y :: ts).foldlM r.addTo .never) :=
      .foldlM (fun h _ => .never h)
        (fun t ht f h hgh hf => addTo (hr.later hgh) hf (hgh.has (hts t ht)))
        fun _ _ _ hk hf => hf.mono hk
    exact hfold.bind fun _ _ _ _ hf => finish hf

theorem widen (hr : r.Passive g) (optional : Bool) (ht : g.Has t) :
    Records g Ty.In (r.recorded.widen optional t) (r.widen optional t) := by
  cases optional with
  | true =>
    rw [Resolvers.widen, Resolvers.widen, if_pos rfl, if_pos rfl]
    refine unite hr fun x hx => ?_
    rcases List.mem_pair.1 hx with rfl | rfl
    · trivial
    · exact ht
  | false => exact .pure fun _ hgh => hgh.has ht

theorem slotType {slot : Option Slot} (hr : r.Passive g) (hslot : ∀ s ∈ slot, g.Has s.type)
    (ht : g.Has t) : Records g Ty.In (r.recorded.slotType slot t) (r.slotType slot t) := by
  cases slot with
  | some s => exact widen hr s.optional (hslot s rfl)
  | none => exact .pure fun _ hgh => hgh.has ht

theorem memberProperty (hr : r.Passive g) (t : Ty) (key : PropertyKey) :
    Records g Ty.In (r.recorded.memberProperty t key) (r.memberProperty t key) := by
  cases t with
  | simple s =>
    refine .pure fun h _ => Graph.has_of_not_node ?_
    cases s <;> simp only [Resolvers.simpleProperty] <;> first | rfl | (split <;> rfl)
  | string v =>
    refine .pure fun h _ => Graph.has_of_not_node ?_
    simp only [Resolvers.stringProperty]
    split
    · split <;> rfl
    · rfl
  | node i =>
    refine graph_bind fun h hgh hwell => ?_
    have hr := hr.later hgh
    cases hi : h.shape i with
    | record slots => exact slotType hr (fun s => hwell.has_slot hi rfl) trivial
    | interface name slots => exact slotType hr (fun s => hwell.has_slot hi rfl) trivial
    | nameSpace name slots => exact slotType hr (fun s => hwell.has_slot hi rfl) trivial
    | intersection members =>
      have hslots : ∀ s ∈ members.filterMap (Resolvers.intersectionSlot h key), h.Has s.type := by
        intro s hs
        obtain ⟨x, -, hx⟩ := List.mem_filterMap.1 hs
        exact hwell.has_intersectionSlot hx
      simp only
      generalize members.filterMap (Resolvers.intersectionSlot h key) = slots at hslots
      rcases slots with _ | ⟨slot, _ | ⟨_, _⟩⟩
      · exact .pure fun _ _ => trivial
      · exact slotType hr (by simpa using hslots) trivial
      · exact .pure fun _ _ => trivial
    | callable role params returns =>
      refine .pure fun h _ => Graph.has_of_not_node ?_
      simp only [Resolvers.callableProperty]
      split
      · rfl
      · split <;> rfl
    | _ => exact .pure fun _ _ => trivial
  | _ => exact .pure fun _ _ => trivial

theorem uniteReads {read' : Ty → LedgerM Ty} {read : Ty → TypeM Ty} (hr : r.Passive g)
    (hread : ∀ t ∈ ts, Records g Ty.In (read' t) (read t)) :
    Records g Ty.In (r.recorded.uniteReads read' ts) (r.uniteReads read ts) := by
  have hfold : Records g (fun f h => f.Proper h)
      (ts.foldlM (fun f t => do r.recorded.addTo f (← read' t)) .never)
      (ts.foldlM (fun f t => do r.addTo f (← read t)) .never) := by
    refine .foldlM (fun h _ => .never h) (fun t ht f h hgh hf => ?_) fun _ _ _ hk hf => hf.mono hk
    refine ((hread t ht).later hgh).bind fun a k hk _ ha => ?_
    exact addTo (hr.later (hgh.trans hk)) (hf.mono hk) ha
  exact hfold.bind fun _ _ _ _ hf => finish hf

theorem builtinProperty (hr : r.Passive g) (ht : g.Has t) (key : PropertyKey) :
    Records g Ty.In (r.recorded.builtinProperty t key) (r.builtinProperty t key) := by
  refine (settle (unwrap hr) r.limit ht).bind fun t h hgh _ _ => ?_
  have hr := hr.later hgh
  cases t with
  | node i =>
    refine graph_bind fun k hk _ => ?_
    have hr := hr.later hk
    cases hi : k.shape i with
    | union u => exact uniteReads hr fun t _ => memberProperty hr t key
    | _ => exact memberProperty hr (.node i) key
  | _ => exact memberProperty hr _ key

theorem property (hr : r.Passive g) (ht : g.Has t) (key : PropertyKey) :
    Records g Ty.In (r.recorded.property t key) (r.property t key) := by
  rw [Resolvers.property, Resolvers.property, r.recorded_property?]
  cases hread : r.property? with
  | some read => exact passive (hr.read read hread t key)
  | none => exact builtinProperty hr ht key

theorem unionProperty {u : Members} (hr : r.Passive g) (hu : ∀ t ∈ u.toList, g.Has t)
    (key : PropertyKey) :
    Records g Ty.In (r.recorded.unionProperty u key) (r.unionProperty u key) :=
  uniteReads hr fun t ht => property hr (hu t ht) key

end Records

theorem Kind.counter?_eq_unionsBuilt {k : Kind} :
    k.counter? = some Metrics.unionsBuilt ↔ k = .union := by
  cases k with
  | simple s => cases s <;> decide
  | _ => decide

theorem Kind.sum_countP_counter?_le (entries : List Kind) :
    (Metrics.endings.map fun key => entries.countP fun k => k.counter? = some key).sum ≤
      entries.length := by
  have hone (k : Kind) :
      (Metrics.endings.map fun key => if k.counter? = some key then 1 else 0).sum ≤ 1 := by
    cases k with
    | simple s => cases s <;> decide
    | _ => decide
  induction entries with
  | nil => simp
  | cons k entries ih =>
    simp only [List.countP_cons, List.sum_map_add, List.length_cons, decide_eq_true_eq]
    exact Nat.add_le_add ih (hone k)

namespace Store.Books

variable {st' : Store} {entries : List Kind}

theorem counter_sub (hbooks : st.Books entries st') {key : Text} (hkey : key ∈ Metrics.endings) :
    st'.counter key - st.counter key =
      UInt64.ofNat (entries.countP fun k => k.counter? = some key) := by
  rw [hbooks.counters key hkey, UInt64.add_comm, UInt64.add_sub_cancel]

theorem unionsBuilt_sub (hbooks : st.Books entries st') :
    st'.counter Metrics.unionsBuilt - st.counter Metrics.unionsBuilt =
      UInt64.ofNat (st.graph.unionsAdded st'.graph) := by
  rw [hbooks.counter_sub (by simp [Metrics.endings]), hbooks.unions, List.count_eq_countP]
  simp only [Kind.counter?_eq_unionsBuilt, beq_eq_decide]

theorem sum_le (hbooks : st.Books entries st') :
    (Metrics.endings.map fun key => (st'.counter key - st.counter key).toNat).sum ≤
      entries.length := by
  calc (Metrics.endings.map fun key => (st'.counter key - st.counter key).toNat).sum
    _ ≤ (Metrics.endings.map fun key => entries.countP fun k => k.counter? = some key).sum := by
      refine List.sum_le_sum fun key hkey => ?_
      rw [hbooks.counter_sub hkey, UInt64.toNat_ofNat']
      exact Nat.mod_le _ _
    _ ≤ entries.length := Kind.sum_countP_counter?_le entries

end Store.Books

/-- An operation on types that an embedder may ask for. -/
inductive Operation where
  | unite (ts : List Ty)
  | widen (optional : Bool) (t : Ty)
  | unionProperty (u : Members) (key : PropertyKey)
  | property (t : Ty) (key : PropertyKey)
  | unwrap (i : NodeId)

namespace Operation

def types : Operation → List Ty
  | unite ts => ts
  | widen _ t => [t]
  | unionProperty u _ => u.toList
  | property t _ => [t]
  | unwrap i => [.node i]

def run {m : Type → Type} [Monad m] [MonadLiftT TypeM m] [MonadExceptOf Fault m] [MonadFold m]
    (r : Resolvers m) : Operation → m Ty
  | unite ts => r.unite ts
  | widen optional t => r.widen optional t
  | unionProperty u key => r.unionProperty u key
  | property t key => r.property t key
  | unwrap i => r.unwrap i

end Operation

structure Request where
  resolvers : Resolvers := {}
  operation : Operation

namespace Request

def run (q : Request) : TypeM Ty := q.operation.run q.resolvers

def record (q : Request) : LedgerM Ty := q.operation.run q.resolvers.recorded

/-- The request can be made in the graph: its types are there, and what answers in place of the
built-in rules is passive. -/
structure Fits (q : Request) (g : Graph) : Prop where
  resolvers : q.resolvers.Passive g
  types : ∀ t ∈ q.operation.types, g.Has t

theorem Fits.records {q : Request} (hq : q.Fits g) : Records g Ty.In q.record q.run := by
  obtain ⟨r, op⟩ := q
  obtain ⟨hr, htypes⟩ := hq
  cases op with
  | unite ts => exact .unite hr htypes
  | widen optional t => exact .widen hr optional (htypes t (by simp [Operation.types]))
  | unionProperty u key => exact .unionProperty hr htypes key
  | property t key => exact .property hr (htypes t (by simp [Operation.types])) key
  | unwrap i => exact .unwrap hr i

/-- Each request can be made in the store that those before it have left, whether they succeeded or
failed. -/
def AllFit : List Request → Store → Prop
  | [], _ => True
  | q :: qs, st => q.Fits st.graph ∧ AllFit qs (q.run.run.run st).2

def runAll (qs : List Request) : StateM Store (List (Except Fault Ty)) :=
  qs.mapM fun q => q.run.run

def recordAll (qs : List Request) : StateM (List Kind × Store) (List (Except Fault Ty)) :=
  qs.mapM fun q => q.record.run

variable {qs : List Request}

theorem AllFit.books (hqs : AllFit qs st) (hst : st.Sound) (log : List Kind) :
    ∃ outs entries st', (runAll qs).run st = (outs, st') ∧
      (recordAll qs).run (log, st) = (outs, (log ++ entries, st')) ∧ st.Books entries st' := by
  induction qs generalizing st log with
  | nil => exact ⟨[], [], st, rfl, by rw [List.append_nil]; rfl, .refl st⟩
  | cons q qs ih =>
    obtain ⟨hq, hqs⟩ := hqs
    obtain ⟨out, entries, st₁, hrecord, hrun, hst₁, hbooks, -⟩ :=
      hq.records log st hst (.refl _)
    -- Whether the request failed or not, the next one starts from the store that it has left.
    rw [hrun] at hqs
    obtain ⟨outs, entries₂, st₂, hrun₂, hrecord₂, hbooks₂⟩ := ih hqs hst₁ (log ++ entries)
    refine ⟨out :: outs, entries ++ entries₂, st₂, ?_, ?_, hbooks.trans hbooks₂⟩
    · rw [runAll, List.mapM_cons, StateT.run_bind, hrun]
      exact congrArg (fun p => (out :: p.1, p.2)) hrun₂
    · rw [recordAll, List.mapM_cons, StateT.run_bind, hrecord, ← List.append_assoc]
      exact congrArg (fun p => (out :: p.1, p.2)) hrecord₂

/-- Over any requests, also when some of them fail, the counter of unions built goes up by the
number of unions added to the graph, and the counters of how folds end go up by no more than the
number of folds that have ended. -/
theorem AllFit.unions_accounted (hqs : AllFit qs st) (hst : st.Sound) :
    ∃ outs log st', (runAll qs).run st = (outs, st') ∧
      (recordAll qs).run ([], st) = (outs, (log, st')) ∧
      st'.counter Metrics.unionsBuilt - st.counter Metrics.unionsBuilt =
        UInt64.ofNat (st.graph.unionsAdded st'.graph) ∧
      (Metrics.endings.map fun key => (st'.counter key - st.counter key).toNat).sum ≤
        log.length := by
  obtain ⟨outs, log, st', hrun, hrecord, hbooks⟩ := hqs.books hst []
  exact ⟨outs, log, st', hrun, hrecord, hbooks.unionsBuilt_sub, hbooks.sum_le⟩

def boxes : Graph :=
  ⟨#[.record [⟨.named (text "k"), .simple .string, true⟩],
    .record [⟨.named (text "k"), .node 2, true⟩], .instantiation none [],
    .union { shapes := [0, 1] }]⟩

/-- Two reads of `k`, and a widening. The first read fails at `Box`, after `string | undefined` has
been built; the second is decided by the built-in answer for `Box`. -/
def reads : List Request :=
  [{ resolvers := { instance? := some fun _ => throw (.raised .config []) }
     operation := .property (.node 3) (.named (text "k")) },
    { operation := .property (.node 3) (.named (text "k")) },
    { operation := .widen true (.node 4) }]

theorem reads_accounted :
    let st : Store := { graph := boxes }
    AllFit reads st ∧ st.Sound ∧ ∃ outs log st', (runAll reads).run st = (outs, st') ∧
      outs = [.error (.raised .config []), .ok .error, .ok (.node 6)] ∧
      (recordAll reads).run ([], st) = (outs, (log, st')) ∧
      st'.counter Metrics.unionsBuilt - st.counter Metrics.unionsBuilt =
        UInt64.ofNat (st.graph.unionsAdded st'.graph) ∧
      (Metrics.endings.map fun key => (st'.counter key - st.counter key).toNat).sum ≤
        log.length := by
  intro st
  have hst : st.Sound := ⟨Graph.wellFormed_of_admits (by decide), .nil⟩
  have hbuiltin (g : Graph) : Resolvers.Passive g {} := ⟨by rintro _ ⟨⟩, by rintro _ ⟨⟩⟩
  have hreads : AllFit reads st := by
    refine ⟨⟨⟨by rintro _ ⟨⟩, ?_⟩, by decide⟩, ⟨hbuiltin _, by decide⟩, ⟨hbuiltin _, by decide⟩,
      trivial⟩
    rintro _ ⟨⟩ i st' _
    exact ⟨.error _, rfl, by rintro _ ⟨⟩⟩
  obtain ⟨outs, log, st', hrun, hrecord, haccounts⟩ := hreads.unions_accounted hst
  exact ⟨hreads, hst, outs, log, st', hrun, (congrArg Prod.fst hrun).symm, hrecord, haccounts⟩

end Request

end FlowTyping
