import FlowTyping.Proofs.Counters
import FlowTyping.Proofs.Growth
import FlowTyping.Property

/-!
Ledgers: operations on types run once more, in a monad that writes down in which kind of type each
fold ends. What they return and do to the store stays the same, and the ledger accounts for the
unions added to the graph and for the counters of how folds end.
-/

namespace FlowTyping

variable {α β : Type}

/-- A computation on the store that keeps a ledger. The ledger stays when it ends in a fault. -/
abbrev LedgerM := ExceptT Fault (StateM (List Kind × Store))

namespace LedgerM

def ofTypeM (m : TypeM α) : LedgerM α := fun s =>
  let (a, store) := m s.2
  (a, (s.1, store))

instance : MonadLiftT TypeM LedgerM := ⟨ofTypeM⟩

theorem run_ofTypeM {m : TypeM α} {out : Except Fault α} {st st' : Store} {log : List Kind}
    (hm : m.run.run st = (out, st')) : (ofTypeM m).run.run (log, st) = (out, (log, st')) := by
  have hm : m st = (out, st') := hm
  simp only [ofTypeM, ExceptT.run, StateT.run, hm]

def enter (k : Kind) : LedgerM Unit := modify fun s => (s.1 ++ [k], s.2)

instance : MonadFold LedgerM where
  finish f := do
    let t ← ofTypeM f.finish
    enter ((← ofTypeM TypeM.graph).kind t)
    return t

end LedgerM

/-- The resolvers in a monad with a ledger. What an embedder has put in ends no folds. -/
def Resolvers.recorded (r : Resolvers) : Resolvers LedgerM where
  property? := r.property?.map fun read t key => LedgerM.ofTypeM (read t key)
  instance? := r.instance?.map fun resolve i => LedgerM.ofTypeM (resolve i)
  limit := r.limit

theorem Resolvers.recorded_property? (r : Resolvers) : r.recorded.property? =
    r.property?.map fun read t key => LedgerM.ofTypeM (read t key) := rfl

theorem Resolvers.recorded_instance? (r : Resolvers) : r.recorded.instance? =
    r.instance?.map fun resolve i => LedgerM.ofTypeM (resolve i) := rfl

def Graph.unionsAdded (g h : Graph) : Nat :=
  (List.range' g.size (h.size - g.size)).countP fun i => h.kind (.node i) = .union

namespace Graph

variable {g h k : Graph} {s : Shape}

theorem unionsAdded_of_size_eq (hsize : h.size = g.size) : g.unionsAdded h = 0 := by
  simp [unionsAdded, hsize]

theorem unionsAdded_push (g : Graph) (s : Shape) :
    g.unionsAdded (g.push s) = if s.kind = .union then 1 else 0 := by
  simp [unionsAdded, kind, List.range'_one]

theorem KindsStay.unionsAdded_eq (hgh : g.KindsStay h) (hhk : h.KindsStay k) :
    g.unionsAdded k = g.unionsAdded h + h.unionsAdded k := by
  have hrange : List.range' g.size (k.size - g.size) =
      List.range' g.size (h.size - g.size) ++ List.range' h.size (k.size - h.size) := by
    rw [← Nat.sub_add_sub_cancel hhk.size_le hgh.size_le, Nat.add_comm, ← List.range'_append_1,
      Nat.add_sub_cancel' hgh.size_le]
  rw [unionsAdded, hrange, List.countP_append, unionsAdded, unionsAdded]
  congr 1
  refine List.countP_congr fun i hi => ?_
  have hi : i < h.size := by
    rw [List.mem_range'_1, Nat.add_sub_cancel' hgh.size_le] at hi
    exact hi.2
  rw [hhk.kind_eq i hi]

end Graph

def Kind.counter? : Kind → Option Text
  | .union => some Metrics.unionsBuilt
  | .simple .error => some Metrics.errorEscalations
  | .simple .any => some Metrics.anyEscalations
  | .simple .unknown => some Metrics.unknownEscalations
  | _ => none

def Metrics.endings : List Text :=
  [unionsBuilt, errorEscalations, anyEscalations, unknownEscalations]

namespace Store

def counter (st : Store) (key : Text) : UInt64 := st.metrics.counters.get key

/-- The graph is well-formed and the counters are in order, as the operations on types leave
them. -/
structure Sound (st : Store) : Prop where
  graph : st.graph.WellFormed
  counters : st.metrics.counters.Ordered

/-- The entries that a ledger has got between two stores agree with them: one entry for each union
that has been added, and one for each time that a fold has been counted. -/
structure Books (st : Store) (entries : List Kind) (st' : Store) : Prop where
  kinds : st.graph.KindsStay st'.graph
  unions : st.graph.unionsAdded st'.graph = entries.count .union
  counters : ∀ key ∈ Metrics.endings, st'.counter key =
    st.counter key + UInt64.ofNat (entries.countP fun k => k.counter? = some key)

namespace Books

variable {st st₁ st₂ : Store} {entries entries' : List Kind}

theorem quiet (hkinds : st.graph.KindsStay st₁.graph)
    (hunions : st.graph.unionsAdded st₁.graph = 0)
    (hcounters : ∀ key ∈ Metrics.endings, st₁.counter key = st.counter key) :
    st.Books [] st₁ :=
  ⟨hkinds, hunions, fun key hkey => by simp [hcounters key hkey]⟩

theorem refl (st : Store) : st.Books [] st :=
  .quiet (.refl _) (Graph.unionsAdded_of_size_eq rfl) fun _ _ => rfl

theorem trans (h : st.Books entries st₁) (h' : st₁.Books entries' st₂) :
    st.Books (entries ++ entries') st₂ where
  kinds := h.kinds.trans h'.kinds
  unions := by rw [h.kinds.unionsAdded_eq h'.kinds, h.unions, h'.unions, List.count_append]
  counters key hkey := by
    rw [h'.counters key hkey, h.counters key hkey, List.countP_append, UInt64.ofNat_add,
      UInt64.add_assoc]

end Books

end Store

/-- In every store that has grown out of `g`, both computations end in the same way and leave the
same store, and what the first enters into the ledger agrees with it. A result satisfies `Q`. -/
def Records (g : Graph) (Q : α → Graph → Prop) (m' : LedgerM α) (m : TypeM α) : Prop :=
  ∀ log (st : Store), st.Sound → g.KindsStay st.graph → ∃ out entries st',
    m'.run.run (log, st) = (out, (log ++ entries, st')) ∧ m.run.run st = (out, st') ∧
      st'.Sound ∧ st.Books entries st' ∧ ∀ a, out = .ok a → Q a st'.graph

namespace Records

variable {g h : Graph} {Q : α → Graph → Prop} {Q' : β → Graph → Prop} {m' : LedgerM α}
  {m : TypeM α} {k' : α → LedgerM β} {k : α → TypeM β}

theorem later (hm : Records g Q m' m) (hgh : g.KindsStay h) : Records h Q m' m :=
  fun log st hst hh => hm log st hst (hgh.trans hh)

theorem pure {a : α} (ha : ∀ h, g.KindsStay h → Q a h) :
    Records g Q (Pure.pure a) (Pure.pure a) := by
  intro log st hst hg
  refine ⟨.ok a, [], st, by rw [List.append_nil]; rfl, rfl, hst, .refl st, ?_⟩
  rintro _ ⟨⟩
  exact ha _ hg

theorem throw (e : Fault) :
    Records g Q (MonadExcept.throw e : LedgerM α) (MonadExcept.throw e : TypeM α) := by
  intro log st hst hg
  exact ⟨.error e, [], st, by rw [List.append_nil]; rfl, rfl, hst, .refl st, by rintro _ ⟨⟩⟩

theorem bind (hm : Records g Q m' m)
    (hk : ∀ a h, g.KindsStay h → h.WellFormed → Q a h → Records h Q' (k' a) (k a)) :
    Records g Q' (m' >>= k') (m >>= k) := by
  intro log st hst hg
  obtain ⟨out, entries, st₁, hrun', hrun, hst₁, hbooks, hout⟩ := hm log st hst hg
  cases out with
  | error e =>
    exact ⟨.error e, entries, st₁, ExceptT.run_bind_of_error hrun', ExceptT.run_bind_of_error hrun,
      hst₁, hbooks, by rintro _ ⟨⟩⟩
  | ok a =>
    obtain ⟨out, entries₂, st₂, hrun₂', hrun₂, hst₂, hbooks₂, hout₂⟩ :=
      hk a st₁.graph (hg.trans hbooks.kinds) hst₁.graph (hout a rfl) (log ++ entries) st₁ hst₁
        (.refl _)
    refine ⟨out, entries ++ entries₂, st₂, ?_, ?_, hst₂, hbooks.trans hbooks₂, hout₂⟩
    · rw [ExceptT.run_bind_of_ok hrun', hrun₂', List.append_assoc]
    · rw [ExceptT.run_bind_of_ok hrun, hrun₂]

theorem foldlM {step' : β → α → LedgerM β} {step : β → α → TypeM β} {xs : List α} {b : β}
    (hb : ∀ h, g.KindsStay h → Q' b h)
    (hstep : ∀ x ∈ xs, ∀ b h, g.KindsStay h → Q' b h → Records h Q' (step' b x) (step b x))
    (hmono : ∀ b h h', h.KindsStay h' → Q' b h → Q' b h') :
    Records g Q' (xs.foldlM step' b) (xs.foldlM step b) := by
  induction xs generalizing g b with
  | nil => exact .pure hb
  | cons x xs ih =>
    rw [List.foldlM_cons, List.foldlM_cons]
    refine (hstep x (by simp) b g (.refl g) (hb g (.refl g))).bind fun b₁ h hgh _ hb₁ => ?_
    refine ih (fun h' hh' => hmono b₁ h h' hh' hb₁) fun y hy b h' hh' hb => ?_
    exact hstep y (by simp [hy]) b h' (hgh.trans hh') hb

theorem ofTypeM (hm : ∀ st : Store, st.Sound → g.KindsStay st.graph → ∃ out st',
    m.run.run st = (out, st') ∧ st'.Sound ∧ st.Books [] st' ∧ ∀ a, out = .ok a → Q a st'.graph) :
    Records g Q (LedgerM.ofTypeM m) m := by
  intro log st hst hg
  obtain ⟨out, st', hrun, hst', hbooks, hout⟩ := hm st hst hg
  exact ⟨out, [], st', by rw [List.append_nil, LedgerM.run_ofTypeM hrun], hrun, hst', hbooks, hout⟩

theorem graph_bind {k' : Graph → LedgerM β} {k : Graph → TypeM β}
    (hk : ∀ h, g.KindsStay h → h.WellFormed → Records h Q' (k' h) (k h)) :
    Records g Q' (LedgerM.ofTypeM TypeM.graph >>= k') (TypeM.graph >>= k) :=
  fun log st hst hg => hk st.graph hg hst.graph log st hst (.refl _)

theorem ofExcept {e : Except Fault α} {a : α} (he : e = .ok a) (ha : ∀ h, g.KindsStay h → Q a h) :
    Records g Q (LedgerM.ofTypeM (TypeM.ofExcept e)) (TypeM.ofExcept e) := by
  subst he
  exact .ofTypeM fun st hst hg => ⟨.ok a, st, rfl, hst, .refl st, by rintro _ ⟨⟩; exact ha _ hg⟩

end Records

end FlowTyping
