import FlowTyping.Proofs.Runs
import FlowTyping.Property

/-!
Two runs in step: started in related states, they come to the same result, or to the same fault, and
leave related states. Operations on types run in step in stores that differ in their metrics only,
so that counting more or less elsewhere makes no difference to a type.
-/

namespace ExceptT

variable {ε σ α β : Type} {R Q Q' E E' : σ → σ → Prop} {m m' : ExceptT ε (StateM σ) α}
  {k k' : α → ExceptT ε (StateM σ) β}

inductive EndInStep (Q E : σ → σ → Prop) : Except ε α × σ → Except ε α × σ → Prop
  | ok {a : α} {s s' : σ} (hs : Q s s') : EndInStep Q E (.ok a, s) (.ok a, s')
  | error {e : ε} {s s' : σ} (hs : E s s') : EndInStep Q E (.error e, s) (.error e, s')

theorem EndInStep.imp {x x' : Except ε α × σ} (h : EndInStep Q E x x')
    (hQ : ∀ s s', Q s s' → Q' s s') (hE : ∀ s s', E s s' → E' s s') : EndInStep Q' E' x x' := by
  cases h with
  | ok hs => exact .ok (hQ _ _ hs)
  | error hs => exact .error (hE _ _ hs)

/-- From states that `R` relates, both computations end in step. -/
def InStep (R Q E : σ → σ → Prop) (m m' : ExceptT ε (StateM σ) α) : Prop :=
  ∀ s s', R s s' → EndInStep Q E (m.run.run s) (m'.run.run s')

/-- The computation stays in step with itself, whatever `R` leaves open. -/
abbrev Respects (R : σ → σ → Prop) (m : ExceptT ε (StateM σ) α) : Prop := InStep R R R m m

namespace InStep

theorem pure (a : α) : InStep R R E (Pure.pure a : ExceptT ε (StateM σ) α) (Pure.pure a) :=
  fun _ _ hs => .ok hs

theorem throw (e : ε) :
    InStep R Q R (MonadExcept.throw e : ExceptT ε (StateM σ) α) (MonadExcept.throw e) :=
  fun _ _ hs => .error hs

theorem modify {f f' : σ → σ} (hf : ∀ s s', R s s' → Q (f s) (f' s')) :
    InStep R Q E (modify f : ExceptT ε (StateM σ) Unit) (modify f') :=
  fun s s' hs => .ok (hf s s' hs)

theorem bind (hm : InStep R Q E m m') (hk : ∀ a, InStep Q Q' E (k a) (k' a)) :
    InStep R Q' E (m >>= k) (m' >>= k') := by
  intro s s' hs
  match hrun : m.run.run s, hrun' : m'.run.run s', hm s s' hs with
  | _, _, .ok (a := a) hs₁ =>
    rw [run_bind_of_ok hrun, run_bind_of_ok hrun']
    exact hk a _ _ hs₁
  | _, _, .error hs₁ =>
    rw [run_bind_of_error hrun, run_bind_of_error hrun']
    exact .error hs₁

theorem get_bind {k k' : σ → ExceptT ε (StateM σ) β}
    (hk : ∀ s s', R s s' → InStep R Q E (k s) (k' s')) :
    InStep R Q E (MonadState.get >>= k) (MonadState.get >>= k') :=
  fun s s' hs => hk s s' hs s s' hs

theorem foldlM {step : β → α → ExceptT ε (StateM σ) β} (hstep : ∀ b a, Respects R (step b a))
    (xs : List α) (b : β) : Respects R (xs.foldlM step b) := by
  induction xs generalizing b with
  | nil => exact .pure b
  | cons x xs ih =>
    rw [List.foldlM_cons]
    exact (hstep b x).bind ih

end InStep

end ExceptT

namespace FlowTyping

variable {α β : Type}

structure Store.SameTypes (st st' : Store) : Prop where
  graph : st.graph = st'.graph
  nextSymbol : st.nextSymbol = st'.nextSymbol

theorem Store.SameTypes.trans {st₁ st₂ st₃ : Store} (h : st₁.SameTypes st₂)
    (h' : st₂.SameTypes st₃) : st₁.SameTypes st₃ :=
  ⟨h.graph.trans h'.graph, h.nextSymbol.trans h'.nextSymbol⟩

abbrev TypeM.Unmetered (m : TypeM α) : Prop := m.Respects Store.SameTypes

namespace TypeM.Unmetered

theorem graph : TypeM.graph.Unmetered := by
  intro st st' hst
  change ExceptT.EndInStep _ _ (.ok st.graph, st) (.ok st'.graph, st')
  rw [hst.graph]
  exact .ok hst

theorem alloc (s : Shape) : (TypeM.alloc s).Unmetered := by
  refine graph.bind fun g => .bind (.modify fun st st' hst => ?_) fun _ => .pure _
  exact ⟨by rw [hst.graph], hst.nextSymbol⟩

theorem fill (i : NodeId) (s : Shape) : (TypeM.fill i s).Unmetered :=
  .modify fun _ _ hst => ⟨by rw [hst.graph], hst.nextSymbol⟩

theorem count (key : Text) : (TypeM.count key).Unmetered :=
  .modify fun _ _ hst => ⟨hst.graph, hst.nextSymbol⟩

theorem ofExcept (e : Except Fault α) : (TypeM.ofExcept e).Unmetered := by
  cases e with
  | ok a => exact .pure a
  | error f => exact .throw f

end TypeM.Unmetered

namespace Fold

variable {unwrap : NodeId → TypeM Ty}

theorem unmetered_settle (hunwrap : ∀ i, (unwrap i).Unmetered) (fuel : Nat) (t : Ty) :
    (settle unwrap fuel t).Unmetered := by
  induction fuel generalizing t with
  | zero => exact .throw _
  | succ fuel ih =>
    cases t with
    | node i =>
      refine TypeM.Unmetered.graph.bind fun g => ?_
      split
      · exact (hunwrap i).bind ih
      · exact .pure _
    | _ => exact .pure _

theorem unmetered_add (hunwrap : ∀ i, (unwrap i).Unmetered) (fuel : Nat) (f : Fold) (t : Ty) :
    (add unwrap fuel f t).Unmetered := by
  rw [add]
  split
  · exact .pure f
  · refine (unmetered_settle hunwrap fuel t).bind fun t => ?_
    exact TypeM.Unmetered.graph.bind fun g => TypeM.Unmetered.ofExcept _

theorem unmetered_build (f : Fold) : f.build.Unmetered := by
  cases f with
  | compound u =>
    rw [build]
    split
    · exact .pure _
    · exact (TypeM.Unmetered.alloc _).bind fun i => .pure _
  | _ => exact .pure _

theorem unmetered_tally (g : Graph) (t : Ty) : (tally g t).Unmetered := by
  rw [tally]
  split
  all_goals first
    | exact TypeM.Unmetered.count _
    | exact .pure _

theorem unmetered_finish (f : Fold) : f.finish.Unmetered := by
  refine f.unmetered_build.bind fun t => TypeM.Unmetered.graph.bind fun g => ?_
  exact (unmetered_tally g t).bind fun _ => .pure t

end Fold

def SubstT.Unmetered (m : SubstT TypeM α) : Prop := ∀ μ, (m.run μ).Unmetered

namespace SubstT.Unmetered

theorem pure (a : α) : SubstT.Unmetered (Pure.pure a) := fun μ => ExceptT.InStep.pure (a, μ)

theorem bind {m : SubstT TypeM α} {k : α → SubstT TypeM β} (hm : m.Unmetered)
    (hk : ∀ a, (k a).Unmetered) : SubstT.Unmetered (m >>= k) :=
  fun μ => (hm μ).bind fun p => hk p.1 p.2

theorem lift {m : TypeM α} (hm : m.Unmetered) : SubstT.Unmetered (liftM m) :=
  fun _ => hm.bind fun _ => .pure _

theorem get : SubstT.Unmetered MonadState.get := fun μ => ExceptT.InStep.pure (μ, μ)

theorem modify (f : Images → Images) : SubstT.Unmetered (modify f) :=
  fun μ => ExceptT.InStep.pure ((), f μ)

end SubstT.Unmetered

namespace Substitution

variable {subst : Ty → SubstT TypeM Ty} {add : Fold → Ty → TypeM Fold}

theorem unmetered_fillChildren (hsubst : ∀ t, (subst t).Unmetered) (copy : NodeId) (s : Shape)
    (ts done : List Ty) : (fillChildren subst copy s ts done).Unmetered := by
  induction ts generalizing done with
  | nil => exact .pure ()
  | cons t ts ih =>
    refine (hsubst t).bind fun image => ?_
    exact (SubstT.Unmetered.lift (.fill copy _)).bind fun _ => ih _

theorem unmetered_foldMembers (hsubst : ∀ t, (subst t).Unmetered)
    (hadd : ∀ f t, (add f t).Unmetered) (ts : List Ty) (f : Fold) :
    (foldMembers subst add ts f).Unmetered := by
  induction ts generalizing f with
  | nil => exact .pure f
  | cons t ts ih =>
    refine (hsubst t).bind fun image => ?_
    exact (SubstT.Unmetered.lift (hadd f image)).bind ih

theorem unmetered_image (b : Bindings) (hadd : ∀ f t, (add f t).Unmetered) (fuel : Nat) (t : Ty) :
    (image b add fuel t).Unmetered := by
  induction fuel generalizing t with
  | zero => exact fun μ st st' hst => .error hst
  | succ fuel ih =>
    cases t with
    | node i =>
      refine (SubstT.Unmetered.lift .graph).bind fun g => ?_
      split
      · exact .pure _
      · refine SubstT.Unmetered.get.bind fun μ => ?_
        split
        · exact .pure _
        · split
          · exact .pure _
          · split
            · refine (unmetered_foldMembers ih hadd _ _).bind fun f => ?_
              refine (SubstT.Unmetered.lift f.unmetered_finish).bind fun t => ?_
              exact (SubstT.Unmetered.modify _).bind fun _ => .pure t
            · refine (SubstT.Unmetered.lift (.alloc _)).bind fun copy => ?_
              refine (SubstT.Unmetered.modify _).bind fun _ => ?_
              exact (unmetered_fillChildren ih copy _ _ _).bind fun _ => .pure _
    | _ => exact .pure _

theorem unmetered_instantiate (hadd : ∀ f t, (add f t).Unmetered) (i : NodeId) :
    (instantiate add i).Unmetered := by
  refine TypeM.Unmetered.graph.bind fun g => ?_
  split
  · split
    · rw [StateT.run', map_eq_pure_bind]
      exact (unmetered_image _ hadd _ _ []).bind fun _ => .pure _
    · exact .pure _
  · exact .pure _

end Substitution

/-- Custom resolvers do not read the metrics. The built-in ones never do. -/
structure Resolvers.Unmetered (r : Resolvers) : Prop where
  property : ∀ read, r.property? = some read → ∀ t key, (read t key).Unmetered
  instances : ∀ resolve, r.instance? = some resolve → ∀ i, (resolve i).Unmetered

namespace Resolvers.Unmetered

variable {r : Resolvers}

theorem unwrapWithin (hr : r.Unmetered) (depth : Nat) (i : NodeId) :
    (r.unwrapWithin depth i).Unmetered := by
  induction depth generalizing i with
  | zero => exact .throw _
  | succ depth ih =>
    refine (TypeM.Unmetered.count _).bind fun _ => ?_
    split
    · rename_i resolve hresolve
      exact hr.instances resolve hresolve i
    · exact Substitution.unmetered_instantiate (Fold.unmetered_add ih r.limit) i

theorem addTo (hr : r.Unmetered) (f : Fold) (t : Ty) : (r.addTo f t).Unmetered :=
  Fold.unmetered_add (hr.unwrapWithin r.limit) r.limit f t

theorem unite (hr : r.Unmetered) (ts : List Ty) : (r.unite ts).Unmetered := by
  rw [Resolvers.unite.eq_def]
  split
  · exact .pure _
  · exact .pure _
  · exact (ExceptT.InStep.foldlM hr.addTo _ _).bind Fold.unmetered_finish

theorem widen (hr : r.Unmetered) (optional : Bool) (t : Ty) : (r.widen optional t).Unmetered := by
  rw [Resolvers.widen]
  split
  · exact hr.unite _
  · exact .pure t

theorem slotType (hr : r.Unmetered) (slot : Option Slot) (missing : Ty) :
    (r.slotType slot missing).Unmetered := by
  cases slot with
  | some s => exact hr.widen s.optional s.type
  | none => exact .pure missing

theorem memberProperty (hr : r.Unmetered) (receiver : Ty) (key : PropertyKey) :
    (r.memberProperty receiver key).Unmetered := by
  cases receiver with
  | node i =>
    refine TypeM.Unmetered.graph.bind fun g => ?_
    split
    any_goals first
      | exact .pure _
      | exact hr.slotType _ _
    split
    · exact hr.slotType _ _
    · exact .pure _
  | _ => exact .pure _

theorem uniteReads (hr : r.Unmetered) {read : Ty → TypeM Ty} (hread : ∀ t, (read t).Unmetered)
    (ts : List Ty) : (r.uniteReads read ts).Unmetered :=
  (ExceptT.InStep.foldlM (fun f t => (hread t).bind (hr.addTo f)) _ _).bind Fold.unmetered_finish

theorem builtinProperty (hr : r.Unmetered) (receiver : Ty) (key : PropertyKey) :
    (r.builtinProperty receiver key).Unmetered := by
  refine (Fold.unmetered_settle (hr.unwrapWithin r.limit) r.limit receiver).bind fun t => ?_
  split
  · refine TypeM.Unmetered.graph.bind fun g => ?_
    split
    · exact hr.uniteReads (hr.memberProperty · key) _
    · exact hr.memberProperty _ key
  · exact hr.memberProperty _ key

theorem readProperty (hr : r.Unmetered) (receiver : Ty) (key : PropertyKey) :
    (r.property receiver key).Unmetered := by
  rw [Resolvers.property]
  split
  · rename_i read hread
    exact hr.property read hread receiver key
  · exact hr.builtinProperty receiver key

end Resolvers.Unmetered

end FlowTyping
