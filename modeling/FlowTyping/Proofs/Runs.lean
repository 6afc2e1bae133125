import FlowTyping.Substitution

namespace ExceptT

variable {ε σ α β : Type} {m : ExceptT ε (StateM σ) α} {k : α → ExceptT ε (StateM σ) β} {s s₁ : σ}

theorem run_bind_of_ok {a : α} (hm : m.run.run s = (.ok a, s₁)) :
    (m >>= k).run.run s = (k a).run.run s₁ := by
  rw [ExceptT.run_bind, StateT.run_bind, hm]
  rfl

theorem run_bind_of_error {e : ε} (hm : m.run.run s = (.error e, s₁)) :
    (m >>= k).run.run s = (.error e, s₁) := by
  rw [ExceptT.run_bind, StateT.run_bind, hm]
  rfl

end ExceptT

namespace FlowTyping

variable {α β : Type} {a : α} {b : β} {st st₁ st₂ : Store} {μ μ₁ μ₂ : Images}

/-- Started in the store `st`, the computation returns `a` and leaves the store `st'`. -/
def TypeM.Returns (m : TypeM α) (st : Store) (a : α) (st' : Store) : Prop :=
  m.run.run st = (.ok a, st')

namespace TypeM.Returns

variable {m : TypeM α} {k : α → TypeM β}

theorem pure (a : α) (st : Store) : TypeM.Returns (Pure.pure a) st a st := rfl

theorem bind (hm : m.Returns st a st₁) (hk : (k a).Returns st₁ b st₂) :
    (m >>= k).Returns st b st₂ := by
  simp only [TypeM.Returns, ExceptT.run_bind, StateT.run_bind] at hm hk ⊢
  rw [hm]
  exact hk

theorem unique {a' : α} (hm : m.Returns st a st₁) (hm' : m.Returns st a' st₂) :
    a = a' ∧ st₁ = st₂ := by
  cases Eq.trans (Eq.symm hm) hm'
  exact ⟨rfl, rfl⟩

theorem ne_error {e : Fault} (hm : m.Returns st a st₁) : m.run.run st ≠ (.error e, st₂) := by
  intro herror
  cases Eq.trans (Eq.symm hm) herror

theorem ofExcept {e : Except Fault α} (he : e = .ok a) (st : Store) :
    (TypeM.ofExcept e).Returns st a st := by
  subst he
  rfl

theorem graph (st : Store) : TypeM.graph.Returns st st.graph st := rfl

theorem alloc (s : Shape) (st : Store) :
    (TypeM.alloc s).Returns st st.graph.size { st with graph := st.graph.push s } := rfl

theorem fill (i : NodeId) (s : Shape) (st : Store) :
    (TypeM.fill i s).Returns st () { st with graph := st.graph.replace i s } := rfl

theorem count (key : Text) (st : Store) :
    (TypeM.count key).Returns st () { st with metrics := st.metrics.count key 1 } := rfl

theorem foldlM {f : β → α → Except Fault β} {step : β → α → TypeM β} {xs : List α} {init fin : β}
    (hstep : ∀ acc x, x ∈ xs → ∀ acc', f acc x = .ok acc' → (step acc x).Returns st acc' st)
    (hf : xs.foldlM f init = .ok fin) : (xs.foldlM step init).Returns st fin st := by
  induction xs generalizing init with
  | nil =>
    cases hf
    exact .pure _ st
  | cons x xs ih =>
    rw [List.foldlM_cons] at hf ⊢
    cases hx : f init x with
    | error e =>
      rw [hx] at hf
      cases hf
    | ok acc =>
      rw [hx] at hf
      exact (hstep init x (by simp) acc hx).bind (ih (fun acc y hy => hstep acc y (by simp [hy])) hf)

end TypeM.Returns

def SubstT.Returns (m : SubstT TypeM α) (μ : Images) (st : Store) (a : α) (μ' : Images)
    (st' : Store) : Prop :=
  (m.run μ).Returns st (a, μ') st'

namespace SubstT.Returns

variable {m : SubstT TypeM α} {k : α → SubstT TypeM β}

theorem pure (a : α) (μ : Images) (st : Store) : SubstT.Returns (Pure.pure a) μ st a μ st := rfl

theorem bind (hm : m.Returns μ st a μ₁ st₁) (hk : (k a).Returns μ₁ st₁ b μ₂ st₂) :
    (m >>= k).Returns μ st b μ₂ st₂ :=
  TypeM.Returns.bind hm hk

theorem run_bind (hm : m.Returns μ st a μ₁ st₁) :
    ((m >>= k).run μ).run.run st = ((k a).run μ₁).run.run st₁ :=
  ExceptT.run_bind_of_ok hm

theorem lift {m : TypeM α} (hm : m.Returns st a st₁) (μ : Images) :
    SubstT.Returns (liftM m) μ st a μ st₁ :=
  TypeM.Returns.bind hm (.pure _ _)

theorem get (μ : Images) (st : Store) : SubstT.Returns MonadState.get μ st μ μ st := rfl

theorem modify (f : Images → Images) (μ : Images) (st : Store) :
    SubstT.Returns (modify f) μ st () (f μ) st := rfl

theorem run' (hm : m.Returns μ st a μ₁ st₁) : TypeM.Returns (m.run' μ) st a st₁ := by
  rw [StateT.run', map_eq_pure_bind]
  exact TypeM.Returns.bind hm (.pure a st₁)

end SubstT.Returns

end FlowTyping
