import FlowTyping.Proofs.Coverage
import FlowTyping.Scope

namespace ExceptT

variable {ε σ α β : Type} {a : α} {b : β} {s s₁ s₂ : σ}

def Returns (m : ExceptT ε (StateM σ) α) (s : σ) (a : α) (s' : σ) : Prop :=
  m.run.run s = (.ok a, s')

namespace Returns

variable {m : ExceptT ε (StateM σ) α} {k : α → ExceptT ε (StateM σ) β}

theorem pure (a : α) (s : σ) : (Pure.pure a : ExceptT ε (StateM σ) α).Returns s a s := rfl

theorem bind (hm : m.Returns s a s₁) (hk : (k a).Returns s₁ b s₂) : (m >>= k).Returns s b s₂ := by
  simp only [ExceptT.Returns, ExceptT.run_bind, StateT.run_bind] at hm hk ⊢
  rw [hm]
  exact hk

theorem exists_of_bind (h : (m >>= k).Returns s b s₂) :
    ∃ a s₁, m.Returns s a s₁ ∧ (k a).Returns s₁ b s₂ := by
  match hrun : m.run.run s with
  | (.error e, s₁) => cases (run_bind_of_error hrun).symm.trans h
  | (.ok a, s₁) => exact ⟨a, s₁, hrun, (run_bind_of_ok hrun).symm.trans h⟩

theorem get (s : σ) : (MonadState.get : ExceptT ε (StateM σ) σ).Returns s s s := rfl

theorem modify (f : σ → σ) (s : σ) :
    (modify f : ExceptT ε (StateM σ) Unit).Returns s () (f s) := rfl

end Returns

end ExceptT

namespace FlowTyping

variable {g h : Graph} {t : Ty} {v : Value} {name n : Text} {r : Resolvers} {kind : ScopeKind}

theorem ScopeM.returns_ofTypeM {α : Type} {m : TypeM α} {a : α} {s : Scopes} {st : Store}
    (hm : m.Returns s.store a st) : (ofTypeM m).Returns s a { s with store := st } := by
  have hm' : m s.store = (.ok a, st) := hm
  simp only [ExceptT.Returns, ofTypeM, ExceptT.run, StateT.run, hm']

theorem Text.lookup_cons {β : Type} {m : Text} {b : β} {bs : List (Text × β)} :
    ((m, b) :: bs).lookup n = if n = m then some b else bs.lookup n := by
  by_cases hn : n = m
  · simp [hn]
  · rw [List.lookup_cons, beq_false_of_ne hn, if_neg hn]

theorem Text.mem_of_lookup {β : Type} {b : β} {bs : List (Text × β)} (hn : bs.lookup n = some b) :
    (n, b) ∈ bs := by
  obtain ⟨l₁, l₂, rfl, -⟩ := List.lookup_eq_some_iff.1 hn
  simp

theorem Text.not_mem_of_lookup {β : Type} {bs : List (Text × β)} (hn : bs.lookup n = none) :
    n ∉ bs.map Prod.fst := by
  intro hmem
  obtain ⟨p, hp, rfl⟩ := List.mem_map.1 hmem
  simpa using List.lookup_eq_none_iff.1 hn p hp

namespace Frame

variable {f : Frame} {fs : List Frame}

theorem lookup_replaceIn {bs : List (Text × Ty)} (hname : (bs.lookup name).isSome) :
    (replaceIn name t bs).lookup n = if n = name then some t else bs.lookup n := by
  induction bs with
  | nil => simp at hname
  | cons b bs ih =>
    obtain ⟨m, u⟩ := b
    rw [replaceIn]
    by_cases hm : m = name
    · rw [if_pos hm, Text.lookup_cons, Text.lookup_cons, hm]
      split <;> rfl
    · rw [Text.lookup_cons, if_neg (Ne.symm hm)] at hname
      rw [if_neg hm, Text.lookup_cons, Text.lookup_cons, ih hname]
      by_cases hn : n = m
      · rw [if_pos hn, if_pos hn, if_neg (hn ▸ hm)]
      · rw [if_neg hn, if_neg hn]

theorem keys_replaceIn (bs : List (Text × Ty)) :
    (replaceIn name t bs).map Prod.fst = bs.map Prod.fst := by
  induction bs with
  | nil => rfl
  | cons b bs ih =>
    rw [replaceIn]
    split <;> simp [ih]

theorem mem_replaceIn {bs : List (Text × Ty)} {p : Text × Ty} (hp : p ∈ replaceIn name t bs) :
    p = (name, t) ∨ p ∈ bs := by
  induction bs with
  | nil => cases hp
  | cons b bs ih =>
    obtain ⟨m, u⟩ := b
    rw [replaceIn] at hp
    split at hp
    · rename_i hm
      rcases List.mem_cons.1 hp with rfl | hp
      · exact .inl (by rw [hm])
      · exact .inr (List.mem_cons_of_mem _ hp)
    · rcases List.mem_cons.1 hp with rfl | hp
      · exact .inr List.mem_cons_self
      · exact (ih hp).imp_right (List.mem_cons_of_mem _)

theorem lookup_bind :
    (f.bind name t).bindings.lookup n = if n = name then some t else f.bindings.lookup n := by
  rw [bind]
  split
  · exact lookup_replaceIn ‹_›
  · exact Text.lookup_cons

theorem mem_bind {p : Text × Ty} (hp : p ∈ (f.bind name t).bindings) :
    p = (name, t) ∨ p ∈ f.bindings := by
  simp only [bind] at hp
  split at hp
  · exact mem_replaceIn hp
  · exact List.mem_cons.1 hp

theorem nodup_bind (hf : (f.bindings.map Prod.fst).Nodup) :
    ((f.bind name t).bindings.map Prod.fst).Nodup := by
  rw [bind]
  split
  · rw [keys_replaceIn]
    exact hf
  · rename_i hnone
    exact List.nodup_cons.2 ⟨Text.not_mem_of_lookup (Option.not_isSome_iff_eq_none.1 hnone), hf⟩

theorem declare_eq (hname : name ∉ f.declared) :
    f.declare name t = ({ f with declared := name :: f.declared } : Frame).bind name t := by
  simp [declare, bind, hname]

theorem bindings_declare : (f.declare name t).bindings = (f.bind name t).bindings := by
  simp only [declare]
  split <;> rfl

def names (fs : List Frame) : List Text := fs.flatMap (·.declared)

/-- A frame in good order upon others: it binds each name once, and only names that are declared,
and it declares no name again. -/
structure Sound (g : Graph) (fs : List Frame) (f : Frame) : Prop where
  nodup : (f.bindings.map Prod.fst).Nodup
  has : ∀ p ∈ f.bindings, g.Has p.2
  declared : ∀ p ∈ f.bindings, p.1 ∈ names (f :: fs)
  fresh : ∀ n ∈ f.declared, n ∉ names fs

namespace Sound

theorem new (g : Graph) (fs : List Frame) (kind : ScopeKind) : Frame.Sound g fs { kind } := by
  constructor <;> simp

theorem mono (hgh : g.Extends h) (hf : f.Sound g fs) : f.Sound h fs :=
  { hf with has := fun p hp => hgh.has (hf.has p hp) }

theorem bind (hf : f.Sound g fs) (hname : name ∈ names (f :: fs)) (ht : g.Has t) :
    (f.bind name t).Sound g fs := by
  refine ⟨nodup_bind hf.nodup, fun p hp => ?_, fun p hp => ?_, hf.fresh⟩
  · rcases mem_bind hp with rfl | hp
    · exact ht
    · exact hf.has p hp
  · rcases mem_bind hp with rfl | hp
    · exact hname
    · exact hf.declared p hp

theorem declare (hf : f.Sound g fs) (hname : name ∉ names (f :: fs)) (ht : g.Has t) :
    (f.declare name t).Sound g fs := by
  rw [names, List.flatMap_cons, List.mem_append, not_or] at hname
  rw [declare_eq hname.1]
  refine Sound.bind ⟨hf.nodup, hf.has, fun p hp => ?_, fun m hm => ?_⟩ (by simp [names]) ht
  · exact List.mem_cons_of_mem _ (hf.declared p hp)
  · rcases List.mem_cons.1 hm with rfl | hm
    · exact hname.2
    · exact hf.fresh m hm

end Sound

def Stacked (g : Graph) : List Frame → Prop
  | [] => True
  | f :: fs => f.Sound g fs ∧ Stacked g fs

theorem Stacked.mono (hgh : g.Extends h) (hfs : Stacked g fs) : Stacked h fs := by
  induction fs with
  | nil => trivial
  | cons f fs ih => exact ⟨hfs.1.mono hgh, ih hfs.2⟩

theorem Stacked.lookup (hfs : Stacked g fs) (hn : fs.findSome? (·.bindings.lookup n) = some t) :
    g.Has t ∧ n ∈ names fs := by
  induction fs with
  | nil => cases hn
  | cons f fs ih =>
    rw [List.findSome?_cons] at hn
    split at hn
    · rename_i hf
      cases hn
      have hmem : (n, t) ∈ f.bindings := Text.mem_of_lookup hf
      exact ⟨hfs.1.has _ hmem, hfs.1.declared _ hmem⟩
    · obtain ⟨hhas, hmem⟩ := ih hfs.2 hn
      exact ⟨hhas, List.mem_append_right _ hmem⟩

end Frame

theorem ScopeStack.lookup_bind {s : ScopeStack} :
    (s.bind name t).lookup n = if n = name then some t else s.lookup n := by
  simp only [lookup, frames, bind, List.findSome?_cons, Frame.lookup_bind]
  by_cases hn : n = name <;> simp [hn]

namespace Scopes

variable {s s' s₁ s₂ : Scopes} {new new' : List Text} {st : Store}

structure Sound (s : Scopes) : Prop where
  plain : s.store.graph.Plain
  stacked : Frame.Stacked s.store.graph s.stack.frames

def names (s : Scopes) : List Text := Frame.names s.stack.frames

def Knows (s : Scopes) (n : Text) (v : Value) : Prop :=
  ∃ t, s.stack.lookup n = some t ∧ s.store.graph.Describes t v

/-- The scopes are still in good order, the frames below the top are the same, and the top declares
some new names. -/
structure Step (s : Scopes) (new : List Text) (s' : Scopes) : Prop where
  sound : s'.Sound
  grows : s.store.graph.Extends s'.store.graph
  below : s'.stack.below = s.stack.below
  kind : s'.stack.top.kind = s.stack.top.kind
  declared : s'.stack.top.declared = new ++ s.stack.top.declared

namespace Step

theorem refl (hs : s.Sound) : s.Step [] s := ⟨hs, .refl _, rfl, rfl, rfl⟩

theorem trans (h₁ : s.Step new s₁) (h₂ : s₁.Step new' s₂) : s.Step (new' ++ new) s₂ where
  sound := h₂.sound
  grows := h₁.grows.trans h₂.grows
  below := h₂.below.trans h₁.below
  kind := h₂.kind.trans h₁.kind
  declared := by rw [h₂.declared, h₁.declared, List.append_assoc]

theorem names_eq (hs : s.Step new s') : s'.names = new ++ s.names := by
  simp [names, Frame.names, ScopeStack.frames, hs.below, hs.declared]

end Step

theorem Sound.bind (hs : s.Sound) (hname : name ∈ s.names) (ht : s.store.Yields t st) :
    s.Step [] { stack := s.stack.bind name t, store := st } := by
  obtain ⟨htop, hbelow⟩ := hs.stacked
  refine ⟨⟨ht.plain, ?_, hbelow.mono ht.grows⟩, ht.grows, rfl, rfl, rfl⟩
  exact (htop.mono ht.grows).bind hname ht.has

theorem Sound.declare (hs : s.Sound) (hname : name ∉ s.names) (ht : s.store.graph.Has t) :
    s.Step [name] { s with stack := s.stack.declare name t } := by
  obtain ⟨htop, hbelow⟩ := hs.stacked
  have htop' : name ∉ s.stack.top.declared := fun hmem => hname (List.mem_append_left _ hmem)
  refine ⟨⟨hs.plain, htop.declare hname ht, hbelow⟩, .refl _, rfl, ?_, ?_⟩
  · rw [ScopeStack.declare, Frame.declare_eq htop']
    rfl
  · rw [ScopeStack.declare, Frame.declare_eq htop']
    rfl

theorem Knows.mono (hgrows : s.store.graph.Extends st.graph) (hn : s.Knows n v) :
    Knows { s with store := st } n v := by
  obtain ⟨t, ht, hv⟩ := hn
  exact ⟨t, ht, hv.mono hgrows⟩

theorem knows_bind {stack : ScopeStack} : Knows { stack := stack.bind name t, store := st } n v ↔
    if n = name then st.graph.Describes t v else Knows { stack, store := st } n v := by
  simp only [Knows, ScopeStack.lookup_bind]
  split <;> simp

end Scopes

theorem Scopes.knows_declare {stack : ScopeStack} {st : Store} :
    Knows { stack := stack.declare name t, store := st } n v ↔
      if n = name then st.graph.Describes t v else Knows { stack, store := st } n v := by
  rw [← knows_bind]
  simp only [Knows, ScopeStack.lookup, ScopeStack.frames, ScopeStack.declare, ScopeStack.bind,
    List.findSome?_cons, Frame.bindings_declare]

def ScopeKind.MaySkip (kind : ScopeKind) : Prop := kind = .indeterminate ∨ kind = .loop

theorem Resolvers.mergeBinding_covers (kind : ScopeKind) (before : Option Ty) {after : Ty}
    {st : Store} (hlimit : 0 < r.limit) (hg : st.graph.Plain)
    (hbefore : ∀ t, before = some t → st.graph.Has t) (hafter : st.graph.Has after) :
    ∃ t st', (r.mergeBinding kind before after).Returns st t st' ∧ st.Yields t st' ∧
      (∀ v, st.graph.Describes after v → st'.graph.Describes t v) ∧
      (kind.MaySkip → ∀ t', before = some t' → ∀ v, st.graph.Describes t' v →
        st'.graph.Describes t v) := by
  by_cases hskip : kind.MaySkip
  · have hmerge : r.mergeBinding kind before after = r.unite [before.getD .undefined, after] := by
      rcases hskip with rfl | rfl <;> rfl
    have hprior : st.graph.Has (before.getD .undefined) := by
      cases before with
      | none => trivial
      | some t => exact hbefore t rfl
    have hhas : ∀ t ∈ [before.getD .undefined, after], st.graph.Has t := by simp [hprior, hafter]
    obtain ⟨t, st', hrun, hyields, hcovers⟩ := unite_covers hlimit hg (by simp) hhas
    refine ⟨t, st', hmerge ▸ hrun, hyields, hcovers after (by simp), ?_⟩
    rintro - t' rfl
    exact hcovers t' (by simp)
  · have hmerge : r.mergeBinding kind before after = pure after := by
      cases kind <;> first | rfl | simp [ScopeKind.MaySkip] at hskip
    refine ⟨after, st, hmerge ▸ .pure after st, ⟨.refl _, hg, hafter⟩, fun _ => id, ?_⟩
    exact fun h => absurd h hskip

/-- What is left after merging the overrides `os` of a frame. Nothing is forgotten of other names,
and nothing at all if the frame may not have run. -/
structure Scopes.Merges (kind : ScopeKind) (os : List (Text × Ty)) (s s' : Scopes) : Prop where
  step : s.Step [] s'
  kept : ∀ n v, n ∉ os.map Prod.fst → s.Knows n v → s'.Knows n v
  learned : ∀ n t v, (n, t) ∈ os → s.store.graph.Describes t v → s'.Knows n v
  skipped : kind.MaySkip → ∀ n v, s.Knows n v → s'.Knows n v

theorem ScopeM.mergeAll_returns (kind : ScopeKind) {os : List (Text × Ty)} {s : Scopes}
    (hlimit : 0 < r.limit) (hs : s.Sound) (hnodup : (os.map Prod.fst).Nodup)
    (hhas : ∀ p ∈ os, s.store.graph.Has p.2) (hnames : ∀ p ∈ os, p.1 ∈ s.names) :
    ∃ s', (mergeAll r kind os).Returns s () s' ∧ s.Merges kind os s' := by
  induction os generalizing s with
  | nil => exact ⟨s, .pure () s, .refl hs, fun _ _ _ => id, by simp, fun _ _ _ => id⟩
  | cons o os ih =>
    obtain ⟨name, after⟩ := o
    obtain ⟨hfresh, hnodup⟩ := List.nodup_cons.1 hnodup
    obtain ⟨t, st, hrun, hyields, hafter, hskip⟩ :=
      r.mergeBinding_covers kind (s.stack.lookup name) hlimit hs.plain
        (fun t ht => (hs.stacked.lookup ht).1) (hhas _ List.mem_cons_self)
    let s₁ : Scopes := { stack := s.stack.bind name t, store := st }
    have hstep : s.Step [] s₁ := hs.bind (hnames _ List.mem_cons_self) hyields
    have hself (v : Value) (hv : st.graph.Describes t v) : s₁.Knows name v := by
      rwa [Scopes.knows_bind, if_pos rfl]
    have hother (n : Text) (v : Value) (hn : n ≠ name) (hv : s.Knows n v) : s₁.Knows n v := by
      rw [Scopes.knows_bind, if_neg hn]
      exact hv.mono hyields.grows
    obtain ⟨s', hrest, hmerges⟩ := ih hstep.sound hnodup
      (fun p hp => hyields.grows.has (hhas p (List.mem_cons_of_mem _ hp)))
      (fun p hp => hstep.names_eq ▸ hnames p (List.mem_cons_of_mem _ hp))
    refine ⟨s', ?_, hstep.trans hmerges.step, ?_, ?_, ?_⟩
    · refine (ExceptT.Returns.get s).bind ((ScopeM.returns_ofTypeM hrun).bind ?_)
      exact (ExceptT.Returns.modify _ _).bind hrest
    · intro n v hn hv
      rw [List.map_cons, List.mem_cons, not_or] at hn
      exact hmerges.kept n v hn.2 (hother n v hn.1 hv)
    · intro n t' v hmem hv
      rcases List.mem_cons.1 hmem with hhead | hmem
      · cases hhead
        exact hmerges.kept name v hfresh (hself v (hafter v hv))
      · exact hmerges.learned n t' v hmem (hv.mono hyields.grows)
    · intro hkind n v hv
      apply hmerges.skipped hkind
      by_cases hn : n = name
      · subst hn
        obtain ⟨t', ht', hv⟩ := hv
        exact hself v (hskip hkind t' ht' v hv)
      · exact hother n v hn hv

theorem ScopeStack.drop?_eq {s base : ScopeStack} (hbelow : s.below = base.frames) :
    s.drop? = some base := by
  simp [drop?, hbelow, frames]

/-- Popping a frame goes back to the stack below it. What was known of names from below stays
known, and what was known before the frame too if it may not have run. -/
theorem ScopeM.pop_returns {s : Scopes} {base : ScopeStack} (hlimit : 0 < r.limit) (hs : s.Sound)
    (hbelow : s.stack.below = base.frames) :
    ∃ s', (pop r).Returns s s.stack.top.overrides.length s' ∧
      Scopes.Step { s with stack := base } [] s' ∧
      (∀ n v, n ∉ s.stack.top.declared → s.Knows n v → s'.Knows n v) ∧
      (s.stack.top.kind.MaySkip → ∀ n v, Scopes.Knows { s with stack := base } n v →
        s'.Knows n v) := by
  obtain ⟨htop, hstacked⟩ := hs.stacked
  rw [hbelow] at htop hstacked
  have hoverride {p : Text × Ty} : p ∈ s.stack.top.overrides ↔
      p ∈ s.stack.top.bindings ∧ p.1 ∉ s.stack.top.declared := by
    simp [Frame.overrides]
  have hnodup : (s.stack.top.overrides.map Prod.fst).Nodup :=
    htop.nodup.sublist (List.filter_sublist.map _)
  have hnames : ∀ p ∈ s.stack.top.overrides, p.1 ∈ Frame.names base.frames := by
    intro p hp
    obtain ⟨hp, hdeclared⟩ := hoverride.1 hp
    exact (List.mem_append.1 (htop.declared p hp)).resolve_left hdeclared
  obtain ⟨s', hmerge, hmerges⟩ := mergeAll_returns (r := r) s.stack.top.kind
    (s := { s with stack := base }) hlimit ⟨hs.plain, hstacked⟩ hnodup
    (fun p hp => htop.has p (hoverride.1 hp).1) hnames
  refine ⟨s', ?_, hmerges.step, fun n v hn hv => ?_, hmerges.skipped⟩
  · refine (ExceptT.Returns.get s).bind ?_
    simp only [ScopeStack.drop?_eq hbelow]
    exact (ExceptT.Returns.modify _ s).bind (hmerge.bind (.pure _ s'))
  · obtain ⟨t, ht, hv⟩ := hv
    rw [ScopeStack.lookup, ScopeStack.frames, List.findSome?_cons, hbelow] at ht
    split at ht
    · rename_i hfound
      cases ht
      exact hmerges.learned n t v (hoverride.2 ⟨Text.mem_of_lookup hfound, hn⟩) hv
    · rename_i hnone
      refine hmerges.kept n v (fun hmem => ?_) ⟨t, ht, hv⟩
      exact Text.not_mem_of_lookup hnone ((List.filter_sublist.map _).subset hmem)

end FlowTyping
