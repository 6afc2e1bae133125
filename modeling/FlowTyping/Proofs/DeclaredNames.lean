import FlowTyping.Proofs.ScopeDiscipline

namespace FlowTyping

variable {s s' : ScopeStack} {f : Frame} {fs : List Frame} {name n : Text} {t : Ty}

theorem Frame.names_cons : names (f :: fs) = f.declared ++ names fs := rfl

theorem Frame.mem_names : n ∈ names fs ↔ ∃ f ∈ fs, n ∈ f.declared := List.mem_flatMap

theorem Frame.declared_declare : n ∈ (f.declare name t).declared ↔ n = name ∨ n ∈ f.declared := by
  simp only [declare]
  split
  · constructor
    · exact .inr
    · rintro (rfl | hn)
      · assumption
      · exact hn
  · exact List.mem_cons

/-- A frame upon others binds all that it declares, and nothing but what it or one of the others
declares. -/
structure Frame.Declares (fs : List Frame) (f : Frame) : Prop where
  bound : ∀ n ∈ f.declared, (f.bindings.lookup n).isSome
  declared : ∀ n, (f.bindings.lookup n).isSome → n ∈ names (f :: fs)

namespace Frame.Declares

theorem new (fs : List Frame) (kind : ScopeKind) : Frame.Declares fs { kind } := by
  constructor <;> simp

theorem bind (hf : f.Declares fs) (hname : name ∈ names (f :: fs)) :
    (f.bind name t).Declares fs := by
  constructor
  · intro n hn
    rw [lookup_bind]
    split
    · rfl
    · exact hf.bound n hn
  · intro n hn
    rw [lookup_bind] at hn
    split at hn
    · rename_i heq
      exact heq ▸ hname
    · exact hf.declared n hn

theorem declare (hf : f.Declares fs) : (f.declare name t).Declares fs := by
  constructor
  · intro n hn
    rw [bindings_declare, lookup_bind]
    split
    · rfl
    · rename_i hne
      exact hf.bound n ((declared_declare.1 hn).resolve_left hne)
  · intro n hn
    rw [bindings_declare, lookup_bind] at hn
    rw [names_cons, List.mem_append, declared_declare]
    split at hn
    · rename_i heq
      exact .inl (.inl heq)
    · exact (List.mem_append.1 (hf.declared n hn)).imp_left .inr

end Frame.Declares

structure ScopeStack.Orderly (s : ScopeStack) : Prop where
  root : ∃ f, [f] <:+ s.frames ∧ f.kind = .normal
  frames : ∀ f fs, f :: fs <:+ s.frames → f.Declares fs

namespace ScopeStack

theorem orderly_initial : initial.Orderly := by
  constructor
  · exact ⟨{ kind := .normal }, List.suffix_refl _, rfl⟩
  · intro f fs hf
    obtain ⟨rfl, rfl⟩ := List.cons.inj ((List.suffix_cons_iff.1 hf).resolve_right fun h => by
      cases List.eq_nil_of_suffix_nil h)
    exact .new [] .normal

namespace Orderly

theorem push (hs : s.Orderly) (kind : ScopeKind) : (s.push kind).Orderly := by
  constructor
  · obtain ⟨f, hroot, hkind⟩ := hs.root
    exact ⟨f, hroot.trans (List.suffix_cons _ _), hkind⟩
  · intro f fs hf
    cases List.suffix_cons_iff.1 hf with
    | inl htop =>
      cases htop
      exact .new s.frames kind
    | inr hbelow => exact hs.frames f fs hbelow

theorem tail {base : ScopeStack} (hs : s.Orderly) (hbelow : s.below = base.frames) :
    base.Orderly := by
  have hframes : s.frames = s.top :: base.frames := by rw [ScopeStack.frames, hbelow]
  constructor
  · obtain ⟨f, hroot, hkind⟩ := hs.root
    rw [hframes, List.suffix_cons_iff] at hroot
    exact ⟨f, hroot.resolve_left (by simp [ScopeStack.frames]), hkind⟩
  · intro f fs hf
    apply hs.frames
    rw [hframes]
    exact hf.trans (List.suffix_cons _ _)

theorem replaceTop (hs : s.Orderly) (hsame : s.SameBelow s') (htop : s'.top.Declares s.below) :
    s'.Orderly := by
  have hframes : s'.frames = s'.top :: s.below := by rw [ScopeStack.frames, hsame.below]
  constructor
  · obtain ⟨f, hroot, hkind⟩ := hs.root
    cases List.suffix_cons_iff.1 hroot with
    | inl hsingle =>
      obtain ⟨rfl, hnil⟩ := List.cons.inj hsingle
      refine ⟨s'.top, ?_, hsame.kind.trans hkind⟩
      rw [hframes, ← hnil]
    | inr hroot =>
      refine ⟨f, ?_, hkind⟩
      rw [hframes]
      exact hroot.trans (List.suffix_cons _ _)
  · intro f fs hf
    rw [hframes] at hf
    cases List.suffix_cons_iff.1 hf with
    | inl hself =>
      obtain ⟨rfl, rfl⟩ := List.cons.inj hself
      exact htop
    | inr hbelow => exact hs.frames f fs (hbelow.trans (List.suffix_cons _ _))

theorem top (hs : s.Orderly) : s.top.Declares s.below := hs.frames _ _ (List.suffix_refl _)

theorem bind (hs : s.Orderly) (hname : name ∈ Frame.names s.frames) : (s.bind name t).Orderly :=
  hs.replaceTop (.bind s name t) (hs.top.bind hname)

theorem declare (hs : s.Orderly) : (s.declare name t).Orderly :=
  hs.replaceTop (.declare s name t) hs.top.declare

theorem isSome_lookup (hs : s.Orderly) : (s.lookup n).isSome ↔ n ∈ Frame.names s.frames := by
  rw [lookup, List.isSome_findSome?, List.any_eq_true]
  constructor
  · rintro ⟨f, hf, hn⟩
    obtain ⟨above, fs, hframes⟩ := List.append_of_mem hf
    have hsuffix : f :: fs <:+ s.frames := ⟨above, hframes.symm⟩
    have hmem := (hs.frames f fs hsuffix).declared n hn
    rw [Frame.mem_names] at hmem ⊢
    obtain ⟨d, hd, hn⟩ := hmem
    exact ⟨d, hsuffix.subset hd, hn⟩
  · intro hn
    obtain ⟨f, hf, hn⟩ := Frame.mem_names.1 hn
    obtain ⟨above, fs, hframes⟩ := List.append_of_mem hf
    exact ⟨f, hf, (hs.frames f fs ⟨above, hframes.symm⟩).bound n hn⟩

theorem isSome_assign? (hs : s.Orderly) : (s.assign? n t).isSome ↔ (s.lookup n).isSome := by
  rw [hs.isSome_lookup, Frame.mem_names, assign?, isDeclared]
  simp

theorem mem_names_of_override (hs : s.Orderly) {p : Text × Ty} (hp : p ∈ s.top.overrides) :
    p.1 ∈ Frame.names s.below := by
  obtain ⟨hbound, hdeclared⟩ := List.mem_filter.1 hp
  have hsome : (s.top.bindings.lookup p.1).isSome := by
    rw [Option.isSome_iff_ne_none]
    intro hnone
    exact Text.not_mem_of_lookup hnone (List.mem_map.2 ⟨p, hbound, rfl⟩)
  exact (List.mem_append.1 (hs.top.declared p.1 hsome)).resolve_left (by simpa using hdeclared)

end Orderly

end ScopeStack

namespace ScopeM

variable {os : List (Text × Ty)} {base : ScopeStack}

theorem run_mergeAll_of_ok {r : Resolvers} {kind : ScopeKind} {o : Text × Ty} {s : Scopes}
    {st : Store} (os : List (Text × Ty))
    (hmerge : (r.mergeBinding kind (s.stack.lookup o.1) o.2).Returns s.store t st) :
    (mergeAll r kind (o :: os)).run.run s =
      (mergeAll r kind os).run.run { stack := s.stack.bind o.1 t, store := st } := by
  rw [mergeAll, ExceptT.run_bind_of_ok (ExceptT.Returns.get s)]
  exact ExceptT.run_bind_of_ok (returns_ofTypeM hmerge)

theorem run_mergeAll_of_error {r : Resolvers} {kind : ScopeKind} {o : Text × Ty} {s : Scopes}
    {st : Store} {e : Fault} (os : List (Text × Ty))
    (hmerge : (r.mergeBinding kind (s.stack.lookup o.1) o.2).run.run s.store = (.error e, st)) :
    (mergeAll r kind (o :: os)).run.run s = (.error e, { s with store := st }) := by
  have hmerge' : r.mergeBinding kind (s.stack.lookup o.1) o.2 s.store = (.error e, st) := hmerge
  rw [mergeAll, ExceptT.run_bind_of_ok (ExceptT.Returns.get s)]
  apply ExceptT.run_bind_of_error
  simp only [ofTypeM, ExceptT.run, StateT.run, hmerge']

theorem run_mergeAll_cons (r : Resolvers) (kind : ScopeKind) (o : Text × Ty) (os : List (Text × Ty))
    (s : Scopes) :
    (∃ e st, (mergeAll r kind (o :: os)).run.run s = (.error e, { s with store := st })) ∨
      ∃ t st, (mergeAll r kind (o :: os)).run.run s =
        (mergeAll r kind os).run.run { stack := s.stack.bind o.1 t, store := st } := by
  match hrun : (r.mergeBinding kind (s.stack.lookup o.1) o.2).run.run s.store with
  | (.error e, st) => exact .inl ⟨e, st, run_mergeAll_of_error os hrun⟩
  | (.ok t, st) => exact .inr ⟨t, st, run_mergeAll_of_ok os hrun⟩

theorem mergeAll_orderly (r : Resolvers) (kind : ScopeKind) {s : Scopes} (hs : s.stack.Orderly)
    (hos : ∀ o ∈ os, o.1 ∈ Frame.names s.stack.frames) :
    ((mergeAll r kind os).run.run s).2.stack.Orderly ∧
      Frame.names ((mergeAll r kind os).run.run s).2.stack.frames = Frame.names s.stack.frames := by
  induction os generalizing s with
  | nil => exact ⟨hs, rfl⟩
  | cons o os ih =>
    cases run_mergeAll_cons r kind o os s with
    | inl hfault =>
      obtain ⟨e, st, hrun⟩ := hfault
      rw [hrun]
      exact ⟨hs, rfl⟩
    | inr hmerged =>
      obtain ⟨t, st, hrun⟩ := hmerged
      rw [hrun]
      apply ih
      · exact hs.bind (hos o List.mem_cons_self)
      · exact fun p hp => hos p (List.mem_cons_of_mem _ hp)

theorem stack_pop (r : Resolvers) {s : Scopes} (hbelow : s.stack.below = base.frames) :
    ((pop r).run.run s).2.stack =
      ((mergeAll r s.stack.top.kind s.stack.top.overrides).run.run
        { s with stack := base }).2.stack := by
  rw [run_pop r hbelow]
  match hrun : (mergeAll r s.stack.top.kind s.stack.top.overrides).run.run
      { s with stack := base } with
  | (.error e, s₁) => rw [ExceptT.run_bind_of_error hrun]
  | (.ok (), s₁) =>
    rw [ExceptT.run_bind_of_ok hrun]
    rfl

theorem run_pop_root (r : Resolvers) {s : Scopes} (hbelow : s.stack.below = []) :
    (pop r).run.run s = (.error .rootPopped, s) := by
  have hdrop : s.stack.drop? = none := by rw [ScopeStack.drop?, hbelow]
  rw [pop, ExceptT.run_bind_of_ok (ExceptT.Returns.get s)]
  simp only [hdrop]
  rfl

theorem stack_discard {s : Scopes} : (discard.run.run s).2.stack = s.stack.drop?.getD s.stack := by
  rw [discard, ExceptT.run_bind_of_ok (ExceptT.Returns.get s)]
  cases s.stack.drop? <;> rfl

end ScopeM

namespace ScopeStack

/-- The stacks that any sequence of calls leads to. A pop may fail at any of its merges, may come to
the overrides in any order, and neither it nor a discard takes the root away. -/
inductive Reached : ScopeStack → Prop
  | initial : Reached initial
  | push {s : ScopeStack} (hs : Reached s) (kind : ScopeKind) : Reached (s.push kind)
  | pop {s : ScopeStack} (hs : Reached s) (r : Resolvers) (st : Store) :
      Reached ((ScopeM.pop r).run.run ⟨s, st⟩).2.stack
  | popInOrder {s base : ScopeStack} (hs : Reached s) (hdrop : s.drop? = some base)
      {os : List (Text × Ty)} (hos : os.Perm s.top.overrides) (r : Resolvers) (st : Store) :
      Reached ((ScopeM.mergeAll r s.top.kind os).run.run ⟨base, st⟩).2.stack
  | discard {s : ScopeStack} (hs : Reached s) (st : Store) :
      Reached (ScopeM.discard.run.run ⟨s, st⟩).2.stack
  | declare {s : ScopeStack} (hs : Reached s) (name : Text) (t : Ty) : Reached (s.declare name t)
  | assign {s s' : ScopeStack} (hs : Reached s) (name : Text) (t : Ty)
      (hassign : s.assign? name t = some s') : Reached s'

variable {base : ScopeStack} {os : List (Text × Ty)} {r : Resolvers} {st : Store}

theorem below_of_drop? (hdrop : s.drop? = some base) : s.below = base.frames := by
  cases hbelow : s.below with
  | nil => simp [drop?, hbelow] at hdrop
  | cons f fs =>
    simp only [drop?, hbelow, Option.some.injEq] at hdrop
    rw [← hdrop, frames]

theorem Orderly.merge (hs : s.Orderly) (hbelow : s.below = base.frames)
    (hos : os ⊆ s.top.overrides) (r : Resolvers) (kind : ScopeKind) (st : Store) :
    ((ScopeM.mergeAll r kind os).run.run ⟨base, st⟩).2.stack.Orderly ∧
      Frame.names ((ScopeM.mergeAll r kind os).run.run ⟨base, st⟩).2.stack.frames =
        Frame.names base.frames := by
  apply ScopeM.mergeAll_orderly r kind (hs.tail hbelow)
  intro o ho
  exact hbelow ▸ hs.mem_names_of_override (hos ho)

theorem Orderly.pop (hs : s.Orderly) : ((ScopeM.pop r).run.run ⟨s, st⟩).2.stack.Orderly := by
  cases hbelow : s.below with
  | nil =>
    rw [ScopeM.run_pop_root r hbelow]
    exact hs
  | cons f fs =>
    have hbase : s.below = (⟨f, fs⟩ : ScopeStack).frames := hbelow
    rw [ScopeM.stack_pop r hbase]
    exact (hs.merge hbase (List.Subset.refl _) r _ st).1

theorem Orderly.discard (hs : s.Orderly) : (ScopeM.discard.run.run ⟨s, st⟩).2.stack.Orderly := by
  rw [ScopeM.stack_discard]
  cases hbelow : s.below with
  | nil =>
    rw [show s.drop? = none by rw [drop?, hbelow]]
    exact hs
  | cons f fs =>
    have hbase : s.below = (⟨f, fs⟩ : ScopeStack).frames := hbelow
    rw [drop?_eq hbase]
    exact hs.tail hbase

theorem Orderly.assign (hs : s.Orderly) (hassign : s.assign? name t = some s') : s'.Orderly := by
  rw [assign?] at hassign
  split at hassign
  · rename_i hdeclared
    cases hassign
    apply hs.bind
    rw [Frame.mem_names]
    simpa [isDeclared] using hdeclared
  · cases hassign

theorem Reached.orderly (hs : s.Reached) : s.Orderly := by
  induction hs with
  | initial => exact orderly_initial
  | push _ kind ih => exact ih.push kind
  | pop _ r st ih => exact ih.pop
  | popInOrder _ hdrop hos r st ih => exact (ih.merge (below_of_drop? hdrop) hos.subset r _ st).1
  | discard _ st ih => exact ih.discard
  | declare _ name t ih => exact ih.declare
  | assign _ name t hassign ih => exact ih.assign hassign

/-- In every stack that is reached the lowest frame always runs, a frame binds what it declares and
nothing that neither it nor a frame below declares. So a name can be assigned to exactly when it can
be looked up, and while a frame is popped each of its overrides has a type further down, whichever
of them are merged already. -/
theorem Reached.lookup_iff_assign (hs : s.Reached) :
    (∃ above root, s.frames = above ++ [root] ∧ root.kind = .normal) ∧
    (∀ above f below, s.frames = above ++ f :: below →
      (∀ n, (f.bindings.lookup n).isSome → ∃ d ∈ f :: below, n ∈ d.declared) ∧
      ∀ n ∈ f.declared, (f.bindings.lookup n).isSome) ∧
    (∀ n t, (s.lookup n).isSome ↔ (s.assign? n t).isSome) ∧
    ∀ base, s.drop? = some base → ∀ p ∈ s.top.overrides, ∀ merged ⊆ s.top.overrides, ∀ r st,
      (((ScopeM.mergeAll r s.top.kind merged).run.run ⟨base, st⟩).2.stack.lookup p.1).isSome := by
  have horderly := hs.orderly
  refine ⟨?_, ?_, ?_, ?_⟩
  · obtain ⟨root, ⟨above, hframes⟩, hkind⟩ := horderly.root
    exact ⟨above, root, hframes.symm, hkind⟩
  · intro above f below hframes
    have hf := horderly.frames f below ⟨above, hframes.symm⟩
    exact ⟨fun n hn => Frame.mem_names.1 (hf.declared n hn), hf.bound⟩
  · exact fun n t => horderly.isSome_assign?.symm
  · intro base hdrop p hp merged hmerged r st
    have hbelow := below_of_drop? hdrop
    obtain ⟨hleft, hnames⟩ := horderly.merge hbelow hmerged r s.top.kind st
    rw [hleft.isSome_lookup, hnames, ← hbelow]
    exact horderly.mem_names_of_override hp

theorem halfMerged_lookup_iff_assign :
    let x := text "x"
    let y := text "y"
    let base := (initial.declare x .undefined).declare y .undefined
    let s := ((base.push .loop).bind y (.node 0)).bind x (.boolean true)
    let r : Resolvers := { instance? := some fun _ => throw (.raised .config []) }
    let st : Store := { graph := ⟨#[.instantiation none []]⟩ }
    let s' := ((ScopeM.pop r).run.run ⟨s, st⟩).2.stack
    s.Reached ∧ ((ScopeM.pop r).run.run ⟨s, st⟩).1 = .error (.raised .config []) ∧
      s'.lookup x = some (.node 1) ∧ (s'.lookup y).isSome ∧ (s'.assign? y .any).isSome ∧
      (((ScopeM.mergeAll r .loop [(x, .boolean true)]).run.run ⟨base, st⟩).2.stack.lookup
        y).isSome := by
  intro x y base s r st s'
  have hbase : base.Reached := (Reached.initial.declare x _).declare y _
  have hy : ((base.push .loop).bind y (.node 0)).Reached :=
    (hbase.push .loop).assign y (.node 0) (by decide)
  have hs : s.Reached := hy.assign x (.boolean true) (by decide)
  have hlookup : (s'.lookup y).isSome := rfl
  refine ⟨hs, rfl, rfl, hlookup, ((hs.pop r st).lookup_iff_assign.2.2.1 y .any).1 hlookup, ?_⟩
  exact hs.lookup_iff_assign.2.2.2 base rfl (y, .node 0) (by decide) _ (by decide) r st

end ScopeStack

end FlowTyping
