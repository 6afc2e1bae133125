import FlowTyping.Proofs.NormalFrames

namespace FlowTyping

variable {s s' base : ScopeStack} {f : Frame} {name : Text} {t : Ty} {os bs : List (Text × Ty)}
  {r : Resolvers} {kind : ScopeKind} {st : Store} {e : Fault}

namespace Frame

theorem replaceIn_self (hname : bs.lookup name = some t) : replaceIn name t bs = bs := by
  induction bs with
  | nil => cases hname
  | cons b bs ih =>
    obtain ⟨m, u⟩ := b
    rw [Text.lookup_cons] at hname
    rw [replaceIn]
    by_cases hm : m = name
    · rw [if_pos hm.symm] at hname
      rw [if_pos hm, Option.some.inj hname]
    · rw [if_neg (Ne.symm hm)] at hname
      rw [if_neg hm, ih hname]

theorem bind_self (hname : f.bindings.lookup name = some t) : f.bind name t = f := by
  rw [bind, hname, Option.isSome_some, if_pos rfl, replaceIn_self hname]

end Frame

namespace ScopeStack

theorem bindAll_self (hos : ∀ p ∈ os, s.top.bindings.lookup p.1 = some p.2) : s.bindAll os = s := by
  induction os with
  | nil => rfl
  | cons o os ih =>
    have hself : s.bind o.1 o.2 = s := by
      rw [ScopeStack.bind, Frame.bind_self (hos o List.mem_cons_self)]
    rw [bindAll, List.foldl_cons, hself]
    exact ih fun p hp => hos p (List.mem_cons_of_mem _ hp)

theorem bindAll_eq_self_iff (hos : (os.map Prod.fst).Nodup) :
    s.bindAll os = s ↔ ∀ p ∈ os, s.top.bindings.lookup p.1 = some p.2 := by
  refine ⟨fun hself p hp => ?_, bindAll_self⟩
  have hlookup := lookup_top_bindAll (s := s) (n := p.1) hos
  rwa [hself, Text.lookup_of_mem hos hp, Option.some_or] at hlookup

def BindsOnce (s : ScopeStack) : Prop := ∀ f ∈ s.frames, (f.bindings.map Prod.fst).Nodup

namespace BindsOnce

theorem replaceTop (hs : s.BindsOnce) (hbelow : s'.below = s.below)
    (htop : (s'.top.bindings.map Prod.fst).Nodup) : s'.BindsOnce := by
  intro f hf
  rw [frames, hbelow] at hf
  rcases List.mem_cons.1 hf with rfl | hf
  · exact htop
  · exact hs f (List.mem_cons_of_mem _ hf)

theorem top (hs : s.BindsOnce) : (s.top.bindings.map Prod.fst).Nodup := hs _ List.mem_cons_self

theorem push (hs : s.BindsOnce) (kind : ScopeKind) : (s.push kind).BindsOnce := by
  intro f hf
  rcases List.mem_cons.1 hf with rfl | hf
  · exact List.nodup_nil
  · exact hs f hf

theorem tail (hs : s.BindsOnce) (hbelow : s.below = base.frames) : base.BindsOnce := by
  intro f hf
  apply hs f
  rw [frames, hbelow]
  exact List.mem_cons_of_mem _ hf

theorem bind (hs : s.BindsOnce) (name : Text) (t : Ty) : (s.bind name t).BindsOnce :=
  hs.replaceTop rfl (Frame.nodup_bind hs.top)

theorem declare (hs : s.BindsOnce) (name : Text) (t : Ty) : (s.declare name t).BindsOnce := by
  refine hs.replaceTop rfl ?_
  rw [ScopeStack.declare, Frame.bindings_declare]
  exact Frame.nodup_bind hs.top

theorem mergeAll (r : Resolvers) (kind : ScopeKind) (os : List (Text × Ty)) {s : Scopes}
    (hs : s.stack.BindsOnce) : ((ScopeM.mergeAll r kind os).run.run s).2.stack.BindsOnce := by
  induction os generalizing s with
  | nil => exact hs
  | cons o os ih =>
    rcases ScopeM.run_mergeAll_cons r kind o os s with ⟨e, st, hrun⟩ | ⟨t, st, hrun⟩
    · rw [hrun]
      exact hs
    · rw [hrun]
      exact ih (s := { stack := s.stack.bind o.1 t, store := st }) (hs.bind o.1 t)

end BindsOnce

theorem Reached.bindsOnce (hs : s.Reached) : s.BindsOnce := by
  induction hs with
  | initial => simp [BindsOnce, frames, ScopeStack.initial]
  | push _ kind ih => exact ih.push kind
  | @pop s _ r st ih =>
    cases hbelow : s.below with
    | nil =>
      rw [ScopeM.run_pop_root r hbelow]
      exact ih
    | cons f fs =>
      have hbase : s.below = (⟨f, fs⟩ : ScopeStack).frames := hbelow
      rw [ScopeM.stack_pop r hbase]
      exact .mergeAll r _ _ (ih.tail hbase)
  | popInOrder _ hdrop _ r st ih => exact .mergeAll r _ _ (ih.tail (below_of_drop? hdrop))
  | @discard s _ st ih =>
    rw [ScopeM.stack_discard]
    cases hdrop : s.drop? with
    | none => exact ih
    | some base => exact ih.tail (below_of_drop? hdrop)
  | declare _ name t ih => exact ih.declare name t
  | assign _ name t hassign ih =>
    rw [assign?] at hassign
    split at hassign
    · cases hassign
      exact ih.bind name t
    · cases hassign

def reorder (s : ScopeStack) (bs : List (Text × Ty)) : ScopeStack :=
  { s with top := { s.top with bindings := bs } }

end ScopeStack

namespace ScopeM

theorem mergeAll_error {s s' : Scopes} (hrun : (mergeAll r kind os).run.run s = (.error e, s')) :
    ∃ done o rest st, os = done ++ o :: rest ∧
      (mergeAll r kind done).Returns s () { s' with store := st } ∧
      (r.mergeBinding kind (s'.stack.lookup o.1) o.2).run.run st = (.error e, s'.store) := by
  induction os generalizing s with
  | nil => cases hrun
  | cons o os ih =>
    match hmerge : (r.mergeBinding kind (s.stack.lookup o.1) o.2).run.run s.store with
    | (.error e', st) =>
      cases hrun.symm.trans (run_mergeAll_of_error os hmerge)
      exact ⟨[], o, os, s.store, rfl, .pure () s, hmerge⟩
    | (.ok t, st) =>
      rw [run_mergeAll_of_ok os hmerge] at hrun
      obtain ⟨done, o', rest, st', hos, hdone, hfault⟩ := ih hrun
      refine ⟨o :: done, o', rest, st', by rw [hos, List.cons_append], ?_, hfault⟩
      exact (run_mergeAll_of_ok done hmerge).trans hdone

theorem mergeAll_of_pop_error {s s' : Scopes} (hbelow : s.stack.below = base.frames)
    (hrun : (pop r).run.run s = (.error e, s')) :
    (mergeAll r s.stack.top.kind s.stack.top.overrides).run.run { s with stack := base } =
      (.error e, s') := by
  rw [run_pop r hbelow] at hrun
  match hmerge : (mergeAll r s.stack.top.kind s.stack.top.overrides).run.run
      { s with stack := base } with
  | (.error e', s₁) =>
    cases (ExceptT.run_bind_of_error hmerge).symm.trans hrun
    rfl
  | (.ok (), s₁) => cases (ExceptT.run_bind_of_ok hmerge).symm.trans hrun

theorem stack_of_mergeAll {s s' : Scopes} (hrun : (mergeAll r kind os).Returns s () s') :
    ∃ merged, merged.map Prod.fst = os.map Prod.fst ∧ s'.stack = s.stack.bindAll merged := by
  induction os generalizing s with
  | nil =>
    cases hrun
    exact ⟨[], rfl, rfl⟩
  | cons o os ih =>
    match hmerge : (r.mergeBinding kind (s.stack.lookup o.1) o.2).run.run s.store with
    | (.error e', st) => cases (run_mergeAll_of_error os hmerge).symm.trans hrun
    | (.ok t, st) =>
      obtain ⟨merged, hnames, hstack⟩ := ih ((run_mergeAll_of_ok os hmerge).symm.trans hrun)
      exact ⟨(o.1, t) :: merged, by rw [List.map_cons, hnames, List.map_cons], hstack⟩

end ScopeM

namespace ScopeStack

/-- A pop that ends in a fault, whatever the order of its merges: the fault comes from merging one
override `o`, and the stack that is left has the merges before it, and no others, written to its top
frame. It is the stack from before exactly when each of these merges gave the type that its name had
in that frame already. -/
theorem Reached.pop_interrupted {s' : Scopes} (hs : s.Reached) (hbs : bs.Perm s.top.bindings)
    (hdrop : s.drop? = some base)
    (hrun : (ScopeM.pop r).run.run ⟨s.reorder bs, st⟩ = (.error e, s')) :
    ∃ done o rest merged st', (s.reorder bs).top.overrides = done ++ o :: rest ∧
      (ScopeM.mergeAll r s.top.kind done).Returns ⟨base, st⟩ () ⟨s'.stack, st'⟩ ∧
      (r.mergeBinding s.top.kind (s'.stack.lookup o.1) o.2).run.run st' = (.error e, s'.store) ∧
      merged.map Prod.fst = done.map Prod.fst ∧ s'.stack = base.bindAll merged ∧
      s'.stack.below = base.below ∧ s'.stack.top.declared = base.top.declared ∧
      (∀ n, n ∉ done.map Prod.fst →
        s'.stack.top.bindings.lookup n = base.top.bindings.lookup n) ∧
      (s'.stack = base ↔ ∀ p ∈ merged, base.top.bindings.lookup p.1 = some p.2) := by
  have hbelow : (s.reorder bs).below = base.frames := below_of_drop? hdrop
  obtain ⟨done, o, rest, st', hos, hdone, hfault⟩ :=
    ScopeM.mergeAll_error (ScopeM.mergeAll_of_pop_error hbelow hrun)
  obtain ⟨merged, hnames, hstack⟩ := ScopeM.stack_of_mergeAll hdone
  have hnodup : (merged.map Prod.fst).Nodup := by
    have htop : ((s.reorder bs).top.bindings.map Prod.fst).Nodup :=
      (hbs.map Prod.fst).nodup_iff.2 hs.bindsOnce.top
    have hoverrides := Frame.nodup_overrides htop
    rw [hos, List.map_append] at hoverrides
    exact hnames ▸ hoverrides.of_append_left
  refine ⟨done, o, rest, merged, st', hos, hdone, hfault, hnames, hstack, ?_⟩
  rw [hstack]
  refine ⟨(SameBelow.bindAll base merged).below, declared_bindAll base merged, fun n hn => ?_,
    bindAll_eq_self_iff hnodup⟩
  rw [lookup_top_bindAll hnodup, Text.lookup_of_not_mem (hnames ▸ hn), Option.none_or]

def twoOverrides : ScopeStack :=
  let outer := (initial.declare (text "x") (.simple .string)).declare (text "y") (.simple .string)
  ((outer.push .loop).bind (text "y") (.node 0)).bind (text "x") (.simple .number)

theorem twoOverrides_reached : twoOverrides.Reached := by
  have houter := (Reached.initial.declare (text "x") (.simple .string)).declare (text "y")
    (.simple .string)
  have hy := (houter.push .loop).assign (text "y") (.node 0) rfl
  exact hy.assign (text "x") (.simple .number) rfl

theorem twoOverrides_interrupted :
    let r : Resolvers := { instance? := some fun _ => throw (.raised .invariant []) }
    let st : Store := { graph := ⟨#[.instantiation none []]⟩ }
    let s' := ((ScopeM.pop r).run.run ⟨twoOverrides, st⟩).2
    ∃ base, twoOverrides.drop? = some base ∧ s'.stack.below = base.below ∧
      s'.stack.top.declared = base.top.declared ∧
      ∃ merged, s'.stack = base.bindAll merged ∧
        ¬ ∀ p ∈ merged, base.top.bindings.lookup p.1 = some p.2 := by
  intro r st s'
  refine ⟨_, rfl, ?_⟩
  obtain ⟨done, o, rest, merged, st', -, -, -, -, hstack, hbelow, hdeclared, -, hintact⟩ :=
    twoOverrides_reached.pop_interrupted (.refl _) rfl
      (Prod.ext rfl rfl : (ScopeM.pop r).run.run ⟨twoOverrides, st⟩ =
        (.error (.raised .invariant []), s'))
  exact ⟨hbelow, hdeclared, merged, hstack, fun hall => absurd (hintact.2 hall) (by decide)⟩

/-- A pop that ends in a fault may leave the frame below with another type for a name. -/
theorem interrupted_pop_changes_parent :
    let r : Resolvers := { instance? := some fun _ => throw (.raised .invariant []) }
    let st : Store := { graph := ⟨#[.instantiation none []]⟩ }
    let run := (ScopeM.pop r).run.run ⟨twoOverrides, st⟩
    twoOverrides.Reached ∧ run.1 = .error (.raised .invariant []) ∧
      ∃ base, twoOverrides.drop? = some base ∧ base.lookup (text "x") = some (.simple .string) ∧
        run.2.stack.lookup (text "x") = some (.node 1) ∧ run.2.stack.top ≠ base.top := by
  intro r st run
  exact ⟨twoOverrides_reached, rfl, _, rfl, rfl, rfl, by decide⟩

end ScopeStack

end FlowTyping
