import FlowTyping.Proofs.InterruptedPops
import FlowTyping.Proofs.TwinFolds

/-!
The order of merges. Each merge of a pop reads and writes a name of its own, and adds at most one
union to the graph. So pops that come to the overrides in different orders build the same unions,
only with other numbers.
-/

namespace FlowTyping

variable {g h h' h₁ h₂ : Graph} {t t₁ t₂ : Ty} {r : Resolvers} {kind : ScopeKind} {st st' : Store}
  {os : List (Text × Ty)}

/-- What a fold or a merge comes to, apart from the number that a new union gets. -/
inductive Outcome
  | known (t : Ty)
  | union (u : Members)

namespace Outcome

variable {o : Outcome}

instance : Inhabited Outcome := ⟨.known .never⟩

def isNew : Outcome → Bool
  | .known _ => false
  | .union _ => true

def Shows (g h : Graph) (t : Ty) : Outcome → Prop
  | .known t' => t = t' ∧ g.Has t'
  | .union u => ∃ i, g.size ≤ i ∧ t = .node i ∧ h.shape i = .union u

theorem Shows.mono (hhh' : h.Extends h') (ho : o.Shows g h t) : o.Shows g h' t := by
  cases o with
  | known t' => exact ho
  | union u =>
    obtain ⟨i, hi, rfl, hshape⟩ := ho
    have hlt : i < h.size := Graph.lt_size_of_shape hshape (by simp)
    exact ⟨i, hi, rfl, (hhh'.shape_eq i hlt).trans hshape⟩

structure Gives (g : Graph) (st : Store) (t : Ty) (st' : Store) (o : Outcome) : Prop where
  grows : st.graph.Extends st'.graph
  size : st'.graph.size = st.graph.size + if o.isNew then 1 else 0
  shows : o.Shows g st'.graph t

end Outcome

/-- The same type of the graph `g`, or two unions that are not in `g`, each in a graph of its own,
with the same members in the same order. -/
def Graph.SameButNew (g h₁ h₂ : Graph) (t₁ t₂ : Ty) : Prop :=
  t₁ = t₂ ∧ g.Has t₁ ∨
    ∃ i j u, g.size ≤ i ∧ g.size ≤ j ∧ t₁ = .node i ∧ t₂ = .node j ∧ h₁.shape i = .union u ∧
      h₂.shape j = .union u

theorem Outcome.Shows.sameButNew {o : Outcome} (ho₁ : o.Shows g h₁ t₁) (ho₂ : o.Shows g h₂ t₂) :
    g.SameButNew h₁ h₂ t₁ t₂ := by
  cases o with
  | known t =>
    obtain ⟨rfl, hhas⟩ := ho₁
    exact .inl ⟨ho₂.1.symm, hhas⟩
  | union u =>
    obtain ⟨i, hi, rfl, hi'⟩ := ho₁
    obtain ⟨j, hj, rfl, hj'⟩ := ho₂
    exact .inr ⟨i, j, u, hi, hj, rfl, rfl, hi', hj'⟩

namespace Fold

def outcome : Fold → Outcome
  | .never => .known .never
  | .error => .known .error
  | .any => .known .any
  | .unknown => .known .unknown
  | .compound u =>
    match u.toList with
    | [t] => .known t
    | _ => .union u

theorem finish_known {f : Fold} (hbuild : f.build.Returns st t st) (ho : f.outcome = .known t)
    (ht : g.Has t) : ∃ t st', f.finish.Returns st t st' ∧ f.outcome.Gives g st t st' := by
  obtain ⟨st', hfinish, hgraph⟩ := finish_of_build hbuild
  rw [ho]
  exact ⟨t, st', hfinish, hgraph ▸ .refl _, hgraph ▸ rfl, rfl, ht⟩

theorem finish_outcome (f : Fold) (hf : ∀ j, .node j ∈ f.members.toList → g.Has (.node j))
    (hst : g.Extends st.graph) :
    ∃ t st', f.finish.Returns st t st' ∧ f.outcome.Gives g st t st' := by
  cases f with
  | compound u =>
    by_cases hsingle : ∃ m, u.toList = [m]
    · obtain ⟨m, hm⟩ := hsingle
      refine finish_known (build_single hm st) (by simp only [outcome, hm]) ?_
      cases m with
      | node j => exact hf j (by simp [members, hm])
      | _ => trivial
    · have ho : outcome (.compound u) = .union u := by
        simp only [outcome]
        split
        · rename_i m hm
          exact absurd ⟨m, hm⟩ hsingle
        · rfl
      obtain ⟨st', hfinish, hgraph⟩ :=
        finish_of_build (build_many (mt List.length_eq_one_iff.1 hsingle) st)
      refine ⟨_, st', hfinish, ?_, ?_, ?_⟩
      · exact hgraph ▸ .push _ _
      · rw [hgraph, Graph.size_push, ho]
        rfl
      · rw [ho, hgraph]
        exact ⟨_, hst.size_le, rfl, Graph.shape_push_size _ _⟩
  | never | error | any | unknown => exact finish_known (.pure _ st) rfl trivial

end Fold

def Graph.HasOpen (g : Graph) (t : Ty) : Prop := g.Has t ∧ g.kind t ≠ .instantiation

theorem Resolvers.exists_unite_outcome {ts : List Ty} (hlimit : 0 < r.limit) (hg : g.WellFormed)
    (hlen : 2 ≤ ts.length) (hts : ∀ t ∈ ts, g.HasOpen t) :
    ∃ o : Outcome, ∀ st : Store, g.Extends st.graph →
      ∃ t st', (r.unite ts).Returns st t st' ∧ o.Gives g st t st' := by
  have ha : g.Answers fun _ => .never := fun _ _ => ⟨trivial, by simp [Graph.kind]⟩
  have hself : ts.map (g.opened fun _ => .never) = ts.map id :=
    List.map_congr_left fun t ht => Graph.opened_of_kind_ne (hts t ht).2
  obtain ⟨f, hmembers, hf⟩ := exists_fold hg ha fun t ht => (hts t ht).1
  rw [hself] at hf
  refine ⟨f.outcome, fun st hst => ?_⟩
  have hopens : ∀ t ∈ ts, r.Opens st.graph t (id t) := by
    intro t ht
    apply opens_of_kind_ne hlimit
    rw [hst.kind_eq (hts t ht).1]
    exact (hts t ht).2
  obtain ⟨st₁, hfold, hgraph⟩ := foldlM_addTo_returns hopens (hf _ hst).1
  obtain ⟨t, st', hfinish, hgives⟩ := f.finish_outcome hmembers (hgraph ▸ hst)
  refine ⟨t, st', ?_, hgraph ▸ hgives.grows, hgraph ▸ hgives.size, hgives.shows⟩
  cases ts with
  | nil => cases hlen
  | cons a ts =>
    cases ts with
    | nil => cases Nat.le_of_succ_le_succ hlen
    | cons b ts => exact hfold.bind hfinish

theorem Resolvers.exists_merge_outcome (kind : ScopeKind) (before : Option Ty) {after : Ty}
    (hlimit : 0 < r.limit) (hg : g.WellFormed) (hbefore : ∀ t, before = some t → g.HasOpen t)
    (hafter : g.HasOpen after) :
    ∃ o : Outcome, ∀ st : Store, g.Extends st.graph →
      ∃ t st', (r.mergeBinding kind before after).Returns st t st' ∧ o.Gives g st t st' := by
  by_cases hskip : kind.MaySkip
  · have hmerge : r.mergeBinding kind before after = r.unite [before.getD .undefined, after] := by
      rcases hskip with rfl | rfl <;> rfl
    have hprior : g.HasOpen (before.getD .undefined) := by
      cases before with
      | none => exact ⟨trivial, by simp [Graph.kind]⟩
      | some t => exact hbefore t rfl
    rw [hmerge]
    exact exists_unite_outcome hlimit hg (by simp) (by simp [hprior, hafter])
  · have hmerge : r.mergeBinding kind before after = pure after := by
      cases kind <;> first | rfl | simp [ScopeKind.MaySkip] at hskip
    refine ⟨.known after, fun st _ => ⟨after, st, hmerge ▸ .pure after st, ?_⟩⟩
    exact ⟨.refl _, rfl, rfl, hafter.1⟩

/-- Merging the bindings `os` has led from `s` to `s'`: each came to its outcome, and nothing else
happened. -/
structure Scopes.MergedAs (g : Graph) (outcome : Text × Ty → Outcome) (os : List (Text × Ty))
    (s s' : Scopes) : Prop where
  grows : s.store.graph.Extends s'.store.graph
  size : s'.store.graph.size = s.store.graph.size + os.countP fun p => (outcome p).isNew
  merged : ∀ p ∈ os, ∃ t, s'.stack.lookup p.1 = some t ∧ (outcome p).Shows g s'.store.graph t
  others : ∀ n, n ∉ os.map Prod.fst → s'.stack.lookup n = s.stack.lookup n

/-- Merges of different names do not see each other, as long as each comes to its outcome in every
graph that extends `g`. -/
theorem ScopeM.mergeAll_outcomes {outcome : Text × Ty → Outcome} {s : Scopes}
    (hnodup : (os.map Prod.fst).Nodup) (hs : g.Extends s.store.graph)
    (hos : ∀ p ∈ os, ∀ st : Store, g.Extends st.graph →
      ∃ t st', (r.mergeBinding kind (s.stack.lookup p.1) p.2).Returns st t st' ∧
        (outcome p).Gives g st t st') :
    ∃ s', (mergeAll r kind os).Returns s () s' ∧ s.MergedAs g outcome os s' := by
  induction os generalizing s with
  | nil => exact ⟨s, .pure () s, .refl _, rfl, by simp, fun _ _ => rfl⟩
  | cons o os ih =>
    obtain ⟨hfresh, hnodup⟩ := List.nodup_cons.1 hnodup
    obtain ⟨t, st, hmerge, hgives⟩ := hos o List.mem_cons_self s.store hs
    have hother (n : Text) (hn : n ≠ o.1) : (s.stack.bind o.1 t).lookup n = s.stack.lookup n := by
      rw [ScopeStack.lookup_bind, if_neg hn]
    have hne (p : Text × Ty) (hp : p ∈ os) : p.1 ≠ o.1 :=
      fun heq => hfresh (heq ▸ List.mem_map.2 ⟨p, hp, rfl⟩)
    obtain ⟨s', hrest, hmerged⟩ := ih (s := ⟨s.stack.bind o.1 t, st⟩) hnodup
      (hs.trans hgives.grows) fun p hp => by
        rw [hother p.1 (hne p hp)]
        exact hos p (List.mem_cons_of_mem _ hp)
    refine ⟨s', (run_mergeAll_of_ok os hmerge).trans hrest, hgives.grows.trans hmerged.grows, ?_,
      ?_, ?_⟩
    · rw [hmerged.size, hgives.size, List.countP_cons]
      omega
    · intro p hp
      rcases List.mem_cons.1 hp with rfl | hp
      · refine ⟨t, ?_, hgives.shows.mono hmerged.grows⟩
        rw [hmerged.others p.1 hfresh, ScopeStack.lookup_bind, if_pos rfl]
      · exact hmerged.merged p hp
    · intro n hn
      rw [List.map_cons, List.mem_cons, not_or] at hn
      rw [hmerged.others n hn.2, hother n hn.1]

namespace ScopeStack

variable {s base : ScopeStack} {n : Text} {bs bs₁ bs₂ : List (Text × Ty)}

theorem exists_of_lookup (hn : s.lookup n = some t) : ∃ f ∈ s.frames, (n, t) ∈ f.bindings := by
  obtain ⟨f, hf, hn⟩ := List.exists_of_findSome?_eq_some hn
  exact ⟨f, hf, Text.mem_of_lookup hn⟩

theorem overrides_reorder_perm (hbs : bs.Perm s.top.bindings) :
    (s.reorder bs).top.overrides.Perm s.top.overrides :=
  hbs.filter _

theorem pop_reorder {outcome : Text × Ty → Outcome} (hs : s.BindsOnce)
    (hbelow : s.below = base.frames) (hbs : bs.Perm s.top.bindings)
    (hos : ∀ p ∈ s.top.overrides, ∀ st' : Store, st.graph.Extends st'.graph →
      ∃ t st'', (r.mergeBinding s.top.kind (base.lookup p.1) p.2).Returns st' t st'' ∧
        (outcome p).Gives st.graph st' t st'') :
    ∃ s', (ScopeM.pop r).Returns ⟨s.reorder bs, st⟩ s.top.overrides.length s' ∧
      Scopes.MergedAs st.graph outcome s.top.overrides ⟨base, st⟩ s' := by
  have hperm := overrides_reorder_perm hbs
  have hnodup : ((s.reorder bs).top.overrides.map Prod.fst).Nodup :=
    (hperm.map Prod.fst).nodup_iff.2 (Frame.nodup_overrides hs.top)
  obtain ⟨s', hmerge, hmerged⟩ := ScopeM.mergeAll_outcomes (s := ⟨base, st⟩) hnodup (.refl _)
    fun p hp => hos p (hperm.mem_iff.1 hp)
  refine ⟨s', ?_, hmerged.grows, ?_, fun p hp => hmerged.merged p (hperm.mem_iff.2 hp), ?_⟩
  · rw [ExceptT.Returns, ScopeM.run_pop r (s := ⟨s.reorder bs, st⟩) hbelow, ← hperm.length_eq]
    exact hmerge.bind (.pure _ s')
  · rw [hmerged.size, hperm.countP_eq]
  · intro n hn
    exact hmerged.others n (mt (hperm.map Prod.fst).mem_iff.1 hn)

theorem sameButNew_of_mergedAs {outcome : Text × Ty → Outcome} {s s₁ s₂ : Scopes}
    (hs : ∀ t, s.stack.lookup n = some t → s.store.graph.Has t)
    (h₁ : s.MergedAs s.store.graph outcome os s₁) (h₂ : s.MergedAs s.store.graph outcome os s₂) :
    Option.Rel (s.store.graph.SameButNew s₁.store.graph s₂.store.graph) (s₁.stack.lookup n)
      (s₂.stack.lookup n) := by
  by_cases hn : n ∈ os.map Prod.fst
  · obtain ⟨p, hp, rfl⟩ := List.mem_map.1 hn
    obtain ⟨t₁, hlookup₁, hshows₁⟩ := h₁.merged p hp
    obtain ⟨t₂, hlookup₂, hshows₂⟩ := h₂.merged p hp
    rw [hlookup₁, hlookup₂]
    exact .some (hshows₁.sameButNew hshows₂)
  · rw [h₁.others n hn, h₂.others n hn]
    cases hlookup : s.stack.lookup n with
    | none => exact .none
    | some t => exact .some (.inl ⟨rfl, hs t hlookup⟩)

theorem lookup_reorder (hs : s.BindsOnce) (hbs : bs.Perm s.top.bindings) :
    (s.reorder bs).lookup n = s.lookup n := by
  have hnodup : (bs.map Prod.fst).Nodup := (hbs.map Prod.fst).nodup_iff.2 hs.top
  have htop : bs.lookup n = s.top.bindings.lookup n := by
    cases hn : s.top.bindings.lookup n with
    | none =>
      apply Text.lookup_of_not_mem
      exact mt (hbs.map Prod.fst).mem_iff.1 (Text.not_mem_of_lookup hn)
    | some t => exact Text.lookup_of_mem hnodup (hbs.mem_iff.2 (Text.mem_of_lookup hn))
  rw [lookup_eq, lookup_eq]
  exact congrArg (Option.or · _) htop

/-- The order in which a pop comes to the bindings of the top frame makes no difference if no type
of the stack has to be opened: the pop returns the same number, the graph grows by as many nodes,
and each name has the same type afterwards, up to the numbers of the unions that the pop has built.
Popping the root is refused in either case. -/
theorem Reached.pop_any_order (hs : s.Reached) (hlimit : 0 < r.limit) (hg : st.graph.WellFormed)
    (htypes : ∀ f ∈ s.frames, ∀ p ∈ f.bindings,
      st.graph.Has p.2 ∧ st.graph.kind p.2 ≠ .instantiation)
    (hbs₁ : bs₁.Perm s.top.bindings) (hbs₂ : bs₂.Perm s.top.bindings) :
    let run bs := (ScopeM.pop r).run.run ⟨s.reorder bs, st⟩
    (run bs₁).1 = (run bs₂).1 ∧ (s.below ≠ [] → (run bs₁).1 = .ok s.top.overrides.length) ∧
      (run bs₁).2.store.graph.size = (run bs₂).2.store.graph.size ∧
      st.graph.Extends (run bs₁).2.store.graph ∧ st.graph.Extends (run bs₂).2.store.graph ∧
      ∀ n, Option.Rel (st.graph.SameButNew (run bs₁).2.store.graph (run bs₂).2.store.graph)
        ((run bs₁).2.stack.lookup n) ((run bs₂).2.stack.lookup n) := by
  intro run
  have honce := hs.bindsOnce
  cases hbelow : s.below with
  | nil =>
    have hroot (bs : List (Text × Ty)) : run bs = (.error .rootPopped, ⟨s.reorder bs, st⟩) :=
      ScopeM.run_pop_root r hbelow
    rw [hroot bs₁, hroot bs₂]
    refine ⟨rfl, by simp, rfl, .refl _, .refl _, fun n => ?_⟩
    rw [lookup_reorder honce hbs₁, lookup_reorder honce hbs₂]
    cases hlookup : s.lookup n with
    | none => exact .none
    | some t =>
      obtain ⟨f, hf, hp⟩ := exists_of_lookup hlookup
      exact .some (.inl ⟨rfl, (htypes f hf _ hp).1⟩)
  | cons parent rest =>
    let base : ScopeStack := ⟨parent, rest⟩
    have hbase : s.below = base.frames := hbelow
    have hbefore (n : Text) (t : Ty) (hn : base.lookup n = some t) : st.graph.HasOpen t := by
      obtain ⟨f, hf, hp⟩ := exists_of_lookup hn
      refine htypes f ?_ _ hp
      rw [frames, hbase]
      exact List.mem_cons_of_mem _ hf
    -- What a merge comes to depends on the stack below and the graph from before the pop only, and
    -- no other merge of the same pop writes its name.
    have houtcomes : ∀ p ∈ s.top.overrides, ∃ o : Outcome, ∀ st' : Store,
        st.graph.Extends st'.graph → ∃ t st'',
          (r.mergeBinding s.top.kind (base.lookup p.1) p.2).Returns st' t st'' ∧
            o.Gives st.graph st' t st'' := by
      intro p hp
      have hafter := htypes s.top List.mem_cons_self p (List.mem_filter.1 hp).1
      exact Resolvers.exists_merge_outcome s.top.kind _ hlimit hg (hbefore p.1) hafter
    choose! outcome houtcome using houtcomes
    obtain ⟨s₁, hrun₁, hmerged₁⟩ := pop_reorder honce hbase hbs₁ houtcome
    obtain ⟨s₂, hrun₂, hmerged₂⟩ := pop_reorder honce hbase hbs₂ houtcome
    have hrun₁' : run bs₁ = (.ok s.top.overrides.length, s₁) := hrun₁
    have hrun₂' : run bs₂ = (.ok s.top.overrides.length, s₂) := hrun₂
    rw [hrun₁', hrun₂']
    refine ⟨rfl, fun _ => rfl, hmerged₁.size.trans hmerged₂.size.symm, hmerged₁.grows,
      hmerged₂.grows, fun n => ?_⟩
    exact sameButNew_of_mergedAs (s := ⟨base, st⟩) (fun t hn => (hbefore n t hn).1) hmerged₁
      hmerged₂

theorem twoOverrides_any_order :
    let r : Resolvers := {}
    let st : Store := { graph := ⟨#[.unresolved (text "T")]⟩ }
    let x := (text "x", Ty.simple .number)
    let y := (text "y", Ty.node 0)
    let run bs := (ScopeM.pop r).run.run ⟨twoOverrides.reorder bs, st⟩
    twoOverrides.Reached ∧ st.graph.WellFormed ∧ (run [x, y]).1 = .ok 2 ∧
      (run [x, y]).2.stack.lookup (text "x") = some (.node 1) ∧
      (run [y, x]).2.stack.lookup (text "x") = some (.node 2) ∧
      st.graph.SameButNew (run [x, y]).2.store.graph (run [y, x]).2.store.graph (.node 1)
        (.node 2) := by
  intro r st x y run
  have hg : st.graph.WellFormed := Graph.wellFormed_of_admits (by decide)
  have hxy : [x, y].Perm twoOverrides.top.bindings := by decide
  have hyx : [y, x].Perm twoOverrides.top.bindings := by decide
  obtain ⟨-, hcount, -, -, -, hsame⟩ :=
    twoOverrides_reached.pop_any_order (r := r) (by decide) hg (by decide) hxy hyx
  cases hsame (text "x") with
  | some hsame => exact ⟨twoOverrides_reached, hg, hcount (by decide), rfl, rfl, hsame⟩

end ScopeStack

end FlowTyping
