import FlowTyping.Proofs.Growth
import FlowTyping.Proofs.UnionReads

namespace FlowTyping

open Substitution

theorem Substitution.Underway.argument_cases {g h : Graph} {b : Bindings} {root y : Ty} {μ : Images}
    {q : NodeId} {origin : Option NodeId} {args : List Ty} (hu : Underway g b root [] μ h)
    (hg : g.Closed) (hq : g.shape q = .instantiation origin args)
    (hy : y = .node q ∨ (copies g μ).lookup q = some y) :
    ∃ l args', y = .node l ∧ h.shape l = .instantiation origin args' ∧ ∀ a ∈ args',
      h.kind a = .instantiation → (∃ p, b.lookup p = some a) ∨
        ∃ q', .node q' ∈ args ∧ g.kind (.node q') = .instantiation ∧
          (a = .node q' ∨ (copies g μ).lookup q' = some a) := by
  have hhas (c : Ty) (hc : c ∈ args) : g.Has c := hg.has_arg hq hc
  rcases hy with rfl | hy
  · have hlt : q < g.size := Graph.lt_size_of_shape hq (by simp)
    refine ⟨q, args, rfl, (hu.ext.shape_eq q hlt).trans hq, fun a ha hopen => ?_⟩
    rw [hu.ext.kind_eq (hhas a ha)] at hopen
    cases a with
    | node q' => exact .inr ⟨q', ha, hopen, .inl rfl⟩
    | _ => cases hopen
  · obtain ⟨l, rfl, -⟩ := hu.copy q y hy
    obtain ⟨types, htypes, hshape⟩ := hu.filled q l hy (by simp)
    rw [hq] at htypes hshape
    refine ⟨l, types, rfl, hshape, fun a ha hopen => ?_⟩
    obtain ⟨n, hn, rfl⟩ := List.getElem_of_mem ha
    have hn' : n < args.length := htypes.length_eq ▸ hn
    rcases hu.instantiation_cases (hhas _ (List.getElem_mem hn')) (htypes.get hn' hn) hopen with
      ⟨p, -, hp⟩ | ⟨hkind, hcopy⟩
    · exact .inl ⟨p, hp⟩
    · have hmem := List.getElem_mem hn'
      simp only [List.get_eq_getElem] at hkind hcopy
      generalize args[n] = c at hmem hkind hcopy
      cases c with
      | node q' =>
        refine .inr ⟨q', hmem, hkind, hcopy.imp_right ?_⟩
        rintro ⟨_, ⟨⟩, hlookup⟩
        exact hlookup
      | _ => cases hkind

namespace Growth

variable {g : Graph} {w w₁ w₂ : Growth g} {t a body : Ty} {i j k o : NodeId} {m n : Nat}
  {args : List Ty} {params : List NodeId} {name : Text} {r : Resolvers} {depth : Nat} {st : Store}

theorem settles_of_opening (hi : w.graph.kind (.node i) = .instantiation)
    (hopening : ∀ (r : Resolvers) (depth m : Nat) (w₁ : Growth g) (st : Store), r.instance? = none →
      n ≤ r.limit → n ≤ depth → Adds m w w₁ → st.graph = w₁.graph → ∃ t w₂ st',
        (instantiate (Fold.add (r.unwrapWithin depth) r.limit) i).Returns st t st' ∧
          st'.graph = w₂.graph ∧ Adds n w₁ w₂ ∧ w₂.Settles n t) : w.Settles (n + 1) (.node i) := by
  intro r depth fuel m w₁ st hr hlimit hdepth hfuel hw hst
  obtain ⟨depth, rfl⟩ : ∃ d, depth = d + 1 := ⟨depth - 1, by omega⟩
  obtain ⟨fuel, rfl⟩ : ∃ d, fuel = d + 1 := ⟨fuel - 1, by omega⟩
  obtain ⟨t, w₂, st₂, hrun, hst₂, hadds, ht⟩ := hopening r depth m w₁
    { st with metrics := st.metrics.count Metrics.instancesUnwrapped 1 } hr (by omega) (by omega) hw
    hst
  obtain ⟨t', w₃, st₃, hsettle, hst₃, hadds', ht'⟩ :=
    ht r (depth + 1) fuel 0 w₂ st₂ hr (by omega) (by omega) (by omega) (.refl _ _) hst₂
  have hunwrap : (r.unwrapWithin (depth + 1) i).Returns st t st₂ := by
    refine (TypeM.Returns.count _ st).bind ?_
    simp only [hr]
    exact hrun
  have hi₁ : st.graph.kind (.node i) = .instantiation := by
    rw [hst, hw.ext.kindsStay.kind_eq i (Graph.lt_size_of_kind hi (by simp)), hi]
  refine ⟨t', w₃, st₃, ?_, hst₃, (hadds.trans hadds').mono (by omega), ht'⟩
  exact (Fold.run_settle_instantiation hi₁).trans (hunwrap.bind hsettle)

/-- `n` steps are enough for any instantiation of a generic of rank below `s`, if `m` steps are
enough for each of its arguments that may be opened. -/
def SettlesWithin (g : Graph) (σ : NodeId → Nat) (s m n : Nat) : Prop :=
  ∀ (w : Growth g) (i : NodeId) (origin : Option NodeId) (args : List Ty),
    w.graph.shape i = .instantiation origin args →
    (∀ o, origin = some o → w.graph.kind (.node o) = .generic → σ o < s) →
    (∀ a ∈ args, w.Below m a) →
    (∀ o, origin = some o → g.Demands o → ∀ a ∈ args, w.Settles m a) → w.Settles n (.node i)

theorem settles_of_no_generic {origin : Option NodeId}
    (hi : w.graph.shape i = .instantiation origin args)
    (horigin : ∀ o, origin = some o → w.graph.kind (.node o) ≠ .generic) :
    w.Settles 2 (.node i) := by
  refine settles_of_opening (congrArg Shape.kind hi)
    fun r depth m w₁ st hr hlimit hdepth hw hst => ?_
  refine ⟨.error, w₁, st, instantiate_error ?_, hst, .refl _ _, ?_⟩
  · intro o args' name params body hi₁ ho
    rw [hst, hw.ext.shape_eq i (Graph.lt_size_of_shape hi (by simp)), hi] at hi₁
    cases hi₁
    rw [hst] at ho
    have hkind : w₁.graph.kind (.node o) = .generic := congrArg Shape.kind ho
    have hlt : o < w.graph.size := (w₁.generics o hkind).trans_le w.ext.size_le
    rw [hw.ext.kindsStay.kind_eq o hlt] at hkind
    exact horigin o rfl hkind
  · exact settles_of_kind_ne trivial (by simp [Graph.kind]) Nat.one_pos

theorem invariant_lifts (hg : g.WellFormed)
    (hi : w.graph.shape i = .instantiation (some o) args)
    (ho : w.graph.shape o = .generic name params body) (hbelow : ∀ a ∈ args, w.Below m a)
    (hsettles : g.Demands o → ∀ a ∈ args, w.Settles m a) (hm : 0 < m) (hr : r.instance? = none)
    (hlimit : m ≤ r.limit) (hdepth : m ≤ depth) :
    Invariant w.graph (.ofArgs params args) body (Fold.add (r.unwrapWithin depth) r.limit)
      (w.Lifts m) := by
  obtain ⟨ho', hbody⟩ := w.generic_eq hg ho
  have hagree := w.ext.agreesAt hg.closed hbody
  have hbound (p : NodeId) (a : Ty) (ha : (Bindings.ofArgs params args).lookup p = some a) :
      w.graph.Has a ∧ w.Below m a := by
    rcases Bindings.mem_args_of_lookup ha with ha | rfl
    · exact ⟨w.well.closed.has_arg hi ha, hbelow a ha⟩
    · exact ⟨trivial, by rintro i ⟨⟩⟩
  refine ⟨fun hu hl haff hroot hunion hj => ?_, fun hu hl hj hk hshown htypes => ?_,
    fun hu hl hf => hl.union hu hf, fun {S μ st f y} hu hl hf hy hopen => ?_⟩
  · exact hl.copy hu haff hroot hunion hj ((hagree.reaches_iff.1 hroot).has hg.closed hbody)
  · exact hl.fill hu hbound hj hk hshown htypes
  · refine hl.add hu hf (fun w₁ n hadds hst => ?_) hr hlimit hdepth
    rw [← hst] at hy hopen
    rcases hopen with hopen | ⟨l, u, p, hreach, hu, hp, -, hlookup⟩
    · exact settles_of_kind_ne hy hopen hm
    -- only the argument for a member of a union is opened
    · rw [hagree.reaches_iff] at hreach
      rw [hagree l hreach] at hu
      have hparam := Bindings.mem_params_of_lookup hlookup
      rcases Bindings.mem_args_of_lookup hlookup with ha | rfl
      · have hdemands : g.Demands o :=
          ⟨name, params, body, ho', .inr (.inr ⟨l, u, hreach, hu, p, hparam, hp⟩)⟩
        exact (hsettles hdemands y ha).later hadds
      · exact settles_of_kind_ne trivial (by simp [Graph.kind]) hm

theorem settles_of_expands {σ M : NodeId → Nat} {s q₀ q : NodeId} {μ : Images} {b : Bindings}
    {y : Ty} (hg : g.WellFormed) (hσ : ∀ o o', g.Expands o o' → σ o' < σ o)
    (ho : g.shape o = .generic name params (.node q₀)) (hs : σ o ≤ s)
    (hM : ∀ k, g.size + m < M k ∧ SettlesWithin g σ s (M k) (M (k + 1)))
    (hu : Underway w.graph b body [] μ w₁.graph) (hadds : Adds n w w₁)
    (hrank : ∀ i k, (copies w.graph μ).lookup i = some (.node k) → w₁.rank k = w.rank i + m)
    (hbound : ∀ p a, b.lookup p = some a → w.graph.Has a ∧ w.Below m a ∧ w.Settles m a)
    (hq : Relation.ReflTransGen (g.Argument g.Demands) q₀ q)
    (hopen : g.kind (.node q) = .instantiation) (hk : w.rank q < k)
    (hy : y = .node q ∨ (copies w.graph μ).lookup q = some y) : w₁.Settles (M k) y := by
  induction k generalizing q y with
  | zero => exact absurd hk (Nat.not_lt_zero _)
  | succ k ih =>
    obtain ⟨hMk, hwithin⟩ := hM k
    obtain ⟨origin, args, hargs⟩ := Shape.exists_instantiation_of_kind hopen
    have hlt : q < g.size := Graph.lt_size_of_shape hargs (by simp)
    have hargs' : w.graph.shape q = .instantiation origin args := by
      rw [w.ext.shape_eq q hlt, hargs]
    have hbase (q' : NodeId) (hq' : .node q' ∈ args) : q' < g.size :=
      hg.closed.has_arg (t := .node q') hargs hq'
    obtain ⟨l, args₁, rfl, hl, hcases⟩ := hu.argument_cases w.well.closed hargs' hy
    refine hwithin w₁ l origin args₁ hl (fun o' ho' hgeneric => ?_) (fun a ha => ?_)
      fun o' ho' hdemands a ha => ?_
    · subst ho'
      have hlt' : o' < g.size := w₁.generics o' hgeneric
      rw [w₁.ext.kindsStay.kind_eq o' hlt'] at hgeneric
      exact (hσ o o' ⟨name, params, q₀, q, args, ho, hq, hargs, hgeneric⟩).trans_le hs
    · rintro x rfl hx
      rcases hcases _ ha hx with ⟨p, hp⟩ | ⟨q', hq', -, hcopy⟩
      · obtain ⟨hhas, hbelow, -⟩ := hbound p _ hp
        have hrank := hbelow.later hhas hadds x rfl hx
        omega
      · have hlow := w.low q' (hbase q' hq')
        rcases hcopy with hxq | hcopy
        · cases hxq
          rw [hadds.rank_eq x ((hbase x hq').trans_le w.ext.size_le)]
          omega
        · rw [hrank q' x hcopy]
          omega
    · by_cases hx : w₁.graph.kind a = .instantiation
      · rcases hcases a ha hx with ⟨p, hp⟩ | ⟨q', hq', hkind, hcopy⟩
        · exact ((hbound p a hp).2.2.later hadds).mono (by omega)
        · subst ho'
          have hfalls := w.falls q q' ⟨o', args, hargs', hdemands, hq', hkind⟩
          rw [w.ext.kindsStay.kind_eq q' (hbase q' hq')] at hkind
          exact ih (hq.tail ⟨o', args, hargs, hdemands, hq', hkind⟩) hkind (by omega) hcopy
      · exact settles_of_kind_ne (w₁.well.closed.has_arg hl ha) hx (by omega)

theorem settles_opened {σ M : NodeId → Nat} {s : Nat} {μ : Images} (hg : g.WellFormed)
    (hσ : ∀ o o', g.Expands o o' → σ o' < σ o) (hm : 0 < m) (hs : σ o ≤ s)
    (hM : ∀ k, g.size + m < M k ∧ SettlesWithin g σ s (M k) (M (k + 1)))
    (hi : w.graph.shape i = .instantiation (some o) args)
    (ho : w.graph.shape o = .generic name params body) (hbelow : ∀ a ∈ args, w.Below m a)
    (hsettles : g.Demands o → ∀ a ∈ args, w.Settles m a)
    (hu : Underway w.graph (.ofArgs params args) body [] μ w₁.graph) (hadds : Adds n w w₁)
    (hrank : ∀ i k, (copies w.graph μ).lookup i = some (.node k) → w₁.rank k = w.rank i + m)
    (ht : Delivers w.graph (.ofArgs params args) (copies w.graph μ) w₁.graph body t) :
    w₁.Settles (M (g.size + 1)) t := by
  obtain ⟨ho', hbody⟩ := w.generic_eq hg ho
  have hN := (hM (g.size + 1)).1
  by_cases hopen : w₁.graph.kind t = .instantiation
  swap
  · exact settles_of_kind_ne ht.has hopen (by omega)
  have hbound (hdemands : g.Demands o) (p : NodeId) (a : Ty)
      (ha : (Bindings.ofArgs params args).lookup p = some a) :
      w.graph.Has a ∧ w.Below m a ∧ w.Settles m a := by
    rcases Bindings.mem_args_of_lookup ha with ha | rfl
    · exact ⟨w.well.closed.has_arg hi ha, hbelow a ha, hsettles hdemands a ha⟩
    · exact ⟨trivial, by rintro i ⟨⟩, settles_of_kind_ne trivial (by simp [Graph.kind]) hm⟩
  rcases hu.instantiation_cases (w.ext.has hbody) ht hopen with ⟨p, rfl, hp⟩ | ⟨hkind, hcopy⟩
  · have hparam := Bindings.mem_params_of_lookup hp
    have hdemands : g.Demands o := ⟨name, params, .node p, ho', .inl ⟨p, hparam, rfl⟩⟩
    exact ((hbound hdemands p t hp).2.2.later hadds).mono (by omega)
  · rw [w.ext.kind_eq hbody] at hkind
    cases body with
    | node q =>
      have hlow := w.low q hbody
      refine settles_of_expands hg hσ ho' hs hM hu hadds hrank ?_ .refl hkind (by omega) ?_
      · exact hbound ⟨name, params, .node q, ho', .inr (.inl hkind)⟩
      · refine hcopy.imp_right ?_
        rintro ⟨_, ⟨⟩, hq⟩
        exact hq
    | _ => cases hkind

theorem SettlesWithin.step {σ M : NodeId → Nat} {s : Nat} (hg : g.WellFormed)
    (hσ : ∀ o o', g.Expands o o' → σ o' < σ o) (hm : 0 < m)
    (hM : ∀ k, g.size + m < M k ∧ SettlesWithin g σ s (M k) (M (k + 1))) :
    SettlesWithin g σ (s + 1) m (M (g.size + 1) + 1) := by
  intro w i origin args hi hrank hbelow hsettles
  have hN := (hM (g.size + 1)).1
  by_cases horigin : ∃ o, origin = some o ∧ w.graph.kind (.node o) = .generic
  swap
  · refine (settles_of_no_generic hi fun o ho hgeneric => horigin ⟨o, ho, hgeneric⟩).mono ?_
    omega
  obtain ⟨o, rfl, hgeneric⟩ := horigin
  obtain ⟨name, params, body, ho⟩ := Shape.exists_generic_of_kind hgeneric
  refine settles_of_opening (congrArg Shape.kind hi)
    fun r depth l w₁ st hr hlimit hdepth hw hst => ?_
  have hi₁ : w₁.graph.shape i = .instantiation (some o) args :=
    (hw.ext.shape_eq i (Graph.lt_size_of_shape hi (by simp))).trans hi
  have ho₁ : w₁.graph.shape o = .generic name params body :=
    (hw.ext.shape_eq o (Graph.lt_size_of_shape ho (by simp))).trans ho
  have hbelow₁ (a : Ty) (ha : a ∈ args) : w₁.Below m a :=
    (hbelow a ha).later (w.well.closed.has_arg hi ha) hw
  have hsettles₁ (hdemands : g.Demands o) (a : Ty) (ha : a ∈ args) : w₁.Settles m a :=
    (hsettles o rfl hdemands a ha).later hw
  have hinv := invariant_lifts hg hi₁ ho₁ hbelow₁ hsettles₁ hm hr
    (show m ≤ r.limit by omega) (show m ≤ depth by omega)
  rw [← hst] at hi₁ ho₁ hinv
  obtain ⟨t, μ, st', hrun, hu, ⟨w₂, hw₂, hadds, hlifts⟩, ht⟩ := instantiate_yields
    (hst ▸ w₁.well) hi₁ ho₁ hinv ⟨w₁, hst.symm, .refl _ _, by rintro _ _ ⟨⟩⟩
  rw [hst] at hi₁ ho₁ hu ht hlifts
  rw [← hw₂] at hu ht
  refine ⟨t, w₂, st', hrun, hw₂.symm, hadds.mono (by omega), ?_⟩
  exact settles_opened hg hσ hm (Nat.le_of_lt_succ (hrank o rfl hgeneric)) hM hi₁ ho₁ hbelow₁
    hsettles₁ hu hadds hlifts ht

theorem exists_settlesWithin {σ : NodeId → Nat} (hg : g.WellFormed)
    (hσ : ∀ o o', g.Expands o o' → σ o' < σ o) (s : Nat) :
    ∀ m, 0 < m → ∃ n, m ≤ n ∧ SettlesWithin g σ s m n := by
  induction s with
  | zero =>
    intro m hm
    refine ⟨m + 1, Nat.le_succ m, fun w i origin args hi hrank _ _ => ?_⟩
    refine (settles_of_no_generic hi fun o ho hgeneric => ?_).mono (Nat.succ_le_succ hm)
    exact absurd (hrank o ho hgeneric) (Nat.not_lt_zero _)
  | succ s ih =>
    intro m hm
    choose! next hle hnext using ih
    -- the bounds for the instantiations inside a body, by their ranks
    let M (k : Nat) : Nat := next^[k] (g.size + m + 1)
    have hM (k : Nat) : g.size + m < M k ∧ SettlesWithin g σ s (M k) (M (k + 1)) := by
      have hlt : g.size + m < M k := by
        induction k with
        | zero => exact Nat.lt_succ_self _
        | succ k ih =>
          refine ih.trans_le ?_
          simp only [M, Function.iterate_succ_apply']
          exact hle _ (Nat.zero_lt_of_lt ih)
      refine ⟨hlt, ?_⟩
      simp only [M, Function.iterate_succ_apply']
      exact hnext _ (Nat.zero_lt_of_lt hlt)
    have hN := (hM (g.size + 1)).1
    exact ⟨M (g.size + 1) + 1, by omega, .step hg hσ hm hM⟩

theorem exists_settles {σ : NodeId → Nat} (hg : g.WellFormed)
    (hσ : ∀ o o', g.Expands o o' → σ o' < σ o) (hbound : ∀ o, σ o ≤ g.size) (d : Nat) :
    ∃ n, 0 < n ∧ ∀ w : Growth g, (∀ i < w.graph.size, w.rank i < d) → ∀ t, w.graph.Has t →
      w.Settles n t := by
  have hrank (k : Nat) : ∃ n, 0 < n ∧ ∀ w : Growth g, (∀ i < w.graph.size, w.rank i < d) → ∀ t,
      w.graph.Has t → w.Below k t → w.Settles n t := by
    induction k with
    | zero =>
      refine ⟨1, Nat.one_pos, fun w hw t ht hbelow => settles_of_kind_ne ht (fun hopen => ?_)
        Nat.one_pos⟩
      cases t with
      | node i => exact absurd (hbelow i rfl hopen) (Nat.not_lt_zero _)
      | _ => cases hopen
    | succ k ih =>
      obtain ⟨l, hl, hsettles⟩ := ih
      obtain ⟨n, hn, hwithin⟩ := exists_settlesWithin hg hσ (g.size + 1) (max l d) (by omega)
      refine ⟨n, by omega, fun w hw t ht hbelow => ?_⟩
      by_cases hopen : w.graph.kind t = .instantiation
      swap
      · exact settles_of_kind_ne ht hopen (by omega)
      cases t with
      | node i =>
        obtain ⟨origin, args, hi⟩ := Shape.exists_instantiation_of_kind hopen
        have hargs (a : Ty) (ha : a ∈ args) : w.graph.Has a := w.well.closed.has_arg hi ha
        refine hwithin w i origin args hi (fun o _ _ => Nat.lt_succ_of_le (hbound o))
          (fun a ha => ?_) fun o ho hdemands a ha => ?_
        · rintro j rfl -
          exact (hw j (hargs _ ha)).trans_le (Nat.le_max_right l d)
        · subst ho
          refine (hsettles w hw a (hargs a ha) ?_).mono (Nat.le_max_left l d)
          rintro j rfl hj
          have hfalls := w.falls i j ⟨o, args, hi, hdemands, ha, hj⟩
          have hlt := hbelow i rfl hopen
          omega
      | _ => cases hopen
  obtain ⟨n, hn, hsettles⟩ := hrank d
  refine ⟨n, hn, fun w hw t ht => hsettles w hw t ht ?_⟩
  rintro i rfl -
  exact hw i ht

end Growth

end FlowTyping
