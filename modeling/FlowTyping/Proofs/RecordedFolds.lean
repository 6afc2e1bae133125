import FlowTyping.Proofs.Ledger

namespace FlowTyping

variable {α β : Type} {g h : Graph} {f : Fold} {t : Ty} {ts : List Ty} {st : Store}
  {i copy : NodeId} {s : Shape}

abbrev Ty.In (t : Ty) (g : Graph) : Prop := g.Has t

namespace Fold

theorem tally_eq (g : Graph) (t : Ty) :
    tally g t = match (g.kind t).counter? with
      | some key => TypeM.count key
      | none => return () := by
  rw [tally]
  split <;> simp_all [Kind.counter?]

theorem Proper.build (hf : f.Proper st.graph) :
    ∃ t st₁, f.build.Returns st t st₁ ∧
      (st₁ = st ∧ st.graph.Has t ∧ st.graph.kind t ≠ .union ∨
        t = .node st.graph.size ∧ st₁ = { st with graph := st.graph.push (.union f.members) }) := by
  cases f with
  | compound u =>
    simp only [Fold.build]
    split
    · rename_i t hu
      have ht : t ∈ (Fold.compound u).members.toList := by simp [members, hu]
      exact ⟨t, st, .pure t st, .inl ⟨rfl, hf.has_of_mem ht, (hf.kind_ne ht).1⟩⟩
    · exact ⟨_, _, (TypeM.Returns.alloc _ st).bind (.pure _ _), .inr ⟨rfl, rfl⟩⟩
  | _ => exact ⟨_, st, .pure _ st, .inl ⟨rfl, trivial, by simp [Graph.kind]⟩⟩

end Fold

theorem Store.Sound.tally (hst : st.Sound) (t : Ty) :
    ∃ st', (Fold.tally st.graph t).Returns st () st' ∧ st'.Sound ∧ st'.graph = st.graph ∧
      ∀ key, st'.counter key = st.counter key +
        UInt64.ofNat ([st.graph.kind t].countP fun k => k.counter? = some key) := by
  rw [Fold.tally_eq]
  cases hk : (st.graph.kind t).counter? with
  | none => exact ⟨st, .pure _ st, hst, rfl, fun key => by simp [hk]⟩
  | some key =>
    refine ⟨_, .count key st, ⟨hst.graph, hst.counters.add key 1⟩, rfl, fun key' => ?_⟩
    rw [counter, Metrics.count, hst.counters.get_add]
    by_cases hkey : key' = key
    · simp [hk, hkey, counter]
    · simp [hk, hkey, Ne.symm hkey, counter]

namespace Records

theorem finish (hf : f.Proper g) : Records g Ty.In (MonadFold.finish f) f.finish := by
  intro log st hst hg
  have hf := hf.mono hg
  obtain ⟨t, st₁, hbuild, hcases⟩ := hf.build
  have hbuilt : st₁.Sound ∧ st₁.graph.Has t ∧ st.graph.KindsStay st₁.graph ∧
      st.graph.unionsAdded st₁.graph = [st₁.graph.kind t].count .union ∧
      st₁.metrics = st.metrics := by
    rcases hcases with ⟨rfl, hhas, hkind⟩ | ⟨rfl, rfl⟩
    · refine ⟨hst, hhas, .refl _, ?_, rfl⟩
      rw [Graph.unionsAdded_of_size_eq rfl, List.count_eq_zero.2 (by simpa using Ne.symm hkind)]
    · refine ⟨⟨hf.wellFormed_push hst.graph, hst.counters⟩, by simp [Graph.Has], .push _ _, ?_, rfl⟩
      rw [Graph.unionsAdded_push, Graph.kind, Graph.shape_push_size]
      rfl
  obtain ⟨hst₁, hhas, hkinds, hunions, hmetrics⟩ := hbuilt
  -- Counting comes after building, and leaves the graph as it is.
  obtain ⟨st₂, htally, hst₂, hgraph, hcounters⟩ := hst₁.tally t
  rw [← hgraph] at hhas hkinds hunions hcounters
  have hfinish : f.finish.Returns st t st₂ :=
    hbuild.bind ((TypeM.Returns.graph st₁).bind (htally.bind (.pure t st₂)))
  refine ⟨.ok t, [st₂.graph.kind t], st₂, ?_, hfinish, hst₂, ⟨hkinds, hunions, ?_⟩, ?_⟩
  · exact ExceptT.run_bind_of_ok (LedgerM.run_ofTypeM hfinish)
  · intro key _
    rw [hcounters, Store.counter, hmetrics, Store.counter]
  · rintro _ ⟨⟩
    exact hhas

theorem alloc (hs : g.Admits s) (hunion : s.kind ≠ .union) :
    Records g (fun k h => k < h.size ∧ h.kind (.node k) = s.kind) (LedgerM.ofTypeM (TypeM.alloc s))
      (TypeM.alloc s) := by
  refine .ofTypeM fun st hst hg => ⟨_, _, TypeM.Returns.alloc s st,
    ⟨hst.graph.push (hg.admits hs), hst.counters⟩, .quiet (.push _ _) ?_ fun _ _ => rfl, ?_⟩
  · rw [Graph.unionsAdded_push, if_neg hunion]
  · rintro _ ⟨⟩
    exact ⟨by simp, by rw [Graph.kind, Graph.shape_push_size]⟩

theorem fill (hcopy : copy < g.size) (hkind : s.kind = g.kind (.node copy)) (hs : g.Admits s) :
    Records g (fun _ _ => True) (LedgerM.ofTypeM (TypeM.fill copy s)) (TypeM.fill copy s) := by
  refine .ofTypeM fun st hst hg => ?_
  have hlt : copy < st.graph.size := hcopy.trans_le hg.size_le
  have hkind : s.kind = st.graph.kind (.node copy) := hkind.trans (hg.kind_eq copy hcopy).symm
  refine ⟨_, _, TypeM.Returns.fill copy s st,
    ⟨hst.graph.replace hlt hkind (hg.admits hs), hst.counters⟩,
    .quiet (.replace hlt hkind) (Graph.unionsAdded_of_size_eq ?_) fun _ _ => rfl,
    fun _ _ => trivial⟩
  exact Graph.size_replace _ _ _

theorem countUnwrapped : Records g (fun _ _ => True)
    (LedgerM.ofTypeM (TypeM.count Metrics.instancesUnwrapped))
    (TypeM.count Metrics.instancesUnwrapped) := by
  refine .ofTypeM fun st hst _ => ⟨_, _, TypeM.Returns.count _ st,
    ⟨hst.graph, hst.counters.add _ 1⟩,
    .quiet (.refl _) (Graph.unionsAdded_of_size_eq rfl) fun key hkey => ?_, fun _ _ => trivial⟩
  have hne : ∀ key ∈ Metrics.endings, key ≠ Metrics.instancesUnwrapped := by decide
  rw [Store.counter, Metrics.count, hst.counters.get_add, if_neg (hne key hkey), Store.counter]

variable {unwrap' : NodeId → LedgerM Ty} {unwrap : NodeId → TypeM Ty}

theorem settle (hunwrap : ∀ i, Records g Ty.In (unwrap' i) (unwrap i)) (fuel : Nat)
    (ht : g.Has t) :
    Records g (fun t h => h.Has t ∧ h.kind t ≠ .instantiation) (Fold.settle unwrap' fuel t)
      (Fold.settle unwrap fuel t) := by
  induction fuel generalizing g t with
  | zero => exact .throw _
  | succ fuel ih =>
    cases t with
    | node i =>
      refine graph_bind fun h hgh _ => ?_
      have hstay (hi : h.kind (.node i) ≠ .instantiation) :
          Records h (fun t h => h.Has t ∧ h.kind t ≠ .instantiation)
            (Pure.pure (.node i) : LedgerM Ty) (Pure.pure (.node i)) :=
        .pure fun h' hh' => ⟨hh'.has (hgh.has ht), hh'.kindOf (hgh.has ht) ▸ hi⟩
      cases hi : h.shape i with
      | instantiation origin args =>
        refine ((hunwrap i).later hgh).bind fun t h' hh' _ ht => ih (fun i => ?_) ht
        exact (hunwrap i).later (hgh.trans hh')
      | callable role => exact hstay (by cases role <;> simp [Graph.kind, hi, Shape.kind])
      | _ => exact hstay (by simp [Graph.kind, hi, Shape.kind])
    | _ => exact .pure fun _ _ => ⟨trivial, by simp [Graph.kind]⟩

theorem add (hunwrap : ∀ i, Records g Ty.In (unwrap' i) (unwrap i)) (fuel : Nat)
    (hf : f.Proper g) (ht : g.Has t) :
    Records g (fun f h => f.Proper h) (Fold.add unwrap' fuel f t) (Fold.add unwrap fuel f t) := by
  rw [Fold.add, Fold.add]
  split
  · exact .pure fun h hgh => hf.mono hgh
  · refine (settle hunwrap fuel ht).bind fun t h hgh _ hsettled => ?_
    obtain ⟨ht, hopen⟩ := hsettled
    refine graph_bind fun h' hh' hwell => ?_
    obtain ⟨f', habsorb, hf'⟩ := (hf.mono (hgh.trans hh')).absorb hwell (hh'.has ht)
      (hh'.kindOf ht ▸ hopen)
    exact .ofExcept habsorb fun _ hk => hf'.mono hk

end Records

theorem Graph.Admits.refill {types : List Ty} (hs : g.Admits s) (hunion : s.kind ≠ .union)
    (htypes : ∀ t ∈ types, g.Has t) : g.Admits (s.refill types) := by
  by_cases hgeneric : s.kind = .generic
  · obtain ⟨name, params, body, rfl⟩ := Shape.exists_generic_of_kind hgeneric
    exact hs
  · refine Graph.admits_of_kind_ne ?_ ?_ fun x hx => ?_
    · rwa [Shape.kind_refill]
    · rwa [Shape.kind_refill]
    · rcases Shape.children_refill hunion hx with hx | rfl
      · exact htypes x hx
      · trivial

def Graph.HasImages (g : Graph) (μ : Images) : Prop := ∀ i t, μ.lookup i = some t → g.Has t

theorem Graph.HasImages.cons {μ : Images} (hμ : g.HasImages μ) (i : NodeId) (ht : g.Has t) :
    g.HasImages ((i, t) :: μ) := by
  intro j a ha
  rcases Substitution.lookup_cons_cases ha with ⟨-, rfl⟩ | ⟨-, ha⟩
  · exact ht
  · exact hμ j a ha

theorem Graph.HasImages.later {μ : Images} (hμ : g.HasImages μ) (hgh : g.KindsStay h) :
    h.HasImages μ :=
  fun i t ht => hgh.has (hμ i t ht)

/-- Two substitutions that agree as `Records` says, from any images that are there. -/
def RecordsSubst (g : Graph) (Q : α → Graph → Prop) (m' : SubstT LedgerM α) (m : SubstT TypeM α) :
    Prop :=
  ∀ μ, g.HasImages μ →
    Records g (fun p h => Q p.1 h ∧ h.HasImages p.2) (m'.run μ) (m.run μ)

namespace RecordsSubst

variable {Q : α → Graph → Prop} {Q' : β → Graph → Prop} {m' : SubstT LedgerM α} {m : SubstT TypeM α}
  {k' : α → SubstT LedgerM β} {k : α → SubstT TypeM β}

theorem pure {a : α} (ha : ∀ h, g.KindsStay h → Q a h) :
    RecordsSubst g Q (Pure.pure a) (Pure.pure a) :=
  fun _ hμ => Records.pure fun h hgh => ⟨ha h hgh, hμ.later hgh⟩

theorem bind (hm : RecordsSubst g Q m' m)
    (hk : ∀ a h, g.KindsStay h → h.WellFormed → Q a h → RecordsSubst h Q' (k' a) (k a)) :
    RecordsSubst g Q' (m' >>= k') (m >>= k) :=
  fun μ hμ => (hm μ hμ).bind fun p h hgh hwell hp => hk p.1 h hgh hwell hp.1 p.2 hp.2

theorem lift {m' : LedgerM α} {m : TypeM α} (hm : Records g Q m' m)
    (hmono : ∀ a h h', h.KindsStay h' → Q a h → Q a h') :
    RecordsSubst g Q (liftM m') (liftM m) := by
  intro μ hμ
  refine hm.bind fun a h hgh _ ha => .pure fun h' hh' => ⟨hmono a h h' hh' ha, ?_⟩
  exact hμ.later (hgh.trans hh')

theorem graph_bind {k' : Graph → SubstT LedgerM β} {k : Graph → SubstT TypeM β}
    (hk : ∀ h, g.KindsStay h → h.WellFormed → RecordsSubst h Q' (k' h) (k h)) :
    RecordsSubst g Q' (liftM (LedgerM.ofTypeM TypeM.graph) >>= k') (liftM TypeM.graph >>= k) :=
  fun μ hμ => Records.graph_bind fun h hgh hwell => hk h hgh hwell μ (hμ.later hgh)

theorem get : RecordsSubst g (fun μ h => h.HasImages μ) MonadState.get MonadState.get :=
  fun _ hμ => Records.pure fun _ hgh => ⟨hμ.later hgh, hμ.later hgh⟩

theorem remember (i : NodeId) (ht : g.Has t) :
    RecordsSubst g (fun _ _ => True) (modify ((i, t) :: ·)) (modify ((i, t) :: ·)) :=
  fun _ hμ => Records.pure fun _ hgh => ⟨trivial, (hμ.cons i ht).later hgh⟩

end RecordsSubst

section

variable {subst' : Ty → SubstT LedgerM Ty} {subst : Ty → SubstT TypeM Ty}
  {add' : Fold → Ty → LedgerM Fold} {add : Fold → Ty → TypeM Fold} {b : Bindings}

def RecordsImages (g : Graph) (subst' : Ty → SubstT LedgerM Ty) (subst : Ty → SubstT TypeM Ty) :
    Prop :=
  ∀ t h, g.KindsStay h → h.Has t → RecordsSubst h Ty.In (subst' t) (subst t)

def RecordsAdding (g : Graph) (add' : Fold → Ty → LedgerM Fold) (add : Fold → Ty → TypeM Fold) :
    Prop :=
  ∀ f t h, g.KindsStay h → f.Proper h → h.Has t →
    Records h (fun f h => f.Proper h) (add' f t) (add f t)

theorem RecordsImages.later (hsubst : RecordsImages g subst' subst) (hgh : g.KindsStay h) :
    RecordsImages h subst' subst :=
  fun t k hk => hsubst t k (hgh.trans hk)

theorem RecordsAdding.later (hadd : RecordsAdding g add' add) (hgh : g.KindsStay h) :
    RecordsAdding h add' add :=
  fun f t k hk => hadd f t k (hgh.trans hk)

namespace RecordsSubst

theorem fillChildren {done : List Ty}
    (hsubst : RecordsImages g subst' subst) (hcopy : copy < g.size)
    (hkind : s.kind = g.kind (.node copy)) (hs : g.Admits s) (hunion : s.kind ≠ .union)
    (hts : ∀ t ∈ ts, g.Has t) (hdone : ∀ t ∈ done, g.Has t) :
    RecordsSubst g (fun _ _ => True) (Substitution.fillChildren subst' copy s ts done)
      (Substitution.fillChildren subst copy s ts done) := by
  induction ts generalizing g done with
  | nil => exact .pure fun _ _ => trivial
  | cons t ts ih =>
    refine (hsubst t g (.refl g) (hts t (by simp))).bind fun image h hgh _ himage => ?_
    have hdone' : ∀ t ∈ done ++ [image], h.Has t := by
      intro t ht
      rcases List.mem_append.1 ht with ht | ht
      · exact hgh.has (hdone t ht)
      · exact List.mem_singleton.1 ht ▸ himage
    have hlt : copy < h.size := hcopy.trans_le hgh.size_le
    have hkind' : s.kind = h.kind (.node copy) := hkind.trans (hgh.kind_eq copy hcopy).symm
    have hfill : Records h (fun _ _ => True)
        (LedgerM.ofTypeM (TypeM.fill copy (s.refill (done ++ [image]))))
        (TypeM.fill copy (s.refill (done ++ [image]))) :=
      .fill hlt (by rwa [Shape.kind_refill]) ((hgh.admits hs).refill hunion hdone')
    refine (lift hfill fun _ _ _ _ => id).bind fun _ h' hh' _ _ => ?_
    have hgh' := hgh.trans hh'
    refine ih (hsubst.later hgh') (hlt.trans_le hh'.size_le) ?_ (hgh'.admits hs)
      (fun t ht => hgh'.has (hts t (by simp [ht]))) fun t ht => ?_
    · exact hkind'.trans (hh'.kind_eq copy hlt).symm
    · exact hh'.has (hdone' t ht)

theorem foldMembers (hsubst : RecordsImages g subst' subst) (hadd : RecordsAdding g add' add)
    (hts : ∀ t ∈ ts, g.Has t) (hf : f.Proper g) :
    RecordsSubst g (fun f h => f.Proper h) (Substitution.foldMembers subst' add' ts f)
      (Substitution.foldMembers subst add ts f) := by
  induction ts generalizing g f with
  | nil => exact .pure fun _ hgh => hf.mono hgh
  | cons t ts ih =>
    refine (hsubst t g (.refl g) (hts t (by simp))).bind fun image h hgh _ himage => ?_
    have hadd' := hadd f image h hgh (hf.mono hgh) himage
    refine (lift hadd' fun _ _ _ hk hf => hf.mono hk).bind fun f' h' hh' _ hf' => ?_
    have hgh' := hgh.trans hh'
    exact ih (hsubst.later hgh') (hadd.later hgh') (fun t ht => hgh'.has (hts t (by simp [ht]))) hf'

theorem copied (hsubst : RecordsImages g subst' subst) (i : NodeId) (hs : g.Admits s)
    (hunion : s.kind ≠ .union) :
    RecordsSubst g Ty.In
      (do
        let copy ← LedgerM.ofTypeM (TypeM.alloc (s.refill []))
        modify ((i, .node copy) :: ·)
        Substitution.fillChildren subst' copy s s.children []
        return .node copy)
      (do
        let copy ← (TypeM.alloc (s.refill []) : TypeM NodeId)
        modify ((i, .node copy) :: ·)
        Substitution.fillChildren subst copy s s.children []
        return .node copy) := by
  have hempty : g.Admits (s.refill []) := hs.refill hunion (by simp)
  have halloc := Records.alloc hempty (by rwa [Shape.kind_refill])
  refine (lift halloc fun k h h' hh' hk => ?_).bind fun copy h hgh _ hcopy => ?_
  · exact ⟨hk.1.trans_le hh'.size_le, (hh'.kind_eq k hk.1).trans hk.2⟩
  obtain ⟨hcopy, hkind⟩ := hcopy
  rw [Shape.kind_refill] at hkind
  have hhas : h.Has (.node copy) := hcopy
  refine (remember i hhas).bind fun _ h' hh' _ _ => ?_
  have hgh' := hgh.trans hh'
  refine (fillChildren (hsubst.later hgh') (hcopy.trans_le hh'.size_le)
    ((hh'.kind_eq copy hcopy).trans hkind).symm (hgh'.admits hs) hunion
    (fun t ht => hgh'.has (hs.1 t ht)) (by simp)).bind fun _ k hk _ _ => .pure fun k' hk' => ?_
  exact (hh'.trans (hk.trans hk')).has hhas

theorem unless_known {m' : SubstT LedgerM Ty} {m : SubstT TypeM Ty} (hi : g.Has (.node i))
    (c : Bool) (hm : ∀ h, g.KindsStay h → RecordsSubst h Ty.In m' m) :
    RecordsSubst g Ty.In
      (do
        match (← MonadState.get).lookup i with
        | some t => return t
        | none => if c then return .node i else m')
      (do
        match (← MonadState.get).lookup i with
        | some t => return t
        | none => if c then return .node i else m) := by
  refine get.bind fun μ h hgh _ hμ => ?_
  cases hl : μ.lookup i with
  | some t => exact .pure fun k hk => hk.has (hμ i t hl)
  | none =>
    cases c with
    | true => exact .pure fun k hk => hk.has (hgh.has hi)
    | false => exact hm h hgh

theorem image (hb : ∀ i t, b.lookup i = some t → g.Has t) (hadd : RecordsAdding g add' add)
    (fuel : Nat) (ht : g.Has t) :
    RecordsSubst g Ty.In (Substitution.image b add' fuel t) (Substitution.image b add fuel t) := by
  induction fuel generalizing g t with
  | zero => exact fun _ _ => .throw _
  | succ fuel ih =>
    cases t with
    | node i =>
      refine graph_bind fun h hgh hwell => ?_
      have hsubst : RecordsImages h (Substitution.image b add' fuel)
          (Substitution.image b add fuel) := by
        intro t k hk ht
        have hgk := hgh.trans hk
        exact ih (fun i a ha => hgk.has (hb i a ha)) (hadd.later hgk) ht
      have hhas := hgh.has ht
      have hadmits := hwell.admits i
      have hcopied (hi : (h.shape i).kind ≠ .union) (k : Graph) (hk : h.KindsStay k) :=
        copied (hsubst.later hk) i (hk.admits hadmits) hi
      cases hi : h.shape i with
      | unresolved name =>
        refine .pure fun k hk => ?_
        cases hl : b.lookup i with
        | none => exact hk.has hhas
        | some a => exact hk.has (hgh.has (hb i a hl))
      | union u =>
        -- The images of the members are folded anew, the only fold of a substitution.
        refine unless_known hhas _ fun k hk => ?_
        have hmembers : ∀ t ∈ u.toList, h.Has t := fun t ht => hadmits.1 t (by rwa [hi])
        refine (foldMembers (hsubst.later hk) (hadd.later (hgh.trans hk))
          (fun t ht => hk.has (hmembers t ht)) (.never k)).bind fun f k' hk' _ hf => ?_
        refine (lift (.finish hf) fun _ _ _ hk ht => hk.has ht).bind fun t k₁ hk₁ _ ht => ?_
        refine (remember i ht).bind fun _ k₂ hk₂ _ _ => ?_
        exact .pure fun k₃ hk₃ => (hk₂.trans hk₃).has ht
      | callable role params returns =>
        rw [hi] at hcopied
        exact unless_known hhas _ (hcopied (by cases role <;> simp [Shape.kind]))
      | _ =>
        rw [hi] at hcopied
        exact unless_known hhas _ (hcopied (by simp [Shape.kind]))
    | _ => exact .pure fun _ _ => trivial

end RecordsSubst

theorem Records.instantiate (hadd : RecordsAdding g add' add) (i : NodeId) :
    Records g Ty.In (Substitution.instantiate add' i) (Substitution.instantiate add i) := by
  have herror (h : Graph) :
      Records h Ty.In (Pure.pure .error : LedgerM Ty) (Pure.pure .error : TypeM Ty) :=
    .pure fun _ _ => trivial
  refine graph_bind fun h hgh hwell => ?_
  cases hi : h.shape i with
  | instantiation origin args =>
    cases origin with
    | none => exact herror h
    | some o =>
      cases ho : h.shape o with
      | generic name params body =>
        have hbound (p : NodeId) (t : Ty) (ht : (Bindings.ofArgs params args).lookup p = some t) :
            h.Has t := by
          rcases Bindings.mem_args_of_lookup ht with ht | rfl
          · exact hwell.closed.has_arg hi ht
          · trivial
        have himage := RecordsSubst.image hbound (hadd.later hgh) (Substitution.depth h)
          (hwell.bodies o name params body ho) [] (by rintro _ _ ⟨⟩)
        simp only [ho]
        rw [StateT.run', StateT.run', map_eq_pure_bind, map_eq_pure_bind]
        exact himage.bind fun p k _ _ hp => .pure fun k' hk' => hk'.has hp.1
      | _ =>
        simp only [ho]
        exact herror h
  | _ => exact herror h

end

end FlowTyping
