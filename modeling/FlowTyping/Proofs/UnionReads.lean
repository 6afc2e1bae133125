import FlowTyping.Proofs.TwinReads

/-!
Reading a property of each of several types and folding the answers. Either every answer is there
and the fold is that of the answers, or the read is lost: it ends in one of the absorbing words or
not at all. Which of the two it is depends neither on the order of the types nor on the store.
-/

namespace FlowTyping

open FlowTyping.Graph (Tidy Paired Meets Ends)

variable {g h h' h₁ h₂ : Graph} {W : World} {O : List (NodeId × NodeId)} {r : Resolvers}
  {read : Ty → TypeM Ty} {key : PropertyKey} {x x₁ x₂ y z z₁ : Ty} {xs zs : List Ty} {i : NodeId}
  {u : Members} {f k : Fold} {st st₁ st₂ s s₁ s₂ t₁ : Store}

namespace Graph

theorem Tidy.diagonal (hh : Tidy g [] h) : Paired g [] h.likeness h h where
  twins := twins_likeness hh.closed fun _ _ => hh.symm
  base i hi := ⟨hi.trans_le hh.base.size_le, hi.trans_le hh.base.size_le, .refl h _⟩
  alone := by simp
  left := hh
  right := hh

theorem clear_nil (hx : h.Has x) : h.Clear [] x := ⟨hx, by simp⟩

theorem Meets.diagonal (hx : h.Has x) : Meets g [] h.likeness h x h x :=
  ⟨(Similar.refl h x).pairs hx hx, clear_nil hx, clear_nil hx⟩

theorem Paired.mono {h₁' h₂' : Graph} (hp : Paired g [] W h₁ h₂) (hext₁ : h₁.Extends h₁')
    (hext₂ : h₂.Extends h₂') (hh₁ : Tidy g [] h₁') (hh₂ : Tidy g [] h₂') :
    Paired g [] W h₁' h₂' where
  twins := hp.twins.mono hext₁ hext₂
  base := hp.base
  alone := by simp
  left := hh₁
  right := hh₂

theorem Meets.extends {h₁' h₂' : Graph} (hp : Paired g [] W h₁ h₂) (hext₁ : h₁.Extends h₁')
    (hext₂ : h₂.Extends h₂') (hx : Meets g [] W h₁ x₁ h₂ x₂) : Meets g [] W h₁' x₁ h₂' x₂ :=
  ⟨hx.pairs, hx.left.mono hp.left.closed hext₁, hx.right.mono hp.right.closed hext₂⟩

theorem Paired.flip (hp : Paired g [] W h₁ h₂) : Paired g [] (flip W) h₂ h₁ where
  twins := hp.twins.flip
  base := hp.base
  alone := by simp
  left := hp.right
  right := hp.left

theorem Meets.flip (hx : Meets g [] W h₁ x₁ h₂ x₂) : Meets g [] (flip W) h₂ x₂ h₁ x₁ :=
  ⟨hx.pairs.flip, hx.right, hx.left⟩

def Quiet (h : Graph) (z : Ty) : Prop :=
  ∃ k, Fold.absorb h .never z = .ok k ∧ k.isTerminal = false

end Graph

namespace Fold

def word : Fold → Ty
  | .error => .error
  | .any => .any
  | .unknown => .unknown
  | _ => .never

theorem finish_word (hk : k.isTerminal = true) (st : Store) :
    ∃ st', k.finish.Returns st k.word st' ∧ st'.graph = st.graph := by
  refine finish_of_build ?_
  cases k with
  | never | compound => cases hk
  | _ => exact .pure _ st

theorem Sound.finish (hst : Tidy g [] st.graph) (hf : f.Sound st.graph []) :
    ∃ t st', f.finish.Returns st t st' ∧ f.EndsIn st'.graph t ∧ st.graph.Extends st'.graph ∧
      Tidy g [] st'.graph := by
  obtain ⟨t, st', hrun, hends, hgraph⟩ := finish_returns f st
  refine ⟨t, st', hrun, hends, ?_⟩
  rcases hgraph with ⟨hgraph, -⟩ | ⟨hgraph, rfl⟩
  · rw [hgraph]
    exact ⟨.refl _, hst⟩
  · rw [hgraph] at hends ⊢
    refine ⟨.push _ _, hst.push_union hf.fresh ?_⟩
    cases f with
    | compound u =>
      have hpos := List.length_pos_iff.2 (hf.reached u rfl).2
      have hne : u.toList.length ≠ 1 := fun hone => by
        obtain ⟨m, hm⟩ := List.length_eq_one_iff.1 hone
        simp only [EndsIn, hm] at hends
        have hhas := (hf.fresh.clear m (by simp [members, hm])).has
        rw [← hends] at hhas
        exact Nat.lt_irrefl _ hhas
      simp only [members]
      omega
    | _ => cases hends

end Fold

namespace Resolvers

def answer (r : Resolvers) (read : Ty → TypeM Ty) (x : Ty) : TypeM Ty :=
  read x >>= Fold.settle r.unwrap r.limit

def takeRead (r : Resolvers) (read : Ty → TypeM Ty) (f : Fold) (x : Ty) : TypeM Fold := do
  r.addTo f (← read x)

theorem answer_joint (hg : g.Regular) (hr : r.instance? = none) (hread : Graph.Lockstep g read)
    (hp : Paired g O W st₁.graph st₂.graph) (hx : Meets g O W st₁.graph x₁ st₂.graph x₂) :
    Joint g (r.answer read x₁) st₁ (r.answer read x₂) st₂
      (Ends g O W st₁.graph st₂.graph (Fold.Settled g O)) :=
  (hread O W st₁ st₂ x₁ x₂ hp hx).bind_ends fun _ _ _ _ _ _ hp' hy =>
    Fold.settle_joint (unwrapsAlike hg hr r.limit) r.limit hp' hy

theorem takeRead_of_isTerminal (hf : f.isTerminal = true) :
    r.takeRead read f x = read x >>= fun _ => pure f := by
  simp only [takeRead, addTo, Fold.add, hf, if_true]

theorem takeRead_eq (hf : f.isTerminal = false) :
    r.takeRead read f x = r.answer read x >>= fun z =>
      TypeM.graph >>= fun h => TypeM.ofExcept (f.absorb h z) := by
  simp only [takeRead, addTo, Fold.add, hf, Bool.false_eq_true, if_false, answer, bind_assoc,
    TypeM.liftM_self]

structure From (g h : Graph) (s : Store) : Prop where
  ext : h.Extends s.graph
  tidy : Tidy g [] s.graph

theorem From.trans (hs : From g h s) (ht : From g s.graph t₁) : From g h t₁ :=
  ⟨hs.ext.trans ht.ext, ht.tidy⟩

theorem lockstep_cases (hread : Graph.Lockstep g read) (hs : Tidy g [] s.graph)
    (hx : s.graph.Has x) :
    (∃ y s', (read x).Returns s y s' ∧ From g s.graph s' ∧ s'.graph.Has y) ∨
      ∃ s', (read x).run.run s = (.error .unendingInstance, s') ∧ Tidy g [] s'.graph := by
  cases hread [] _ s s x x hs.diagonal (.diagonal hx) with
  | returns hrun _ hends =>
    obtain ⟨W', hgrown, hp, hy⟩ := hends
    exact .inl ⟨_, _, hrun, ⟨hgrown.left, hp.left⟩, hy.left.has⟩
  | unending hrun _ hs' => exact .inr ⟨_, hrun, hs'⟩

theorem answer_cases (hg : g.Regular) (hr : r.instance? = none) (hread : Graph.Lockstep g read)
    (hs : Tidy g [] s.graph) (hx : s.graph.Has x) :
    (∃ z s', (r.answer read x).Returns s z s' ∧ From g s.graph s' ∧ s'.graph.Has z ∧
        s'.graph.kind z ≠ .instantiation) ∨
      ∃ s', (r.answer read x).run.run s = (.error .unendingInstance, s') ∧ Tidy g [] s'.graph := by
  cases answer_joint hg hr hread hs.diagonal (.diagonal hx) with
  | returns hrun _ hends =>
    obtain ⟨W', hgrown, hp, hz⟩ := hends
    exact .inl ⟨_, _, hrun, ⟨hgrown.left, hp.left⟩, hz.left.has, hz.opened⟩
  | unending hrun _ hs' => exact .inr ⟨_, hrun, hs'⟩

/-- What one store between the graphs `h` and `h'` has said of a type. -/
def Answered (g : Graph) (r : Resolvers) (read : Ty → TypeM Ty) (h h' : Graph) (x z : Ty) : Prop :=
  ∃ s s', From g h s ∧ (r.answer read x).Returns s z s' ∧ From g s.graph s' ∧
    s'.graph.Quiet z ∧ s'.graph.Has z ∧ s'.graph.kind z ≠ .instantiation ∧ s'.graph.Extends h'

structure Gathered (g : Graph) (r : Resolvers) (read : Ty → TypeM Ty) (h : Graph) (xs : List Ty)
    (f k : Fold) (s : Store) : Prop where
  start : From g h s
  sound : k.Sound s.graph []
  open_ : k.isTerminal = false
  answers : ∃ zs, List.Forall₂ (Answered g r read h s.graph) xs zs ∧
    zs.foldlM (Fold.absorb s.graph) f = .ok k

/-- A fold that was lost: it is one of the absorbing words, or it has not come to an end. -/
def IsLoss : Except Fault Fold → Prop
  | .ok k => k.isTerminal = true
  | .error e => e = .unendingInstance

def LostWith (g : Graph) (m : TypeM Fold) (st : Store) (o : Except Fault Fold) : Prop :=
  IsLoss o ∧ ∃ s, m.run.run st = (o, s) ∧ Tidy g [] s.graph

def LosesAt (r : Resolvers) (read : Ty → TypeM Ty) (s : Store) (x : Ty) : Except Fault Fold → Prop
  | .ok k => k.isTerminal = true ∧ ∃ z s', (r.answer read x).Returns s z s' ∧
      s'.graph.kind z ≠ .instantiation ∧ Fold.absorb s'.graph .never z = .ok k
  | .error e => e = .unendingInstance ∧ ∃ s', (r.answer read x).run.run s = (.error e, s')

def LostOn (g : Graph) (r : Resolvers) (read : Ty → TypeM Ty) (h : Graph) (x : Ty)
    (o : Except Fault Fold) : Prop :=
  ∃ s, From g h s ∧ LosesAt r read s x o

variable {o : Except Fault Fold}

theorem LostOn.mono {h₀ : Graph} (hext : h₀.Extends h) (hx : LostOn g r read h x o) :
    LostOn g r read h₀ x o := by
  obtain ⟨s, hs, hlost⟩ := hx
  exact ⟨s, ⟨hext.trans hs.ext, hs.tidy⟩, hlost⟩

theorem LostWith.of_bind {α : Type} {m : TypeM α} {a : α} {k : α → TypeM Fold}
    (hm : m.Returns st a s) (hk : LostWith g (k a) s o) : LostWith g (m >>= k) st o := by
  obtain ⟨hloss, s', hrun, hs'⟩ := hk
  exact ⟨hloss, s', (ExceptT.run_bind_of_ok hm).trans hrun, hs'⟩

theorem losesAt_of_read (hrun : (read x).run.run st = (.error .unendingInstance, s)) :
    LosesAt r read st x (.error .unendingInstance) :=
  ⟨rfl, s, ExceptT.run_bind_of_error hrun⟩

theorem lost_of_isTerminal (hread : Graph.Lockstep g read) (hf : f.isTerminal = true)
    (hst : Tidy g [] st.graph) (hxs : ∀ x ∈ xs, st.graph.Has x) :
    ∃ o, LostWith g (xs.foldlM (r.takeRead read) f) st o ∧
      (o = .ok f ∨ ∃ x ∈ xs, LostOn g r read st.graph x o) := by
  induction xs generalizing st with
  | nil => exact ⟨.ok f, ⟨hf, st, rfl, hst⟩, .inl rfl⟩
  | cons x xs ih =>
    rw [List.foldlM_cons, takeRead_of_isTerminal hf, bind_assoc]
    simp only [pure_bind]
    rcases lockstep_cases hread hst (hxs x (by simp)) with ⟨y, s, hrun, hs, -⟩ | ⟨s, hrun, hs⟩
    · obtain ⟨o, hlost, ho⟩ := ih hs.tidy fun x hx => hs.ext.has (hxs x (by simp [hx]))
      refine ⟨o, .of_bind hrun hlost, ho.imp_right ?_⟩
      rintro ⟨y, hy, hlost⟩
      exact ⟨y, by simp [hy], hlost.mono hs.ext⟩
    · have hlost : LosesAt r read st x (.error .unendingInstance) := losesAt_of_read hrun
      exact ⟨.error .unendingInstance, ⟨rfl, s, ExceptT.run_bind_of_error hrun, hs⟩,
        .inr ⟨x, by simp, st, ⟨.refl _, hst⟩, hlost⟩⟩

theorem Answered.mono {h₀ : Graph} (hext : h₀.Extends h) (hx : Answered g r read h h' x z) :
    Answered g r read h₀ h' x z := by
  obtain ⟨s, s', hs, hrest⟩ := hx
  exact ⟨s, s', ⟨hext.trans hs.ext, hs.tidy⟩, hrest⟩

theorem Gathered.cons {f₁ : Fold} (hst : Tidy g [] st.graph) (hf : f.Sound st.graph [])
    (hrun : (r.answer read x).Returns st z s) (hs : From g st.graph s) (hz : s.graph.Has z)
    (hopen : s.graph.kind z ≠ .instantiation) (hquiet : s.graph.Quiet z)
    (habsorb : f.absorb s.graph z = .ok f₁) (hrest : Gathered g r read s.graph xs f₁ k s₁) :
    Gathered g r read st.graph (x :: xs) f k s₁ := by
  obtain ⟨zs, hzs, hfold⟩ := hrest.answers
  have hext := hrest.start.ext
  refine ⟨hs.trans hrest.start, hrest.sound, hrest.open_, z :: zs, .cons ?_ ?_, ?_⟩
  · exact ⟨st, s, ⟨.refl _, hst⟩, hrun, hs, hquiet, hz, hopen, hext⟩
  · exact hzs.imp fun _ _ h => h.mono hs.ext
  · -- later answers do not change how this one was taken in
    have hnodes (j : NodeId) (hj : .node j ∈ f.members.toList) :
        s.graph.AgreesAt s₁.graph (.node j) :=
      hext.agreesAt hs.tidy.closed (hs.ext.has (hf.fresh.clear _ hj).has)
    have hsame : [z].foldlM (Fold.absorb s₁.graph) f = [z].foldlM (Fold.absorb s.graph) f :=
      Fold.foldlM_absorb_congr (by simpa using hs.tidy.absorbable hopen)
        (by simpa using hext.agreesAt hs.tidy.closed hz) hnodes
    simp only [List.foldlM_cons, List.foldlM_nil, bind_pure] at hsame
    rw [List.foldlM_cons, hsame, habsorb]
    exact hfold

theorem gathered_or_lost (hg : g.Regular) (hr : r.instance? = none) (hread : Graph.Lockstep g read)
    (hst : Tidy g [] st.graph) (hxs : ∀ x ∈ xs, st.graph.Has x) (hf : f.Sound st.graph [])
    (hterm : f.isTerminal = false) :
    (∃ k s, (xs.foldlM (r.takeRead read) f).Returns st k s ∧
        Gathered g r read st.graph xs f k s) ∨
      ∃ o, LostWith g (xs.foldlM (r.takeRead read) f) st o ∧
        ∃ x ∈ xs, LostOn g r read st.graph x o := by
  induction xs generalizing f st with
  | nil => exact .inl ⟨f, st, .pure f st, ⟨.refl _, hst⟩, hf, hterm, [], .nil, rfl⟩
  | cons x xs ih =>
    rw [List.foldlM_cons, takeRead_eq hterm, bind_assoc]
    rcases answer_cases hg hr hread hst (hxs x (by simp)) with
      ⟨z, s, hrun, hs, hz, hopen⟩ | ⟨s, hrun, hs⟩
    · obtain ⟨kz, -, hkz, -, -, hfresh, -⟩ :=
        (Meets.diagonal (g := g) hz).takenAlike hs.tidy.diagonal hopen
      have hf' := hf.congr hs.ext.size_le fun y hy => hs.ext.agreesAt hst.closed hy.has
      obtain ⟨habsorb, hsound⟩ := hf'.absorb hs.tidy hopen hkz hfresh
      have hxs' : ∀ y ∈ xs, s.graph.Has y := fun y hy => hs.ext.has (hxs y (by simp [hy]))
      have hstep : (TypeM.graph >>= fun h => TypeM.ofExcept (f.absorb h z)).Returns s
          (f.join s.graph kz) s :=
        (TypeM.Returns.graph s).bind (.ofExcept habsorb s)
      have hlost {o : Except Fault Fold}
          (ho : LostWith g (xs.foldlM (r.takeRead read) (f.join s.graph kz)) s o)
          (hon : ∃ y ∈ x :: xs, LostOn g r read st.graph y o) :
          ∃ o, LostWith g (r.answer read x >>= fun z =>
              (TypeM.graph >>= fun h => TypeM.ofExcept (f.absorb h z)) >>= fun f =>
                xs.foldlM (r.takeRead read) f) st o ∧
            ∃ y ∈ x :: xs, LostOn g r read st.graph y o :=
        ⟨o, .of_bind hrun (.of_bind hstep ho), hon⟩
      cases hkterm : kz.isTerminal with
      | true =>
        have hjoin := Fold.join_eq_right (g := s.graph) hterm hkterm
        obtain ⟨o, ho, hon⟩ := lost_of_isTerminal hread (hjoin ▸ hkterm) hs.tidy hxs'
        refine .inr (hlost ho ?_)
        rcases hon with rfl | ⟨y, hy, hon⟩
        · rw [hjoin]
          exact ⟨x, by simp, st, ⟨.refl _, hst⟩, hkterm, z, s, hrun, hopen, hkz⟩
        · exact ⟨y, by simp [hy], hon.mono hs.ext⟩
      | false =>
        rcases ih hs.tidy hxs' hsound (Fold.isTerminal_join hterm hkterm) with
          ⟨k, s', hrun', hgathered⟩ | ⟨o, ho, y, hy, hon⟩
        · refine .inl ⟨k, s', hrun.bind (hstep.bind hrun'), ?_⟩
          exact .cons hst hf hrun hs hz hopen ⟨kz, hkz, hkterm⟩ habsorb hgathered
        · exact .inr (hlost ho ⟨y, by simp [hy], hon.mono hs.ext⟩)
    · exact .inr ⟨.error .unendingInstance, ⟨rfl, s, ExceptT.run_bind_of_error hrun, hs⟩, x,
        by simp, st, ⟨.refl _, hst⟩, rfl, s, hrun⟩

theorem answer_joint_of_from (hg : g.Regular) (hr : r.instance? = none)
    (hread : Graph.Lockstep g read) (hp : Paired g [] W h₁ h₂) (hx : Meets g [] W h₁ x₁ h₂ x₂)
    (hs₁ : From g h₁ s₁) (hs₂ : From g h₂ s₂) :
    Joint g (r.answer read x₁) s₁ (r.answer read x₂) s₂
      (Ends g [] W s₁.graph s₂.graph (Fold.Settled g [])) :=
  answer_joint hg hr hread (hp.mono hs₁.ext hs₂.ext hs₁.tidy hs₂.tidy)
    (hx.extends hp hs₁.ext hs₂.ext)

/-- What loses a fold in one store loses it in the same way in every other. -/
theorem LostOn.losesAt (hg : g.Regular) (hr : r.instance? = none)
    (hread : Graph.Lockstep g read) (hp : Paired g [] W h₁ h₂) (hx : Meets g [] W h₁ x₁ h₂ x₂)
    (hlost : LostOn g r read h₁ x₁ o) (hs₂ : From g h₂ s₂) : LosesAt r read s₂ x₂ o := by
  obtain ⟨s₁, hs₁, hlost⟩ := hlost
  have hjoint := answer_joint_of_from hg hr hread hp hx hs₁ hs₂
  cases o with
  | error e =>
    obtain ⟨rfl, s', hrun⟩ := hlost
    cases hjoint with
    | returns hm₁ => exact absurd hrun hm₁.ne_error
    | unending _ hm₂ => exact ⟨rfl, _, hm₂⟩
  | ok k =>
    obtain ⟨hterm, z, s', hrun, hopen, hk⟩ := hlost
    cases hjoint with
    | unending hm₁ => exact absurd hm₁ hrun.ne_error
    | @returns z₁ t₁ z₂ t₂ hm₁ hm₂ hends =>
      obtain ⟨rfl, rfl⟩ := hrun.unique hm₁
      obtain ⟨W', -, hp', hz⟩ := hends
      obtain ⟨k₁, k₂, hk₁, hk₂, htwin, -, -⟩ := hz.toMeets.takenAlike hp' hz.opened
      obtain rfl : k = k₁ := by simpa using hk.symm.trans hk₁
      have hopen₂ : t₂.graph.kind z₂ ≠ .instantiation := by
        rw [hp'.twins.kind_eq hz.pairs]
        exact hz.opened
      cases htwin with
      | word => exact ⟨hterm, z₂, t₂, hm₂, hopen₂, hk₂⟩
      | compound => cases hterm

theorem Answered.not_lostOn (hg : g.Regular) (hr : r.instance? = none)
    (hread : Graph.Lockstep g read) (hp : Paired g [] W h₁ h₂) (hx : Meets g [] W h₁ x₁ h₂ x₂)
    (hz : Answered g r read h₁ h' x₁ z) : ¬ LostOn g r read h₂ x₂ o := by
  intro hlost
  obtain ⟨s, s', hs, hrun, -, ⟨k, hk, hopen⟩, -⟩ := hz
  have hloses := hlost.losesAt hg hr hread hp.flip hx.flip hs
  cases o with
  | error e =>
    obtain ⟨-, t, hrun'⟩ := hloses
    exact hrun.ne_error hrun'
  | ok k' =>
    obtain ⟨hterm, z', t, hrun', -, hk'⟩ := hloses
    obtain ⟨rfl, rfl⟩ := hrun.unique hrun'
    obtain rfl : k = k' := by simpa using hk.symm.trans hk'
    simp [hopen] at hterm

theorem Answered.paired {h₁' h₂' : Graph} {z₂ : Ty} (hg : g.Regular) (hr : r.instance? = none)
    (hread : Graph.Lockstep g read) (hp : Paired g [] W h₁ h₂) (hx : Meets g [] W h₁ x₁ h₂ x₂)
    (hz₁ : Answered g r read h₁ h₁' x₁ z₁) (hz₂ : Answered g r read h₂ h₂' x₂ z₂) :
    ∃ W' k₁ k₂, Paired g [] W' k₁ k₂ ∧ W'.Pairs z₁ z₂ ∧ k₁.Extends h₁' ∧ k₂.Extends h₂' := by
  obtain ⟨s₁, s₁', hs₁, hrun₁, -, -, -, -, hlater₁⟩ := hz₁
  obtain ⟨s₂, s₂', hs₂, hrun₂, -, -, -, -, hlater₂⟩ := hz₂
  cases answer_joint_of_from hg hr hread hp hx hs₁ hs₂ with
  | unending hm₁ => exact absurd hm₁ hrun₁.ne_error
  | @returns y₁ t₁ y₂ t₂ hm₁ hm₂ hends =>
    obtain ⟨rfl, rfl⟩ := hrun₁.unique hm₁
    obtain ⟨rfl, rfl⟩ := hrun₂.unique hm₂
    obtain ⟨W', -, hp', hz⟩ := hends
    exact ⟨W', _, _, hp', hz.pairs, hlater₁, hlater₂⟩

theorem Answered.similar {h₁' h₂' k : Graph} {z₂ : Ty} (hg : g.Regular) (hr : r.instance? = none)
    (hread : Graph.Lockstep g read) (hp : Paired g [] W h₁ h₂) (hx : Meets g [] W h₁ x₁ h₂ x₂)
    (hz₁ : Answered g r read h₁ h₁' x₁ z₁) (hz₂ : Answered g r read h₂ h₂' x₂ z₂)
    (hext₁ : h₁'.Extends k) (hext₂ : h₂'.Extends k) : k.Similar z₁ z₂ := by
  obtain ⟨W', k₁, k₂, hp', hz, hk₁, hk₂⟩ := hz₁.paired hg hr hread hp hx hz₂
  exact hp'.twins.similar_of_extends (hk₁.trans hext₁) (hk₂.trans hext₂) hz

theorem Gathered.later (hk : Gathered g r read h xs .never k s) (hext : s.graph.Extends h₁) :
    k.Reached h₁ ∧ ∃ zs, List.Forall₂ (Answered g r read h s.graph) xs zs ∧
      (zs.flatMap h₁.parts).foldlM (Fold.absorbMember h₁) .never = .ok k ∧
      ∀ z ∈ zs.flatMap h₁.parts, h₁.kind z ≠ .union ∧ h₁.kind z ≠ .instantiation ∧
        Fold.escalation h₁ z = none := by
  obtain ⟨zs, hzs, hfold⟩ := hk.answers
  have hs := hk.start.tidy
  have hz (z : Ty) (hz : z ∈ zs) : s.graph.AgreesAt h₁ z ∧ s.graph.Absorbable z := by
    obtain ⟨x, -, s₁, s₂, -, -, hs₂, -, hhas, hopen, hlater⟩ := exists_of_forall₂ hzs.flip hz
    refine ⟨hext.agreesAt hs.closed (hlater.has hhas), hs.absorbable ?_⟩
    rwa [hlater.kind_eq hhas]
  have hreached := hk.sound.congr hext.size_le fun x hx => hext.agreesAt hs.closed hx.has
  have hlater := Fold.foldlM_absorb_congr (f := .never) (fun z h => (hz z h).2)
    (fun z h => (hz z h).1) (by simp [Fold.members, Members.toList, Members.flag, Members.booleans,
      Literals.types])
  rw [hfold, Fold.foldlM_absorb_eq] at hlater
  have hparts (p : Ty) (hp : p ∈ zs.flatMap h₁.parts) :
      h₁.kind p ≠ .union ∧ h₁.kind p ≠ .instantiation := by
    obtain ⟨z, hmem, hp⟩ := List.mem_flatMap.1 hp
    exact (hz z hmem).1.absorbable (hz z hmem).2 p hp
  refine ⟨hreached.reached, zs, hzs, hlater, fun p hp => ⟨(hparts p hp).1, (hparts p hp).2, ?_⟩⟩
  by_contra hsome
  obtain ⟨e, he⟩ := Option.ne_none_iff_exists'.1 hsome
  have hterm := Fold.isTerminal_of_foldlM hparts (.inr ⟨p, hp, e, he⟩) hlater
  simp [hk.open_] at hterm

def lostType (o : Except Fault Fold) : Except Fault Ty := o.map Fold.word

theorem LostWith.finish {m : TypeM Fold} (hlost : LostWith g m st o) :
    ∃ s, (m >>= Fold.finish).run.run st = (lostType o, s) ∧ Tidy g [] s.graph := by
  obtain ⟨hloss, s, hrun, hs⟩ := hlost
  cases o with
  | error e => exact ⟨s, ExceptT.run_bind_of_error hrun, hs⟩
  | ok k =>
    obtain ⟨s', hfinish, hgraph⟩ := Fold.finish_word hloss s
    exact ⟨s', (ExceptT.run_bind_of_ok hrun).trans hfinish, hgraph ▸ hs⟩

theorem uniteReads_eq (xs : List Ty) :
    r.uniteReads read xs = xs.foldlM (r.takeRead read) .never >>= Fold.finish := rfl

theorem uniteReads_cases (hg : g.Regular) (hr : r.instance? = none)
    (hread : Graph.Lockstep g read) (hst : Tidy g [] st.graph) (hxs : ∀ x ∈ xs, st.graph.Has x) :
    (∃ k s y s', Gathered g r read st.graph xs .never k s ∧
        (r.uniteReads read xs).Returns st y s' ∧ k.EndsIn s'.graph y ∧
        s.graph.Extends s'.graph ∧ Tidy g [] s'.graph) ∨
      ∃ o s', IsLoss o ∧ (r.uniteReads read xs).run.run st = (lostType o, s') ∧
        Tidy g [] s'.graph ∧ ∃ x ∈ xs, LostOn g r read st.graph x o := by
  rw [uniteReads_eq]
  rcases gathered_or_lost hg hr hread hst hxs (Fold.sound_never _ _) rfl with
    ⟨k, s, hrun, hk⟩ | ⟨o, hlost, hon⟩
  · obtain ⟨y, s', hfinish, hends, hext, htidy⟩ := hk.sound.finish hk.start.tidy
    exact .inl ⟨k, s, y, s', hk, hrun.bind hfinish, hends, hext, htidy⟩
  · obtain ⟨s', hrun, hs'⟩ := hlost.finish
    exact .inr ⟨o, s', hlost.1, hrun, hs', hon⟩

theorem memberProperty_lockstep (hg : g.Regular) (hr : r.instance? = none) (key : PropertyKey) :
    Graph.Lockstep g (r.memberProperty · key) := fun _ _ _ _ _ _ hp hx =>
  memberProperty_joint hg hr key hp hx

theorem run_builtinProperty_union (hrun : (Fold.settle r.unwrap r.limit x).Returns st (.node i) s)
    (hi : s.graph.shape i = .union u) :
    (r.builtinProperty x key).run.run st =
      (r.uniteReads (r.memberProperty · key) u.toList).run.run s := by
  rw [builtinProperty, ExceptT.run_bind_of_ok hrun]
  refine (ExceptT.run_bind_of_ok (TypeM.Returns.graph s)).trans ?_
  simp only [hi]

theorem run_builtinProperty (hrun : (Fold.settle r.unwrap r.limit x).Returns st y s)
    (hy : s.graph.kind y ≠ .union) :
    (r.builtinProperty x key).run.run st = (r.memberProperty y key).run.run s := by
  rw [builtinProperty, ExceptT.run_bind_of_ok hrun]
  cases y with
  | node i =>
    refine (ExceptT.run_bind_of_ok (TypeM.Returns.graph s)).trans ?_
    cases hi : s.graph.shape i with
    | union u => exact absurd (Graph.kind_of_union hi) hy
    | _ => rfl
  | _ => rfl

end Resolvers

end FlowTyping
