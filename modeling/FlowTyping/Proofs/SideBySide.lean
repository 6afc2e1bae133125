import FlowTyping.Proofs.Runs
import FlowTyping.Proofs.Tidy

namespace FlowTyping

variable {α β γ δ : Type} {g : Graph} {W W' W'' : World} {h₁ h₁' h₁'' h₂ h₂' h₂'' : Graph}
  {O : List (NodeId × NodeId)} {x₁ x₂ : Ty} {i j : NodeId} {st₁ st₂ : Store}

theorem exists_of_forall₂ {R : α → β → Prop} {as : List α} {bs : List β}
    (hab : List.Forall₂ R as bs) {a : α} (ha : a ∈ as) : ∃ b ∈ bs, R a b := by
  induction hab with
  | nil => cases ha
  | cons hR _ ih =>
    rcases List.mem_cons.1 ha with rfl | ha
    · exact ⟨_, by simp, hR⟩
    · obtain ⟨b, hb, hR⟩ := ih ha
      exact ⟨b, by simp [hb], hR⟩

/-- Both computations return, with results of which `Q` holds, or both are given up as unending. Then
the graphs that they leave are still in good order. -/
inductive Joint (g : Graph) (m₁ : TypeM α) (st₁ : Store) (m₂ : TypeM β) (st₂ : Store)
    (Q : α → Store → β → Store → Prop) : Prop
  | returns {a : α} {s₁ : Store} {b : β} {s₂ : Store} (hm₁ : m₁.Returns st₁ a s₁)
      (hm₂ : m₂.Returns st₂ b s₂) (hQ : Q a s₁ b s₂)
  | unending {s₁ s₂ : Store} (hm₁ : m₁.run.run st₁ = (.error .unendingInstance, s₁))
      (hm₂ : m₂.run.run st₂ = (.error .unendingInstance, s₂)) (hs₁ : Graph.Tidy g [] s₁.graph)
      (hs₂ : Graph.Tidy g [] s₂.graph)

namespace Joint

variable {m₁ : TypeM α} {m₂ : TypeM β} {k₁ : α → TypeM γ} {k₂ : β → TypeM δ}
  {Q Q' : α → Store → β → Store → Prop} {R : γ → Store → δ → Store → Prop}

theorem pure {a : α} {b : β} (hQ : Q a st₁ b st₂) :
    Joint g (Pure.pure a) st₁ (Pure.pure b) st₂ Q :=
  .returns (.pure a st₁) (.pure b st₂) hQ

theorem bind (hm : Joint g m₁ st₁ m₂ st₂ Q)
    (hk : ∀ a s₁ b s₂, Q a s₁ b s₂ → Joint g (k₁ a) s₁ (k₂ b) s₂ R) :
    Joint g (m₁ >>= k₁) st₁ (m₂ >>= k₂) st₂ R := by
  cases hm with
  | returns hm₁ hm₂ hQ =>
    cases hk _ _ _ _ hQ with
    | returns hk₁ hk₂ hR => exact .returns (hm₁.bind hk₁) (hm₂.bind hk₂) hR
    | unending hk₁ hk₂ hs₁ hs₂ =>
      refine .unending ?_ ?_ hs₁ hs₂
      · rw [ExceptT.run_bind_of_ok hm₁, hk₁]
      · rw [ExceptT.run_bind_of_ok hm₂, hk₂]
  | unending hm₁ hm₂ hs₁ hs₂ =>
    exact .unending (ExceptT.run_bind_of_error hm₁) (ExceptT.run_bind_of_error hm₂) hs₁ hs₂

theorem imp (hm : Joint g m₁ st₁ m₂ st₂ Q) (hQ : ∀ a s₁ b s₂, Q a s₁ b s₂ → Q' a s₁ b s₂) :
    Joint g m₁ st₁ m₂ st₂ Q' := by
  cases hm with
  | returns hm₁ hm₂ h => exact .returns hm₁ hm₂ (hQ _ _ _ _ h)
  | unending hm₁ hm₂ hs₁ hs₂ => exact .unending hm₁ hm₂ hs₁ hs₂

theorem congr {m₁' : TypeM α} {m₂' : TypeM β} {s₁ s₂ : Store}
    (hm₁ : m₁.run.run st₁ = m₁'.run.run s₁) (hm₂ : m₂.run.run st₂ = m₂'.run.run s₂)
    (hm : Joint g m₁' s₁ m₂' s₂ Q) : Joint g m₁ st₁ m₂ st₂ Q := by
  cases hm with
  | returns hm₁' hm₂' hQ => exact .returns (hm₁.trans hm₁') (hm₂.trans hm₂') hQ
  | unending hm₁' hm₂' hs₁ hs₂ => exact .unending (hm₁.trans hm₁') (hm₂.trans hm₂') hs₁ hs₂

theorem bind_returns {a : α} {b : β} {s₁ s₂ : Store} (hm₁ : m₁.Returns st₁ a s₁)
    (hm₂ : m₂.Returns st₂ b s₂) (hk : Joint g (k₁ a) s₁ (k₂ b) s₂ R) :
    Joint g (m₁ >>= k₁) st₁ (m₂ >>= k₂) st₂ R :=
  bind (Q := fun a' s₁' b' s₂' => a' = a ∧ s₁' = s₁ ∧ b' = b ∧ s₂' = s₂)
    (.returns hm₁ hm₂ ⟨rfl, rfl, rfl, rfl⟩) (by rintro _ _ _ _ ⟨rfl, rfl, rfl, rfl⟩; exact hk)

end Joint

namespace World

structure Wider (W : World) (h₁ h₂ : Graph) (W' : World) : Prop where
  mono : ∀ i j, W i j → W' i j
  new : ∀ i j, W' i j → W i j ∨ h₁.size ≤ i ∧ h₂.size ≤ j

namespace Wider

theorem refl (W : World) (h₁ h₂ : Graph) : W.Wider h₁ h₂ W := ⟨fun _ _ => id, fun _ _ => .inl⟩

theorem trans (hW : W.Wider h₁ h₂ W') (hW' : W'.Wider h₁' h₂' W'') (hle₁ : h₁.size ≤ h₁'.size)
    (hle₂ : h₂.size ≤ h₂'.size) : W.Wider h₁ h₂ W'' where
  mono i j hij := hW'.mono i j (hW.mono i j hij)
  new i j hij := by
    rcases hW'.new i j hij with hij | ⟨hi, hj⟩
    · exact hW.new i j hij
    · exact .inr ⟨hle₁.trans hi, hle₂.trans hj⟩

theorem insert (W : World) (h₁ h₂ : Graph) : W.Wider h₁ h₂ (W.insert h₁.size h₂.size) where
  mono _ _ := .inl
  new i j hij := by
    rcases hij with hij | ⟨rfl, rfl⟩
    · exact .inl hij
    · exact .inr ⟨Nat.le_refl _, Nat.le_refl _⟩

theorem pairs (hW : W.Wider h₁ h₂ W') (hx : W.Pairs x₁ x₂) : W'.Pairs x₁ x₂ := hx.mono hW.mono

end Wider

end World

namespace Graph

/-- Graphs that have grown from `g` by steps side by side, with the nodes `O` still open on either
side. An open node is paired with one node only. -/
structure Paired (g : Graph) (O : List (NodeId × NodeId)) (W : World) (h₁ h₂ : Graph) : Prop where
  twins : Twins W h₁ h₂
  base : ∀ i < g.size, W i i
  alone : ∀ p ∈ O, W p.1 p.2 ∧ (∀ j, W p.1 j → j = p.2) ∧ ∀ i, W i p.2 → i = p.1
  left : Tidy g (O.map Prod.fst) h₁
  right : Tidy g (O.map Prod.snd) h₂

structure Meets (g : Graph) (O : List (NodeId × NodeId)) (W : World) (h₁ : Graph) (x₁ : Ty)
    (h₂ : Graph) (x₂ : Ty) : Prop where
  pairs : W.Pairs x₁ x₂
  left : h₁.Clear (O.map Prod.fst) x₁
  right : h₂.Clear (O.map Prod.snd) x₂

structure Grown (W : World) (h₁ h₂ : Graph) (W' : World) (h₁' h₂' : Graph) : Prop where
  wider : W.Wider h₁ h₂ W'
  left : h₁.Extends h₁'
  right : h₂.Extends h₂'

theorem Grown.refl (W : World) (h₁ h₂ : Graph) : Grown W h₁ h₂ W h₁ h₂ :=
  ⟨.refl W h₁ h₂, .refl h₁, .refl h₂⟩

theorem Grown.trans (h : Grown W h₁ h₂ W' h₁' h₂') (h' : Grown W' h₁' h₂' W'' h₁'' h₂'') :
    Grown W h₁ h₂ W'' h₁'' h₂'' :=
  ⟨h.wider.trans h'.wider h.left.size_le h.right.size_le, h.left.trans h'.left,
    h.right.trans h'.right⟩

theorem Meets.word (hx : x₁.node? = none) : Meets g O W h₁ x₁ h₂ x₁ :=
  ⟨.word hx, .word hx, .word hx⟩

theorem Meets.mono (hp : Paired g O W h₁ h₂) (hgrown : Grown W h₁ h₂ W' h₁' h₂')
    (hx : Meets g O W h₁ x₁ h₂ x₂) : Meets g O W' h₁' x₁ h₂' x₂ :=
  ⟨hgrown.wider.pairs hx.pairs, hx.left.mono hp.left.closed hgrown.left,
    hx.right.mono hp.right.closed hgrown.right⟩

namespace Paired

theorem start (hg : g.Regular) (hh₁ : Tidy g [] h₁) (hh₂ : Tidy g [] h₂) :
    Paired g [] g.likeness h₁ h₂ where
  twins := (twins_likeness hg.wellFormed.closed fun _ _ => hg.tidy.symm).mono hh₁.base hh₂.base
  base i hi := ⟨hi, hi, .refl g _⟩
  alone := by simp
  left := hh₁
  right := hh₂

theorem unending (hp : Paired g O W h₁ h₂) : Tidy g [] h₁ ∧ Tidy g [] h₂ :=
  ⟨hp.left.of_subset (by simp), hp.right.of_subset (by simp)⟩

theorem pairs_base (hp : Paired g O W h₁ h₂) {t : Ty} (ht : g.Has t) : W.Pairs t t := by
  cases t with
  | node i => exact .node (hp.base i ht)
  | _ => exact .word rfl

theorem meets_base (hp : Paired g O W h₁ h₂) (hg : g.Closed) {t : Ty} (ht : g.Has t) :
    Meets g O W h₁ t h₂ t :=
  ⟨hp.pairs_base ht, hp.left.clear_base hg ht, hp.right.clear_base hg ht⟩

theorem meets_child (hp : Paired g O W h₁ h₂) {y₁ y₂ : Ty} (hx : Meets g O W h₁ x₁ h₂ x₂)
    (hy₁ : h₁.Child x₁ y₁) (hy₂ : h₂.Child x₂ y₂) (hy : W.Pairs y₁ y₂) :
    Meets g O W h₁ y₁ h₂ y₂ :=
  ⟨hy, hx.left.of_reaches hp.left.closed (.single hy₁),
    hx.right.of_reaches hp.right.closed (.single hy₂)⟩

theorem alone_insert (hp : Paired g O W h₁ h₂) :
    ∀ p ∈ (h₁.size, h₂.size) :: O, W.insert h₁.size h₂.size p.1 p.2 ∧
      (∀ j, W.insert h₁.size h₂.size p.1 j → j = p.2) ∧
      ∀ i, W.insert h₁.size h₂.size i p.2 → i = p.1 := by
  intro p hmem
  rcases List.mem_cons.1 hmem with rfl | hmem
  · refine ⟨.inr ⟨rfl, rfl⟩, fun j hj => ?_, fun i hi => ?_⟩
    · rcases hj with hj | ⟨-, hj⟩
      · exact absurd (hp.twins.lt _ _ hj).1 (Nat.lt_irrefl _)
      · exact hj
    · rcases hi with hi | ⟨hi, -⟩
      · exact absurd (hp.twins.lt _ _ hi).2 (Nat.lt_irrefl _)
      · exact hi
  · obtain ⟨hpair, hleft, hright⟩ := hp.alone p hmem
    obtain ⟨hlt₁, hlt₂⟩ := hp.twins.lt _ _ hpair
    refine ⟨.inl hpair, fun j hj => ?_, fun i hi => ?_⟩
    · rcases hj with hj | ⟨hj, -⟩
      · exact hleft j hj
      · exact absurd hlt₁ (hj ▸ Nat.lt_irrefl _)
    · rcases hi with hi | ⟨-, hi⟩
      · exact hright i hi
      · exact absurd hlt₂ (hi ▸ Nat.lt_irrefl _)

theorem push {s₁ s₂ : Shape} (hp : Paired g O W h₁ h₂) (hs : s₁.Twin W.Pairs s₂)
    (hleft : Tidy g (O.map Prod.fst) (h₁.push s₁)) (hright : Tidy g (O.map Prod.snd) (h₂.push s₂)) :
    Paired g O (W.insert h₁.size h₂.size) (h₁.push s₁) (h₂.push s₂) where
  twins := hp.twins.push hs
  base i hi := .inl (hp.base i hi)
  alone p hmem := hp.alone_insert p (List.mem_cons_of_mem _ hmem)
  left := hleft
  right := hright

theorem push_open {s₁ s₂ : Shape} (hp : Paired g O W h₁ h₂) (hs : s₁.Twin W.Pairs s₂)
    (hleft : Tidy g (h₁.size :: O.map Prod.fst) (h₁.push s₁))
    (hright : Tidy g (h₂.size :: O.map Prod.snd) (h₂.push s₂)) :
    Paired g ((h₁.size, h₂.size) :: O) (W.insert h₁.size h₂.size) (h₁.push s₁) (h₂.push s₂) where
  twins := hp.twins.push hs
  base i hi := .inl (hp.base i hi)
  alone := hp.alone_insert
  left := hleft
  right := hright

theorem replace {k₁ k₂ : NodeId} {s₁ s₂ : Shape} (hp : Paired g O W h₁ h₂) (hk : (k₁, k₂) ∈ O)
    (hs : s₁.Twin W.Pairs s₂) (hleft : Tidy g (O.map Prod.fst) (h₁.replace k₁ s₁))
    (hright : Tidy g (O.map Prod.snd) (h₂.replace k₂ s₂)) :
    Paired g O W (h₁.replace k₁ s₁) (h₂.replace k₂ s₂) where
  twins := hp.twins.replace (hp.alone _ hk).1 (hp.alone _ hk).2.1 (hp.alone _ hk).2.2 hs
  base := hp.base
  alone := hp.alone
  left := hleft
  right := hright

theorem close {p : NodeId × NodeId} (hp : Paired g (p :: O) W h₁ h₂) : Paired g O W h₁ h₂ where
  twins := hp.twins
  base := hp.base
  alone q hq := hp.alone q (List.mem_cons_of_mem p hq)
  left := hp.left.of_subset (List.subset_cons_self _ _)
  right := hp.right.of_subset (List.subset_cons_self _ _)

end Paired

/-- Steps side by side from the graphs `h₁` and `h₂`, which end in results that `M` relates. -/
def Ends (g : Graph) (O : List (NodeId × NodeId)) (W : World) (h₁ h₂ : Graph)
    (M : World → Graph → α → Graph → β → Prop) (a : α) (s₁ : Store) (b : β) (s₂ : Store) : Prop :=
  ∃ W', Grown W h₁ h₂ W' s₁.graph s₂.graph ∧ Paired g O W' s₁.graph s₂.graph ∧
    M W' s₁.graph a s₂.graph b

def Lockstep (g : Graph) (m : Ty → TypeM Ty) : Prop :=
  ∀ O W st₁ st₂ x₁ x₂, Paired g O W st₁.graph st₂.graph →
    Meets g O W st₁.graph x₁ st₂.graph x₂ →
    Joint g (m x₁) st₁ (m x₂) st₂ (Ends g O W st₁.graph st₂.graph (Meets g O))

def UnwrapsAlike (g : Graph) (unwrap : NodeId → TypeM Ty) : Prop :=
  ∀ O W st₁ st₂ i j, Paired g O W st₁.graph st₂.graph →
    Meets g O W st₁.graph (.node i) st₂.graph (.node j) →
    Joint g (unwrap i) st₁ (unwrap j) st₂ (Ends g O W st₁.graph st₂.graph (Meets g O))

end Graph

namespace Joint

open FlowTyping.Graph (Ends Grown Paired)

variable {m₁ : TypeM α} {m₂ : TypeM β} {k₁ : α → TypeM γ} {k₂ : β → TypeM δ}
  {M : World → Graph → α → Graph → β → Prop} {N : World → Graph → γ → Graph → δ → Prop}

theorem throw_ends (hp : Paired g O W st₁.graph st₂.graph) :
    Joint g (throw .unendingInstance : TypeM α) st₁ (throw .unendingInstance : TypeM β) st₂
      (Ends g O W st₁.graph st₂.graph M) :=
  .unending rfl rfl hp.unending.1 hp.unending.2

theorem pure_ends {a : α} {b : β} (hp : Paired g O W st₁.graph st₂.graph)
    (hM : M W st₁.graph a st₂.graph b) :
    Joint g (Pure.pure a) st₁ (Pure.pure b) st₂ (Ends g O W st₁.graph st₂.graph M) :=
  .pure ⟨W, .refl _ _ _, hp, hM⟩

theorem bind_ends (hm : Joint g m₁ st₁ m₂ st₂ (Ends g O W st₁.graph st₂.graph M))
    (hk : ∀ W' a s₁ b s₂, Grown W st₁.graph st₂.graph W' s₁.graph s₂.graph →
      Paired g O W' s₁.graph s₂.graph → M W' s₁.graph a s₂.graph b →
      Joint g (k₁ a) s₁ (k₂ b) s₂ (Ends g O W' s₁.graph s₂.graph N)) :
    Joint g (m₁ >>= k₁) st₁ (m₂ >>= k₂) st₂ (Ends g O W st₁.graph st₂.graph N) := by
  refine hm.bind fun a s₁ b s₂ ⟨W', hgrown, hp, hM⟩ => (hk W' a s₁ b s₂ hgrown hp hM).imp ?_
  rintro c t₁ d t₂ ⟨W'', hgrown', hp', hN⟩
  exact ⟨W'', hgrown.trans hgrown', hp', hN⟩

end Joint

end FlowTyping
