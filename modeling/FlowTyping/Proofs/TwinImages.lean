import FlowTyping.Proofs.Copies
import FlowTyping.Proofs.TwinFolds

namespace FlowTyping

open FlowTyping.Graph (Tidy Paired)

namespace Shape

variable {R : Ty → Ty → Prop} {s : Shape} {xs ys : List Ty}

theorem refillSlots_fits (slots : List Slot) (hxs : List.Forall₂ R xs ys) :
    List.Forall₂ (Slot.Fits R) (refillSlots slots xs) (refillSlots slots ys) := by
  induction slots generalizing xs ys with
  | nil => exact .nil
  | cons s slots ih =>
    cases hxs with
    | nil => exact .nil
    | cons hx hxs => exact .cons ⟨rfl, rfl, hx⟩ (ih hxs)

theorem refillParams_fits (params : List Param) (hxs : List.Forall₂ R xs ys) :
    List.Forall₂ (Param.Fits R) (refillParams params xs) (refillParams params ys) := by
  induction params generalizing xs ys with
  | nil => exact .nil
  | cons p params ih =>
    cases hxs with
    | nil => exact .nil
    | cons hx hxs => exact .cons ⟨rfl, hx⟩ (ih hxs)

theorem getElem?_getD_fits {d : Ty} (hd : R d d) (hxs : List.Forall₂ R xs ys) (n : Nat) :
    R (xs[n]?.getD d) (ys[n]?.getD d) := by
  induction hxs generalizing n with
  | nil => exact hd
  | cons hx _ ih =>
    cases n with
    | zero => exact hx
    | succ n => exact ih n

theorem refill_fits (hunion : s.kind ≠ .union) (hs : s.isOpaque = false)
    (hvoid : R (.simple .void) (.simple .void)) (hxs : List.Forall₂ R xs ys) :
    (s.refill xs).Fits R (s.refill ys) := by
  cases s with
  | union u => exact absurd rfl hunion
  | record slots => exact .record (refillSlots_fits slots hxs)
  | callable role params returns =>
    exact .callable (getElem?_getD_fits hvoid hxs _) (refillParams_fits params hxs)
  | interface name slots => exact .interface (refillSlots_fits slots hxs)
  | intersection members => exact .intersection hxs
  | nameSpace name slots => exact .nameSpace (refillSlots_fits slots hxs)
  | intrinsic name => exact .intrinsic
  | instantiation origin args => exact .instantiation hxs
  | generic | unresolved => cases hs

theorem refill_twin {W : World} (hunion : s.kind ≠ .union) (hs : s.isOpaque = false)
    (hxs : List.Forall₂ W.Pairs xs ys) : (s.refill xs).Twin W.Pairs (s.refill ys) :=
  ⟨refill_fits hunion hs (.word rfl) hxs,
    refill_fits hunion hs (World.Pairs.word rfl) hxs.flip⟩

end Shape

theorem Graph.OriginIn.refill {g : Graph} {s : Shape} (hs : g.OriginIn s) (ts : List Ty) :
    g.OriginIn (s.refill ts) := by
  intro o args ho
  cases s with
  | instantiation origin as =>
    cases ho
    exact hs o as rfl
  | _ => cases ho

namespace Joint

variable {α β γ δ : Type} {g : Graph} {m₁ : SubstT TypeM α} {m₂ : SubstT TypeM β}
  {k₁ : α → SubstT TypeM γ} {k₂ : β → SubstT TypeM δ} {μ₁ μ₂ : Images} {st₁ st₂ : Store}
  {Q : α × Images → Store → β × Images → Store → Prop}
  {R : γ × Images → Store → δ × Images → Store → Prop}

theorem bind_subst (hm : Joint g (m₁.run μ₁) st₁ (m₂.run μ₂) st₂ Q)
    (hk : ∀ p₁ s₁ p₂ s₂, Q p₁ s₁ p₂ s₂ →
      Joint g ((k₁ p₁.1).run p₁.2) s₁ ((k₂ p₂.1).run p₂.2) s₂ R) :
    Joint g ((m₁ >>= k₁).run μ₁) st₁ ((m₂ >>= k₂).run μ₂) st₂ R :=
  hm.bind hk

theorem bind_lift {m₁ : TypeM α} {m₂ : TypeM β} {Q : α → Store → β → Store → Prop}
    (hm : Joint g m₁ st₁ m₂ st₂ Q)
    (hk : ∀ x₁ s₁ x₂ s₂, Q x₁ s₁ x₂ s₂ → Joint g ((k₁ x₁).run μ₁) s₁ ((k₂ x₂).run μ₂) s₂ R) :
    Joint g (((liftM m₁ : SubstT TypeM α) >>= k₁).run μ₁) st₁
      (((liftM m₂ : SubstT TypeM β) >>= k₂).run μ₂) st₂ R := by
  refine bind_subst (Q := fun p₁ s₁ p₂ s₂ => Q p₁.1 s₁ p₂.1 s₂ ∧ p₁.2 = μ₁ ∧ p₂.2 = μ₂)
    (hm.bind fun x₁ s₁ x₂ s₂ hQ => .pure ⟨hQ, rfl, rfl⟩) ?_
  rintro ⟨x₁, _⟩ s₁ ⟨x₂, _⟩ s₂ ⟨hQ, rfl, rfl⟩
  exact hk x₁ s₁ x₂ s₂ hQ

end Joint

namespace Substitution

variable {g h₁ h₁' h₁'' h₂ h₂' h₂'' : Graph} {a₁ a₂ : Call} {S : List NodeId}
  {O : List (NodeId × NodeId)} {W W' W'' : World} {μ₁ μ₁' μ₁'' μ₂ μ₂' μ₂'' : Images}
  {t x₁ x₂ : Ty} {i j k₁ k₂ : NodeId} {st₁ st₂ : Store} {u : Members} {f₁ f₂ : Fold} {s : Shape}

/-- Two calls with the same body that have come equally far. -/
structure Working (g : Graph) (a₁ a₂ : Call) (S : List NodeId) (O : List (NodeId × NodeId))
    (W : World) (μ₁ : Images) (h₁ : Graph) (μ₂ : Images) (h₂ : Graph) : Prop where
  paired : Paired g O W h₁ h₂
  left : Side g a₁ S μ₁ (O.map Prod.fst) h₁
  right : Side g a₂ S μ₂ (O.map Prod.snd) h₂
  images : ∀ i, Option.Rel W.Pairs (μ₁.lookup i) (μ₂.lookup i)
  args : ∀ i, Option.Rel W.Pairs (a₁.args.lookup i) (a₂.args.lookup i)

structure Onward (g : Graph) (S : List NodeId) (O : List (NodeId × NodeId)) (W : World)
    (μ₁ : Images) (h₁ : Graph) (μ₂ : Images) (h₂ : Graph) (W' : World) (μ₁' : Images) (h₁' : Graph)
    (μ₂' : Images) (h₂' : Graph) : Prop where
  wider : W.Wider h₁ h₂ W'
  left : Steps g S (O.map Prod.fst) μ₁ h₁ μ₁' h₁'
  right : Steps g S (O.map Prod.snd) μ₂ h₂ μ₂' h₂'

structure Stands (g : Graph) (S : List NodeId) (O : List (NodeId × NodeId)) (W : World)
    (μ₁ : Images) (h₁ : Graph) (μ₂ : Images) (h₂ : Graph) (t x₁ x₂ : Ty) : Prop where
  pairs : W.Pairs x₁ x₂
  left : Keeps g S μ₁ (O.map Prod.fst) h₁ t x₁
  right : Keeps g S μ₂ (O.map Prod.snd) h₂ t x₂

theorem Onward.refl (g : Graph) (S : List NodeId) (O : List (NodeId × NodeId)) (W : World)
    (μ₁ : Images) (h₁ : Graph) (μ₂ : Images) (h₂ : Graph) :
    Onward g S O W μ₁ h₁ μ₂ h₂ W μ₁ h₁ μ₂ h₂ :=
  ⟨.refl W h₁ h₂, .refl g S _ μ₁ h₁, .refl g S _ μ₂ h₂⟩

theorem Onward.trans (h : Onward g S O W μ₁ h₁ μ₂ h₂ W' μ₁' h₁' μ₂' h₂')
    (h' : Onward g S O W' μ₁' h₁' μ₂' h₂' W'' μ₁'' h₁'' μ₂'' h₂'') :
    Onward g S O W μ₁ h₁ μ₂ h₂ W'' μ₁'' h₁'' μ₂'' h₂'' :=
  ⟨h.wider.trans h'.wider h.left.size_le h.right.size_le, h.left.trans h'.left,
    h.right.trans h'.right⟩

theorem Stands.onward (ho : Onward g S O W μ₁ h₁ μ₂ h₂ W' μ₁' h₁' μ₂' h₂')
    (hx : Stands g S O W μ₁ h₁ μ₂ h₂ t x₁ x₂) : Stands g S O W' μ₁' h₁' μ₂' h₂' t x₁ x₂ :=
  ⟨ho.wider.pairs hx.pairs, ho.left.keeps _ _ hx.left, ho.right.keeps _ _ hx.right⟩

theorem Stands.of_meets (hx : Graph.Meets g O W h₁ x₁ h₂ x₂) :
    Stands g S O W μ₁ h₁ μ₂ h₂ t x₁ x₂ :=
  ⟨hx.pairs, .of_clear hx.left, .of_clear hx.right⟩

theorem rel_cons (hx : W.Pairs x₁ x₂)
    (hμ : ∀ i, Option.Rel W.Pairs (μ₁.lookup i) (μ₂.lookup i)) (i : NodeId) :
    Option.Rel W.Pairs (List.lookup i ((j, x₁) :: μ₁)) (List.lookup i ((j, x₂) :: μ₂)) := by
  by_cases hij : i = j
  · rw [hij, List.lookup_cons_self, List.lookup_cons_self]
    exact .some hx
  · rw [lookup_cons_of_ne hij, lookup_cons_of_ne hij]
    exact hμ i

theorem rel_mono (hW : W.Wider h₁ h₂ W') {x y : Option Ty} (hxy : Option.Rel W.Pairs x y) :
    Option.Rel W'.Pairs x y := by
  cases hxy with
  | none => exact .none
  | some hxy => exact .some (hW.pairs hxy)

namespace Working

theorem grown (hw : Working g a₁ a₂ S O W μ₁ h₁ μ₂ h₂)
    (hgrown : Graph.Grown W h₁ h₂ W' h₁' h₂') (hp : Paired g O W' h₁' h₂') :
    Onward g S O W μ₁ h₁ μ₂ h₂ W' μ₁ h₁' μ₂ h₂' ∧ Working g a₁ a₂ S O W' μ₁ h₁' μ₂ h₂' := by
  have hclosed₁ := hw.paired.left.closed
  have hclosed₂ := hw.paired.right.closed
  exact ⟨⟨hgrown.wider, .of_extends hclosed₁ hgrown.left, .of_extends hclosed₂ hgrown.right⟩, hp,
    hw.left.of_extends hclosed₁ hgrown.left, hw.right.of_extends hclosed₂ hgrown.right,
    fun i => rel_mono hgrown.wider (hw.images i), fun i => rel_mono hgrown.wider (hw.args i)⟩

theorem lookup_none (hw : Working g a₁ a₂ S O W μ₁ h₁ μ₂ h₂) (hj : μ₁.lookup j = none) :
    μ₂.lookup j = none := by
  have hrel := hw.images j
  rw [hj] at hrel
  cases hj₂ : μ₂.lookup j with
  | none => rfl
  | some t =>
    rw [hj₂] at hrel
    cases hrel

theorem enter (hunion : g.kind (.node j) = .union) (hj : μ₁.lookup j = none)
    (hw : Working g a₁ a₂ S O W μ₁ h₁ μ₂ h₂) : Working g a₁ a₂ (j :: S) O W μ₁ h₁ μ₂ h₂ :=
  { hw with
    left := hw.left.enter hunion hj
    right := hw.right.enter hunion (hw.lookup_none hj) }

theorem remember (hj : μ₁.lookup j = none) (hjS : j ∉ S) (hx : Graph.Meets g O W h₁ x₁ h₂ x₂)
    (hw : Working g a₁ a₂ (j :: S) O W μ₁ h₁ μ₂ h₂) :
    Working g a₁ a₂ S O W ((j, x₁) :: μ₁) h₁ ((j, x₂) :: μ₂) h₂ where
  paired := hw.paired
  left := hw.left.remember hj hjS hx.left
  right := hw.right.remember (hw.lookup_none hj) hjS hx.right
  images := rel_cons hx.pairs hw.images
  args := hw.args

theorem size_not_mem (hw : Working g a₁ a₂ S O W μ₁ h₁ μ₂ h₂) :
    h₁.size ∉ O.map Prod.fst ∧ h₂.size ∉ O.map Prod.snd :=
  ⟨fun hmem => Nat.lt_irrefl _ (hw.paired.left.opens _ hmem).2,
    fun hmem => Nat.lt_irrefl _ (hw.paired.right.opens _ hmem).2⟩

theorem copy (hg : g.Regular) (hshape : g.shape j = s) (hunion : s.kind ≠ .union)
    (hs : s.isOpaque = false) (hj : μ₁.lookup j = none) (hjS : j ∉ S)
    (hw : Working g a₁ a₂ S O W μ₁ h₁ μ₂ h₂) :
    Working g a₁ a₂ (j :: S) ((h₁.size, h₂.size) :: O) (W.insert h₁.size h₂.size)
      ((j, .node h₁.size) :: μ₁) (h₁.push (s.refill [])) ((j, .node h₂.size) :: μ₂)
      (h₂.push (s.refill [])) := by
  have hwords : ∀ y ∈ (s.refill []).children, y.node? = none := by
    intro y hy
    rcases Shape.children_refill hunion hy with hy | rfl
    · cases hy
    · rfl
  have hhas {h : Graph} : ∀ y ∈ (s.refill []).children, h.Has y :=
    fun y hy => Graph.has_of_not_node (hwords y hy)
  have hunion' : (s.refill []).kind ≠ .union := by rwa [Shape.kind_refill]
  have hres : (s.refill []).kind ≠ .unresolved := by
    rw [Shape.kind_refill]
    intro hres
    obtain ⟨name, rfl⟩ := Shape.exists_unresolved_of_kind hres
    cases hs
  have horigin : g.OriginIn (s.refill []) := Graph.OriginIn.refill (hshape ▸ hg.origins j) []
  have hkind : g.kind (.node j) ≠ .union := by rwa [Graph.kind, hshape]
  have hwider := World.Wider.insert W h₁ h₂
  refine ⟨hw.paired.push_open (Shape.refill_twin hunion hs .nil)
    (hw.paired.left.push_open hunion' hres hhas horigin)
    (hw.paired.right.push_open hunion' hres hhas horigin),
    hw.left.copy hw.paired.left.closed hkind hj hjS hwords,
    hw.right.copy hw.paired.right.closed hkind (hw.lookup_none hj) hjS hwords,
    rel_cons (.node (.inr ⟨rfl, rfl⟩)) fun i => rel_mono hwider (hw.images i),
    fun i => rel_mono hwider (hw.args i)⟩

theorem fill {xs₁ xs₂ : List Ty} (hg : g.Regular) (hshape : g.shape j = s) (hunion : s.kind ≠ .union)
    (hs : s.isOpaque = false) (hk : (k₁, k₂) ∈ O)
    (hc₁ : Side.Copying g a₁ S μ₁ (O.map Prod.fst) h₁ j k₁)
    (hc₂ : Side.Copying g a₂ S μ₂ (O.map Prod.snd) h₂ j k₂)
    (hxs : List.Forall₂ (fun x₁ x₂ => ∃ d, g.Reaches (.node j) d ∧
      Stands g S O W μ₁ h₁ μ₂ h₂ d x₁ x₂) xs₁ xs₂)
    (hw : Working g a₁ a₂ S O W μ₁ h₁ μ₂ h₂) :
    Onward g S O W μ₁ h₁ μ₂ h₂ W μ₁ (h₁.replace k₁ (s.refill xs₁)) μ₂
        (h₂.replace k₂ (s.refill xs₂)) ∧
      Working g a₁ a₂ S O W μ₁ (h₁.replace k₁ (s.refill xs₁)) μ₂ (h₂.replace k₂ (s.refill xs₂)) := by
  have hpairs : List.Forall₂ W.Pairs xs₁ xs₂ := hxs.imp fun _ _ ⟨_, _, h⟩ => h.pairs
  have hchildren {μ : Images} {O : List NodeId} {h : Graph} {xs : List Ty}
      (hxs : ∀ y ∈ xs, ∃ d, g.Reaches (.node j) d ∧ Keeps g S μ O h d y) :
      ∀ y ∈ (s.refill xs).children, ∃ d, g.Reaches (.node j) d ∧ Keeps g S μ O h d y := by
    intro y hy
    rcases Shape.children_refill hunion hy with hy | rfl
    · exact hxs y hy
    · exact ⟨_, .refl, .of_clear (.word rfl)⟩
  have hleft := hchildren fun y hy => (exists_of_forall₂ hxs hy).elim
    fun _ ⟨_, d, hd, hx⟩ => ⟨d, hd, hx.left⟩
  have hright := hchildren fun y hy => (exists_of_forall₂ hxs.flip hy).elim
    fun _ ⟨_, d, hd, hx⟩ => ⟨d, hd, hx.right⟩
  have hkind (xs : List Ty) : (s.refill xs).kind = g.kind (.node j) := by
    rw [Shape.kind_refill, Graph.kind, hshape]
  have horigin (xs : List Ty) : g.OriginIn (s.refill xs) :=
    Graph.OriginIn.refill (hshape ▸ hg.origins j) xs
  obtain ⟨hside₁, hlater₁⟩ := hw.left.fill hw.paired.left hc₁ (hkind _) hleft
  obtain ⟨hside₂, hlater₂⟩ := hw.right.fill hw.paired.right hc₂ (hkind _) hright
  have htidy₁ := hw.paired.left.replace hc₁.opened ((hkind xs₁).trans hc₁.kind_eq.symm)
    (fun y hy => (hleft y hy).elim fun _ h => h.2.has) (horigin _)
  have htidy₂ := hw.paired.right.replace hc₂.opened ((hkind xs₂).trans hc₂.kind_eq.symm)
    (fun y hy => (hright y hy).elim fun _ h => h.2.has) (horigin _)
  exact ⟨⟨.refl _ _ _, hlater₁, hlater₂⟩,
    hw.paired.replace hk (Shape.refill_twin hunion hs hpairs) htidy₁ htidy₂, hside₁, hside₂,
    hw.images, hw.args⟩

theorem close (hk₁ : k₁ ∉ O.map Prod.fst) (hk₂ : k₂ ∉ O.map Prod.snd)
    (hj₁ : μ₁.lookup j = some (.node k₁)) (hj₂ : μ₂.lookup j = some (.node k₂))
    (hw : Working g a₁ a₂ (j :: S) ((k₁, k₂) :: O) W μ₁ h₁ μ₂ h₂) :
    Working g a₁ a₂ S O W μ₁ h₁ μ₂ h₂ where
  paired := hw.paired.close
  left := hw.left.close hk₁ hj₁
  right := hw.right.close hk₂ hj₂
  images := hw.images
  args := hw.args

end Working

def Goes {α β : Type} (g : Graph) (a₁ a₂ : Call) (S : List NodeId) (O : List (NodeId × NodeId))
    (W : World) (μ₁ : Images) (h₁ : Graph) (μ₂ : Images) (h₂ : Graph)
    (N : World → Images → Graph → α → Images → Graph → β → Prop) (p₁ : α × Images) (s₁ : Store)
    (p₂ : β × Images) (s₂ : Store) : Prop :=
  ∃ W', Onward g S O W μ₁ h₁ μ₂ h₂ W' p₁.2 s₁.graph p₂.2 s₂.graph ∧
    Working g a₁ a₂ S O W' p₁.2 s₁.graph p₂.2 s₂.graph ∧
    N W' p₁.2 s₁.graph p₁.1 p₂.2 s₂.graph p₂.1

theorem Goes.trans {α β : Type} {N : World → Images → Graph → α → Images → Graph → β → Prop}
    {p₁ : α × Images} {p₂ : β × Images} {s₁ s₂ : Store}
    (ho : Onward g S O W μ₁ h₁ μ₂ h₂ W' μ₁' h₁' μ₂' h₂')
    (hN : Goes g a₁ a₂ S O W' μ₁' h₁' μ₂' h₂' N p₁ s₁ p₂ s₂) :
    Goes g a₁ a₂ S O W μ₁ h₁ μ₂ h₂ N p₁ s₁ p₂ s₂ := by
  obtain ⟨W'', ho', hw, hN⟩ := hN
  exact ⟨W'', ho.trans ho', hw, hN⟩

abbrev FoundFrom (g : Graph) (a₁ a₂ : Call) (S : List NodeId) (O : List (NodeId × NodeId)) (t : Ty)
    (W : World) (μ₁ : Images) (h₁ : Graph) (μ₂ : Images) (h₂ : Graph) :
    Ty × Images → Store → Ty × Images → Store → Prop :=
  Goes g a₁ a₂ S O W μ₁ h₁ μ₂ h₂ fun W μ₁ h₁ x₁ μ₂ h₂ x₂ => Stands g S O W μ₁ h₁ μ₂ h₂ t x₁ x₂

def FindsAlike (g : Graph) (a₁ a₂ : Call) (S : List NodeId) (O : List (NodeId × NodeId))
    (m₁ m₂ : SubstT TypeM Ty) (t : Ty) : Prop :=
  ∀ W μ₁ st₁ μ₂ st₂, Working g a₁ a₂ S O W μ₁ st₁.graph μ₂ st₂.graph →
    Joint g (m₁.run μ₁) st₁ (m₂.run μ₂) st₂
      (FoundFrom g a₁ a₂ S O t W μ₁ st₁.graph μ₂ st₂.graph)

variable {subst₁ subst₂ : Ty → SubstT TypeM Ty}

theorem fillChildren_joint {ts xs₁ xs₂ : List Ty} (hg : g.Regular) (hshape : g.shape j = s)
    (hunion : s.kind ≠ .union) (hs : s.isOpaque = false) (hk : (k₁, k₂) ∈ O)
    (hts : ∀ t ∈ ts, t ∈ s.children ∧ FindsAlike g a₁ a₂ S O (subst₁ t) (subst₂ t) t)
    (hw : Working g a₁ a₂ S O W μ₁ st₁.graph μ₂ st₂.graph)
    (hc₁ : Side.Copying g a₁ S μ₁ (O.map Prod.fst) st₁.graph j k₁)
    (hc₂ : Side.Copying g a₂ S μ₂ (O.map Prod.snd) st₂.graph j k₂)
    (hxs : List.Forall₂ (fun x₁ x₂ => ∃ d, g.Reaches (.node j) d ∧
      Stands g S O W μ₁ st₁.graph μ₂ st₂.graph d x₁ x₂) xs₁ xs₂) :
    Joint g ((fillChildren subst₁ k₁ s ts xs₁).run μ₁) st₁
      ((fillChildren subst₂ k₂ s ts xs₂).run μ₂) st₂
      (Goes g a₁ a₂ S O W μ₁ st₁.graph μ₂ st₂.graph fun _ _ _ _ _ _ _ => True) := by
  induction ts generalizing xs₁ xs₂ W μ₁ μ₂ st₁ st₂ with
  | nil => exact .pure ⟨W, .refl .., hw, trivial⟩
  | cons t ts ih =>
    obtain ⟨ht, hfinds⟩ := hts t (by simp)
    refine (hfinds W μ₁ st₁ μ₂ st₂ hw).bind_subst ?_
    rintro ⟨x₁, μ₁'⟩ s₁ ⟨x₂, μ₂'⟩ s₂ ⟨W', ho, hw', hx⟩
    have hlt₁ := (hw.paired.left.opens k₁ hc₁.opened).2
    have hlt₂ := (hw.paired.right.opens k₂ hc₂.opened).2
    have hc₁' := hc₁.later hlt₁ ho.left
    have hc₂' := hc₂.later hlt₂ ho.right
    have hchild : g.Reaches (.node j) t := .single (Graph.child_node.2 (hshape ▸ ht))
    have hxs' : List.Forall₂ (fun x₁ x₂ => ∃ d, g.Reaches (.node j) d ∧
        Stands g S O W' μ₁' s₁.graph μ₂' s₂.graph d x₁ x₂) (xs₁ ++ [x₁]) (xs₂ ++ [x₂]) := by
      refine List.rel_append (hxs.imp ?_) (.cons ⟨t, hchild, hx⟩ .nil)
      rintro y₁ y₂ ⟨d, hd, hy⟩
      exact ⟨d, hd, hy.onward ho⟩
    obtain ⟨ho', hw''⟩ := hw'.fill hg hshape hunion hs hk hc₁' hc₂' hxs'
    have hlt₁' := (hw'.paired.left.opens k₁ hc₁.opened).2
    have hlt₂' := (hw'.paired.right.opens k₂ hc₂.opened).2
    refine (Joint.returns (.fill k₁ _ s₁) (.fill k₂ _ s₂) ⟨rfl, rfl⟩ :
      Joint g _ s₁ _ s₂ fun _ r₁ _ r₂ => r₁ = _ ∧ r₂ = _).bind_lift ?_
    rintro _ _ _ _ ⟨rfl, rfl⟩
    refine (ih (fun t ht => hts t (by simp [ht])) hw'' (hc₁'.later hlt₁' ho'.left)
      (hc₂'.later hlt₂' ho'.right) (hxs'.imp ?_)).imp fun p₁ r₁ p₂ r₂ h => .trans ho (.trans ho' h)
    rintro y₁ y₂ ⟨d, hd, hy⟩
    exact ⟨d, hd, hy.onward ho'⟩

def AddsAlike (g : Graph) (add : Fold → Ty → TypeM Fold) : Prop :=
  ∀ O W st₁ st₂ f₁ f₂ x₁ x₂, Paired g O W st₁.graph st₂.graph →
    Fold.Meets O W st₁.graph f₁ st₂.graph f₂ → Graph.Meets g O W st₁.graph x₁ st₂.graph x₂ →
    Joint g (add f₁ x₁) st₁ (add f₂ x₂) st₂ (Graph.Ends g O W st₁.graph st₂.graph (Fold.Meets O))

variable {add : Fold → Ty → TypeM Fold}

theorem foldMembers_joint {ts : List Ty} (hg : g.Regular) (hadd : AddsAlike g add)
    (hj : g.shape j = .union u) (hS : ∀ i ∈ S, g.Reaches (.node i) (.node j))
    (hts : ∀ t ∈ ts, t ∈ u.toList ∧ FindsAlike g a₁ a₂ S O (subst₁ t) (subst₂ t) t)
    (hw : Working g a₁ a₂ S O W μ₁ st₁.graph μ₂ st₂.graph)
    (hf : Fold.Meets O W st₁.graph f₁ st₂.graph f₂) :
    Joint g ((foldMembers subst₁ add ts f₁).run μ₁) st₁ ((foldMembers subst₂ add ts f₂).run μ₂) st₂
      (Goes g a₁ a₂ S O W μ₁ st₁.graph μ₂ st₂.graph
        fun W _ h₁ f₁ _ h₂ f₂ => Fold.Meets O W h₁ f₁ h₂ f₂) := by
  induction ts generalizing W μ₁ μ₂ st₁ st₂ f₁ f₂ with
  | nil => exact .pure ⟨W, .refl .., hw, hf⟩
  | cons t ts ih =>
    obtain ⟨ht, hfinds⟩ := hts t (by simp)
    refine (hfinds W μ₁ st₁ μ₂ st₂ hw).bind_subst ?_
    rintro ⟨x₁, μ₁'⟩ s₁ ⟨x₂, μ₂'⟩ s₂ ⟨W', ho, hw', hx⟩
    have hmeets : Graph.Meets g O W' s₁.graph x₁ s₂.graph x₂ :=
      ⟨hx.pairs, hx.left.clear_of_member hg.acyclic hj ht hS,
        hx.right.clear_of_member hg.acyclic hj ht hS⟩
    have hf' := hf.congr ho.wider.mono ho.left.size_le ho.left.agrees ho.right.size_le
      ho.right.agrees
    refine (hadd O W' s₁ s₂ f₁ f₂ x₁ x₂ hw'.paired hf' hmeets).bind_lift ?_
    rintro k₁ r₁ k₂ r₂ ⟨W'', hgrown, hp, hk⟩
    obtain ⟨ho', hw''⟩ := hw'.grown hgrown hp
    refine (ih (fun t ht => hts t (by simp [ht])) hw'' hk).imp fun p₁ q₁ p₂ q₂ h => ?_
    exact .trans ho (.trans ho' h)

/-! ### The image of one type -/

section Image

variable {fuel₁ fuel₂ fuel : Nat} {b : Bindings} {st : Store} {μ : Images}

theorem run_image_union (hj : st.graph.shape j = .union u) (hl : μ.lookup j = none)
    (hm : st.graph.mentions b.binds (.node j) = true) :
    ((image b add (fuel + 1) (.node j)).run μ).run.run st =
      ((do
        let f ← foldMembers (image b add fuel) add u.toList .never
        let t ← (f.finish : TypeM Ty)
        modify ((j, t) :: ·)
        return t : SubstT TypeM Ty).run μ).run.run st := by
  refine (SubstT.Returns.lift (.graph st) μ).run_bind.trans ?_
  simp only [hj]
  refine (SubstT.Returns.get μ st).run_bind.trans ?_
  simp only [hl, hm]
  rfl

theorem run_image_copy (hj : st.graph.shape j = s) (hres : s.kind ≠ .unresolved)
    (hunion : s.kind ≠ .union) (hl : μ.lookup j = none)
    (hm : st.graph.mentions b.binds (.node j) = true) :
    ((image b add (fuel + 1) (.node j)).run μ).run.run st =
      ((do
        fillChildren (image b add fuel) st.graph.size s s.children []
        return .node st.graph.size : SubstT TypeM Ty).run ((j, .node st.graph.size) :: μ)).run.run
        { st with graph := st.graph.push (s.refill []) } := by
  refine (SubstT.Returns.lift (.graph st) μ).run_bind.trans ?_
  simp only [hj]
  split
  · rename_i name hshape
    exact absurd rfl hres
  · refine (SubstT.Returns.get μ st).run_bind.trans ?_
    simp only [hl, hm, Bool.not_true, Bool.false_eq_true, if_false]
    split
    · exact absurd rfl hunion
    · refine (SubstT.Returns.lift (.alloc _ st) μ).run_bind.trans ?_
      exact (SubstT.Returns.modify _ μ _).run_bind

theorem copy_joint (hg : g.Regular) (hshape : g.shape j = s) (hunion : s.kind ≠ .union)
    (hs : s.isOpaque = false) (hl : μ₁.lookup j = none) (hjS : j ∉ S)
    (hsubst : ∀ t ∈ s.children, FindsAlike g a₁ a₂ (j :: S)
      ((st₁.graph.size, st₂.graph.size) :: O) (subst₁ t) (subst₂ t) t)
    (hw : Working g a₁ a₂ S O W μ₁ st₁.graph μ₂ st₂.graph) :
    Joint g
      ((do
        fillChildren subst₁ st₁.graph.size s s.children []
        return .node st₁.graph.size : SubstT TypeM Ty).run ((j, .node st₁.graph.size) :: μ₁))
      { st₁ with graph := st₁.graph.push (s.refill []) }
      ((do
        fillChildren subst₂ st₂.graph.size s s.children []
        return .node st₂.graph.size : SubstT TypeM Ty).run ((j, .node st₂.graph.size) :: μ₂))
      { st₂ with graph := st₂.graph.push (s.refill []) }
      (FoundFrom g a₁ a₂ S O (.node j) W μ₁ st₁.graph μ₂ st₂.graph) := by
  have hopen := hw.copy hg hshape hunion hs hl hjS
  have hkind (h : Graph) : (h.push (s.refill [])).kind (.node h.size) = g.kind (.node j) := by
    rw [Graph.kind, Graph.shape_push_size, Shape.kind_refill, Graph.kind, hshape]
  have hfill : Joint g _ { st₁ with graph := st₁.graph.push (s.refill []) } _
      { st₂ with graph := st₂.graph.push (s.refill []) } _ :=
    fillChildren_joint hg hshape hunion hs (by simp) (fun t ht => ⟨ht, hsubst t ht⟩) hopen
      ⟨by simp, List.lookup_cons_self, by simp, hw.left.ext.size_le, hkind _⟩
      ⟨by simp, List.lookup_cons_self, by simp, hw.right.ext.size_le, hkind _⟩ .nil
  refine hfill.bind_subst ?_
  rintro ⟨_, μ₁'⟩ s₁ ⟨_, μ₂'⟩ s₂ ⟨W', ho, hw', -⟩
  obtain ⟨hO₁, hO₂⟩ := hw.size_not_mem
  have hj₁ := ho.left.lookup j _ List.lookup_cons_self
  have hj₂ := ho.right.lookup j _ List.lookup_cons_self
  have hclosed := hw'.close hO₁ hO₂ hj₁ hj₂
  refine .pure ⟨W', ⟨?_, ?_, ?_⟩, hclosed, ?_, ?_, ?_⟩
  · exact (World.Wider.insert W _ _).trans ho.wider (Graph.Extends.push _ _).size_le
      (Graph.Extends.push _ _).size_le
  · exact ho.left.of_copy hw.paired.left.closed hO₁ hl
  · exact ho.right.of_copy hw.paired.right.closed hO₂ (hw.lookup_none hl)
  · exact ho.wider.pairs (.node (.inr ⟨rfl, rfl⟩))
  · exact hclosed.left.entry j _ hj₁
  · exact hclosed.right.entry j _ hj₂

theorem union_joint (hg : g.Regular) (hadd : AddsAlike g add) (hj : g.shape j = .union u)
    (hl : μ₁.lookup j = none) (hjS : j ∉ S) (hS : ∀ i ∈ S, g.Reaches (.node i) (.node j))
    (hsubst : ∀ t ∈ u.toList, FindsAlike g a₁ a₂ (j :: S) O (subst₁ t) (subst₂ t) t)
    (hw : Working g a₁ a₂ S O W μ₁ st₁.graph μ₂ st₂.graph) :
    Joint g
      ((do
        let f ← foldMembers subst₁ add u.toList .never
        let t ← (f.finish : TypeM Ty)
        modify ((j, t) :: ·)
        return t : SubstT TypeM Ty).run μ₁) st₁
      ((do
        let f ← foldMembers subst₂ add u.toList .never
        let t ← (f.finish : TypeM Ty)
        modify ((j, t) :: ·)
        return t : SubstT TypeM Ty).run μ₂) st₂
      (FoundFrom g a₁ a₂ S O (.node j) W μ₁ st₁.graph μ₂ st₂.graph) := by
  have hunion := Graph.kind_of_union hj
  have hS' : ∀ i ∈ j :: S, g.Reaches (.node i) (.node j) := by
    intro i hi
    rcases List.mem_cons.1 hi with rfl | hi
    · exact .refl
    · exact hS i hi
  refine (foldMembers_joint hg hadd hj hS' (fun t ht => ⟨ht, hsubst t ht⟩) (hw.enter hunion hl)
    (Fold.meets_never O W _ _)).bind_subst ?_
  rintro ⟨f₁, μ₁'⟩ s₁ ⟨f₂, μ₂'⟩ s₂ ⟨W', ho, hw', hf⟩
  refine (hf.finish hw'.paired).bind_lift ?_
  rintro x₁ r₁ x₂ r₂ ⟨W'', hgrown, hp, hx⟩
  obtain ⟨ho', hw''⟩ := hw'.grown hgrown hp
  have hl' : μ₁'.lookup j = none :=
    Option.not_isSome_iff_eq_none.1 fun hsome => (hw'.left.under j (by simp)).1 hsome hunion
  have hl₂' : μ₂'.lookup j = none := hw'.lookup_none hl'
  have hon := ho.trans ho'
  refine .pure ⟨W'', ⟨hon.wider, ?_, ?_⟩, hw''.remember hl' hjS hx, .of_meets hx⟩
  · exact (hon.left.of_union hl').trans (.cons hl' x₁ _)
  · exact (hon.right.of_union hl₂').trans (.cons hl₂' x₂ _)

theorem isOpaque_of_mentions {bound : NodeId → Bool} (hres : g.kind (.node j) ≠ .unresolved)
    (hm : g.Mentions bound (.node j)) : (g.shape j).isOpaque = false := by
  cases hs : g.shape j with
  | unresolved name => exact absurd (congrArg Shape.kind hs) hres
  | generic name params body =>
    obtain ⟨i, _, hji, hi, -⟩ := hm
    rcases Relation.ReflTransGen.cases_head hji with hji | ⟨c, hc, -⟩
    · cases hji
      rw [hs] at hi
      cases hi
    · rw [Graph.child_node, hs] at hc
      cases hc
  | _ => rfl

theorem Working.not_mem (hg : g.Regular) (ha : Above g S (.node j)) (hl : μ₁.lookup j = none)
    (hw : Working g a₁ a₂ S O W μ₁ h₁ μ₂ h₂) : j ∉ S := by
  intro hj
  have hunion : g.kind (.node j) = .union := by
    by_contra hunion
    simpa [hl] using (hw.left.under j hj).2 hunion
  exact hg.acyclic.not_transGen hunion (ha.path j hj)

theorem Working.binds_eq (hw : Working g a₁ a₂ S O W μ₁ h₁ μ₂ h₂) :
    a₂.args.binds = a₁.args.binds := by
  funext i
  have hrel := hw.args i
  rw [Bindings.binds, Bindings.binds]
  generalize a₁.args.lookup i = x at hrel
  generalize a₂.args.lookup i = y at hrel
  cases hrel <;> rfl

theorem pending_joint (hg : g.Regular) (hj : g.kind (.node j) = .unresolved)
    (hhas : g.Has (.node j)) (hw : Working g a₁ a₂ S O W μ₁ st₁.graph μ₂ st₂.graph) :
    Joint g ((image a₁.args add (fuel₁ + 1) (.node j)).run μ₁) st₁
      ((image a₂.args add (fuel₂ + 1) (.node j)).run μ₂) st₂
      (FoundFrom g a₁ a₂ S O (.node j) W μ₁ st₁.graph μ₂ st₂.graph) := by
  have hj₁ := (hw.paired.left.base.kind_eq hhas).trans hj
  have hj₂ := (hw.paired.right.base.kind_eq hhas).trans hj
  refine .returns (image_of_unresolved hj₁ μ₁) (image_of_unresolved hj₂ μ₂) ⟨W, .refl .., hw, ?_⟩
  have hrel := hw.args j
  have hleft := hw.left.args j
  have hright := hw.right.args j
  generalize a₁.args.lookup j = y₁ at hrel hleft
  generalize a₂.args.lookup j = y₂ at hrel hright
  cases hrel with
  | none => exact .of_meets (hw.paired.meets_base hg.wellFormed.closed hhas)
  | some hpairs => exact .of_meets ⟨hpairs, hleft _ rfl, hright _ rfl⟩

theorem remembered_joint (hj : g.kind (.node j) ≠ .unresolved) (hhas : g.Has (.node j))
    (hl : μ₁.lookup j = some x₁) (hw : Working g a₁ a₂ S O W μ₁ st₁.graph μ₂ st₂.graph) :
    Joint g ((image a₁.args add (fuel₁ + 1) (.node j)).run μ₁) st₁
      ((image a₂.args add (fuel₂ + 1) (.node j)).run μ₂) st₂
      (FoundFrom g a₁ a₂ S O (.node j) W μ₁ st₁.graph μ₂ st₂.graph) := by
  have hj₁ := hw.paired.left.base.kind_eq hhas ▸ hj
  have hj₂ := hw.paired.right.base.kind_eq hhas ▸ hj
  have hrel := hw.images j
  rw [hl] at hrel
  cases hl₂ : μ₂.lookup j with
  | none =>
    rw [hl₂] at hrel
    cases hrel
  | some x₂ =>
    rw [hl₂] at hrel
    cases hrel with
    | some hpairs =>
      refine .returns (image_of_lookup hj₁ hl) (image_of_lookup hj₂ hl₂)
        ⟨W, .refl .., hw, hpairs, ?_, ?_⟩
      · exact hw.left.entry j x₁ hl
      · exact hw.right.entry j x₂ hl₂

theorem untouched_joint (hg : g.Regular) (hj : g.kind (.node j) ≠ .unresolved)
    (hhas : g.Has (.node j)) (hl : μ₁.lookup j = none)
    (hm : ¬ g.Mentions a₁.args.binds (.node j))
    (hw : Working g a₁ a₂ S O W μ₁ st₁.graph μ₂ st₂.graph) :
    Joint g ((image a₁.args add (fuel₁ + 1) (.node j)).run μ₁) st₁
      ((image a₂.args add (fuel₂ + 1) (.node j)).run μ₂) st₂
      (FoundFrom g a₁ a₂ S O (.node j) W μ₁ st₁.graph μ₂ st₂.graph) := by
  have hagree₁ := hw.paired.left.base.agreesAt hg.wellFormed.closed hhas
  have hagree₂ := hw.paired.right.base.agreesAt hg.wellFormed.closed hhas
  have hm' : g.mentions a₁.args.binds (.node j) = false := by
    rwa [Bool.eq_false_iff, ne_eq, Graph.mentions_iff]
  refine .returns (image_of_not_mentions (hagree₁.kind_eq ▸ hj) hl (hagree₁.mentions_eq.trans hm'))
    (image_of_not_mentions (hagree₂.kind_eq ▸ hj) (hw.lookup_none hl) ?_)
    ⟨W, .refl .., hw, .of_meets (hw.paired.meets_base hg.wellFormed.closed hhas)⟩
  rw [hw.binds_eq, hagree₂.mentions_eq, hm']

theorem image_joint (hg : g.Regular) (hadd : AddsAlike g add) (ht : g.Has t) (ha : Above g S t)
    (hfuel₁ : g.size < fuel₁ + S.length) (hfuel₂ : g.size < fuel₂ + S.length) :
    FindsAlike g a₁ a₂ S O (image a₁.args add fuel₁ t) (image a₂.args add fuel₂ t) t := by
  -- Fuel is spent on entering nodes, and `S` has no room for more than all of them.
  induction fuel₁ generalizing fuel₂ S O t with
  | zero =>
    have hle := ha.length_le
    omega
  | succ fuel₁ ih =>
    intro W μ₁ st₁ μ₂ st₂ hw
    obtain ⟨fuel₂, rfl⟩ : ∃ n, fuel₂ = n + 1 := by
      have hle := ha.length_le
      exact ⟨fuel₂ - 1, by omega⟩
    cases t with
    | node j =>
      by_cases hres : g.kind (.node j) = .unresolved
      · exact pending_joint hg hres ht hw
      cases hl : μ₁.lookup j with
      | some x₁ => exact remembered_joint hres ht hl hw
      | none =>
        by_cases hm : ¬ g.Mentions a₁.args.binds (.node j)
        · exact untouched_joint hg hres ht hl hm hw
        have hm := not_not.1 hm
        have hjS := hw.not_mem hg ha hl
        have hagree₁ := hw.paired.left.base.agreesAt hg.wellFormed.closed ht
        have hagree₂ := hw.paired.right.base.agreesAt hg.wellFormed.closed ht
        have hm₁ : st₁.graph.mentions a₁.args.binds (.node j) = true :=
          hagree₁.mentions_eq.trans (Graph.mentions_iff.2 hm)
        have hm₂ : st₂.graph.mentions a₂.args.binds (.node j) = true := by
          rw [hw.binds_eq, hagree₂.mentions_eq, Graph.mentions_iff]
          exact hm
        have hsubst (O : List (NodeId × NodeId)) (c : Ty) (hc : c ∈ (g.shape j).children) :
            FindsAlike g a₁ a₂ (j :: S) O (image a₁.args add fuel₁ c) (image a₂.args add fuel₂ c)
              c := by
          refine ih (hg.wellFormed.closed (.node j) c hc) (ha.cons hjS hc) ?_ ?_ <;>
            rw [List.length_cons] <;> omega
        by_cases hunion : g.kind (.node j) = .union
        · obtain ⟨u, hu⟩ := Shape.exists_union_of_kind hunion
          refine .congr (run_image_union ((hagree₁ j .refl).trans hu) hl hm₁)
            (run_image_union ((hagree₂ j .refl).trans hu) (hw.lookup_none hl) hm₂) ?_
          refine union_joint hg hadd hu hl hjS (fun i hi => (ha.path i hi).to_reflTransGen) ?_ hw
          intro c hc
          exact hsubst O c (by rwa [hu])
        · have hunion' : (g.shape j).kind ≠ .union := hunion
          refine .congr (run_image_copy (hagree₁ j .refl) hres hunion' hl hm₁)
            (run_image_copy (hagree₂ j .refl) hres hunion' (hw.lookup_none hl) hm₂) ?_
          exact copy_joint hg rfl hunion' (isOpaque_of_mentions hres hm) hl hjS (hsubst _) hw
    | _ =>
      exact .returns (image_of_not_node rfl μ₁ st₁) (image_of_not_node rfl μ₂ st₂)
        ⟨W, .refl .., hw, .of_meets (.word rfl)⟩

end Image

/-! ### Opening an instantiation -/

theorem rel_ofArgs (params : List NodeId) {args₁ args₂ : List Ty}
    (hargs : List.Forall₂ W.Pairs args₁ args₂) (i : NodeId) :
    Option.Rel W.Pairs ((Bindings.ofArgs params args₁).lookup i)
      ((Bindings.ofArgs params args₂).lookup i) := by
  induction params using List.reverseRecOn with
  | nil => exact .none
  | append_singleton params p ih =>
    rw [Bindings.lookup_ofArgs_concat, Bindings.lookup_ofArgs_concat]
    split
    · exact .some (Shape.getElem?_getD_fits (.word rfl) hargs _)
    · exact ih

theorem Working.start {params : List NodeId} {args₁ args₂ : List Ty} (hp : Paired g O W h₁ h₂)
    (hargs : List.Forall₂ (fun x₁ x₂ => Graph.Meets g O W h₁ x₁ h₂ x₂) args₁ args₂) :
    Working g ⟨h₁, .ofArgs params args₁⟩ ⟨h₂, .ofArgs params args₂⟩ [] O W [] h₁ [] h₂ := by
  have hside {h : Graph} {O : List NodeId} {args : List Ty} (hclear : ∀ x ∈ args, h.Clear O x) :
      Side g ⟨h, .ofArgs params args⟩ [] [] O h := by
    refine ⟨.refl h, by simp, by simp, by simp, fun i t hi => ?_⟩
    rcases Bindings.mem_args_of_lookup hi with hmem | rfl
    · exact hclear t hmem
    · exact .word rfl
  refine ⟨hp, hside fun x hx => ?_, hside fun x hx => ?_, fun _ => .none,
    rel_ofArgs params (hargs.imp fun _ _ h => h.pairs)⟩
  · obtain ⟨_, -, hx⟩ := exists_of_forall₂ hargs hx
    exact hx.left
  · obtain ⟨_, -, hx⟩ := exists_of_forall₂ hargs.flip hx
    exact hx.right

theorem instantiate_error {add : Fold → Ty → TypeM Fold} {st : Store}
    (hi : ∀ o args name params body, st.graph.shape i = .instantiation (some o) args →
      st.graph.shape o ≠ .generic name params body) : (instantiate add i).Returns st .error st := by
  refine (TypeM.Returns.graph st).bind ?_
  split
  · rename_i o args hargs
    split
    · rename_i name params body ho
      exact absurd ho (hi o args name params body hargs)
    · exact .pure _ st
  · exact .pure _ st

theorem run_instantiate {add : Fold → Ty → TypeM Fold} {st : Store} {o : NodeId} {args : List Ty}
    {name : Text} {params : List NodeId} {body : Ty}
    (hi : st.graph.shape i = .instantiation (some o) args)
    (ho : st.graph.shape o = .generic name params body) :
    (instantiate add i).run.run st =
      ((image (.ofArgs params args) add (depth st.graph) body).run [] >>= fun p =>
        pure p.1 : TypeM Ty).run.run st := by
  refine (ExceptT.run_bind_of_ok (TypeM.Returns.graph st)).trans ?_
  simp only [hi, ho, StateT.run', map_eq_pure_bind]
  rfl

theorem body_joint (hg : g.Regular) {add : Fold → Ty → TypeM Fold} (hadd : AddsAlike g add)
    {params : List NodeId} {args₁ args₂ : List Ty} (ht : g.Has t)
    (hp : Paired g O W st₁.graph st₂.graph)
    (hargs : List.Forall₂ (fun x₁ x₂ => Graph.Meets g O W st₁.graph x₁ st₂.graph x₂) args₁ args₂) :
    Joint g
      ((image (.ofArgs params args₁) add (depth st₁.graph) t).run [] >>= fun p => pure p.1) st₁
      ((image (.ofArgs params args₂) add (depth st₂.graph) t).run [] >>= fun p => pure p.1) st₂
      (Graph.Ends g O W st₁.graph st₂.graph (Graph.Meets g O)) := by
  have hfuel {h : Graph} (hh : g.Extends h) : g.size < depth h + ([] : List NodeId).length := by
    have := hh.size_le
    rw [depth, List.length_nil]
    omega
  have hfinds : FindsAlike g ⟨st₁.graph, .ofArgs params args₁⟩ ⟨st₂.graph, .ofArgs params args₂⟩
      [] O _ _ t :=
    image_joint hg hadd ht ⟨.nil, by simp⟩ (hfuel hp.left.base) (hfuel hp.right.base)
  refine (hfinds W [] st₁ [] st₂ (.start hp hargs)).bind ?_
  rintro ⟨x₁, μ₁⟩ s₁ ⟨x₂, μ₂⟩ s₂ ⟨W', ho, hw, hx⟩
  exact .pure ⟨W', ⟨ho.wider, hw.left.ext, hw.right.ext⟩, hw.paired, hx.pairs, hx.left.clear,
    hx.right.clear⟩

theorem instantiate_joint (hg : g.Regular) {add : Fold → Ty → TypeM Fold} (hadd : AddsAlike g add) :
    Graph.UnwrapsAlike g (instantiate add) := by
  intro O W st₁ st₂ i j hp hx
  have hlooks := hp.twins.looks i j (World.pairs_node.1 hx.pairs)
  have hgenerics (k : NodeId) (hk : k < g.size) : st₂.graph.shape k = st₁.graph.shape k :=
    (hp.right.base.shape_eq k hk).trans (hp.left.base.shape_eq k hk).symm
  by_cases hgeneric : ∃ o args name params body, st₁.graph.shape i = .instantiation (some o) args ∧
      st₁.graph.shape o = .generic name params body
  · obtain ⟨o, args₁, name, params, body, hi, ho⟩ := hgeneric
    have ho_lt : o < g.size := hp.left.origins i o args₁ hi
    have hbody : g.Has body :=
      hg.wellFormed.bodies o name params body ((hp.left.base.shape_eq o ho_lt).symm.trans ho)
    obtain ⟨args₂, hj, hargs⟩ := hlooks.instantiation hi
    refine .congr (run_instantiate hi ho) (run_instantiate hj ((hgenerics o ho_lt).trans ho)) ?_
    refine body_joint hg hadd hbody hp (forall₂_imp_mem hargs fun x hx₁ y hy₁ hxy => ?_)
    refine hp.meets_child hx ?_ ?_ hxy
    · rw [Graph.child_node, hi]
      exact hx₁
    · rw [Graph.child_node, hj]
      exact hy₁
  · have hleft : ∀ o args name params body, st₁.graph.shape i = .instantiation (some o) args →
        st₁.graph.shape o ≠ .generic name params body :=
      fun o args name params body hi ho => hgeneric ⟨o, args, name, params, body, hi, ho⟩
    refine .returns (instantiate_error hleft) (instantiate_error ?_)
      ⟨W, .refl _ _ _, hp, .word rfl⟩
    intro o args₂ name params body hj ho
    obtain ⟨args₁, hi, -⟩ := hlooks.flip.instantiation hj
    have ho_lt : o < g.size := hp.left.origins i o _ hi
    exact hleft o _ name params body hi ((hgenerics o ho_lt).symm.trans ho)

end Substitution

namespace Resolvers

variable {g : Graph} {r : Resolvers}

theorem unwrapsAlike (hg : g.Regular) (hr : r.instance? = none) (n : Nat) :
    Graph.UnwrapsAlike g (r.unwrapWithin n) := by
  induction n with
  | zero =>
    intro O W st₁ st₂ i j hp hx
    exact .throw_ends hp
  | succ n ih =>
    have hadd : Substitution.AddsAlike g (Fold.add (r.unwrapWithin n) r.limit) :=
      fun O W st₁ st₂ f₁ f₂ x₁ x₂ hp hf hx => Fold.add_joint ih r.limit hp hf hx
    intro O W st₁ st₂ i j hp hx
    refine .bind_returns (.count _ st₁) (.count _ st₂) ?_
    simp only [hr]
    exact Substitution.instantiate_joint hg hadd O W _ _ i j hp hx

end Resolvers

end FlowTyping
