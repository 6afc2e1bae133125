import FlowTyping.Property
import FlowTyping.Proofs.TwinImages

namespace FlowTyping

open FlowTyping.Graph (Paired Meets Ends)

variable {g : Graph} {O : List (NodeId × NodeId)} {W : World} {h₁ h₂ : Graph} {x₁ x₂ : Ty}
  {i j : NodeId} {st₁ st₂ : Store} {R : Ty → Ty → Prop}

namespace Shape

theorem rel_findSlot {as bs : List Slot} (h : List.Forall₂ (Slot.Fits R) as bs) (key : PropertyKey) :
    Option.Rel (Slot.Fits R) (findSlot key as) (findSlot key bs) := by
  induction h with
  | nil => exact .none
  | @cons a b as bs hab _ ih =>
    simp only [findSlot, List.find?_cons]
    rw [← hab.1]
    split
    · exact .some hab
    · exact ih

theorem requiredParams_eq {as bs : List Param} (h : List.Forall₂ (Param.Fits R) as bs) :
    requiredParams as = requiredParams bs := by
  induction h with
  | nil => rfl
  | cons hab _ ih =>
    simp only [requiredParams, List.countP_cons] at ih ⊢
    rw [ih, hab.1]

end Shape

namespace Graph

theorem Paired.fits (hp : Paired g O W h₁ h₂) (hx : Meets g O W h₁ (.node i) h₂ (.node j)) :
    (h₁.shape i).isOpaque = true ∧ h₂.shape j = h₁.shape i ∨
      (h₁.shape i).Fits (fun y₁ y₂ => Meets g O W h₁ y₁ h₂ y₂) (h₂.shape j) := by
  cases hp.twins.looks i j (World.pairs_node.1 hx.pairs) with
  | same hopq hi => exact .inl ⟨hopq, hi⟩
  | twin hij =>
    refine .inr (hij.there.imp fun y₁ hy₁ y₂ hy₂ hy => ?_)
    exact hp.meets_child hx (child_node.2 hy₁) (child_node.2 hy₂) hy

end Graph

namespace Resolvers

variable {r : Resolvers}

theorem addTo_joint (hg : g.Regular) (hr : r.instance? = none) {f₁ f₂ : Fold}
    (hp : Paired g O W st₁.graph st₂.graph) (hf : Fold.Meets O W st₁.graph f₁ st₂.graph f₂)
    (hx : Meets g O W st₁.graph x₁ st₂.graph x₂) :
    Joint g (r.addTo f₁ x₁) st₁ (r.addTo f₂ x₂) st₂
      (Ends g O W st₁.graph st₂.graph (Fold.Meets O)) :=
  Fold.add_joint (unwrapsAlike hg hr r.limit) r.limit hp hf hx

theorem widen_joint (hg : g.Regular) (hr : r.instance? = none) (optional : Bool)
    (hp : Paired g O W st₁.graph st₂.graph) (hx : Meets g O W st₁.graph x₁ st₂.graph x₂) :
    Joint g (r.widen optional x₁) st₁ (r.widen optional x₂) st₂
      (Ends g O W st₁.graph st₂.graph (Meets g O)) := by
  rw [widen, widen]
  cases optional with
  | false => exact .pure_ends hp hx
  | true =>
    simp only [if_true, unite, List.foldlM_cons, List.foldlM_nil, bind_pure]
    rw [bind_assoc, bind_assoc]
    refine (addTo_joint hg hr hp (Fold.meets_never O W _ _) (.word rfl)).bind_ends ?_
    intro W' f₁ s₁ f₂ s₂ hgrown hp' hf
    refine (addTo_joint hg hr hp' hf (hx.mono hp hgrown)).bind_ends ?_
    intro W'' k₁ r₁ k₂ r₂ _ hp'' hk
    exact hk.finish hp''

theorem slotType_joint (hg : g.Regular) (hr : r.instance? = none) {a b : Option Slot}
    {missing : Ty} (hmissing : missing.node? = none) (hp : Paired g O W st₁.graph st₂.graph)
    (hab : Option.Rel (Slot.Fits fun y₁ y₂ => Meets g O W st₁.graph y₁ st₂.graph y₂) a b) :
    Joint g (r.slotType a missing) st₁ (r.slotType b missing) st₂
      (Ends g O W st₁.graph st₂.graph (Meets g O)) := by
  cases hab with
  | none => exact .pure_ends hp (.word hmissing)
  | some hab =>
    simp only [slotType, ← hab.2.1]
    exact widen_joint hg hr _ hp hab.2.2

theorem rel_intersectionSlot (hp : Paired g O W h₁ h₂) (hx : Meets g O W h₁ x₁ h₂ x₂)
    (key : PropertyKey) :
    Option.Rel (Slot.Fits fun y₁ y₂ => Meets g O W h₁ y₁ h₂ y₂) (intersectionSlot h₁ key x₁)
      (intersectionSlot h₂ key x₂) := by
  cases hx.pairs with
  | word hword =>
    cases x₁ with
    | node i => cases hword
    | _ => exact .none
  | @node i j =>
    simp only [intersectionSlot]
    rcases hp.fits hx with ⟨hopq, hj⟩ | hfits
    · rw [hj]
      cases hi : h₁.shape i <;> simp only [hi, Shape.isOpaque, Bool.false_eq_true] at hopq <;>
        exact .none
    · generalize h₁.shape i = s at hfits
      generalize h₂.shape j = t at hfits
      cases hfits with
      | record h => exact Shape.rel_findSlot h key
      | interface h => exact Shape.rel_findSlot h key
      | _ => exact .none

theorem memberProperty_word {x : Ty} (r : Resolvers) (key : PropertyKey) (hx : x.node? = none) :
    ∃ w, r.memberProperty x key = pure w ∧ w.node? = none := by
  cases x with
  | simple s =>
    refine ⟨_, rfl, ?_⟩
    cases s <;> simp only [simpleProperty] <;> first | rfl | (split <;> rfl)
  | string v =>
    refine ⟨_, rfl, ?_⟩
    simp only [stringProperty]
    split
    · split <;> rfl
    · rfl
  | node i => cases hx
  | _ => exact ⟨_, rfl, rfl⟩

theorem memberProperty_joint (hg : g.Regular) (hr : r.instance? = none) (key : PropertyKey)
    (hp : Paired g O W st₁.graph st₂.graph) (hx : Meets g O W st₁.graph x₁ st₂.graph x₂) :
    Joint g (r.memberProperty x₁ key) st₁ (r.memberProperty x₂ key) st₂
      (Ends g O W st₁.graph st₂.graph (Meets g O)) := by
  cases hx.pairs with
  | word hword =>
    obtain ⟨w, hread, hw⟩ := memberProperty_word r key hword
    rw [hread]
    exact .pure_ends hp (.word hw)
  | @node i j =>
    refine .bind_returns (.graph st₁) (.graph st₂) ?_
    rcases hp.fits hx with ⟨hopq, hj⟩ | hfits
    · rw [hj]
      cases hi : st₁.graph.shape i <;>
        simp only [hi, Shape.isOpaque, Bool.false_eq_true] at hopq <;>
        exact .pure_ends hp (.word rfl)
    · generalize st₁.graph.shape i = s at hfits
      generalize st₂.graph.shape j = t at hfits
      cases hfits with
      | record h => exact slotType_joint hg hr rfl hp (Shape.rel_findSlot h key)
      | interface h => exact slotType_joint hg hr rfl hp (Shape.rel_findSlot h key)
      | nameSpace h => exact slotType_joint hg hr rfl hp (Shape.rel_findSlot h key)
      | intersection h =>
        have hslots := List.rel_filterMap
          (fun y₁ y₂ (hy : Meets g O W st₁.graph y₁ st₂.graph y₂) => rel_intersectionSlot hp hy key) h
        simp only
        generalize List.filterMap (intersectionSlot st₁.graph key) _ = as at hslots
        generalize List.filterMap (intersectionSlot st₂.graph key) _ = bs at hslots
        cases hslots with
        | nil => exact .pure_ends hp (.word rfl)
        | cons hslot hslots =>
          cases hslots with
          | nil => exact slotType_joint hg hr rfl hp (.some hslot)
          | cons => exact .pure_ends hp (.word rfl)
      | @callable role as bs _ _ _ h =>
        have hsame : callableProperty bs key = callableProperty as key := by
          rw [callableProperty, callableProperty, Shape.requiredParams_eq h]
        simp only [hsame]
        refine .pure_ends hp (.word ?_)
        rw [callableProperty]
        split
        · rfl
        · split <;> rfl
      | _ => exact .pure_ends hp (.word rfl)

end Resolvers

end FlowTyping
