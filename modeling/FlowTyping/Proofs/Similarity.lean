import FlowTyping.Equality
import FlowTyping.Proofs.Reachability
import Mathlib.Data.List.Forall2

namespace FlowTyping

variable {R S : Ty → Ty → Prop} {g : Graph}

def Literals.Agree {α : Type} (a b : Literals α) : Prop :=
  a.isVacant = b.isVacant ∧ a.isEvery = b.isEvery ∧ ∀ v, v ∈ a.values ↔ v ∈ b.values

theorem Literals.same_iff_agree {α : Type} [DecidableEq α] {a b : Literals α} :
    a.same b = true ↔ a.Agree b := by
  cases a <;> cases b <;> simp [same, Agree, isVacant, isEvery, values, iff_def, forall_and]

theorem forall₂_imp_mem {α : Type} {r s : α → α → Prop} {as bs : List α}
    (h : List.Forall₂ r as bs) (hrs : ∀ a ∈ as, ∀ b ∈ bs, r a b → s a b) :
    List.Forall₂ s as bs := by
  rw [List.forall₂_iff_zip] at h ⊢
  refine ⟨h.1, fun hab => ?_⟩
  exact hrs _ (List.of_mem_zip hab).1 _ (List.of_mem_zip hab).2 (h.2 hab)

def Slot.Fits (R : Ty → Ty → Prop) (a b : Slot) : Prop :=
  a.key = b.key ∧ a.optional = b.optional ∧ R a.type b.type

theorem Slot.Fits.imp_mem {as bs : List Slot}
    (hRS : ∀ x ∈ as.map (·.type), ∀ y ∈ bs.map (·.type), R x y → S x y) :
    ∀ a ∈ as, ∀ b ∈ bs, a.Fits R b → a.Fits S b := by
  intro a ha b hb hab
  exact ⟨hab.1, hab.2.1, hRS _ (List.mem_map_of_mem ha) _ (List.mem_map_of_mem hb) hab.2.2⟩

def Param.Fits (R : Ty → Ty → Prop) (a b : Param) : Prop :=
  a.optional = b.optional ∧ R a.type b.type

/-- The words and literals of both are the same, the placeholders are the same one by one, and
among as many shapes each of the first has one of the second that it is related to. -/
structure Members.Fits (R : Ty → Ty → Prop) (a b : Members) : Prop where
  object : a.object = b.object
  void : a.void = b.void
  null : a.null = b.null
  undefined : a.undefined = b.undefined
  hasTrue : a.hasTrue = b.hasTrue
  hasFalse : a.hasFalse = b.hasFalse
  strings : a.strings.Agree b.strings
  numbers : a.numbers.Agree b.numbers
  bigints : a.bigints.Agree b.bigints
  symbols : a.symbols.Agree b.symbols
  count : a.shapes.length = b.shapes.length
  covered : ∀ i ∈ a.shapes, ∃ j ∈ b.shapes, R (.node i) (.node j)
  unresolved : a.unresolved = b.unresolved

theorem Members.Fits.refl (hR : ∀ t, R t t) (u : Members) : u.Fits R u := by
  have hagree {α : Type} (l : Literals α) : l.Agree l := ⟨rfl, rfl, fun _ => .rfl⟩
  exact ⟨rfl, rfl, rfl, rfl, rfl, rfl, hagree _, hagree _, hagree _, hagree _, rfl,
    fun i hi => ⟨i, hi, hR _⟩, rfl⟩

/-- One step of likeness between the shapes of different nodes, with `R` between the types inside. A
placeholder or a generic is like no other node. -/
inductive Shape.Fits (R : Ty → Ty → Prop) : Shape → Shape → Prop
  | union {a b} : a.Fits R b → Fits R (.union a) (.union b)
  | record {a b} : List.Forall₂ (Slot.Fits R) a b → Fits R (.record a) (.record b)
  | callable {role a b t u} : R t u → List.Forall₂ (Param.Fits R) a b →
      Fits R (.callable role a t) (.callable role b u)
  | interface {name a b} : List.Forall₂ (Slot.Fits R) a b →
      Fits R (.interface name a) (.interface name b)
  | intersection {a b} : List.Forall₂ R a b → Fits R (.intersection a) (.intersection b)
  | nameSpace {name a b} : List.Forall₂ (Slot.Fits R) a b →
      Fits R (.nameSpace name a) (.nameSpace name b)
  | intrinsic {name} : Fits R (.intrinsic name) (.intrinsic name)
  | instantiation {origin a b} : List.Forall₂ R a b →
      Fits R (.instantiation origin a) (.instantiation origin b)

namespace Shape

theorem pairwise_iff {α : Type} {r : α → α → Bool} {as bs : List α} :
    pairwise r as bs = true ↔ List.Forall₂ (fun a b => r a b = true) as bs := by
  induction as generalizing bs with
  | nil => cases bs <;> simp [pairwise]
  | cons a as ih => cases bs <;> simp [pairwise, ih]

theorem sameMembers_iff {r : Ty → Ty → Bool} {a b : Members} :
    sameMembers r a b = true ↔ a.Fits (fun x y => r x y = true) b := by
  constructor
  · intro h
    simp [sameMembers, Literals.same_iff_agree, and_assoc] at h
    obtain ⟨h1, h2, h3, h4, h5, h6, h7, h8, h9, h10, h11, h12, h13⟩ := h
    exact ⟨h1, h2, h3, h4, h5, h6, h7, h8, h9, h10, h11, h12, h13⟩
  · intro h
    simp [sameMembers, Literals.same_iff_agree, and_assoc]
    exact ⟨h.object, h.void, h.null, h.undefined, h.hasTrue, h.hasFalse, h.strings, h.numbers,
      h.bigints, h.symbols, h.count, h.covered, h.unresolved⟩

theorem sameSlot_iff {r : Ty → Ty → Bool} {a b : Slot} :
    sameSlot r a b = true ↔ a.Fits (fun x y => r x y = true) b := by
  simp [sameSlot, Slot.Fits, and_assoc]

theorem sameParam_iff {r : Ty → Ty → Bool} {a b : Param} :
    sameParam r a b = true ↔ a.Fits (fun x y => r x y = true) b := by
  simp [sameParam, Param.Fits]

theorem sameWith_iff {r : Ty → Ty → Bool} {s t : Shape} :
    s.sameWith r t = true ↔ s.Fits (fun x y => r x y = true) t := by
  constructor
  · intro h
    cases s <;> cases t <;>
      simp [sameWith, pairwise_iff, sameMembers_iff, sameSlot_iff, sameParam_iff] at h
    · exact .union h
    · exact .record h
    · obtain ⟨⟨rfl, ht⟩, hp⟩ := h
      exact .callable ht hp
    · obtain ⟨rfl, h⟩ := h
      exact .interface h
    · exact .intersection h
    · obtain ⟨rfl, h⟩ := h
      exact .nameSpace h
    · subst h
      exact .intrinsic
    · obtain ⟨rfl, h⟩ := h
      exact .instantiation h
  · intro h
    cases h <;>
      simp_all [sameWith, pairwise_iff, sameMembers_iff, sameSlot_iff, sameParam_iff]

theorem Fits.kind_eq {s t : Shape} (h : s.Fits R t) : s.kind = t.kind := by
  cases h with
  | @callable role => cases role <;> rfl
  | _ => rfl

theorem Fits.ne_unresolved {s t : Shape} (h : s.Fits R t) (name : Text) :
    s ≠ .unresolved name ∧ t ≠ .unresolved name := by
  cases h <;> simp

theorem Fits.imp {s t : Shape} (h : s.Fits R t)
    (hRS : ∀ x ∈ s.children, ∀ y ∈ t.children, R x y → S x y) : s.Fits S t := by
  cases h with
  | @union a b h =>
    refine .union { h with covered := fun i hi => ?_ }
    obtain ⟨j, hj, hij⟩ := h.covered i hi
    exact ⟨j, hj, hRS _ (Members.node_mem_toList.2 (.inl hi)) _
      (Members.node_mem_toList.2 (.inl hj)) hij⟩
  | record h => exact .record (forall₂_imp_mem h (Slot.Fits.imp_mem hRS))
  | callable ht h =>
    refine .callable (hRS _ (by simp [children]) _ (by simp [children]) ht)
      (forall₂_imp_mem h fun x hx y hy hxy => ⟨hxy.1, hRS _ ?_ _ ?_ hxy.2⟩)
    · exact List.mem_append_left _ (List.mem_map_of_mem hx)
    · exact List.mem_append_left _ (List.mem_map_of_mem hy)
  | interface h => exact .interface (forall₂_imp_mem h (Slot.Fits.imp_mem hRS))
  | intersection h => exact .intersection (forall₂_imp_mem h hRS)
  | nameSpace h => exact .nameSpace (forall₂_imp_mem h (Slot.Fits.imp_mem hRS))
  | intrinsic => exact .intrinsic
  | instantiation h => exact .instantiation (forall₂_imp_mem h hRS)

end Shape

namespace Graph

inductive Alike (g : Graph) (R : Ty → Ty → Prop) : Ty → Ty → Prop
  | same (t : Ty) : Alike g R t t
  | fits {i j : NodeId} : (g.shape i).Fits R (g.shape j) → Alike g R (.node i) (.node j)

/-- A relation that only holds between types that look alike, with itself between the types
inside. -/
def IsSimulation (g : Graph) (R : Ty → Ty → Prop) : Prop := ∀ a b, R a b → g.Alike R a b

def Similar (g : Graph) (a b : Ty) : Prop := ∃ R, g.IsSimulation R ∧ R a b

variable {a b c : Ty} {i j : NodeId}

theorem Alike.imp (h : g.Alike R a b) (hRS : ∀ x y, R x y → S x y) : g.Alike S a b := by
  cases h with
  | same => exact .same a
  | fits h => exact .fits (h.imp fun x _ y _ => hRS x y)

theorem isSimulation_similar (g : Graph) : g.IsSimulation g.Similar := by
  intro a b ⟨R, hR, hab⟩
  exact (hR a b hab).imp fun x y hxy => ⟨R, hR, hxy⟩

theorem Similar.alike (h : g.Similar a b) : g.Alike g.Similar a b := g.isSimulation_similar a b h

theorem Similar.of_upTo (hR : ∀ x y, R x y → g.Alike (fun x y => R x y ∨ g.Similar x y) x y)
    (hab : R a b) : g.Similar a b := by
  refine ⟨fun x y => R x y ∨ g.Similar x y, ?_, .inl hab⟩
  rintro x y (hxy | hxy)
  · exact hR x y hxy
  · exact hxy.alike.imp fun _ _ => .inr

theorem Similar.of_alike (h : g.Alike g.Similar a b) : g.Similar a b := by
  refine Similar.of_upTo (R := fun x y => x = a ∧ y = b) ?_ ⟨rfl, rfl⟩
  rintro x y ⟨rfl, rfl⟩
  exact h.imp fun _ _ => .inr

theorem Similar.refl (g : Graph) (a : Ty) : g.Similar a a := .of_alike (.same a)

theorem similar_node_iff :
    g.Similar (.node i) (.node j) ↔ i = j ∨ (g.shape i).Fits g.Similar (g.shape j) := by
  constructor
  · intro h
    cases h.alike with
    | same => exact .inl rfl
    | fits h => exact .inr h
  · rintro (rfl | h)
    · exact .refl g _
    · exact .of_alike (.fits h)

theorem lt_size_of_fits (h : (g.shape i).Fits R (g.shape j)) : i < g.size ∧ j < g.size := by
  -- A reference that leads nowhere is a placeholder, and these are like no other node.
  constructor
  · exact Nat.lt_of_not_le fun hi => (h.ne_unresolved []).1 (shape_of_size_le hi)
  · exact Nat.lt_of_not_le fun hj => (h.ne_unresolved []).2 (shape_of_size_le hj)

/-- Similarity that may also rest on a list of pairs, if not at once. -/
def SimilarBelow (g : Graph) (assumed : List (NodeId × NodeId)) (a b : Ty) : Prop :=
  ∃ R : Ty → Ty → Prop, R a b ∧ ∀ x y, R x y →
    g.Alike (fun x y => R x y ∨ ∃ p ∈ assumed, x = .node p.1 ∧ y = .node p.2) x y

theorem SimilarBelow.of_fits {assumed : List (NodeId × NodeId)}
    (h : (g.shape i).Fits (fun x y => g.SimilarBelow ((i, j) :: assumed) x y ∨
      ∃ p ∈ (i, j) :: assumed, x = .node p.1 ∧ y = .node p.2) (g.shape j)) :
    g.SimilarBelow assumed (.node i) (.node j) := by
  refine ⟨fun x y => (x = .node i ∧ y = .node j) ∨ g.SimilarBelow ((i, j) :: assumed) x y,
    .inl ⟨rfl, rfl⟩, ?_⟩
  rintro x y (⟨rfl, rfl⟩ | ⟨R, hxy, hR⟩)
  · refine .fits (h.imp fun x _ y _ hxy => ?_)
    simp only [List.mem_cons, exists_eq_or_imp] at hxy
    tauto
  · refine (hR x y hxy).imp fun x y hxy => ?_
    simp only [List.mem_cons, exists_eq_or_imp] at hxy
    rcases hxy with hxy | hxy | hxy
    · exact .inl (.inr ⟨R, hxy, hR⟩)
    · exact .inl (.inl hxy)
    · exact .inr hxy

theorem similarBelow_nil : g.SimilarBelow [] a b ↔ g.Similar a b := by
  constructor
  · rintro ⟨R, hab, hR⟩
    exact ⟨R, fun x y hxy => (hR x y hxy).imp (by simp), hab⟩
  · rintro ⟨R, hR, hab⟩
    exact ⟨R, hab, fun x y hxy => (hR x y hxy).imp fun _ _ => .inl⟩

theorem SimilarBelow.refl (g : Graph) (assumed : List (NodeId × NodeId)) (t : Ty) :
    g.SimilarBelow assumed t t := by
  refine ⟨Eq, rfl, ?_⟩
  rintro x _ rfl
  exact .same x

/-- What the walk accepts holds on the assumptions that it was made under. -/
theorem similarBelow_of_walk {assumed : List (NodeId × NodeId)} (h : g.walk assumed a b = true) :
    g.SimilarBelow assumed a b ∨ ∃ p ∈ assumed, a = .node p.1 ∧ b = .node p.2 := by
  fun_induction walk g assumed a b with
  | case1 => exact .inl (.refl ..)
  | case2 assumed i j _ hmem => exact .inr ⟨(i, j), hmem, rfl, rfl⟩
  | case3 assumed i j _ _ _ ih =>
    refine .inl (.of_fits ?_)
    exact (Shape.sameWith_iff.1 h).imp fun x _ y _ hxy => ih x y hxy
  | case4 => cases h
  | case5 assumed a b => exact .inl (eq_of_beq h ▸ .refl ..)

theorem walk_of_similar {assumed : List (NodeId × NodeId)} (h : g.Similar a b) :
    g.walk assumed a b = true := by
  fun_induction walk g assumed a b with
  | case1 => rfl
  | case2 => rfl
  | case3 assumed i j hne _ _ ih =>
    rcases similar_node_iff.1 h with hij | hfits
    · exact absurd hij hne
    · exact Shape.sameWith_iff.2 (hfits.imp fun x _ y _ hxy => ih x y hxy)
  | case4 assumed i j hne _ habsent =>
    rcases similar_node_iff.1 h with hij | hfits
    · exact absurd hij hne
    · exact absurd (lt_size_of_fits hfits) habsent
  | case5 assumed a b hnodes =>
    cases h.alike with
    | same => simp
    | @fits i j => exact absurd rfl (hnodes i j rfl)

@[simp] theorem walk_nil_iff : g.walk [] a b = true ↔ g.Similar a b := by
  constructor
  · intro h
    simpa [similarBelow_nil] using similarBelow_of_walk h
  · exact walk_of_similar

@[simp] theorem equal_iff : g.equal a b = true ↔ g.Similar a b := walk_nil_iff

theorem equal_eq_false_iff : g.equal a b = false ↔ ¬ g.Similar a b := by
  rw [← equal_iff, Bool.not_eq_true]

theorem equalNodes_iff : g.equalNodes i j = true ↔ g.Similar (.node i) (.node j) := by
  simp [equalNodes, Shape.sameWith_iff, similar_node_iff]

theorem similar_union_iff {u v : Members} (hi : g.shape i = .union u) (hj : g.shape j = .union v) :
    g.Similar (.node i) (.node j) ↔ u.Fits g.Similar v := by
  rw [similar_node_iff, hi, hj]
  constructor
  · rintro (rfl | h)
    · obtain rfl : u = v := by simpa [hi] using hj
      exact .refl (.refl g) u
    · cases h
      assumption
  · exact fun h => .inr (.union h)

theorem equalMembers_iff {u v : Members} (hi : g.shape i = .union u) (hj : g.shape j = .union v) :
    g.equalMembers u v = true ↔ g.Similar (.node i) (.node j) := by
  rw [equalMembers, Shape.sameMembers_iff, similar_union_iff hi hj]
  simp only [walk_nil_iff]

theorem AgreesAt.similar {h : Graph} (ha : g.AgreesAt h a) (hb : g.AgreesAt h b)
    (hab : g.Similar a b) : h.Similar a b := by
  refine Similar.of_upTo
    (R := fun x y => g.AgreesAt h x ∧ g.AgreesAt h y ∧ g.Similar x y) ?_ ⟨ha, hb, hab⟩
  rintro x y ⟨hx, hy, hxy⟩
  cases hxy.alike with
  | same => exact .same _
  | @fits i j hfits =>
    refine .fits ?_
    rw [hx i .refl, hy j .refl]
    exact hfits.imp fun c hc d hd hcd =>
      .inl ⟨hx.of_reaches (.single hc), hy.of_reaches (.single hd), hcd⟩

theorem AgreesAt.equal_eq {h : Graph} (ha : g.AgreesAt h a) (hb : g.AgreesAt h b) :
    h.equal a b = g.equal a b := by
  rw [Bool.eq_iff_iff, equal_iff, equal_iff]
  exact ⟨ha.symm.similar hb.symm, ha.similar hb⟩

/-- Equality decides the greatest simulation, with or without assuming the first pair. The walk ends
on every graph, as each step down assumes a pair that was not assumed before. -/
theorem equal_iff_greatest_simulation (g : Graph) :
    (g.IsSimulation g.Similar ∧ ∀ R, g.IsSimulation R → ∀ a b, R a b → g.Similar a b) ∧
    (∀ a b, g.equal a b = true ↔ g.Similar a b) ∧
    (∀ i j, g.equalNodes i j = g.equal (.node i) (.node j)) ∧
    ∀ i j u v, g.shape i = .union u → g.shape j = .union v →
      g.equalMembers u v = g.equal (.node i) (.node j) := by
  refine ⟨⟨g.isSimulation_similar, fun R hR a b hab => ⟨R, hR, hab⟩⟩, fun a b => equal_iff, ?_, ?_⟩
  · intro i j
    rw [Bool.eq_iff_iff, equalNodes_iff, equal_iff]
  · intro i j u v hi hj
    rw [Bool.eq_iff_iff, equalMembers_iff hi hj, equal_iff]

def rings : Graph :=
  let next (i : NodeId) : Shape := .record [⟨.named (text "next"), .node i, false⟩]
  ⟨#[next 0, next 2, next 1, .union { null := true, shapes := [0] },
    .union { null := true, shapes := [1] }]⟩

theorem rings_equalMembers :
    rings.equalMembers { null := true, shapes := [0] } { null := true, shapes := [1] } =
        rings.equal (.node 3) (.node 4) ∧
      rings.equal (.node 3) (.node 4) = true :=
  ⟨(equal_iff_greatest_simulation rings).2.2.2 3 4 _ _ rfl rfl, by decide +kernel⟩

end Graph

end FlowTyping
