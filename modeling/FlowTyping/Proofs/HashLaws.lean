import FlowTyping.Hash
import FlowTyping.Members.Add
import FlowTyping.Proofs.EqualityLaws

namespace FlowTyping

variable {R : Ty → Ty → Prop} {g : Graph} {a b : Ty} {u v : Members}

theorem Literals.Agree.types_perm {α β : Type} {l m : Literals α} (h : l.Agree m) (whole : β)
    (literal : α → β) : (l.types whole literal).Perm (m.types whole literal) := by
  obtain ⟨hvacant, hevery, hvalues⟩ := h
  cases l <;> cases m <;> simp [isVacant, isEvery] at hvacant hevery
  case vacant.vacant => rfl
  case listed.listed l m => exact ((List.perm_ext_iff_of_nodup l.nodup m.nodup).2 hvalues).map _
  case every.every => rfl

theorem Members.Fits.toList_perm (h : u.Fits R v) {β : Type} (F : Ty → β)
    (hshapes : (u.shapes.map (F ∘ .node)).Perm (v.shapes.map (F ∘ .node))) :
    (u.toList.map F).Perm (v.toList.map F) := by
  simp only [toList, List.map_append, List.map_map, h.object, h.void, h.null, h.undefined,
    h.hasTrue, h.hasFalse, h.unresolved]
  refine .append_right _ (.append (.append_right _ ?_) hshapes)
  refine .append_right _ (.append_right _ (.append_right _ (.append_right _ ?_)))
  refine .append (.append (.append ?_ ?_) ?_) ?_
  · exact (h.strings.types_perm _ _).map F
  · exact (h.numbers.types_perm _ _).map F
  · exact (h.bigints.types_perm _ _).map F
  · exact (h.symbols.types_perm _ _).map F

namespace Shape

variable {hashText : Text → UInt64} {hash : Ty → UInt64}

theorem hashSlots_eq {as bs : List Slot} (h : List.Forall₂ (Slot.Fits R) as bs)
    (hR : ∀ x y, R x y → hash x = hash y) :
    hashSlots hashText hash as = hashSlots hashText hash bs := by
  have hflat : (as.flatMap fun s => [s.key.hashWith hashText, hash s.type, Hash.ofBool s.optional]) =
      bs.flatMap fun s => [s.key.hashWith hashText, hash s.type, Hash.ofBool s.optional] := by
    induction h with
    | nil => rfl
    | cons hab _ ih => simp [ih, hab.1, hab.2.1, hR _ _ hab.2.2]
  rw [hashSlots, hashSlots, hflat, h.length_eq]

theorem hashTypes_eq {as bs : List Ty} (h : List.Forall₂ R as bs)
    (hR : ∀ x y, R x y → hash x = hash y) : hashTypes hash as = hashTypes hash bs := by
  have hmap : as.map hash = bs.map hash := by
    induction h with
    | nil => rfl
    | cons hab _ ih => simp [ih, hR _ _ hab]
  rw [hashTypes, hashTypes, hmap, h.length_eq]

theorem sum_eq_of_perm {as bs : List UInt64} (h : as.Perm bs) :
    as.foldl (· + ·) 0 = bs.foldl (· + ·) 0 := by
  have : RightCommutative fun x y : UInt64 => x + y :=
    ⟨fun x y z => by rw [UInt64.add_assoc, UInt64.add_comm y, ← UInt64.add_assoc]⟩
  exact h.foldl_eq 0

/-- Shapes that are alike hash alike when the types inside do, and the shapes of unions all in
all. -/
theorem Fits.hashWith_eq {s t : Shape} (h : s.Fits R t) (hR : ∀ x y, R x y → hash x = hash y)
    (hunion : ∀ u v, s = .union u → t = .union v →
      (u.shapes.map (hash ∘ .node)).Perm (v.shapes.map (hash ∘ .node))) (i j : NodeId) :
    s.hashWith hashText hash i = t.hashWith hashText hash j := by
  cases h with
  | union h => exact sum_eq_of_perm (h.toList_perm hash (hunion _ _ rfl rfl))
  | record h => exact hashSlots_eq h hR
  | @callable role ps qs t u ht h =>
    have hflat : (ps.flatMap fun p => [hash p.type, Hash.ofBool p.optional]) =
        qs.flatMap fun p => [hash p.type, Hash.ofBool p.optional] := by
      clear hunion
      induction h with
      | nil => rfl
      | cons hab _ ih => simp [ih, hab.1, hR _ _ hab.2]
    rw [hashWith, hashWith, hflat, h.length_eq, hR t u ht]
  | interface h => rw [hashWith, hashWith, hashSlots_eq h hR]
  | intersection h => exact hashTypes_eq h hR
  | nameSpace h => rw [hashWith, hashWith, hashSlots_eq h hR]
  | intrinsic => rfl
  | instantiation h => rw [hashWith, hashWith, hashTypes_eq h hR]

end Shape

namespace Graph

theorem hashTo_eq_of_similar (hm : ∀ i, g.MatchesOnce i) (hd : g.DistinctShapes)
    (hashText : Text → UInt64) (levels : Nat) (hab : g.Similar a b) :
    g.hashTo hashText levels a = g.hashTo hashText levels b := by
  induction levels generalizing a b with
  | zero =>
    cases hab.alike with
    | same => rfl
    | fits h => rw [hashTo, hashTo, h.kind_eq]
  | succ levels ih =>
    cases hab.alike with
    | same => rfl
    | @fits i j h =>
      rw [hashTo, hashTo, h.kind_eq]
      congr 1
      refine h.hashWith_eq (fun x y hxy => ih hxy) (fun u v hi hj => ?_) i j
      obtain ⟨f, hf, hperm⟩ := (hm i).exists_perm hd hi hj hab
      have hmap : u.shapes.map (g.hashTo hashText levels ∘ .node) =
          (u.shapes.map f).map (g.hashTo hashText levels ∘ .node) := by
        rw [List.map_map]
        exact List.map_congr_left fun x hx => ih (hf x hx)
      rw [hmap]
      exact hperm.map _

/-- Without recursive unions equality is an equivalence, and equal types have the same hash,
whatever texts hash to. -/
theorem equal_equivalence_and_hash (g : Graph) (hacyclic : g.UnionsAcyclic)
    (hdistinct : g.DistinctShapes) :
    Equivalence (fun a b => g.equal a b = true) ∧
      ∀ hashText a b, g.equal a b = true → g.hash hashText a = g.hash hashText b := by
  have hm := hacyclic.matchesOnce hdistinct
  refine ⟨⟨fun a => ?_, fun {a b} hab => ?_, fun {a b c} hab hbc => ?_⟩, fun hashText a b hab => ?_⟩
  · exact equal_iff.2 (.refl g a)
  · rw [equal_iff] at hab ⊢
    exact hab.symm_of_covers fun i _ => (hm i).covers hdistinct
  · rw [equal_iff] at hab hbc ⊢
    exact hab.trans hbc
  · exact hashTo_eq_of_similar hm hdistinct hashText _ (equal_iff.1 hab)

theorem rings_equivalence :
    rings.UnionsAcyclic ∧ rings.DistinctShapes ∧
      Equivalence (fun a b => rings.equal a b = true) ∧
      rings.hash Hash.bytes (.node 3) = rings.hash Hash.bytes (.node 4) := by
  have hacyclic : rings.UnionsAcyclic := .of_rank (fun t => t.node?.elim 0 (· / 3)) (by decide)
  have hdistinct : rings.DistinctShapes := by decide +kernel
  obtain ⟨hequiv, hhash⟩ := equal_equivalence_and_hash rings hacyclic hdistinct
  exact ⟨hacyclic, hdistinct, hequiv, hhash _ _ _ (by decide +kernel)⟩

end Graph

/-- Where equal shapes hash alike, it is enough to compare with the shapes of the same hash. -/
theorem Members.addShape_eq_keyed {hashText : Text → UInt64} {i : NodeId}
    (hhash : ∀ j ∈ u.shapes, g.equal (.node i) (.node j) = true →
      g.hash hashText (.node i) = g.hash hashText (.node j)) :
    u.addShape g i =
      let bucket := u.shapes.filter fun j =>
        g.hash hashText (.node i) = g.hash hashText (.node j)
      if bucket.any (fun j => g.equal (.node i) (.node j)) then u
      else { u with shapes := u.shapes ++ [i] } := by
  have hany : (u.shapes.filter fun j =>
      g.hash hashText (.node i) = g.hash hashText (.node j)).any
        (fun j => g.equal (.node i) (.node j)) =
      u.shapes.any fun j => g.equal (.node i) (.node j) := by
    rw [Bool.eq_iff_iff, List.any_eq_true, List.any_eq_true]
    constructor
    · rintro ⟨j, hj, hij⟩
      exact ⟨j, List.mem_of_mem_filter hj, hij⟩
    · rintro ⟨j, hj, hij⟩
      exact ⟨j, List.mem_filter.2 ⟨hj, decide_eq_true (hhash j hj hij)⟩, hij⟩
  simp only [hany]
  rfl

end FlowTyping
