import FlowTyping.Proofs.Images
import FlowTyping.Proofs.MembersCollection
import Mathlib.Data.List.TakeWhile

namespace FlowTyping.Shape

variable {R : Ty → Ty → Prop} {s s' : Shape} {ts ts' : List Ty} {n : Nat}

/-- What equality sees of one child: its key, whether it is optional, and its type. -/
@[ext] structure Field where
  key : Option PropertyKey := none
  optional : Bool := false
  type : Ty
deriving DecidableEq

def fields : Shape → List Field
  | .record slots | .interface _ slots | .nameSpace _ slots =>
    slots.map fun s => ⟨some s.key, s.optional, s.type⟩
  | .callable _ params returns =>
    params.map (fun p => { optional := p.optional, type := p.type }) ++ [{ type := returns }]
  | .intersection types | .instantiation _ types => types.map fun t => { type := t }
  | _ => []

def name? : Shape → Option Text
  | .interface name _ | .nameSpace name _ => some name
  | _ => none

/-- The children before the first that refers to a node. -/
def lead (s : Shape) : List Ty := s.children.takeWhile (·.node?.isNone)

/-- The shapes differ in kind or name, or in a field before the first reference of either. -/
def ToldApart (s s' : Shape) : Prop :=
  s.kind ≠ s'.kind ∨ s.name? ≠ s'.name? ∨
    ∃ n < min s.lead.length s'.lead.length, s.fields[n]? ≠ s'.fields[n]?

instance (s s' : Shape) : Decidable (s.ToldApart s') :=
  inferInstanceAs (Decidable (_ ∨ _ ∨ ∃ n < _, _))

theorem lead_isPrefix (s : Shape) : s.lead <+: s.children := List.takeWhile_prefix _

theorem node?_of_mem_lead {t : Ty} (ht : t ∈ s.lead) : t.node? = none :=
  Option.isNone_iff_eq_none.1 (List.mem_takeWhile_imp (p := fun t : Ty => t.node?.isNone) ht)

theorem fields_types (hs : s.kind ≠ .union) : s.fields.map (·.type) = s.children := by
  cases s with
  | union u => exact absurd rfl hs
  | _ => simp [fields, children, Function.comp_def]

theorem fields_refill {a : Field} {t : Ty} (ha : s.fields[n]? = some a) (ht : ts[n]? = some t) :
    (s.refill ts).fields[n]? = some { a with type := t } := by
  have hslots (slots : List Slot) (ha : (slots.map fun s => (⟨some s.key, s.optional, s.type⟩ :
      Field))[n]? = some a) : ((refillSlots slots ts).map fun s =>
        (⟨some s.key, s.optional, s.type⟩ : Field))[n]? = some { a with type := t } := by
    rw [List.getElem?_map, Option.map_eq_some_iff] at ha
    obtain ⟨slot, hslot, rfl⟩ := ha
    simp [refillSlots, List.getElem?_zipWith, hslot, ht]
  cases s with
  | record slots => exact hslots slots ha
  | interface name slots => exact hslots slots ha
  | nameSpace name slots => exact hslots slots ha
  | intersection types =>
    rw [fields, List.getElem?_map, Option.map_eq_some_iff] at ha
    obtain ⟨x, -, rfl⟩ := ha
    simp [refill, fields, ht]
  | instantiation origin types =>
    rw [fields, List.getElem?_map, Option.map_eq_some_iff] at ha
    obtain ⟨x, -, rfl⟩ := ha
    simp [refill, fields, ht]
  | callable role params returns =>
    have hlen : (refillParams params ts).length = min params.length ts.length := by
      simp [refillParams]
    have hn : n < ts.length := (List.getElem?_eq_some_iff.1 ht).1
    simp only [fields, refill] at ha ⊢
    rcases Nat.lt_trichotomy n params.length with hlt | rfl | hgt
    · rw [List.getElem?_append_left (by simpa using hlt)] at ha
      rw [List.getElem?_append_left (by simp [hlen]; omega)]
      rw [List.getElem?_map, Option.map_eq_some_iff] at ha
      obtain ⟨p, hp, rfl⟩ := ha
      simp [refillParams, List.getElem?_zipWith, hp, ht]
    · rw [List.getElem?_append_right (by simp)] at ha
      rw [List.getElem?_append_right (by simp [hlen])]
      simp only [List.length_map, hlen, Nat.min_eq_left (Nat.le_of_lt hn), Nat.sub_self,
        List.getElem?_cons_zero, Option.some.injEq, ht, Option.getD_some] at ha ⊢
      rw [← ha]
    · rw [List.getElem?_eq_none (by simp; omega)] at ha
      cases ha
  | _ => cases ha

theorem name?_refill (s : Shape) (ts : List Ty) : (s.refill ts).name? = s.name? := by
  cases s <;> rfl

theorem Fits.name?_eq (h : s.Fits R s') : s.name? = s'.name? := by
  cases h <;> rfl

theorem Fits.fields (h : s.Fits R s') : List.Forall₂
    (fun a a' : Field => a.key = a'.key ∧ a.optional = a'.optional ∧ R a.type a'.type)
    s.fields s'.fields := by
  have hslots {slots slots' : List Slot} (h : List.Forall₂ (Slot.Fits R) slots slots') :
      List.Forall₂
        (fun a a' : Field => a.key = a'.key ∧ a.optional = a'.optional ∧ R a.type a'.type)
        (slots.map fun s => ⟨some s.key, s.optional, s.type⟩)
        (slots'.map fun s => ⟨some s.key, s.optional, s.type⟩) := by
    rw [List.forall₂_map_left_iff, List.forall₂_map_right_iff]
    exact h.imp fun a b hab => ⟨congrArg some hab.1, hab.2⟩
  cases h with
  | record h => exact hslots h
  | interface h => exact hslots h
  | nameSpace h => exact hslots h
  | callable ht h =>
    refine List.rel_append ?_ (.cons ⟨rfl, rfl, ht⟩ .nil)
    rw [List.forall₂_map_left_iff, List.forall₂_map_right_iff]
    exact h.imp fun a b hab => ⟨rfl, hab⟩
  | intersection h => simpa [Shape.fields] using h
  | instantiation h => simpa [Shape.fields] using h
  | union | intrinsic => exact .nil

theorem exists_field_of_lead (hs : s.kind ≠ .union) (hlead : s.lead <+: ts)
    (hn : n < s.lead.length) :
    ∃ a, s.fields[n]? = some a ∧ (s.refill ts).fields[n]? = some a ∧ a.type.node? = none := by
  have hchild : s.children[n]? = some s.lead[n] := by
    obtain ⟨rest, hrest⟩ := s.lead_isPrefix
    rw [← hrest, List.getElem?_append_left hn, List.getElem?_eq_getElem hn]
  have hfilled : ts[n]? = some s.lead[n] := by
    obtain ⟨rest, rfl⟩ := hlead
    rw [List.getElem?_append_left hn, List.getElem?_eq_getElem hn]
  rw [← fields_types hs, List.getElem?_map, Option.map_eq_some_iff] at hchild
  obtain ⟨a, ha, htype⟩ := hchild
  rw [← htype] at hfilled
  refine ⟨a, ha, fields_refill ha hfilled, ?_⟩
  rw [htype]
  exact node?_of_mem_lead (List.getElem_mem hn)

theorem ToldApart.not_fits_refill (h : s.ToldApart s') (hs : s.kind ≠ .union)
    (hlead : s.lead <+: ts) (hlead' : s'.lead <+: ts')
    (hR : ∀ x y, R x y → x.node? = none → x = y) : ¬ (s.refill ts).Fits R (s'.refill ts') := by
  intro hfits
  have hkind : s.kind = s'.kind := by simpa using hfits.kind_eq
  rcases h with h | h | ⟨n, hn, h⟩
  · exact h hkind
  · rw [← name?_refill s ts, ← name?_refill s' ts'] at h
    exact h hfits.name?_eq
  · rw [Nat.lt_min] at hn
    obtain ⟨a, ha, hfilled, hword⟩ := exists_field_of_lead hs hlead hn.1
    obtain ⟨a', ha', hfilled', -⟩ := exists_field_of_lead (hkind ▸ hs) hlead' hn.2
    have hzip : (a, a') ∈ ((s.refill ts).fields).zip (s'.refill ts').fields :=
      List.mem_of_getElem? (List.getElem?_zip_eq_some.2 ⟨hfilled, hfilled'⟩)
    obtain ⟨hkey, hoptional, htype⟩ := (List.forall₂_iff_zip.1 hfits.fields).2 hzip
    apply h
    rw [ha, ha', Field.ext hkey hoptional (hR _ _ htype hword)]

end FlowTyping.Shape
