import FlowTyping.Proofs.FoldSets
import FlowTyping.Property

namespace FlowTyping

inductive Value
  | string (x : Text)
  | number (x : Number)
  | boolean (b : Bool)
  | null
  | undefined
  /-- A finite object. Of several fields with one key only the first counts. -/
  | object (fields : List (Text × Value))

/-- What reading a property of a value may give. Nothing can be read of `null` and `undefined`, and
what a primitive value has besides the length of a text is left open. -/
inductive Value.Reads : Value → Text → Value → Prop
  | length {x n} : Text.utf16Length x = some n →
      Reads (.string x) (text "length") (.number (.ofNat n))
  | malformed {x y} : Text.utf16Length x = none → Reads (.string x) (text "length") (.number y)
  | string {x attr w} : attr ≠ text "length" → Reads (.string x) attr w
  | number {x attr w} : Reads (.number x) attr w
  | boolean {b attr w} : Reads (.boolean b) attr w
  | field {fields attr w} : fields.lookup attr = some w → Reads (.object fields) attr w
  | absent {fields attr} : fields.lookup attr = none → Reads (.object fields) attr .undefined

def Simple.admits : Simple → Value → Bool
  | .error, _ | .any, _ | .unknown, _ => true
  | .object, .object _ => true
  | .void, .undefined | .undefined, .undefined => true
  | .null, .null => true
  | .string, .string _ => true
  | .number, .number _ => true
  | .boolean, .boolean _ => true
  | _, _ => false

/-- A record describes the objects that have its keys and no others; optional keys may be
missing. -/
inductive Graph.Describes (g : Graph) : Ty → Value → Prop
  | word {s v} : s.admits v = true → Describes g (.simple s) v
  | string (x) : Describes g (.string x) (.string x)
  | number (x) : Describes g (.number x) (.number x)
  | boolean (b) : Describes g (.boolean b) (.boolean b)
  | union {i u t v} : g.shape i = .union u → t ∈ u.toList → Describes g t v →
      Describes g (.node i) v
  | record {i slots fields} : g.shape i = .record slots →
      (∀ k, (fields.lookup k).isSome → (Shape.findSlot (.named k) slots).isSome) →
      (∀ k s, Shape.findSlot (.named k) slots = some s → s.optional = false →
        (fields.lookup k).isSome) →
      (∀ k v s, fields.lookup k = some v → Shape.findSlot (.named k) slots = some s →
        Describes g s.type v) →
      Describes g (.node i) (.object fields)

variable {g h : Graph} {t : Ty} {v : Value} {i : NodeId}

theorem Shape.findSlot_fits {R : Ty → Ty → Prop} {as bs : List Slot}
    (h : List.Forall₂ (Slot.Fits R) as bs) (key : PropertyKey) :
    (findSlot key as = none ∧ findSlot key bs = none) ∨
      ∃ a b, findSlot key as = some a ∧ findSlot key bs = some b ∧ a.Fits R b := by
  induction h with
  | nil => exact .inl ⟨rfl, rfl⟩
  | @cons a b as bs hab _ ih =>
    simp only [findSlot, List.find?_cons, hab.1]
    split
    · exact .inr ⟨a, b, rfl, rfl, hab⟩
    · exact ih

namespace Graph.Describes

theorem mono (hgh : g.Extends h) (hv : g.Describes t v) : h.Describes t v := by
  induction hv with
  | word hs => exact .word hs
  | string x => exact .string x
  | number x => exact .number x
  | boolean b => exact .boolean b
  | union hi ht _ ih =>
    have hlt := lt_size_of_shape hi (by simp)
    exact .union ((hgh.shape_eq _ hlt).trans hi) ht ih
  | record hi hkeys hslots _ ih =>
    have hlt := lt_size_of_shape hi (by simp)
    exact .record ((hgh.shape_eq _ hlt).trans hi) hkeys hslots ih

theorem similar {t' : Ty} (hv : g.Describes t v) (ht : g.Similar t t') : g.Describes t' v := by
  induction hv generalizing t' with
  | word hs => exact ht.eq_of_not_node rfl ▸ .word hs
  | string x => exact ht.eq_of_not_node rfl ▸ .string x
  | number x => exact ht.eq_of_not_node rfl ▸ .number x
  | boolean b => exact ht.eq_of_not_node rfl ▸ .boolean b
  | @union i u m v hi hm hv ih =>
    obtain ⟨j, rfl⟩ := ht.exists_node
    rcases similar_node_iff.1 ht with rfl | hfits
    · exact .union hi hm hv
    · rw [hi] at hfits
      generalize hj : g.shape j = s at hfits
      cases hfits with
      | union hu =>
        obtain ⟨m', hm', hsim⟩ := hu.exists_related (.refl g) hm
        exact .union hj hm' (ih hsim)
  | @record i slots fields hi hkeys hslots hv ih =>
    obtain ⟨j, rfl⟩ := ht.exists_node
    rcases similar_node_iff.1 ht with rfl | hfits
    · exact .record hi hkeys hslots hv
    · rw [hi] at hfits
      generalize hj : g.shape j = s at hfits
      cases hfits with
      | @record _ slots' hs =>
        have hrel (k : Text) := Shape.findSlot_fits hs (.named k)
        refine .record hj ?_ ?_ ?_
        · intro k hk
          have hsome := hkeys k hk
          rcases hrel k with ⟨hnone, -⟩ | ⟨a, b, -, hb, -⟩
          · simp [hnone] at hsome
          · simp [hb]
        · intro k s hs hoptional
          rcases hrel k with ⟨-, hnone⟩ | ⟨a, b, ha, hb, hab⟩
          · cases hnone.symm.trans hs
          · cases hb.symm.trans hs
            exact hslots k a ha (hab.2.1.trans hoptional)
        · intro k v s hk hs
          rcases hrel k with ⟨-, hnone⟩ | ⟨a, b, ha, hb, hab⟩
          · cases hnone.symm.trans hs
          · cases hb.symm.trans hs
            exact ih k v a hk ha hab.2.2

theorem not_never : ¬ g.Describes .never v := by
  intro hv
  cases hv
  contradiction

theorem exists_part (hv : g.Describes t v) : ∃ x ∈ g.parts t, g.Describes x v := by
  cases hv with
  | union hi hm hv => exact ⟨_, by simpa [parts, hi] using hm, hv⟩
  | record hi hkeys hslots hv => exact ⟨_, by simp [parts, hi], .record hi hkeys hslots hv⟩
  | word hs => exact ⟨_, by simp [parts], .word hs⟩
  | string x => exact ⟨_, by simp [parts], .string x⟩
  | number x => exact ⟨_, by simp [parts], .number x⟩
  | boolean b => exact ⟨_, by simp [parts], .boolean b⟩

end Graph.Describes

theorem Literals.Holds.cases {α : Type} {l : Literals α} {x : α} (hx : l.Holds x) :
    l.isEvery = true ∨ x ∈ l.values := by
  cases l with
  | vacant => exact absurd hx id
  | listed k => exact .inr hx
  | every => exact .inl rfl

namespace Members

variable {u : Members} {ts : List Ty}

theorem describes_word {s : Simple} (hs : u.Includes (.simple s)) (hv : s.admits v = true) :
    ∃ m ∈ u.toList, g.Describes m v :=
  ⟨_, mem_toList.2 hs, .word hv⟩

theorem Collects.describes (hu : u.Collects g ts) (ht : t ∈ ts)
    (hmember : (g.kind t).isMember = true) (hv : g.Describes t v) :
    ∃ m ∈ u.toList, g.Describes m v := by
  -- A literal may have been replaced by its whole kind, and a shape by its like.
  cases hv with
  | @word s v hs =>
    refine describes_word ?_ hs
    cases s with
    | string => exact hu.strings.every.2 ht
    | number => exact hu.numbers.every.2 ht
    | bigint => exact hu.bigints.every.2 ht
    | symbol => exact hu.symbols.every.2 ht
    | object => exact hu.object.2 ht
    | void => exact hu.void.2 ht
    | null => exact hu.null.2 ht
    | undefined => exact hu.undefined.2 ht
    | boolean => exact ⟨hu.hasTrue.2 (.inl ht), hu.hasFalse.2 (.inl ht)⟩
    | never | error | any | unknown => cases hmember
  | string x =>
    rcases ((hu.strings.holds x).2 (.inr ht)).cases with hevery | hlisted
    · exact describes_word (s := .string) hevery rfl
    · exact ⟨.string x, mem_toList.2 hlisted, .string x⟩
  | number x =>
    rcases ((hu.numbers.holds x).2 (.inr ht)).cases with hevery | hlisted
    · exact describes_word (s := .number) hevery rfl
    · exact ⟨.number x, mem_toList.2 hlisted, .number x⟩
  | boolean b =>
    cases b with
    | true =>
      have htrue := hu.hasTrue.2 (.inr ht)
      cases hfalse : u.hasFalse with
      | true => exact describes_word (s := .boolean) ⟨htrue, hfalse⟩ rfl
      | false => exact ⟨.boolean true, mem_toList.2 ⟨htrue, hfalse⟩, .boolean true⟩
    | false =>
      have hfalse := hu.hasFalse.2 (.inr ht)
      cases htrue : u.hasTrue with
      | true => exact describes_word (s := .boolean) ⟨htrue, hfalse⟩ rfl
      | false => exact ⟨.boolean false, mem_toList.2 ⟨htrue, hfalse⟩, .boolean false⟩
  | union hi => simp [Graph.kind_of_union hi, Kind.isMember, Kind.isValueShape] at hmember
  | record hi hkeys hslots hv =>
    obtain ⟨j, hj, hsim⟩ := hu.kept _ ht
    have hrecord := Graph.Describes.record hi hkeys hslots hv
    exact ⟨.node j, mem_toList.2 (.inl hj), hrecord.similar hsim⟩

end Members

namespace Fold

variable {f k : Fold} {xs : List Ty}

def Describes (g : Graph) (v : Value) : Fold → Prop
  | .never => False
  | .compound u => ∃ m ∈ u.toList, g.Describes m v
  | _ => True

theorem Describes.mono (hgh : g.Extends h) (hv : f.Describes g v) : f.Describes h v := by
  cases f with
  | compound u =>
    obtain ⟨m, hm, hv⟩ := hv
    exact ⟨m, hm, hv.mono hgh⟩
  | _ => exact hv

theorem describes_of_isTerminal (hf : f.isTerminal = true) : f.Describes g v := by
  cases f <;> trivial

theorem EndsIn.describes (ht : f.EndsIn g t) (hv : f.Describes g v) : g.Describes t v := by
  cases f with
  | never => exact absurd hv id
  | compound u =>
    obtain ⟨m, hm, hv⟩ := hv
    simp only [EndsIn] at ht
    split at ht
    · rename_i m' hu
      rw [hu, List.mem_singleton] at hm
      exact ht ▸ hm ▸ hv
    · obtain ⟨i, rfl, hi⟩ := ht
      exact .union hi hm hv
  | error | any | unknown => exact ht ▸ .word rfl

theorem describes_of_foldlM
    (hxs : ∀ x ∈ xs, g.kind x ≠ .union ∧ g.kind x ≠ .instantiation ∧ g.kind x ≠ .unresolved)
    (hk : xs.foldlM (absorbMember g) .never = .ok k) :
    (∀ x ∈ xs, ∀ v, g.Describes x v → k.Describes g v) ∧ k.members.unresolved = [] := by
  by_cases hesc : ∃ x ∈ xs, ∃ e, escalation g x = some e
  · have hterm := isTerminal_of_foldlM (fun x hx => ⟨(hxs x hx).1, (hxs x hx).2.1⟩) (.inr hesc) hk
    refine ⟨fun _ _ _ _ => describes_of_isTerminal hterm, ?_⟩
    cases k <;> first | rfl | cases hterm
  · have hnone : ∀ x ∈ xs, escalation g x = none := by
      intro x hx
      by_contra hne
      exact hesc ⟨x, hx, Option.ne_none_iff_exists'.1 hne⟩
    rcases foldlM_collects hxs hnone with ⟨hall, hrun⟩ | ⟨-, u, hrun, hu⟩ <;>
      rw [hrun] at hk <;> cases hk
    · refine ⟨fun x hx v hv => ?_, rfl⟩
      exact absurd (hall x hx ▸ hv) Graph.Describes.not_never
    · refine ⟨fun x hx v hv => ?_, hu.unresolved⟩
      obtain ⟨hunion, hopen, -⟩ := hxs x hx
      rcases part_cases hunion hopen with rfl | ⟨e, he⟩ | ⟨hmember, -⟩
      · exact absurd hv Graph.Describes.not_never
      · simp [hnone x hx] at he
      · have hne : x ≠ .never := by
          rintro rfl
          cases hmember
        exact hu.describes (List.mem_filter.2 ⟨hx, by simpa using hne⟩) hmember hv

end Fold

end FlowTyping
