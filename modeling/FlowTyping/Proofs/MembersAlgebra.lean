import FlowTyping.Proofs.EqualityLaws
import FlowTyping.Members.Add

namespace FlowTyping

namespace Literals

variable {α : Type} {l m : Literals α} {v w : α}

def Holds : Literals α → α → Prop
  | .vacant, _ => False
  | .listed k, v => v ∈ k.values
  | .every, _ => True

theorem Agree.of_holds (hevery : l.isEvery = m.isEvery) (hholds : ∀ v, l.Holds v ↔ m.Holds v) :
    l.Agree m := by
  have hlisted (k : LiteralList α) : ∃ v, v ∈ k.values := List.exists_mem_of_ne_nil _ k.nonempty
  cases l with
  | vacant =>
    cases m with
    | vacant => exact ⟨rfl, rfl, fun _ => .rfl⟩
    | listed k =>
      obtain ⟨v, hv⟩ := hlisted k
      exact absurd ((hholds v).2 hv) id
    | every => cases hevery
  | listed k =>
    cases m with
    | vacant =>
      obtain ⟨v, hv⟩ := hlisted k
      exact absurd ((hholds v).1 hv) id
    | listed k' => exact ⟨rfl, rfl, hholds⟩
    | every => cases hevery
  | every =>
    cases m with
    | every => exact ⟨rfl, rfl, fun _ => .rfl⟩
    | _ => cases hevery

theorem mem_types {β : Type} {l : Literals α} {whole t : β} {literal : α → β} :
    t ∈ l.types whole literal ↔ l.isEvery = true ∧ t = whole ∨ ∃ v ∈ l.values, literal v = t := by
  cases l <;> simp [types, isEvery, values]

variable [DecidableEq α]

theorem insert_of_holds (hv : l.Holds v) : l.insert v = l := by
  cases l with
  | vacant => exact absurd hv id
  | listed k => simp only [insert, LiteralList.insert, dif_pos (show v ∈ k.values from hv)]
  | every => rfl

@[simp] theorem holds_insert : (l.insert v).Holds w ↔ w = v ∨ l.Holds w := by
  cases l with
  | vacant => simp [insert, LiteralList.singleton, Holds]
  | listed k =>
    simp only [insert, LiteralList.insert, Holds]
    split
    · rename_i hv
      constructor
      · exact .inr
      · rintro (rfl | hw)
        · exact hv
        · exact hw
    · simp [or_comm]
  | every => simp [insert, Holds]

@[simp] theorem isEvery_insert : (l.insert v).isEvery = l.isEvery := by
  cases l <;> rfl

def join (l : Literals α) : Literals α → Literals α
  | .vacant => l
  | .listed k => k.values.foldl (fun l v => l.insert v) l
  | .every => .every

theorem holds_foldl {vs : List α} :
    (vs.foldl (fun l v => l.insert v) l).Holds v ↔ v ∈ vs ∨ l.Holds v := by
  induction vs generalizing l with
  | nil => simp
  | cons x vs ih =>
    rw [List.foldl_cons, ih, holds_insert, List.mem_cons]
    tauto

theorem join_insert (l m : Literals α) (v : α) : l.join (m.insert v) = (l.join m).insert v := by
  cases m with
  | vacant => rfl
  | listed k =>
    simp only [insert, LiteralList.insert]
    split
    · rename_i hv
      exact (insert_of_holds (holds_foldl.2 (.inl hv))).symm
    · exact List.foldl_concat _ _ _ _
  | every => rfl

end Literals

def Kind.isValueShape : Kind → Bool
  | .record | .function | .construct | .interface | .intersection => true
  | _ => false

/-- The kinds of types that a union has as members. -/
def Kind.isMember : Kind → Bool
  | .simple s => s ∉ [Simple.never, .error, .any, .unknown]
  | .stringLiteral | .numericLiteral | .bigintLiteral | .uniqueSymbol | .booleanLiteral => true
  | .unresolved => true
  | k => k.isValueShape

theorem Kind.ne_of_isMember {k : Kind} (hk : k.isMember = true) :
    k ≠ .union ∧ k ≠ .instantiation := by
  constructor <;> rintro rfl <;> cases hk

theorem Kind.ne_of_isValueShape {k : Kind} (hk : k.isValueShape = true) :
    k ≠ .union ∧ k ≠ .unresolved := by
  constructor <;> rintro rfl <;> cases hk

theorem Kind.isMember_of_isValueShape {k : Kind} (hk : k.isValueShape = true) :
    k.isMember = true := by
  cases k <;> first | rfl | cases hk

namespace Members

variable {g : Graph} {u u' w : Members} {t : Ty} {i : NodeId}

def Includes (u : Members) : Ty → Prop
  | .simple .string => u.strings.isEvery = true
  | .simple .number => u.numbers.isEvery = true
  | .simple .bigint => u.bigints.isEvery = true
  | .simple .symbol => u.symbols.isEvery = true
  | .simple .object => u.object = true
  | .simple .void => u.void = true
  | .simple .null => u.null = true
  | .simple .undefined => u.undefined = true
  | .simple .boolean => u.hasTrue = true ∧ u.hasFalse = true
  | .simple _ => False
  | .string v => v ∈ u.strings.values
  | .number v => v ∈ u.numbers.values
  | .bigint v => v ∈ u.bigints.values
  | .symbol v => v ∈ u.symbols.values
  | .boolean true => u.hasTrue = true ∧ u.hasFalse = false
  | .boolean false => u.hasTrue = false ∧ u.hasFalse = true
  | .node i => i ∈ u.shapes ∨ i ∈ u.unresolved

theorem mem_flag {p : Bool} {s : Simple} : t ∈ flag p s ↔ p = true ∧ t = .simple s := by
  cases p <;> simp [flag]

theorem mem_booleans {p q : Bool} : t ∈ booleans p q ↔
    (p = true ∧ q = true ∧ t = .simple .boolean) ∨ (p = true ∧ q = false ∧ t = .boolean true) ∨
      (p = false ∧ q = true ∧ t = .boolean false) := by
  cases p <;> cases q <;> simp [booleans]

theorem mem_toList : t ∈ u.toList ↔ u.Includes t := by
  simp only [toList, List.mem_append, Literals.mem_types, mem_flag, mem_booleans, List.mem_map]
  cases t with
  | simple s => cases s <;> simp [Includes]
  | boolean v => cases v <;> simp [Includes]
  | _ => simp [Includes]

theorem toList_eq (u : Members) : u.toList =
    ({ u with shapes := [], unresolved := [] } : Members).toList ++
      (u.shapes.map .node ++ u.unresolved.map .node) := by
  simp [toList]

theorem node?_of_mem_words (ht : t ∈ ({ u with shapes := [], unresolved := [] } : Members).toList) :
    t.node? = none := by
  cases t with
  | node i => exact absurd (node_mem_toList.1 ht) (by simp)
  | _ => rfl

def insertShape (g : Graph) (shapes : List NodeId) (i : NodeId) : List NodeId :=
  if shapes.any (fun j => g.equal (.node i) (.node j)) then shapes else shapes ++ [i]

theorem addShape_eq (g : Graph) (u : Members) (i : NodeId) :
    u.addShape g i = { u with shapes := insertShape g u.shapes i } := by
  rw [addShape, insertShape]
  split <;> rfl

theorem add_of_isValueShape (hi : (g.kind (.node i)).isValueShape = true) :
    u.add g (.node i) = .ok { u with shapes := insertShape g u.shapes i } := by
  rw [← addShape_eq]
  simp only [Graph.kind] at hi
  simp only [add, addNode]
  cases hs : g.shape i with
  | callable role => rfl
  | record | interface | intersection => rfl
  | _ => simp [hs, Shape.kind, Kind.isValueShape] at hi

theorem add_of_unresolved (hi : g.kind (.node i) = .unresolved) :
    u.add g (.node i) = .ok { u with unresolved := u.unresolved ++ [i] } := by
  obtain ⟨name, hs⟩ := Shape.exists_unresolved_of_kind hi
  simp only [add, addNode, hs]

theorem isMember_node (hi : (g.kind (.node i)).isMember = true) :
    (g.kind (.node i)).isValueShape = true ∨ g.kind (.node i) = .unresolved := by
  simp only [Graph.kind] at hi ⊢
  cases hs : g.shape i with
  | callable role => cases role <;> exact .inl rfl
  | _ => simp_all [Shape.kind, Kind.isMember, Kind.isValueShape]

theorem exists_add (u : Members) (ht : (g.kind t).isMember = true) :
    ∃ u', u.add g t = .ok u' := by
  cases t with
  | simple s => cases s <;> first | exact ⟨_, rfl⟩ | cases ht
  | boolean v => cases v <;> exact ⟨_, rfl⟩
  | node i =>
    rcases isMember_node ht with hi | hi
    · exact ⟨_, add_of_isValueShape hi⟩
    · exact ⟨_, add_of_unresolved hi⟩
  | _ => exact ⟨_, rfl⟩

theorem isMember_of_add (h : u.add g t = .ok u') : (g.kind t).isMember = true := by
  cases t with
  | simple s => cases s <;> first | rfl | cases h
  | node i =>
    simp only [add, addNode] at h
    simp only [Graph.kind]
    cases hs : g.shape i with
    | callable role => cases role <;> rfl
    | record | interface | intersection | unresolved => rfl
    | _ => simp [hs] at h
  | _ => rfl

theorem toList_eq_nil (hu : u.toList = []) : u = {} := by
  have htypes {α : Type} {l : Literals α} {whole : Ty} {literal : α → Ty} :
      l.types whole literal = [] ↔ l = .vacant := by
    cases l with
    | listed k => simp [Literals.types, k.nonempty]
    | _ => simp [Literals.types]
  have hflag {p : Bool} {s : Simple} : flag p s = [] ↔ p = false := by cases p <;> simp [flag]
  have hbooleans {p q : Bool} : booleans p q = [] ↔ p = false ∧ q = false := by
    cases p <;> cases q <;> simp [booleans]
  simp only [toList, List.append_eq_nil_iff, List.map_eq_nil_iff, htypes, hflag, hbooleans] at hu
  cases u
  simp_all

theorem toList_ne_nil_of_add (h : u.add g t = .ok u') : u'.toList ≠ [] := by
  intro hnil
  have hinsert {α : Type} [DecidableEq α] (l : Literals α) (v : α) : l.insert v ≠ .vacant := by
    cases l <;> simp [Literals.insert]
  cases toList_eq_nil hnil
  cases t with
  | simple s => cases s <;> simp [add, addSimple] at h
  | boolean v => cases v <;> simp [add] at h
  | node i =>
    rcases isMember_node (isMember_of_add h) with hi | hi
    · rw [add_of_isValueShape hi] at h
      simp [insertShape] at h
      split at h <;> simp_all
    · rw [add_of_unresolved hi] at h
      simp at h
  | _ => simp [add, hinsert] at h

def join (g : Graph) (w u : Members) : Members where
  strings := w.strings.join u.strings
  numbers := w.numbers.join u.numbers
  bigints := w.bigints.join u.bigints
  symbols := w.symbols.join u.symbols
  object := w.object || u.object
  void := w.void || u.void
  null := w.null || u.null
  undefined := w.undefined || u.undefined
  hasTrue := w.hasTrue || u.hasTrue
  hasFalse := w.hasFalse || u.hasFalse
  shapes := u.shapes.foldl (insertShape g) w.shapes
  unresolved := w.unresolved ++ u.unresolved

@[simp] theorem join_empty (g : Graph) (w : Members) : w.join g {} = w := by
  simp [join, Literals.join]

theorem exists_similar_insertShape {shapes : List NodeId} {j : NodeId}
    (hi : (∃ k ∈ shapes, g.Similar (.node i) (.node k)) ∨ i = j) :
    ∃ k ∈ insertShape g shapes j, g.Similar (.node i) (.node k) := by
  rw [insertShape]
  split
  · rename_i hany
    rcases hi with hi | rfl
    · exact hi
    · simpa using hany
  · rcases hi with ⟨k, hk, hik⟩ | rfl
    · exact ⟨k, by simp [hk], hik⟩
    · exact ⟨i, by simp, .refl g _⟩

theorem exists_similar_foldl {shapes new : List NodeId}
    (hi : (∃ k ∈ shapes, g.Similar (.node i) (.node k)) ∨ i ∈ new) :
    ∃ k ∈ new.foldl (insertShape g) shapes, g.Similar (.node i) (.node k) := by
  induction new generalizing shapes with
  | nil => simpa using hi
  | cons j new ih =>
    apply ih
    rw [List.mem_cons] at hi
    rcases hi with hi | rfl | hi
    · exact .inl (exists_similar_insertShape (.inl hi))
    · exact .inl (exists_similar_insertShape (.inr rfl))
    · exact .inr hi

theorem foldl_insertShape (g : Graph) (shapes new : List NodeId) (i : NodeId) :
    (insertShape g new i).foldl (insertShape g) shapes =
      insertShape g (new.foldl (insertShape g) shapes) i := by
  -- What is left out of `new` is left out after `shapes` too, as equality is transitive.
  by_cases hany : ∃ j ∈ new, g.Similar (.node i) (.node j)
  · have hnew : insertShape g new i = new := by simp [insertShape, hany]
    obtain ⟨j, hj, hij⟩ := hany
    have hkept : ∃ k ∈ new.foldl (insertShape g) shapes, g.Similar (.node i) (.node k) := by
      obtain ⟨k, hk, hjk⟩ := exists_similar_foldl (.inr hj)
      exact ⟨k, hk, hij.trans hjk⟩
    rw [hnew, insertShape, if_pos (by simpa using hkept)]
  · rw [show insertShape g new i = new ++ [i] by simp [insertShape, hany], List.foldl_append]
    rfl

theorem join_add (w : Members) (h : u.add g t = .ok u') :
    (w.join g u).add g t = .ok (w.join g u') := by
  cases t with
  | simple s => cases s <;> cases h <;> simp [add, addSimple, join, Literals.join]
  | boolean v => cases v <;> cases h <;> simp [add, join]
  | node i =>
    rcases isMember_node (isMember_of_add h) with hi | hi
    · rw [add_of_isValueShape hi] at h ⊢
      cases h
      simp [join, foldl_insertShape]
    · rw [add_of_unresolved hi] at h ⊢
      cases h
      simp [join]
  | _ =>
    cases h
    simp [add, join, Literals.join_insert]

/-- The shapes are shapes of values and the placeholders are placeholders, as they come from
adding. -/
structure Sorted (g : Graph) (u : Members) : Prop where
  shapes : ∀ i ∈ u.shapes, (g.kind (.node i)).isValueShape = true
  unresolved : ∀ i ∈ u.unresolved, g.kind (.node i) = .unresolved

theorem sorted_empty (g : Graph) : Sorted g {} := ⟨by simp, by simp⟩

theorem Sorted.of_kind_eq {h : Graph} (hu : u.Sorted g)
    (hkind : ∀ i, .node i ∈ u.toList → h.kind (.node i) = g.kind (.node i)) : u.Sorted h := by
  refine ⟨fun i hi => ?_, fun i hi => ?_⟩
  · rw [hkind i (node_mem_toList.2 (.inl hi))]
    exact hu.shapes i hi
  · rw [hkind i (node_mem_toList.2 (.inr hi))]
    exact hu.unresolved i hi

theorem Sorted.add (hu : u.Sorted g) (h : u.add g t = .ok u') : u'.Sorted g := by
  cases t with
  | simple s => cases s <;> cases h <;> exact ⟨hu.shapes, hu.unresolved⟩
  | boolean v => cases v <;> cases h <;> exact ⟨hu.shapes, hu.unresolved⟩
  | node i =>
    rcases isMember_node (isMember_of_add h) with hi | hi
    · rw [add_of_isValueShape hi] at h
      cases h
      refine ⟨fun k hk => ?_, hu.unresolved⟩
      simp only [insertShape] at hk
      split at hk
      · exact hu.shapes k hk
      · rcases List.mem_append.1 hk with hk | hk
        · exact hu.shapes k hk
        · exact List.mem_singleton.1 hk ▸ hi
    · rw [add_of_unresolved hi] at h
      cases h
      refine ⟨hu.shapes, fun k hk => ?_⟩
      rcases List.mem_append.1 hk with hk | hk
      · exact hu.unresolved k hk
      · exact List.mem_singleton.1 hk ▸ hi
  | _ =>
    cases h
    exact ⟨hu.shapes, hu.unresolved⟩

theorem Sorted.isMember (hu : u.Sorted g) (ht : t ∈ u.toList) : (g.kind t).isMember = true := by
  rw [mem_toList] at ht
  cases t with
  | simple s => cases s <;> first | rfl | exact absurd ht id
  | node i =>
    rcases ht with hi | hi
    · exact Kind.isMember_of_isValueShape (hu.shapes i hi)
    · rw [hu.unresolved i hi]
      rfl
  | _ => rfl

theorem foldlM_types {α : Type} [DecidableEq α] {whole : Ty} {literal : α → Ty}
    (put : Literals α → Members) (hwhole : ∀ l, (put l).add g whole = .ok (put .every))
    (hliteral : ∀ l v, (put l).add g (literal v) = .ok (put (l.insert v))) (l m : Literals α) :
    (m.types whole literal).foldlM (add g) (put l) = .ok (put (l.join m)) := by
  cases m with
  | vacant => rfl
  | listed k =>
    simp only [Literals.types, Literals.join]
    generalize k.values = vs
    induction vs generalizing l with
    | nil => rfl
    | cons v vs ih =>
      rw [List.map_cons, List.foldlM_cons, hliteral]
      exact ih _
  | every =>
    rw [Literals.types, List.foldlM_cons, hwhole]
    rfl

theorem foldlM_flag {s : Simple} (put : Bool → Members)
    (hput : ∀ q, (put q).add g (.simple s) = .ok (put true)) (q p : Bool) :
    (flag p s).foldlM (add g) (put q) = .ok (put (q || p)) := by
  cases p with
  | false =>
    rw [Bool.or_false]
    rfl
  | true =>
    rw [flag, if_pos rfl, List.foldlM_cons, hput, Bool.or_true]
    rfl

theorem foldlM_booleans (g : Graph) (w : Members) (p q : Bool) :
    (booleans p q).foldlM (add g) w =
      .ok { w with hasTrue := w.hasTrue || p, hasFalse := w.hasFalse || q } := by
  cases p <;> cases q <;>
    simp [booleans, add, addSimple, pure, Except.pure, bind, Except.bind]

theorem foldlM_shapes {shapes : List NodeId}
    (hs : ∀ i ∈ shapes, (g.kind (.node i)).isValueShape = true) (w : Members) :
    (shapes.map .node).foldlM (add g) w =
      .ok { w with shapes := shapes.foldl (insertShape g) w.shapes } := by
  induction shapes generalizing w with
  | nil => rfl
  | cons i shapes ih =>
    rw [List.map_cons, List.foldlM_cons, add_of_isValueShape (hs i (by simp))]
    exact ih (fun k hk => hs k (by simp [hk])) _

theorem foldlM_unresolved {nodes : List NodeId}
    (hs : ∀ i ∈ nodes, g.kind (.node i) = .unresolved) (w : Members) :
    (nodes.map .node).foldlM (add g) w =
      .ok { w with unresolved := w.unresolved ++ nodes } := by
  induction nodes generalizing w with
  | nil => simp [pure, Except.pure]
  | cons i nodes ih =>
    have hrest := ih (fun k hk => hs k (by simp [hk])) { w with unresolved := w.unresolved ++ [i] }
    rw [List.map_cons, List.foldlM_cons, add_of_unresolved (hs i (by simp))]
    rwa [List.append_assoc] at hrest

theorem Sorted.foldlM_toList (hu : u.Sorted g) (w : Members) :
    u.toList.foldlM (Members.add g) w = .ok (w.join g u) := by
  have hstrings (w : Members) : (u.strings.types (.simple .string) .string).foldlM (Members.add g) w =
      .ok { w with strings := w.strings.join u.strings } :=
    foldlM_types (fun l => { w with strings := l }) (fun _ => rfl) (fun _ _ => rfl) _ _
  have hnumbers (w : Members) : (u.numbers.types (.simple .number) .number).foldlM (Members.add g) w =
      .ok { w with numbers := w.numbers.join u.numbers } :=
    foldlM_types (fun l => { w with numbers := l }) (fun _ => rfl) (fun _ _ => rfl) _ _
  have hbigints (w : Members) : (u.bigints.types (.simple .bigint) .bigint).foldlM (Members.add g) w =
      .ok { w with bigints := w.bigints.join u.bigints } :=
    foldlM_types (fun l => { w with bigints := l }) (fun _ => rfl) (fun _ _ => rfl) _ _
  have hsymbols (w : Members) : (u.symbols.types (.simple .symbol) .symbol).foldlM (Members.add g) w =
      .ok { w with symbols := w.symbols.join u.symbols } :=
    foldlM_types (fun l => { w with symbols := l }) (fun _ => rfl) (fun _ _ => rfl) _ _
  have hobject (w : Members) : (flag u.object .object).foldlM (Members.add g) w =
      .ok { w with object := w.object || u.object } :=
    foldlM_flag (fun p => { w with object := p }) (fun _ => rfl) _ _
  have hvoid (w : Members) : (flag u.void .void).foldlM (Members.add g) w =
      .ok { w with void := w.void || u.void } :=
    foldlM_flag (fun p => { w with void := p }) (fun _ => rfl) _ _
  have hnull (w : Members) : (flag u.null .null).foldlM (Members.add g) w =
      .ok { w with null := w.null || u.null } :=
    foldlM_flag (fun p => { w with null := p }) (fun _ => rfl) _ _
  have hundefined (w : Members) : (flag u.undefined .undefined).foldlM (Members.add g) w =
      .ok { w with undefined := w.undefined || u.undefined } :=
    foldlM_flag (fun p => { w with undefined := p }) (fun _ => rfl) _ _
  simp only [toList, List.foldlM_append, hstrings, hnumbers, hbigints, hsymbols, hobject, hvoid,
    hnull, hundefined, foldlM_booleans, foldlM_shapes hu.shapes, foldlM_unresolved hu.unresolved,
    bind, Except.bind]
  rfl

end Members

end FlowTyping
