import FlowTyping.Proofs.TwinFolds

namespace FlowTyping

variable {g h : Graph} {O : List NodeId} {f k : Fold} {t : Ty} {xs es : List Ty} {u w : Members}
  {i : NodeId}

/-- The kinds that a fold holds, or drops, without anything else happening. -/
def Kind.isPlain : Kind → Bool
  | .simple s => s ∉ [Simple.error, .any, .unknown]
  | .generic | .intrinsic | .nameSpace | .unresolved | .instantiation => false
  | _ => true

def Graph.PlainAt (h : Graph) (t : Ty) : Prop := ∀ p ∈ h.parts t, (h.kind p).isPlain = true

instance (h : Graph) : DecidablePred h.PlainAt := fun t =>
  inferInstanceAs (Decidable (∀ p ∈ h.parts t, (h.kind p).isPlain = true))

theorem Fold.escalation_of_isPlain (ht : (h.kind t).isPlain = true) : escalation h t = none := by
  rw [escalation]
  split <;> simp_all [Kind.isPlain]

theorem Fold.isPlain_of_escalation (hopen : h.kind t ≠ .instantiation)
    (hres : h.kind t ≠ .unresolved) (ht : escalation h t = none) : (h.kind t).isPlain = true := by
  rw [escalation] at ht
  cases hk : h.kind t with
  | simple s => cases s <;> simp_all [Kind.isPlain]
  | _ => simp_all [Kind.isPlain]

theorem Kind.ne_of_isPlain {k : Kind} (hk : k.isPlain = true) :
    k ≠ .instantiation ∧ k ≠ .unresolved := by
  constructor <;> (rintro rfl; cases hk)

namespace Literals

variable {α : Type} [DecidableEq α]

theorem foldl_insert_listed (l : LiteralList α) (vs : List α) (hvs : (l.values ++ vs).Nodup) :
    vs.foldl (fun l v => l.insert v) (Literals.listed l) =
      .listed ⟨l.values ++ vs, hvs, by simp [l.nonempty]⟩ := by
  induction vs generalizing l with
  | nil => simp
  | cons v vs ih =>
    have hv : v ∉ l.values := fun hv =>
      (List.nodup_append.1 hvs).2.2 v hv v (by simp) rfl
    have hinsert : (l.insert v).values = l.values ++ [v] := by simp [LiteralList.insert, hv]
    have hsplit : l.values ++ v :: vs = (l.insert v).values ++ vs := by simp [hinsert]
    rw [List.foldl_cons, Literals.insert, ih (l.insert v) (hsplit ▸ hvs)]
    simp only [hsplit]

theorem vacant_join (l : Literals α) : Literals.vacant.join l = l := by
  cases l with
  | vacant | every => rfl
  | listed l =>
    obtain ⟨values, hnodup, hne⟩ := l
    cases values with
    | nil => exact absurd rfl hne
    | cons v vs => exact foldl_insert_listed (.singleton v) vs hnodup

end Literals

theorem Graph.Unlike.foldl_append {shapes new : List NodeId} (hs : h.Unlike (shapes ++ new)) :
    new.foldl (Members.insertShape h) shapes = shapes ++ new := by
  induction new generalizing shapes with
  | nil => simp
  | cons i new ih =>
    have hi : Members.insertShape h shapes i = shapes ++ [i] := by
      rw [Members.insertShape, if_neg]
      have hne := (List.pairwise_append.1 hs).2.2
      simpa using fun j hj => hne j hj i (by simp)
    rw [List.foldl_cons, hi, ih (by simpa using hs)]
    simp

theorem Literals.Collects.mem_of_mem_values {α : Type} {whole : Ty} {literal : α → Ty} {ts : List Ty}
    {l : Literals α} {v : α} (hl : l.Collects whole literal ts) (hv : v ∈ l.values) :
    literal v ∈ ts := by
  cases l with
  | listed k =>
    refine ((hl.holds v).1 hv).resolve_left fun hwhole => ?_
    cases hl.every.2 hwhole
  | _ => cases hv

theorem Literals.Collects.exists_type {α : Type} {whole : Ty} {literal : α → Ty} {ts : List Ty}
    {l : Literals α} {v : α} (hl : l.Collects whole literal ts) (hv : literal v ∈ ts) :
    v ∈ l.values ∨ l.isEvery = true := by
  have hholds := (hl.holds v).2 (.inr hv)
  cases l with
  | vacant => cases hholds
  | listed k => exact .inl hholds
  | every => exact .inr rfl

def Ty.whole? : Ty → Option Ty
  | .string _ => some (.simple .string)
  | .number _ => some (.simple .number)
  | .bigint _ => some (.simple .bigint)
  | .symbol _ => some (.simple .symbol)
  | _ => none

namespace Members

variable {ts : List Ty}

theorem Collects.mem_of_mem_toList (hu : u.Collects h ts) (hbool : ∀ b, .boolean b ∉ ts)
    (ht : t ∈ u.toList) : t ∈ ts := by
  replace ht := mem_toList.1 ht
  cases t with
  | simple s =>
    cases s with
    | string => exact hu.strings.every.1 ht
    | number => exact hu.numbers.every.1 ht
    | bigint => exact hu.bigints.every.1 ht
    | symbol => exact hu.symbols.every.1 ht
    | object => exact hu.object.1 ht
    | void => exact hu.void.1 ht
    | null => exact hu.null.1 ht
    | undefined => exact hu.undefined.1 ht
    | boolean => exact (hu.hasTrue.1 ht.1).resolve_right (hbool true)
    | _ => exact absurd ht id
  | string v => exact hu.strings.mem_of_mem_values ht
  | number v => exact hu.numbers.mem_of_mem_values ht
  | bigint v => exact hu.bigints.mem_of_mem_values ht
  | symbol v => exact hu.symbols.mem_of_mem_values ht
  | boolean b =>
    have hwhole : .simple .boolean ∉ ts := fun hwhole => by
      have htrue := hu.hasTrue.2 (.inl hwhole)
      have hfalse := hu.hasFalse.2 (.inl hwhole)
      cases b <;> simp [Includes, htrue, hfalse] at ht
    cases b with
    | true => exact (hu.hasTrue.1 ht.1).resolve_left hwhole
    | false => exact (hu.hasFalse.1 ht.2).resolve_left hwhole
  | node i =>
    rw [Includes, hu.unresolved] at ht
    exact hu.offered i (ht.resolve_right (by simp))

theorem Collects.exists_member (hu : u.Collects h ts) (hbool : ∀ b, .boolean b ∉ ts)
    (hmember : (h.kind t).isMember = true) (ht : t ∈ ts) :
    ∃ t' ∈ u.toList, h.Similar t t' ∨ t.whole? = some t' := by
  have hself (ht : u.Includes t) : ∃ t' ∈ u.toList, h.Similar t t' ∨ t.whole? = some t' :=
    ⟨t, mem_toList.2 ht, .inl (.refl h t)⟩
  cases t with
  | simple s =>
    refine hself ?_
    cases s with
    | string => exact hu.strings.every.2 ht
    | number => exact hu.numbers.every.2 ht
    | bigint => exact hu.bigints.every.2 ht
    | symbol => exact hu.symbols.every.2 ht
    | object => exact hu.object.2 ht
    | void => exact hu.void.2 ht
    | null => exact hu.null.2 ht
    | undefined => exact hu.undefined.2 ht
    | boolean => exact ⟨hu.hasTrue.2 (.inl ht), hu.hasFalse.2 (.inl ht)⟩
    | _ => cases hmember
  | string v =>
    rcases hu.strings.exists_type ht with hv | hevery
    · exact hself hv
    · exact ⟨.simple .string, mem_toList.2 hevery, .inr rfl⟩
  | number v =>
    rcases hu.numbers.exists_type ht with hv | hevery
    · exact hself hv
    · exact ⟨.simple .number, mem_toList.2 hevery, .inr rfl⟩
  | bigint v =>
    rcases hu.bigints.exists_type ht with hv | hevery
    · exact hself hv
    · exact ⟨.simple .bigint, mem_toList.2 hevery, .inr rfl⟩
  | symbol v =>
    rcases hu.symbols.exists_type ht with hv | hevery
    · exact hself hv
    · exact ⟨.simple .symbol, mem_toList.2 hevery, .inr rfl⟩
  | boolean b => exact absurd ht (hbool b)
  | node i =>
    obtain ⟨j, hj, hij⟩ := hu.kept i ht
    exact ⟨.node j, mem_toList.2 (.inl hj), .inl hij⟩

theorem Collects.length_le_one (hh : h.Closed) (hsymm : ∀ a b, h.Similar a b → h.Similar b a)
    (hu : u.Collects h ts) (hbool : ∀ b, .boolean b ∉ ts) (hone : u.toList = [.node i])
    (hi : h.Has (.node i)) (hw : Graph.Fresh h [] w) (hpending : w.unresolved = [])
    (hsub : w.toList ⊆ ts) : w.toList.length ≤ 1 := by
  have hlike : ∀ t ∈ w.toList, h.Similar t (.node i) := by
    intro t ht
    obtain ⟨t', ht', hlike⟩ := hu.exists_member hbool (hw.sorted.isMember ht) (hsub ht)
    rw [hone, List.mem_singleton] at ht'
    subst ht'
    refine hlike.resolve_right fun hwhole => ?_
    cases t <;> cases hwhole
  have hwords : ({ w with shapes := [], unresolved := [] } : Members).toList = [] := by
    refine List.eq_nil_iff_forall_not_mem.2 fun t ht => ?_
    have hnode := node?_of_mem_words ht
    have hmem : t ∈ w.toList := by
      rw [toList_eq]
      exact List.mem_append_left _ ht
    rw [← (hlike t hmem).eq_of_not_node hnode] at hnode
    cases hnode
  rw [toList_eq, hwords, hpending, List.nil_append, List.map_nil, List.append_nil, List.length_map]
  have hcover (x : NodeId) (hx : x ∈ w.shapes) : ∃ j ∈ [i], h.likeness x j := by
    have hmem := node_mem_toList.2 (.inl hx)
    exact ⟨i, by simp, (hw.clear _ hmem).has, hi, hlike _ hmem⟩
  exact hw.distinct.length_le (Graph.twins_likeness hh hsymm) hcover

theorem empty_join (hu : h.Unlike u.shapes) : ({} : Members).join h u = u := by
  have hshapes : u.shapes.foldl (insertShape h) [] = u.shapes := hu.foldl_append
  simp [join, Literals.vacant_join, hshapes]

theorem toList_of_add (hu : ({} : Members).add h t = .ok u) : u.toList = [t] := by
  cases t with
  | simple s => cases s <;> cases hu <;> rfl
  | boolean b => cases b <;> cases hu <;> rfl
  | node i =>
    rcases isMember_node (isMember_of_add hu) with hi | hi
    · rw [add_of_isValueShape hi] at hu
      cases hu
      rfl
    · rw [add_of_unresolved hi] at hu
      cases hu
      rfl
  | _ =>
    cases hu
    rfl

end Members

namespace Fold

theorem exists_endsIn (hh : Graph.Tidy g O h)
    (hmany : ∀ i u, h.shape i = .union u → 2 ≤ u.toList.length)
    (hopen : h.kind t ≠ .instantiation) (ht : ∀ p ∈ h.parts t, escalation h p = none) :
    ∃ k, absorb h .never t = .ok k ∧ k.EndsIn h t := by
  by_cases hunion : h.kind t = .union
  · obtain ⟨i, u, rfl, hi⟩ := Graph.exists_union_of_kind hunion
    have hlen := hmany i u hi
    refine ⟨.compound u, ?_, ?_⟩
    · rw [absorb_union hi (hh.sorted i u hi), if_neg, Members.empty_join (hh.fresh hi).distinct]
      rintro hnil
      simp [hnil] at hlen
    · simp only [EndsIn]
      split
      · rename_i m hm
        simp [hm] at hlen
      · exact ⟨i, rfl, hi⟩
  · rw [absorb_of_kind_ne hunion]
    rw [Graph.parts_of_kind_ne hunion] at ht
    rcases part_cases hunion hopen with rfl | ⟨k, hk⟩ | ⟨hmember, -⟩
    · exact ⟨.never, absorbMember_never _, rfl⟩
    · simp [ht t (by simp)] at hk
    · obtain ⟨u, hu⟩ := Members.exists_add {} hmember
      refine ⟨.compound u, ?_, ?_⟩
      · rw [absorbMember_of_isMember rfl hmember]
        change (({} : Members).add h t).map _ = _
        rw [hu]
        rfl
      · simp [EndsIn, Members.toList_of_add hu]

theorem foldlM_dropped
    (hxs : ∀ x ∈ xs, h.kind x ≠ .union ∧ (h.kind x).isPlain = true)
    (hes : ∀ e ∈ es, e = .never ∨ (∃ v, e = .number v) ∧ .simple .number ∈ xs)
    (hf : xs.foldlM (absorbMember h) .never = .ok f) :
    (xs ++ es).foldlM (absorbMember h) .never = .ok f := by
  have hevery (hnumber : .simple .number ∈ xs) : ∃ u, f = .compound u ∧ u.numbers = .every := by
    have hkinds : ∀ x ∈ xs, h.kind x ≠ .union ∧ h.kind x ≠ .instantiation ∧
        h.kind x ≠ .unresolved := fun x hx => ⟨(hxs x hx).1, Kind.ne_of_isPlain (hxs x hx).2⟩
    rcases foldlM_collects hkinds fun x hx => escalation_of_isPlain (hxs x hx).2 with
      ⟨hall, -⟩ | ⟨-, u, hrun, hu⟩
    · exact absurd (hall _ hnumber) (by simp)
    · obtain rfl : f = .compound u := by simpa using hf.symm.trans hrun
      have hfull := hu.numbers.every.2 (List.mem_filter.2 ⟨hnumber, by simp⟩)
      refine ⟨u, rfl, ?_⟩
      cases hnumbers : u.numbers with
      | every => rfl
      | _ => simp [hnumbers, Literals.isEvery] at hfull
  rw [List.foldlM_append, hf]
  change es.foldlM (absorbMember h) f = .ok f
  induction es with
  | nil => rfl
  | cons e es ih =>
    have he : absorbMember h f e = .ok f := by
      rcases hes e (by simp) with rfl | ⟨⟨v, rfl⟩, hnumber⟩
      · exact absorbMember_never f
      · obtain ⟨u, rfl, hu⟩ := hevery hnumber
        rw [absorbMember_of_isMember rfl rfl]
        have hsame : u.numbers.insert v = u.numbers := Literals.insert_of_holds (hu ▸ trivial)
        simp only [members, Members.add, hsame]
        rfl
    rw [List.foldlM_cons, he]
    exact ih fun e he => hes e (by simp [he])

theorem alike_of_dropped {ss : List Ty} (hsymm : ∀ a b, h.Similar a b → h.Similar b a)
    (hparts : ∀ x ∈ xs ++ ss, h.kind x ≠ .union ∧ (h.kind x).isPlain = true)
    (hxs : h.Covered xs ss)
    (hss : ∀ s ∈ ss, (∃ x ∈ xs, h.Similar s x) ∨ s = .never ∨
      (∃ v, s = .number v) ∧ .simple .number ∈ xs)
    (hf : xs.foldlM (absorbMember h) .never = .ok f)
    (hk : ss.foldlM (absorbMember h) .never = .ok k) : f.Alike h k := by
  classical
  let es := ss.filter fun s => s = .never ∨ (∃ v, s = .number v) ∧ .simple .number ∈ xs
  have hes : ∀ e ∈ es, e = .never ∨ (∃ v, e = .number v) ∧ .simple .number ∈ xs := fun e he => by
    simpa using (List.mem_filter.1 he).2
  have hmem : ∀ x ∈ (xs ++ es) ++ ss, x ∈ xs ++ ss := by
    simp only [List.mem_append]
    rintro x ((hx | hx) | hx)
    · exact .inl hx
    · exact .inr (List.mem_of_mem_filter hx)
    · exact .inr hx
  have hf' := foldlM_dropped (fun x hx => hparts x (List.mem_append_left ss hx)) hes hf
  refine alike_of_covered (e := .error) hsymm (fun x hx => ?_) (fun x hx e he => ?_) ?_ ?_ hf' hk
  · obtain ⟨hunion, hplain⟩ := hparts x (hmem x hx)
    exact ⟨hunion, Kind.ne_of_isPlain hplain⟩
  · rw [escalation_of_isPlain (hparts x (hmem x hx)).2] at he
    cases he
  · intro x hx
    rcases List.mem_append.1 hx with hx | hx
    · exact hxs x hx
    · exact ⟨x, List.mem_of_mem_filter hx, .refl h x⟩
  · intro s hs
    rcases hss s hs with ⟨x, hx, hsx⟩ | hdropped
    · exact ⟨x, List.mem_append_left es hx, hsx⟩
    · refine ⟨s, List.mem_append_right xs (List.mem_filter.2 ⟨hs, ?_⟩), .refl h s⟩
      simpa using hdropped

end Fold

end FlowTyping
