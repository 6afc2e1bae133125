import FlowTyping.Proofs.FoldSets

namespace FlowTyping

variable {g : Graph} {f k : Fold} {t t' a b : Ty} {xs ss zs ws : List Ty} {u u' v : Members}

theorem Members.add_unresolved (ht : g.kind t ≠ .unresolved) (hu : u.add g t = .ok u')
    (nodes : List NodeId) :
    { u with unresolved := nodes }.add g t = .ok { u' with unresolved := nodes } := by
  cases t with
  | simple s => cases s <;> cases hu <;> rfl
  | boolean b => cases b <;> cases hu <;> rfl
  | node i =>
    have hvalue := (isMember_node (isMember_of_add hu)).resolve_right ht
    rw [add_of_isValueShape hvalue] at hu ⊢
    cases hu
    rfl
  | _ => cases hu; rfl

theorem Members.length_ne_one_of_perm {nodes : List NodeId}
    (hperm : u.unresolved.Perm nodes) (hne : u.unresolved ≠ nodes) : u.toList.length ≠ 1 := by
  intro hone
  have hle : u.unresolved.length ≤ 1 := by
    rw [← hone]
    simp only [Members.toList, List.length_append, List.length_map]
    omega
  rcases Nat.le_one_iff_eq_zero_or_eq_one.1 hle with hnone | hone
  · rw [List.length_eq_zero_iff.1 hnone] at hperm hne
    exact hne (List.nil_perm.1 hperm).symm
  · obtain ⟨i, hi⟩ := List.length_eq_one_iff.1 hone
    rw [hi] at hperm hne
    exact hne (List.singleton_perm.1 hperm)

namespace Graph

def placeholder? (g : Graph) : Ty → Option NodeId
  | .node i => if g.kind (.node i) = .unresolved then some i else none
  | _ => none

def pending (g : Graph) (ts : List Ty) : List NodeId := ts.filterMap g.placeholder?

theorem placeholder?_of_kind_ne (ht : g.kind t ≠ .unresolved) : g.placeholder? t = none := by
  cases t with
  | node i => exact if_neg ht
  | _ => rfl

theorem pending_append (xs ys : List Ty) : g.pending (xs ++ ys) = g.pending xs ++ g.pending ys :=
  List.filterMap_append

theorem pending_eq_nil {ts : List Ty} (hts : ∀ t ∈ ts, g.kind t ≠ .unresolved) :
    g.pending ts = [] :=
  List.filterMap_eq_nil_iff.2 fun t ht => placeholder?_of_kind_ne (hts t ht)

theorem pending_toList (hu : u.Sorted g) : g.pending u.toList = u.unresolved := by
  have hwords : g.pending ({ u with shapes := [], unresolved := [] } : Members).toList = [] := by
    refine pending_eq_nil fun t ht => ?_
    cases t with
    | node i => cases Members.node?_of_mem_words ht
    | _ => simp [kind]
  have hshapes : g.pending (u.shapes.map .node) = [] := by
    refine pending_eq_nil fun t ht => ?_
    obtain ⟨i, hi, rfl⟩ := List.mem_map.1 ht
    exact (Kind.ne_of_isValueShape (hu.shapes i hi)).2
  have hunresolved : g.pending (u.unresolved.map .node) = u.unresolved := by
    have hid : ∀ i ∈ u.unresolved, (g.placeholder? ∘ Ty.node) i = some i :=
      fun i hi => if_pos (hu.unresolved i hi)
    rw [pending, List.filterMap_map, List.filterMap_congr hid, List.filterMap_some]
  rw [Members.toList_eq, pending_append, pending_append, hwords, hshapes, hunresolved]
  rfl

theorem Similar.pending_parts (hsorted : ∀ i u, g.shape i = .union u → u.Sorted g)
    (hab : g.Similar a b) : g.pending (g.parts a) = g.pending (g.parts b) := by
  cases hab.alike with
  | same => rfl
  | @fits i j hfits =>
    have hkind := hab.kind_eq
    by_cases hunion : g.kind (.node i) = .union
    · obtain ⟨u, hi⟩ := Shape.exists_union_of_kind hunion
      obtain ⟨v, hj⟩ := Shape.exists_union_of_kind (hkind ▸ hunion)
      have huv := (similar_union_iff hi hj).1 hab
      simp only [parts, hi, hj, pending_toList (hsorted i u hi), pending_toList (hsorted j v hj),
        huv.unresolved]
    · have hres : g.kind (.node i) ≠ .unresolved := fun hres => by
        obtain ⟨name, hname⟩ := Shape.exists_unresolved_of_kind hres
        exact (hfits.ne_unresolved name).1 hname
      rw [parts_of_kind_ne hunion, parts_of_kind_ne (hkind ▸ hunion),
        pending_eq_nil (by simpa using hres), pending_eq_nil (by simpa using hkind ▸ hres)]

theorem pending_flatMap_parts (zs : List Ty) :
    g.pending (zs.flatMap g.parts) = zs.flatMap fun z => g.pending (g.parts z) :=
  List.filterMap_flatMap

theorem pending_perm (hsorted : ∀ i u, g.shape i = .union u → u.Sorted g)
    (hzs : List.Forall₂ g.Similar zs ws) (hperm : ws.Perm ss) :
    (g.pending (zs.flatMap g.parts)).Perm (g.pending (ss.flatMap g.parts)) := by
  rw [pending_flatMap_parts, pending_flatMap_parts]
  have hsame : (zs.flatMap fun z => g.pending (g.parts z)) =
      ws.flatMap fun z => g.pending (g.parts z) := by
    clear hperm
    induction hzs with
    | nil => rfl
    | cons hzw _ ih => rw [List.flatMap_cons, List.flatMap_cons, hzw.pending_parts hsorted, ih]
  rw [hsame]
  exact hperm.flatMap_right _

theorem Covered.filter {p : Kind → Bool} (hxs : g.Covered xs ss) :
    g.Covered (xs.filter fun x => p (g.kind x)) (ss.filter fun x => p (g.kind x)) := by
  intro x hx
  obtain ⟨hx, hp⟩ := List.mem_filter.1 hx
  obtain ⟨s, hs, hsim⟩ := hxs x hx
  exact ⟨s, List.mem_filter.2 ⟨hs, hsim.kind_eq ▸ hp⟩, hsim⟩

/-- Equal types, or unions that are equal but for the order of their placeholders. -/
def EqualUpToOrder (g : Graph) (a b : Ty) : Prop :=
  g.equal a b = true ∨ ∃ i j u v, a = .node i ∧ b = .node j ∧ g.shape i = .union u ∧
    g.shape j = .union v ∧ u.unresolved.Perm v.unresolved ∧
    g.equalMembers { u with unresolved := v.unresolved } v = true

end Graph

namespace Fold

variable {f₀ : Fold} {nodes : List NodeId}

structure Holds (f f₀ : Fold) (nodes : List NodeId) : Prop where
  goesOn : f.isTerminal = false
  goesOn' : f₀.isTerminal = false
  members : f.members = { f₀.members with unresolved := nodes }

theorem Holds.absorbMember (hf : f.Holds f₀ nodes) (hunion : g.kind t ≠ .union)
    (hopen : g.kind t ≠ .instantiation) (hnone : escalation g t = none) :
    ∃ k k₀, Fold.absorbMember g f t = .ok k ∧
      ([t].filter (g.kind · ≠ .unresolved)).foldlM (Fold.absorbMember g) f₀ = .ok k₀ ∧
      k.Holds k₀ (nodes ++ g.pending [t]) := by
  rcases part_cases hunion hopen with rfl | ⟨e, he⟩ | ⟨hmember, -⟩
  · have hpending : g.pending [.never] = [] := rfl
    refine ⟨f, f₀, absorbMember_never f, ?_, by rwa [hpending, List.append_nil]⟩
    rw [List.filter_cons_of_pos (by simp [Graph.kind]), List.filter_nil, List.foldlM_cons,
      absorbMember_never]
    rfl
  · simp [hnone] at he
  · rw [absorbMember_of_isMember hf.goesOn hmember, hf.members]
    by_cases hres : g.kind t = .unresolved
    · cases t with
      | node i =>
        have hpending : g.pending [.node i] = [i] := by
          simp [Graph.pending, Graph.placeholder?, hres]
        rw [Members.add_of_unresolved hres, List.filter_cons_of_neg (by simp [hres]), hpending]
        exact ⟨_, f₀, rfl, rfl, rfl, hf.goesOn', rfl⟩
      | _ => cases hres
    · obtain ⟨u, hu⟩ := Members.exists_add f₀.members hmember
      have hpending : g.pending [t] = [] := Graph.pending_eq_nil (by simpa using hres)
      rw [Members.add_unresolved hres hu, List.filter_cons_of_pos (by simpa using hres),
        List.filter_nil, List.foldlM_cons, absorbMember_of_isMember hf.goesOn' hmember, hu, hpending,
        List.append_nil]
      exact ⟨_, .compound u, rfl, rfl, rfl, rfl, rfl⟩

theorem Holds.foldlM (hf : f.Holds f₀ nodes)
    (hxs : ∀ x ∈ xs, g.kind x ≠ .union ∧ g.kind x ≠ .instantiation ∧ escalation g x = none) :
    ∃ k k₀, xs.foldlM (Fold.absorbMember g) f = .ok k ∧
      (xs.filter (g.kind · ≠ .unresolved)).foldlM (Fold.absorbMember g) f₀ = .ok k₀ ∧
      k.Holds k₀ (nodes ++ g.pending xs) := by
  induction xs generalizing f f₀ nodes with
  | nil => exact ⟨f, f₀, rfl, rfl, by simpa [Graph.pending] using hf⟩
  | cons x xs ih =>
    obtain ⟨hunion, hopen, hnone⟩ := hxs x (by simp)
    obtain ⟨f₁, f₁', hf₁, hf₁', hholds⟩ := hf.absorbMember hunion hopen hnone
    obtain ⟨k, k₀, hk, hk₀, hholds'⟩ := ih hholds fun y hy => hxs y (by simp [hy])
    refine ⟨k, k₀, ?_, ?_, ?_⟩
    · rw [List.foldlM_cons, hf₁]
      exact hk
    · rw [← List.singleton_append, List.filter_append, List.foldlM_append, hf₁']
      exact hk₀
    · rw [← List.singleton_append, Graph.pending_append, ← List.append_assoc]
      exact hholds'

structure AlikeUpToOrder (g : Graph) (f k : Fold) : Prop where
  goesOn : f.isTerminal = false
  goesOn' : k.isTerminal = false
  placeholders : f.members.unresolved.Perm k.members.unresolved
  fits : { f.members with unresolved := k.members.unresolved }.Fits g.Similar k.members

theorem alikeUpToOrder_of_covered (hsymm : ∀ a b, g.Similar a b → g.Similar b a)
    (hparts : ∀ x ∈ xs ++ ss,
      g.kind x ≠ .union ∧ g.kind x ≠ .instantiation ∧ escalation g x = none)
    (hxs : g.Covered xs ss) (hss : g.Covered ss xs)
    (hperm : (g.pending xs).Perm (g.pending ss))
    (hf : xs.foldlM (absorbMember g) .never = .ok f)
    (hk : ss.foldlM (absorbMember g) .never = .ok k) : f.AlikeUpToOrder g k := by
  have hnever : Fold.never.Holds .never [] := ⟨rfl, rfl, rfl⟩
  obtain ⟨f', f₀, hf', hf₀, hfold⟩ := hnever.foldlM fun x hx =>
    hparts x (List.mem_append_left ss hx)
  obtain ⟨k', k₀, hk', hk₀, hkfold⟩ := hnever.foldlM fun x hx =>
    hparts x (List.mem_append_right xs hx)
  obtain rfl : f = f' := by simpa using hf.symm.trans hf'
  obtain rfl : k = k' := by simpa using hk.symm.trans hk'
  have hsettled : ∀ x ∈ xs.filter (g.kind · ≠ .unresolved) ++ ss.filter (g.kind · ≠ .unresolved),
      g.kind x ≠ .union ∧ g.kind x ≠ .instantiation ∧ g.kind x ≠ .unresolved := by
    intro x hx
    rw [← List.filter_append, List.mem_filter] at hx
    obtain ⟨hunion, hopen, -⟩ := hparts x hx.1
    exact ⟨hunion, hopen, by simpa using hx.2⟩
  have hquiet : ∀ x ∈ xs.filter (g.kind · ≠ .unresolved) ++ ss.filter (g.kind · ≠ .unresolved),
      ∀ e, escalation g x = some e → e = .error := by
    intro x hx e he
    rw [← List.filter_append, List.mem_filter] at hx
    simp [(hparts x hx.1).2.2] at he
  have halike : f₀.Alike g k₀ :=
    alike_of_covered hsymm hsettled hquiet (hxs.filter (p := (· ≠ .unresolved)))
      (hss.filter (p := (· ≠ .unresolved))) hf₀ hk₀
  refine ⟨hfold.goesOn, hkfold.goesOn, ?_, ?_⟩
  · rw [hfold.members, hkfold.members]
    exact hperm
  · have hfits : f₀.members.Fits g.Similar k₀.members := by
      rcases halike with rfl | ⟨u, v, rfl, rfl, huv⟩
      · exact .refl (.refl g) _
      · exact huv
    rw [hfold.members, hkfold.members]
    exact { hfits with unresolved := rfl }

theorem EndsIn.exists_union (hu : u.toList.length ≠ 1) (ht : (compound u).EndsIn g t) :
    ∃ i, t = .node i ∧ g.shape i = .union u := by
  simp only [EndsIn] at ht
  split at ht
  · rename_i m hm
    simp [hm] at hu
  · exact ht

theorem Reached.eq_never (hf : f.Reached g) (hterm : f.isTerminal = false)
    (hnil : f.members.toList = []) : f = .never := by
  cases f with
  | never => rfl
  | compound u => exact absurd hnil (hf u rfl).2
  | _ => cases hterm

theorem AlikeUpToOrder.equalUpToOrder (hfk : f.AlikeUpToOrder g k) (hf : f.Reached g)
    (hk : k.Reached g) (ht : f.EndsIn g t) (ht' : k.EndsIn g t') : g.EqualUpToOrder t t' := by
  obtain ⟨hterm, hterm', hperm, hfits⟩ := hfk
  have hlength : f.members.toList.length = k.members.toList.length := by
    rw [← hfits.length_toList]
    simp [Members.toList, hperm.length_eq]
  by_cases hnil : f.members.toList = []
  · rw [hnil, List.length_nil, eq_comm, List.length_eq_zero_iff] at hlength
    obtain rfl := hf.eq_never hterm hnil
    obtain rfl := hk.eq_never hterm' hlength
    obtain rfl : t = .never := ht
    obtain rfl : t' = .never := ht'
    exact .inl (Graph.equal_iff.2 (.refl g _))
  cases f with
  | never => exact absurd rfl hnil
  | compound u =>
    cases k with
    | never => exact absurd (List.length_eq_zero_iff.1 hlength) hnil
    | compound v =>
      by_cases hsame : u.unresolved = v.unresolved
      · have huv : u.Fits g.Similar v := { hfits with unresolved := hsame }
        have halike : (compound u).Alike g (compound v) := .inr ⟨u, v, rfl, rfl, huv⟩
        exact .inl (Graph.equal_iff.2 (halike.similar hf ht ht'))
      · have htwo := Members.length_ne_one_of_perm hperm hsame
        obtain ⟨i, rfl, hi⟩ := ht.exists_union htwo
        obtain ⟨j, rfl, hj⟩ := ht'.exists_union (hlength ▸ htwo)
        refine .inr ⟨i, j, u, v, rfl, rfl, hi, hj, hperm, ?_⟩
        refine Shape.sameMembers_iff.2 { hfits with covered := fun x hx => ?_ }
        obtain ⟨y, hy, hxy⟩ := hfits.covered x hx
        exact ⟨y, hy, Graph.walk_nil_iff.2 hxy⟩
    | _ => cases hterm'
  | _ => cases hterm

end Fold

end FlowTyping
