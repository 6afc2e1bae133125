import FlowTyping.Proofs.FoldSets
import FlowTyping.Proofs.SideBySide

namespace FlowTyping

namespace Literals

variable {α : Type} {l l' m m' : Literals α} {v : α}

theorem Agree.holds_iff (h : l.Agree m) (v : α) : l.Holds v ↔ m.Holds v := by
  obtain ⟨hvacant, hevery, hvalues⟩ := h
  cases l <;> cases m <;> simp_all [Holds, isVacant, isEvery, values]

variable [DecidableEq α]

theorem isEvery_foldl_insert {vs : List α} :
    (vs.foldl (fun l v => l.insert v) l).isEvery = l.isEvery := by
  induction vs generalizing l with
  | nil => rfl
  | cons x vs ih => rw [List.foldl_cons, ih, isEvery_insert]

@[simp] theorem holds_join : (l.join m).Holds v ↔ l.Holds v ∨ m.Holds v := by
  cases m with
  | vacant => simp [join, Holds]
  | listed k => rw [join, holds_foldl, or_comm, Holds]
  | every => simp [join, Holds]

@[simp] theorem isEvery_join : (l.join m).isEvery = (l.isEvery || m.isEvery) := by
  cases m with
  | vacant => simp [join, isEvery]
  | listed k => rw [join, isEvery_foldl_insert, isEvery.eq_def (.listed k), Bool.or_false]
  | every => simp [join, isEvery]

theorem Agree.join (hl : l.Agree l') (hm : m.Agree m') : (l.join m).Agree (l'.join m') := by
  apply Agree.of_holds
  · rw [isEvery_join, isEvery_join, hl.2.1, hm.2.1]
  · intro v
    rw [holds_join, holds_join, hl.holds_iff, hm.holds_iff]

end Literals

namespace Members

variable {g h h' h₁ h₂ : Graph} {W W' : World} {O : List NodeId} {u u' v v' w : Members} {t : Ty}
  {i j : NodeId} {shapes new as bs : List NodeId}

structure Twin (W : World) (u v : Members) : Prop where
  there : u.Fits W.Pairs v
  back : v.Fits (flip W.Pairs) u

theorem Twin.of_shape (h : (Shape.union u).Twin W.Pairs (.union v)) : u.Twin W v := by
  obtain ⟨hthere, hback⟩ := h
  cases hthere with
  | union hthere =>
    cases hback with
    | union hback => exact ⟨hthere, hback⟩

theorem Twin.shape (h : u.Twin W v) : (Shape.union u).Twin W.Pairs (.union v) :=
  ⟨.union h.there, .union h.back⟩

theorem Twin.mono (hW : ∀ i j, W i j → W' i j) (h : u.Twin W v) : u.Twin W' v :=
  .of_shape (h.shape.imp fun _ _ => World.Pairs.mono hW)

theorem Twin.of_words (hshapes : u.shapes = []) : u.Twin W u := by
  have hagree {α : Type} (l : Literals α) : l.Agree l := ⟨rfl, rfl, fun _ => .rfl⟩
  constructor <;>
  exact ⟨rfl, rfl, rfl, rfl, rfl, rfl, hagree _, hagree _, hagree _, hagree _, rfl,
    by simp [hshapes], rfl⟩

end Members

namespace Graph

variable {g h h' h₁ h₂ : Graph} {W : World} {O : List NodeId} {u w : Members} {i j : NodeId}
  {shapes new as bs : List NodeId}

open Members (insertShape insertShape_cases exists_similar_insertShape)

theorem Unlike.mem_foldl (hnew : g.Unlike new) :
    i ∈ new.foldl (insertShape g) shapes ↔
      i ∈ shapes ∨ i ∈ new ∧ ∀ j ∈ shapes, ¬ g.Similar (.node i) (.node j) := by
  induction new generalizing shapes with
  | nil => simp
  | cons x new ih =>
    obtain ⟨hx, hnew⟩ := List.pairwise_cons.1 hnew
    rw [List.foldl_cons, ih hnew]
    rcases insertShape_cases g shapes x with hsame | ⟨hadd, hxs⟩
    · rw [hsame, List.mem_cons]
      constructor
      · rintro (hi | ⟨hi, hne⟩)
        · exact .inl hi
        · exact .inr ⟨.inr hi, hne⟩
      · rintro (hi | ⟨rfl | hi, hne⟩)
        · exact .inl hi
        · -- the shape was left out because it is like one that is there
          obtain ⟨k, hk, hik⟩ : ∃ k ∈ insertShape g shapes i, g.Similar (.node i) (.node k) :=
            exists_similar_insertShape (.inr rfl)
          exact absurd hik (hne k (hsame ▸ hk))
        · exact .inr ⟨hi, hne⟩
    · rw [hadd]
      constructor
      · rintro (hi | ⟨hi, hne⟩)
        · rcases List.mem_append.1 hi with hi | hi
          · exact .inl hi
          · rw [List.mem_singleton.1 hi]
            exact .inr ⟨by simp, hxs⟩
        · exact .inr ⟨by simp [hi], fun j hj => hne j (by simp [hj])⟩
      · rintro (hi | ⟨hi, hne⟩)
        · exact .inl (by simp [hi])
        · rcases List.mem_cons.1 hi with rfl | hi
          · exact .inl (by simp)
          · refine .inr ⟨hi, fun j hj => ?_⟩
            rcases List.mem_append.1 hj with hj | hj
            · exact hne j hj
            · exact List.mem_singleton.1 hj ▸ hx i hi

theorem Unlike.foldl (hs : g.Unlike shapes) : g.Unlike (new.foldl (insertShape g) shapes) := by
  induction new generalizing shapes with
  | nil => exact hs
  | cons x new ih =>
    apply ih
    rcases insertShape_cases g shapes x with hsame | ⟨hadd, hxs⟩
    · rwa [hsame]
    · rw [hadd, Unlike, List.pairwise_append]
      refine ⟨hs, List.pairwise_singleton _ _, fun a ha b hb => ?_⟩
      rw [List.mem_singleton.1 hb]
      exact hxs a ha

theorem Unlike.length_le (ht : Twins W h₁ h₂) (has : h₁.Unlike as)
    (hcover : ∀ i ∈ as, ∃ j ∈ bs, W i j) : as.length ≤ bs.length := by
  choose! f hf hW using hcover
  have hinj : ∀ i ∈ as, ∀ j ∈ as, f i = f j → i = j := by
    intro i hi j hj hij
    have hi' : W.Pairs (.node i) (.node (f i)) := .node (hW i hi)
    have hj' : W.Pairs (.node j) (.node (f i)) := .node (hij ▸ hW j hj)
    exact has.eq hi hj ((ht.similar_iff hi' hj').2 (.refl _ _)) ((ht.similar_iff hj' hi').2 (.refl _ _))
  have hsub : as.map f ⊆ bs := by
    intro y hy
    obtain ⟨i, hi, rfl⟩ := List.mem_map.1 hy
    exact hf i hi
  simpa using ((has.nodup.map_on hinj).subperm hsub).length_le

theorem covered_foldl (ht : Twins W h₁ h₂) {as' bs' : List NodeId}
    (has' : h₁.Unlike as') (hbs' : h₂.Unlike bs')
    (hcover : ∀ i ∈ as, ∃ j ∈ bs, W i j) (hback : ∀ j ∈ bs, ∃ i ∈ as, W i j)
    (hcover' : ∀ i ∈ as', ∃ j ∈ bs', W i j) :
    ∀ i ∈ as'.foldl (insertShape h₁) as, ∃ j ∈ bs'.foldl (insertShape h₂) bs, W i j := by
  intro i hi
  rcases has'.mem_foldl.1 hi with hi | ⟨hi, hne⟩
  · obtain ⟨j, hj, hij⟩ := hcover i hi
    exact ⟨j, hbs'.mem_foldl.2 (.inl hj), hij⟩
  · obtain ⟨j, hj, hij⟩ := hcover' i hi
    refine ⟨j, hbs'.mem_foldl.2 (.inr ⟨hj, fun l hl hjl => ?_⟩), hij⟩
    obtain ⟨k, hk, hkl⟩ := hback l hl
    exact hne k hk ((ht.similar_iff (.node hij) (.node hkl)).2 hjl)

theorem fresh_empty (h : Graph) (O : List NodeId) : Fresh h O {} :=
  ⟨Members.sorted_empty h, by simp [show ({} : Members).toList = [] from rfl], .nil⟩

namespace Fresh

theorem clear_node (hu : Fresh h O u) (hi : i ∈ u.shapes ∨ i ∈ u.unresolved) :
    h.Clear O (.node i) :=
  hu.clear _ (Members.node_mem_toList.2 hi)

theorem of_nodes (hsorted : u.Sorted h)
    (hclear : ∀ i, i ∈ u.shapes ∨ i ∈ u.unresolved → h.Clear O (.node i))
    (hdistinct : h.Unlike u.shapes) : Fresh h O u := by
  refine ⟨hsorted, fun x hx => ?_, hdistinct⟩
  cases x with
  | node i => exact hclear i (Members.node_mem_toList.1 hx)
  | _ => exact .word rfl

theorem join (hw : Fresh h O w) (hu : Fresh h O u) : Fresh h O (w.join h u) := by
  have hshapes (i : NodeId) (hi : i ∈ (w.join h u).shapes) : i ∈ w.shapes ∨ i ∈ u.shapes :=
    (hu.distinct.mem_foldl.1 hi).imp_right And.left
  have hunresolved (i : NodeId) (hi : i ∈ (w.join h u).unresolved) :
      i ∈ w.unresolved ∨ i ∈ u.unresolved := List.mem_append.1 hi
  refine .of_nodes ⟨fun i hi => ?_, fun i hi => ?_⟩ (fun i hi => ?_) hw.distinct.foldl
  · exact (hshapes i hi).elim (hw.sorted.shapes i) (hu.sorted.shapes i)
  · exact (hunresolved i hi).elim (hw.sorted.unresolved i) (hu.sorted.unresolved i)
  · rcases hi with hi | hi
    · exact (hshapes i hi).elim (fun hi => hw.clear_node (.inl hi)) fun hi => hu.clear_node (.inl hi)
    · exact (hunresolved i hi).elim (fun hi => hw.clear_node (.inr hi))
        fun hi => hu.clear_node (.inr hi)

theorem congr (hsize : h.size ≤ h'.size) (hagree : ∀ x, h.Clear O x → h.AgreesAt h' x)
    (hu : Fresh h O u) : Fresh h' O u := by
  have hnode (i : NodeId) (hi : .node i ∈ u.toList) : h.AgreesAt h' (.node i) :=
    hagree _ (hu.clear _ hi)
  have hshape (i : NodeId) (hi : i ∈ u.shapes) : h.AgreesAt h' (.node i) :=
    hagree _ (hu.clear_node (.inl hi))
  refine .of_nodes (hu.sorted.of_kind_eq fun i hi => (hnode i hi).kind_eq) (fun i hi => ?_) ?_
  · have hclear := hu.clear_node hi
    have hhas : i < h.size := hclear.has
    exact hclear.congr (hagree _ hclear) (hhas.trans_le hsize)
  · refine hu.distinct.imp_of_mem fun {i j} hi hj hne hji => hne ?_
    exact (hshape j hj).symm.similar (hshape i hi).symm hji

end Fresh

end Graph

namespace Members

variable {g h₁ h₂ : Graph} {W : World} {O : List (NodeId × NodeId)} {u u' v v' : Members} {t : Ty}
  {O₁ O₂ : List NodeId}

theorem Fits.join (ht : Graph.Twins W h₁ h₂) (hu' : Graph.Fresh h₁ O₁ u')
    (hv' : Graph.Fresh h₂ O₂ v') (hu : Graph.Fresh h₁ O₁ u) (hv : Graph.Fresh h₂ O₂ v)
    (huv : u.Twin W v) (huv' : u'.Twin W v') :
    (u.join h₁ u').Fits W.Pairs (v.join h₂ v') := by
  have hthere {as bs : Members} (h : as.Twin W bs) : ∀ i ∈ as.shapes, ∃ j ∈ bs.shapes, W i j := by
    simpa using h.there.covered
  have hback {as bs : Members} (h : as.Twin W bs) : ∀ j ∈ bs.shapes, ∃ i ∈ as.shapes, W i j := by
    simpa [flip] using h.back.covered
  have hcover := Graph.covered_foldl ht hu'.distinct hv'.distinct (hthere huv) (hback huv) (hthere huv')
  have hcover' := Graph.covered_foldl ht.flip hv'.distinct hu'.distinct (hback huv) (hthere huv)
    (hback huv')
  obtain ⟨h₁, -⟩ := huv
  obtain ⟨h₂, -⟩ := huv'
  refine ⟨?_, ?_, ?_, ?_, ?_, ?_, h₁.strings.join h₂.strings, h₁.numbers.join h₂.numbers,
    h₁.bigints.join h₂.bigints, h₁.symbols.join h₂.symbols, ?_, ?_, ?_⟩
  · simp only [Members.join, h₁.object, h₂.object]
  · simp only [Members.join, h₁.void, h₂.void]
  · simp only [Members.join, h₁.null, h₂.null]
  · simp only [Members.join, h₁.undefined, h₂.undefined]
  · simp only [Members.join, h₁.hasTrue, h₂.hasTrue]
  · simp only [Members.join, h₁.hasFalse, h₂.hasFalse]
  · exact Nat.le_antisymm (Graph.Unlike.length_le ht hu.distinct.foldl hcover)
      (Graph.Unlike.length_le ht.flip hv.distinct.foldl hcover')
  · intro i hi
    obtain ⟨j, hj, hij⟩ := hcover i hi
    exact ⟨j, hj, .node hij⟩
  · simp only [Members.join, h₁.unresolved, h₂.unresolved]

theorem Twin.flip (huv : u.Twin W v) : v.Twin (flip W) u := by
  obtain ⟨h, h'⟩ := huv.shape.flip.imp fun x y hxy => World.Pairs.flip hxy
  exact .of_shape ⟨h, h'⟩

theorem Twin.join (ht : Graph.Twins W h₁ h₂) (hu : Graph.Fresh h₁ O₁ u)
    (hv : Graph.Fresh h₂ O₂ v) (hu' : Graph.Fresh h₁ O₁ u') (hv' : Graph.Fresh h₂ O₂ v')
    (huv : u.Twin W v) (huv' : u'.Twin W v') : (u.join h₁ u').Twin W (v.join h₂ v') := by
  have hback := Fits.join ht.flip hv' hu' hv hu huv.flip huv'.flip
  refine ⟨.join ht hu' hv' hu hv huv huv', ?_⟩
  have := (Shape.Fits.union hback).imp fun x _ y _ hxy => World.Pairs.flip hxy
  cases this
  assumption

theorem Twin.exists_pairs (hbase : ∀ i ∈ u.unresolved, W i i) (huv : u.Twin W v)
    (ht : t ∈ u.toList) : ∃ t' ∈ v.toList, W.Pairs t t' :=
  huv.there.exists_related_of (fun _ => .word) (fun i hi => .node (hbase i hi)) ht

end Members

namespace Fold

variable {g h h' h₁ h₁' h₂ h₂' : Graph} {W W' : World} {O : List (NodeId × NodeId)}
  {O' : List NodeId} {f f₁ f₂ k k₁ k₂ : Fold} {x x₁ x₂ : Ty} {i : NodeId} {u : Members}

inductive Twin (W : World) : Fold → Fold → Prop
  | word {f : Fold} (hf : f.members = {}) : Twin W f f
  | compound {u v : Members} (huv : u.Twin W v) : Twin W (.compound u) (.compound v)

theorem Twin.mono (hW : ∀ i j, W i j → W' i j) (hf : f₁.Twin W f₂) : f₁.Twin W' f₂ := by
  cases hf with
  | word hf => exact .word hf
  | compound huv => exact .compound (huv.mono hW)

theorem Twin.isTerminal_eq (hf : f₁.Twin W f₂) : f₂.isTerminal = f₁.isTerminal := by
  cases hf <;> rfl

theorem Twin.members (hf : f₁.Twin W f₂) : f₁.members.Twin W f₂.members := by
  cases hf with
  | word hf => exact .of_words (by simp [hf])
  | compound huv => exact huv

structure Sound (h : Graph) (O : List NodeId) (f : Fold) : Prop where
  reached : f.Reached h
  fresh : Graph.Fresh h O f.members

theorem sound_never (h : Graph) (O : List NodeId) : Fold.never.Sound h O :=
  ⟨reached_never h, Graph.fresh_empty h O⟩

theorem Sound.congr (hsize : h.size ≤ h'.size) (hagree : ∀ x, h.Clear O' x → h.AgreesAt h' x)
    (hf : f.Sound h O') : f.Sound h' O' := by
  have hfresh := hf.fresh.congr hsize hagree
  refine ⟨?_, hfresh⟩
  rintro u rfl
  exact ⟨hfresh.sorted, (hf.reached u rfl).2⟩

theorem absorb_union (hi : h.shape i = .union u) (hu : u.Sorted h) :
    absorb h .never (.node i) =
      .ok (if u.toList = [] then .never else .compound (({} : Members).join h u)) := by
  rw [absorb_eq_foldlM]
  simp only [Graph.parts, hi]
  split
  · rename_i hnil
    rw [hnil]
    rfl
  · rename_i hne
    rw [foldlM_absorbMember_of_isMember rfl hne fun x => hu.isMember]
    change (u.toList.foldlM (Members.add h) {}).map _ = _
    rw [hu.foldlM_toList]
    rfl

theorem absorb_shape (hi : (h.kind (.node i)).isValueShape = true) :
    absorb h .never (.node i) = .ok (.compound { shapes := [i] }) := by
  rw [absorb_of_kind_ne (Kind.ne_of_isValueShape hi).1,
    absorbMember_of_isMember rfl (Kind.isMember_of_isValueShape hi), Members.add_of_isValueShape hi]
  rfl

theorem absorb_unresolved (hi : h.kind (.node i) = .unresolved) :
    absorb h .never (.node i) = .ok (.compound { unresolved := [i] }) := by
  rw [absorb_of_kind_ne (by simp [hi]), absorbMember_of_isMember rfl (by rw [hi]; rfl),
    Members.add_of_unresolved hi]
  rfl

theorem absorb_word (hx : x.node? = none) (h₁ h₂ : Graph) :
    ∃ k, absorb h₁ .never x = .ok k ∧ absorb h₂ .never x = .ok k ∧ k.members.shapes = [] ∧
      k.members.unresolved = [] := by
  cases x with
  | node i => cases hx
  | simple s => cases s <;> exact ⟨_, rfl, rfl, rfl, rfl⟩
  | boolean v => cases v <;> exact ⟨_, rfl, rfl, rfl, rfl⟩
  | _ => exact ⟨_, rfl, rfl, rfl, rfl⟩

theorem Twin.of_words (hk : k.members.shapes = []) : k.Twin W k := by
  cases k with
  | compound u => exact .compound (.of_words hk)
  | _ => exact .word rfl

end Fold

namespace Graph

variable {g h₁ h₂ : Graph} {W : World} {O : List (NodeId × NodeId)} {x₁ x₂ : Ty} {i j : NodeId}
  {u v : Members}

theorem Fresh.shape {h : Graph} {O : List NodeId} {i : NodeId} (hclear : h.Clear O (.node i))
    (hi : (h.kind (.node i)).isValueShape = true) : Fresh h O { shapes := [i] } :=
  .of_nodes ⟨by simpa using hi, by simp⟩ (by simpa using hclear) (List.pairwise_singleton _ _)

theorem Fresh.pending {h : Graph} {O : List NodeId} {i : NodeId} (hclear : h.Clear O (.node i))
    (hi : h.kind (.node i) = .unresolved) : Fresh h O { unresolved := [i] } :=
  .of_nodes ⟨by simp, by simpa using hi⟩ (by simpa using hclear) .nil

/-- Each side takes in its own type, and what they are taken in for has paired members. -/
def TakenAlike (O : List (NodeId × NodeId)) (W : World) (h₁ : Graph) (x₁ : Ty) (h₂ : Graph)
    (x₂ : Ty) : Prop :=
  ∃ k₁ k₂, Fold.absorb h₁ .never x₁ = .ok k₁ ∧ Fold.absorb h₂ .never x₂ = .ok k₂ ∧
    k₁.Twin W k₂ ∧ Fresh h₁ (O.map Prod.fst) k₁.members ∧ Fresh h₂ (O.map Prod.snd) k₂.members

theorem takenAlike_word (hx : x₁.node? = none) : TakenAlike O W h₁ x₁ h₂ x₁ := by
  obtain ⟨k, hk₁, hk₂, hshapes, hunresolved⟩ := Fold.absorb_word hx h₁ h₂
  have hfresh (h : Graph) (O : List NodeId) : Fresh h O k.members :=
    .of_nodes ⟨by simp [hshapes], by simp [hunresolved]⟩ (by simp [hshapes, hunresolved])
      (hshapes ▸ .nil)
  exact ⟨k, k, hk₁, hk₂, .of_words hshapes, hfresh _ _, hfresh _ _⟩

theorem Twins.members (ht : Twins W h₁ h₂) (hij : W i j) (hi : h₁.shape i = .union u)
    (hj : h₂.shape j = .union v) : u.Twin W v := by
  cases ht.looks i j hij with
  | same hopq => simp [hi, Shape.isOpaque] at hopq
  | twin hij => exact .of_shape (hi ▸ hj ▸ hij)

theorem Paired.pending (hp : Paired g O W h₁ h₂) (hu : Fresh h₁ (O.map Prod.fst) u)
    (hi : i ∈ u.unresolved) : W i i :=
  hp.base i (hp.left.pending i (hu.clear_node (.inr hi)).has (hu.sorted.unresolved i hi))

theorem takenAlike_union (hp : Paired g O W h₁ h₂) (hij : W i j) (hi : h₁.shape i = .union u)
    (hj : h₂.shape j = .union v) : TakenAlike O W h₁ (.node i) h₂ (.node j) := by
  have huv := hp.twins.members hij hi hj
  have hu := hp.left.fresh hi
  have hv := hp.right.fresh hj
  have hempty₁ := fresh_empty h₁ (O.map Prod.fst)
  have hempty₂ := fresh_empty h₂ (O.map Prod.snd)
  have hnil : v.toList = [] ↔ u.toList = [] := by
    rw [← List.length_eq_zero_iff, ← List.length_eq_zero_iff, huv.there.length_toList]
  refine ⟨_, _, Fold.absorb_union hi hu.sorted, Fold.absorb_union hj hv.sorted, ?_⟩
  simp only [hnil]
  split
  · exact ⟨.word rfl, hempty₁, hempty₂⟩
  · exact ⟨.compound (.join hp.twins hempty₁ hempty₂ hu hv (.of_words rfl) huv), hempty₁.join hu,
      hempty₂.join hv⟩

theorem takenAlike_escalation {k : Fold} (hunion : h₁.kind x₁ ≠ .union)
    (hkind : h₂.kind x₂ = h₁.kind x₁) (hk : Fold.escalation h₁ x₁ = some k) :
    TakenAlike O W h₁ x₁ h₂ x₂ := by
  have hk₂ : Fold.escalation h₂ x₂ = some k := by
    rw [← hk, Fold.escalation, Fold.escalation, hkind]
  have hnone : k.members = {} := by
    have hterm := Fold.isTerminal_of_escalation hk
    cases k <;> first | rfl | cases hterm
  refine ⟨k, k, ?_, ?_, .word hnone, hnone ▸ fresh_empty _ _, hnone ▸ fresh_empty _ _⟩
  · rw [Fold.absorb_of_kind_ne hunion, Fold.absorbMember_of_escalation rfl hk]
  · rw [Fold.absorb_of_kind_ne (hkind ▸ hunion), Fold.absorbMember_of_escalation rfl hk₂]

theorem Meets.takenAlike (hp : Paired g O W h₁ h₂) (hx : Meets g O W h₁ x₁ h₂ x₂)
    (hopen : h₁.kind x₁ ≠ .instantiation) : TakenAlike O W h₁ x₁ h₂ x₂ := by
  obtain ⟨hpairs, hleft, hright⟩ := hx
  have hkind := hp.twins.kind_eq hpairs
  cases hpairs with
  | word hword => exact takenAlike_word hword
  | @node i j hij =>
    by_cases hunion : h₁.kind (.node i) = .union
    · obtain ⟨u, hi⟩ := Shape.exists_union_of_kind hunion
      obtain ⟨v, hj⟩ := Shape.exists_union_of_kind (hkind.trans hunion)
      exact takenAlike_union hp hij hi hj
    rcases Fold.part_cases hunion hopen with hnever | ⟨k, hk⟩ | ⟨hmember, -⟩
    · cases hnever
    · exact takenAlike_escalation hunion hkind hk
    rcases Members.isMember_node hmember with hi | hi
    · have hj : (h₂.kind (.node j)).isValueShape = true := hkind ▸ hi
      refine ⟨_, _, Fold.absorb_shape hi, Fold.absorb_shape hj, .compound ?_, .shape hleft hi,
        .shape hright hj⟩
      have hagree {α : Type} (l : Literals α) : l.Agree l := ⟨rfl, rfl, fun _ => .rfl⟩
      constructor <;>
      exact ⟨rfl, rfl, rfl, rfl, rfl, rfl, hagree _, hagree _, hagree _, hagree _, rfl,
        by simpa [flip] using hij, rfl⟩
    · have hj : h₂.kind (.node j) = .unresolved := hkind.trans hi
      obtain ⟨name, hname⟩ := Shape.exists_unresolved_of_kind hi
      cases hp.twins.looks i j hij with
      | same => exact ⟨_, _, Fold.absorb_unresolved hi, Fold.absorb_unresolved hj, .of_words rfl,
          .pending hleft hi, .pending hright hj⟩
      | twin hij => exact absurd hname (hij.there.ne_unresolved name).1

end Graph

namespace Fold

variable {g h h₁ h₁' h₂ h₂' : Graph} {W W' : World} {O : List (NodeId × NodeId)}
  {O' : List NodeId} {f f₁ f₂ k k₁ k₂ : Fold} {x x₁ x₂ : Ty} {st₁ st₂ : Store}

structure Meets (O : List (NodeId × NodeId)) (W : World) (h₁ : Graph) (f₁ : Fold) (h₂ : Graph)
    (f₂ : Fold) : Prop where
  twin : f₁.Twin W f₂
  left : f₁.Sound h₁ (O.map Prod.fst)
  right : f₂.Sound h₂ (O.map Prod.snd)

theorem meets_never (O : List (NodeId × NodeId)) (W : World) (h₁ h₂ : Graph) :
    Meets O W h₁ .never h₂ .never :=
  ⟨.word rfl, sound_never _ _, sound_never _ _⟩

theorem Meets.congr (hW : ∀ i j, W i j → W' i j) (hsize₁ : h₁.size ≤ h₁'.size)
    (hagree₁ : ∀ x, h₁.Clear (O.map Prod.fst) x → h₁.AgreesAt h₁' x)
    (hsize₂ : h₂.size ≤ h₂'.size)
    (hagree₂ : ∀ x, h₂.Clear (O.map Prod.snd) x → h₂.AgreesAt h₂' x)
    (hf : Meets O W h₁ f₁ h₂ f₂) : Meets O W' h₁' f₁ h₂' f₂ :=
  ⟨hf.twin.mono hW, hf.left.congr hsize₁ hagree₁, hf.right.congr hsize₂ hagree₂⟩

theorem Meets.mono (hp : Graph.Paired g O W h₁ h₂) (hgrown : Graph.Grown W h₁ h₂ W' h₁' h₂')
    (hf : Meets O W h₁ f₁ h₂ f₂) : Meets O W' h₁' f₁ h₂' f₂ :=
  hf.congr hgrown.wider.mono hgrown.left.size_le
    (fun _ hx => hgrown.left.agreesAt hp.left.closed hx.has) hgrown.right.size_le
    fun _ hx => hgrown.right.agreesAt hp.right.closed hx.has

theorem fresh_join (hf : Graph.Fresh h O' f.members) (hk : Graph.Fresh h O' k.members) :
    Graph.Fresh h O' (f.join h k).members := by
  cases hterm : f.isTerminal with
  | true => rwa [join_of_isTerminal hterm]
  | false =>
    cases k with
    | never => rwa [join_never]
    | compound u =>
      rw [members_join hterm rfl]
      exact hf.join hk
    | error | any | unknown => rwa [join_eq_right hterm rfl]

theorem Sound.absorb (hh : Graph.Tidy g O' h) (hopen : h.kind x ≠ .instantiation)
    (hf : f.Sound h O') (hk : Fold.absorb h .never x = .ok k)
    (hfresh : Graph.Fresh h O' k.members) :
    f.absorb h x = .ok (f.join h k) ∧ (f.join h k).Sound h O' := by
  have hparts := hh.absorbable hopen
  have hjoin : f.absorb h x = .ok (f.join h k) := by
    rw [absorb_eq_foldlM] at hk ⊢
    have hk' := foldlM_join f hparts hk
    rwa [join_never] at hk'
  refine ⟨hjoin, ?_, fresh_join hf.fresh hfresh⟩
  rw [absorb_eq_foldlM] at hjoin
  exact hf.reached.foldlM hparts hjoin

theorem Twin.join (ht : Graph.Twins W h₁ h₂) {O₁ O₂ : List NodeId}
    (hf₁ : Graph.Fresh h₁ O₁ f₁.members) (hf₂ : Graph.Fresh h₂ O₂ f₂.members)
    (hk₁ : Graph.Fresh h₁ O₁ k₁.members) (hk₂ : Graph.Fresh h₂ O₂ k₂.members)
    (hf : f₁.Twin W f₂) (hk : k₁.Twin W k₂) : (f₁.join h₁ k₁).Twin W (f₂.join h₂ k₂) := by
  cases hterm : f₁.isTerminal with
  | true =>
    rw [join_of_isTerminal hterm, join_of_isTerminal (hf.isTerminal_eq.trans hterm)]
    exact hf
  | false =>
    simp only [Fold.join, hterm, hf.isTerminal_eq, Bool.false_eq_true, if_false]
    cases hk with
    | word hk =>
      cases k₁ with
      | never => exact hf
      | compound u =>
        have hshapes : u.shapes = [] := congrArg Members.shapes hk
        exact .compound (.join ht hf₁ hf₂ hk₁ hk₂ hf.members (.of_words hshapes))
      | error | any | unknown => exact .word rfl
    | compound huv => exact .compound (.join ht hf₁ hf₂ hk₁ hk₂ hf.members huv)

theorem Meets.absorb (hp : Graph.Paired g O W h₁ h₂) (hx : Graph.Meets g O W h₁ x₁ h₂ x₂)
    (hopen : h₁.kind x₁ ≠ .instantiation) (hf : Meets O W h₁ f₁ h₂ f₂) :
    ∃ k₁ k₂, f₁.absorb h₁ x₁ = .ok k₁ ∧ f₂.absorb h₂ x₂ = .ok k₂ ∧ Meets O W h₁ k₁ h₂ k₂ := by
  obtain ⟨k₁, k₂, hk₁, hk₂, hk, hfresh₁, hfresh₂⟩ := hx.takenAlike hp hopen
  have hopen₂ : h₂.kind x₂ ≠ .instantiation := hp.twins.kind_eq hx.pairs ▸ hopen
  obtain ⟨habsorb₁, hsound₁⟩ := hf.left.absorb hp.left hopen hk₁ hfresh₁
  obtain ⟨habsorb₂, hsound₂⟩ := hf.right.absorb hp.right hopen₂ hk₂ hfresh₂
  exact ⟨_, _, habsorb₁, habsorb₂,
    .join hp.twins hf.left.fresh hf.right.fresh hfresh₁ hfresh₂ hf.twin hk, hsound₁, hsound₂⟩

theorem finish_of_build {t : Ty} {st st' : Store} (hf : f.build.Returns st t st') :
    ∃ st'', f.finish.Returns st t st'' ∧ st''.graph = st'.graph := by
  obtain ⟨st'', htally, hgraph⟩ := tally_returns st'.graph t st'
  exact ⟨st'', hf.bind ((TypeM.Returns.graph st').bind (htally.bind (.pure t st''))), hgraph⟩

theorem build_single {m : Ty} {u : Members} (hm : u.toList = [m]) (st : Store) :
    (compound u).build.Returns st m st := by
  simp only [build, hm]
  exact .pure m st

theorem build_many {u : Members} (hu : u.toList.length ≠ 1) (st : Store) :
    (compound u).build.Returns st (.node st.graph.size)
      { st with graph := st.graph.push (.union u) } := by
  simp only [build]
  split
  · rename_i m hm
    simp [hm] at hu
  · exact (TypeM.Returns.alloc (.union u) st).bind (.pure _ _)

theorem Meets.finish (hp : Graph.Paired g O W st₁.graph st₂.graph)
    (hf : Meets O W st₁.graph f₁ st₂.graph f₂) :
    Joint g f₁.finish st₁ f₂.finish st₂
      (Graph.Ends g O W st₁.graph st₂.graph (Graph.Meets g O)) := by
  have hstay {y₁ y₂ : Ty} (hb₁ : f₁.build.Returns st₁ y₁ st₁) (hb₂ : f₂.build.Returns st₂ y₂ st₂)
      (hy : Graph.Meets g O W st₁.graph y₁ st₂.graph y₂) :
      Joint g f₁.finish st₁ f₂.finish st₂
        (Graph.Ends g O W st₁.graph st₂.graph (Graph.Meets g O)) := by
    obtain ⟨s₁, hrun₁, hgraph₁⟩ := finish_of_build hb₁
    obtain ⟨s₂, hrun₂, hgraph₂⟩ := finish_of_build hb₂
    refine .returns hrun₁ hrun₂ ⟨W, ?_⟩
    rw [hgraph₁, hgraph₂]
    exact ⟨.refl _ _ _, hp, hy⟩
  obtain ⟨htwin, hleft, hright⟩ := hf
  cases htwin with
  | word hword =>
    cases f₁ with
    | compound u =>
      obtain rfl : u = {} := hword
      exact absurd rfl (hleft.reached {} rfl).2
    | _ => exact hstay (.pure _ _) (.pure _ _) (.word rfl)
  | @compound u v huv =>
    have hlen := huv.there.length_toList
    by_cases hone : u.toList.length = 1
    · obtain ⟨m, hm⟩ := List.length_eq_one_iff.1 hone
      obtain ⟨m', hm'⟩ := List.length_eq_one_iff.1 (hlen.symm.trans hone)
      refine hstay (build_single hm st₁) (build_single hm' st₂) ⟨?_, hleft.fresh.clear m (by
        simp [members, hm]), hright.fresh.clear m' (by simp [members, hm'])⟩
      have hpending (i : NodeId) (hi : i ∈ u.unresolved) : W i i := hp.pending hleft.fresh hi
      obtain ⟨y, hy, hpairs⟩ := huv.exists_pairs hpending (t := m) (by simp [hm])
      rw [hm', List.mem_singleton] at hy
      exact hy ▸ hpairs
    · obtain ⟨s₁, hrun₁, hgraph₁⟩ := finish_of_build (build_many hone st₁)
      obtain ⟨s₂, hrun₂, hgraph₂⟩ := finish_of_build (build_many (hlen ▸ hone) st₂)
      have hmany : 2 ≤ u.toList.length := by
        have hpos := List.length_pos_iff.2 (hleft.reached u rfl).2
        omega
      have hpush₁ := hp.left.push_union hleft.fresh hmany
      have hpush₂ := hp.right.push_union hright.fresh (hlen ▸ hmany)
      refine .returns hrun₁ hrun₂ ⟨W.insert st₁.graph.size st₂.graph.size, ?_⟩
      rw [hgraph₁, hgraph₂]
      refine ⟨⟨.insert _ _ _, .push _ _, .push _ _⟩, hp.push huv.shape hpush₁ hpush₂,
        .node (.inr ⟨rfl, rfl⟩), ?_, ?_⟩
      · exact hpush₁.clear _ u (Graph.shape_push_size _ _)
      · exact hpush₂.clear _ v (Graph.shape_push_size _ _)

structure Settled (g : Graph) (O : List (NodeId × NodeId)) (W : World) (h₁ : Graph) (x₁ : Ty)
    (h₂ : Graph) (x₂ : Ty) : Prop extends Graph.Meets g O W h₁ x₁ h₂ x₂ where
  opened : h₁.kind x₁ ≠ .instantiation

variable {unwrap : NodeId → TypeM Ty}

theorem settle_joint (hunwrap : Graph.UnwrapsAlike g unwrap) (n : Nat)
    (hp : Graph.Paired g O W st₁.graph st₂.graph)
    (hx : Graph.Meets g O W st₁.graph x₁ st₂.graph x₂) :
    Joint g (settle unwrap n x₁) st₁ (settle unwrap n x₂) st₂
      (Graph.Ends g O W st₁.graph st₂.graph (Settled g O)) := by
  induction n generalizing W st₁ st₂ x₁ x₂ with
  | zero => exact .throw_ends hp
  | succ n ih =>
    by_cases hopen : st₁.graph.kind x₁ = .instantiation
    · have hkind := (hp.twins.kind_eq hx.pairs).trans hopen
      have hnodes : ∃ i j, x₁ = .node i ∧ x₂ = .node j := by
        cases hx.pairs with
        | @node i j => exact ⟨i, j, rfl, rfl⟩
        | word hword => exact absurd hopen (Graph.kind_ne_instantiation_of_not_node hword)
      obtain ⟨i, j, rfl, rfl⟩ := hnodes
      refine .congr (run_settle_instantiation hopen) (run_settle_instantiation hkind) ?_
      exact (hunwrap O W st₁ st₂ i j hp hx).bind_ends fun W' y₁ s₁ y₂ s₂ _ hp' hy => ih hp' hy
    · have hopen₂ : st₂.graph.kind x₂ ≠ .instantiation := hp.twins.kind_eq hx.pairs ▸ hopen
      exact .returns (settle_returns unwrap n hopen) (settle_returns unwrap n hopen₂)
        ⟨W, .refl _ _ _, hp, hx, hopen⟩

theorem add_joint (hunwrap : Graph.UnwrapsAlike g unwrap) (n : Nat)
    (hp : Graph.Paired g O W st₁.graph st₂.graph)
    (hf : Meets O W st₁.graph f₁ st₂.graph f₂)
    (hx : Graph.Meets g O W st₁.graph x₁ st₂.graph x₂) :
    Joint g (add unwrap n f₁ x₁) st₁ (add unwrap n f₂ x₂) st₂
      (Graph.Ends g O W st₁.graph st₂.graph (Meets O)) := by
  rw [add, add, hf.twin.isTerminal_eq]
  split
  · exact .pure_ends hp hf
  · refine (settle_joint hunwrap n hp hx).bind_ends fun W' y₁ s₁ y₂ s₂ hgrown hp' hy => ?_
    obtain ⟨k₁, k₂, hk₁, hk₂, hk⟩ := (hf.mono hp hgrown).absorb hp' hy.toMeets hy.opened
    refine .bind_returns (.graph s₁) (.graph s₂) ?_
    exact .returns (.ofExcept hk₁ s₁) (.ofExcept hk₂ s₂) ⟨W', .refl _ _ _, hp', hk⟩

end Fold

end FlowTyping
