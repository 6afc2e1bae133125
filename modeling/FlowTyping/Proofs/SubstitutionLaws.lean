import FlowTyping.Proofs.EqualityLaws
import FlowTyping.Proofs.ImageLaws
import Mathlib.Data.List.Induction

namespace FlowTyping

namespace Bindings

variable {params : List NodeId} {args : List Ty} {i : NodeId}

theorem ofArgs_concat (params : List NodeId) (i : NodeId) (args : List Ty) :
    ofArgs (params ++ [i]) args =
      (i, args[params.length]?.getD .unknown) :: ofArgs params args := by
  simp [ofArgs, List.zipIdx_append]

theorem lookup_ofArgs_concat (params : List NodeId) (j : NodeId) (args : List Ty) :
    (ofArgs (params ++ [j]) args).lookup i =
      if i = j then some (args[params.length]?.getD .unknown) else (ofArgs params args).lookup i := by
  rw [ofArgs_concat]
  split
  · rename_i hij
    rw [hij, List.lookup_cons_self]
  · rename_i hij
    exact Substitution.lookup_cons_of_ne hij _ _

theorem lookup_ofArgs {p : Nat} (hp : params[p]? = some i)
    (hlast : ∀ q, p < q → params[q]? ≠ some i) :
    (ofArgs params args).lookup i = some (args[p]?.getD .unknown) := by
  induction params using List.reverseRecOn with
  | nil => simp at hp
  | append_singleton params x ih =>
    rw [lookup_ofArgs_concat]
    have hle : p ≤ params.length := by
      simpa [Nat.lt_succ_iff] using (List.getElem?_eq_some_iff.1 hp).1
    rcases Nat.lt_or_eq_of_le hle with hlt | rfl
    · have hix : i ≠ x := fun hix => hlast params.length hlt (by simp [hix])
      rw [List.getElem?_append_left hlt] at hp
      rw [if_neg hix, ih hp fun q hq hqi => hlast q hq ?_]
      rw [List.getElem?_append_left (List.getElem?_eq_some_iff.1 hqi).1, hqi]
    · have hix : i = x := by simpa using hp.symm
      rw [if_pos hix]

theorem lookup_ofArgs_eq_none : (ofArgs params args).lookup i = none ↔ i ∉ params := by
  induction params using List.reverseRecOn with
  | nil => simp [ofArgs]
  | append_singleton params x ih =>
    rw [lookup_ofArgs_concat]
    by_cases hix : i = x <;> simp [hix, ih]

theorem binds_ofArgs : (ofArgs params args).binds = params.contains := by
  funext i
  rw [Bool.eq_iff_iff, binds, List.contains_iff_mem, Option.isSome_iff_ne_none, ne_eq,
    lookup_ofArgs_eq_none, not_not]

theorem mem_args_of_lookup {t : Ty} (ht : (ofArgs params args).lookup i = some t) :
    t ∈ args ∨ t = .unknown := by
  induction params using List.reverseRecOn with
  | nil => cases ht
  | append_singleton params x ih =>
    rw [lookup_ofArgs_concat] at ht
    split at ht
    · cases ha : args[params.length]? with
      | none =>
        rw [ha] at ht
        exact .inr (Option.some.inj ht).symm
      | some a =>
        rw [ha] at ht
        exact .inl (Option.some.inj ht ▸ List.mem_of_getElem? ha)
    · exact ih ht

theorem mem_params_of_lookup {t : Ty} (ht : (ofArgs params args).lookup i = some t) :
    i ∈ params := by
  by_contra hi
  rw [lookup_ofArgs_eq_none.2 hi] at ht
  cases ht

end Bindings

namespace Shape

def mapTypes (image : Ty → Ty) : Shape → Shape
  | .record slots => .record (slots.map fun s => { s with type := image s.type })
  | .callable role params returns =>
    .callable role (params.map fun p => { p with type := image p.type }) (image returns)
  | .interface name slots => .interface name (slots.map fun s => { s with type := image s.type })
  | .intersection members => .intersection (members.map image)
  | .nameSpace name slots => .nameSpace name (slots.map fun s => { s with type := image s.type })
  | .instantiation origin args => .instantiation origin (args.map image)
  | s => s

def body? : Shape → Option Ty
  | .generic _ _ body => some body
  | _ => none

def unionMembers : Shape → List Ty
  | .union u => u.toList
  | _ => []

theorem refill_map_children (s : Shape) (image : Ty → Ty) :
    s.refill (s.children.map image) = s.mapTypes image := by
  have hslots (slots : List Slot) : refillSlots slots ((slots.map (·.type)).map image) =
      slots.map fun s => { s with type := image s.type } := by
    simp [refillSlots, List.zipWith_map_right]
  have hparams (params : List Param) (ts : List Ty) :
      refillParams params (params.map (image ∘ (·.type)) ++ ts) =
        params.map fun p => { p with type := image p.type } := by
    induction params with
    | nil => rfl
    | cons p params ih => simpa [refillParams] using ih
  cases s with
  | callable role params returns => simp [refill, children, mapTypes, hparams]
  | record | interface | nameSpace => simp only [refill, children, mapTypes, hslots]
  | _ => rfl

end Shape

namespace Graph

/-- No reference leads nowhere and all unions are flat, as the operations on types leave a graph. -/
structure WellFormed (g : Graph) : Prop where
  closed : g.Closed
  bodies : ∀ i name params body, g.shape i = .generic name params body → g.Has body
  flat : g.Flat

instance (g : Graph) : DecidablePred g.Has
  | .node i => inferInstanceAs (Decidable (i < g.size))
  | .simple _ | .string _ | .number _ | .bigint _ | .symbol _ | .boolean _ => .isTrue trivial

def Admits (g : Graph) (s : Shape) : Prop :=
  (∀ t ∈ s.children, g.Has t) ∧ (∀ t ∈ s.body?, g.Has t) ∧
    ∀ t ∈ s.unionMembers, g.kind t ≠ .union ∧ g.kind t ≠ .instantiation

instance (g : Graph) : DecidablePred g.Admits := fun s =>
  inferInstanceAs (Decidable ((∀ t ∈ s.children, g.Has t) ∧ (∀ t ∈ s.body?, g.Has t) ∧
    ∀ t ∈ s.unionMembers, g.kind t ≠ .union ∧ g.kind t ≠ .instantiation))

theorem wellFormed_of_admits {g : Graph} (hg : ∀ i < g.size, g.Admits (g.shape i)) :
    g.WellFormed := by
  have hadmits {i : NodeId} {s : Shape} (hi : g.shape i = s) (hs : s ≠ .unresolved []) :
      g.Admits s := hi ▸ hg i (lt_size_of_shape hi hs)
  refine ⟨fun a b hab => ?_, fun i name params body hi => ?_, fun i u hi => ?_⟩
  · obtain ⟨i, rfl, hb⟩ := hab.exists_node
    refine (hadmits rfl fun hi => ?_).1 b hb
    rw [hi] at hb
    cases hb
  · exact (hadmits hi (by simp)).2.1 body rfl
  · exact (hadmits hi (by simp)).2.2

theorem UnionsAcyclic.not_transGen {g : Graph} {i : NodeId} (hg : g.UnionsAcyclic)
    (hi : g.kind (.node i) = .union) : ¬ Relation.TransGen g.Child (.node i) (.node i) := by
  obtain ⟨u, hu⟩ := Shape.exists_union_of_kind hi
  intro hii
  obtain ⟨t, ht, hti⟩ := Relation.TransGen.head'_iff.1 hii
  rw [child_node, hu] at ht
  exact hg i u hu t ht hti

end Graph

namespace Substitution

variable {params : List NodeId} {args : List Ty} {body : Ty} {image : Ty → Ty} {g : Graph}
  {i origin : NodeId} {name : Text} {st : Store}

/-- The images of the types inside the body of a generic, in the store `st` that putting the
arguments into the graph `g` has left. -/
structure IsSubstitution (add : Fold → Ty → TypeM Fold) (g : Graph) (params : List NodeId)
    (args : List Ty) (body : Ty) (image : Ty → Ty) (st : Store) : Prop where
  word : ∀ t, t.node? = none → image t = t
  /-- A parameter becomes the argument at its last position. -/
  bound : ∀ (i : NodeId) (p : Nat), g.kind (.node i) = .unresolved → params[p]? = some i →
    (∀ q, p < q → params[q]? ≠ some i) → image (.node i) = args[p]?.getD .unknown
  unbound : ∀ i, g.kind (.node i) = .unresolved → i ∉ params → image (.node i) = .node i
  kept : ∀ i, ¬ g.Mentions params.contains (.node i) → image (.node i) = .node i
  fold : ∀ i u, g.Reaches body (.node i) → g.Mentions params.contains (.node i) →
    g.shape i = .union u → ∃ f : Fold,
      ((u.toList.map image).foldlM add .never).Returns st f st ∧ f.EndsIn st.graph (image (.node i))
  copy : ∀ i, g.Reaches body (.node i) → g.Mentions params.contains (.node i) →
    g.kind (.node i) ≠ .unresolved → g.kind (.node i) ≠ .union → ∃ k, g.size ≤ k ∧
      image (.node i) = .node k ∧ st.graph.shape k = (g.shape i).mapTypes image
  unchanged : g.Extends st.graph
  /-- Every new node was made for one node of the body. -/
  once : ∀ k, g.size ≤ k → k < st.graph.size → ∃! i, g.Reaches body (.node i) ∧
    image (.node i) = .node k ∧ st.graph.kind (.node k) = g.kind (.node i)

theorem Progress.start {b : Bindings} (hs : Setting g b body) : Progress g b body [] [] g where
  ext := .refl g
  closed := hs.closed
  entry i t hi := by cases hi
  copy i t hi := by cases hi
  inj i j k hi := by cases hi.1
  under i hi := by cases hi
  made k hgk hk := absurd hk (Nat.not_lt.2 hgk)
  done i hi := by cases hi
  settled i hi := by cases hi

theorem affected_ofArgs :
    Affected g (.ofArgs params args) i ↔
      g.kind (.node i) ≠ .unresolved ∧ g.Mentions params.contains (.node i) := by
  rw [Affected, Bindings.binds_ofArgs]

theorem Progress.isSubstitution {μ : Images} (hs : Setting g (.ofArgs params args) body)
    (hp : Progress g (.ofArgs params args) body [] μ st.graph)
    (hbody : Known g (.ofArgs params args) μ body) (unwrap : NodeId → TypeM Ty) (n : Nat) :
    IsSubstitution (Fold.add unwrap (n + 1)) g params args body (img g (.ofArgs params args) μ)
      st := by
  have hset := hp.settled_of_known hbody (by simp)
  have hentry (i : NodeId) (hi : g.Reaches body (.node i)) (hkind : g.kind (.node i) ≠ .unresolved)
      (hm : g.Mentions params.contains (.node i)) :
      (μ.lookup i).isSome ∧ Done g (.ofArgs params args) μ st.graph i := by
    obtain ⟨hnot, hsome⟩ := hset i hi (affected_ofArgs.2 ⟨hkind, hm⟩)
    exact ⟨hsome, hp.done i hsome hnot⟩
  refine ⟨fun t => img_of_not_node, ?_, ?_, ?_, ?_, ?_, hp.ext, ?_⟩
  · intro i p hi hparam hlast
    rw [img_of_unresolved hi, Bindings.lookup_ofArgs hparam hlast, Option.getD_some]
  · intro i hi hnot
    rw [img_of_unresolved hi, Bindings.lookup_ofArgs_eq_none.2 hnot, Option.getD_none]
  · intro i hm
    by_cases hi : g.kind (.node i) = .unresolved
    · have hnot : i ∉ params := by
        obtain ⟨name, hshape⟩ := Shape.exists_unresolved_of_kind hi
        exact fun hmem => hm ⟨i, name, .refl, hshape, List.contains_iff_mem.2 hmem⟩
      rw [img_of_unresolved hi, Bindings.lookup_ofArgs_eq_none.2 hnot, Option.getD_none]
    · have hnone := hp.lookup_of_not_affected fun haff => hm (affected_ofArgs.1 haff).2
      rw [img_of_ne_unresolved hi, hnone, Option.getD_none]
  · intro i u hi hm hu
    have hkind : g.kind (.node i) ≠ .unresolved := by simp [Graph.kind, hu, Shape.kind]
    obtain ⟨f, hf, hends⟩ := (hentry i hi hkind hm).2.fold u hu
    refine ⟨f, TypeM.Returns.foldlM (fun acc x hx acc' hacc => ?_) hf, hends⟩
    obtain ⟨t, ht, rfl⟩ := List.mem_map.1 hx
    exact Fold.add_returns unwrap n (hp.absorbable_member hs hu ht).1 hacc
  · intro i hi hm hkind hunion
    obtain ⟨hsome, hdone⟩ := hentry i hi hkind hm
    obtain ⟨t, ht⟩ := Option.isSome_iff_exists.1 hsome
    obtain ⟨k, hgk, rfl, _⟩ := hp.copy i t ht hunion
    refine ⟨k, hgk, img_of_lookup hp ht, ?_⟩
    rw [hdone.copy hunion k ht, Shape.refill_map_children]
  · intro k hgk hk
    obtain ⟨i, hmade⟩ := hp.made k hgk hk
    refine ⟨i, ⟨(hp.entry i _ hmade.1).2.1, img_of_lookup hp hmade.1, hmade.2⟩, ?_⟩
    rintro j ⟨hj, himg, hkind⟩
    rcases img_cases μ hs (hj.has hs.closed hs.has_root) with ⟨hhas, _⟩ | ⟨_, ⟨⟩, hl⟩
    · rw [himg] at hhas
      exact absurd hhas (Nat.not_lt.2 hgk)
    · exact hp.inj j i k ⟨himg ▸ hl, hkind⟩ hmade

/-- Opening an instantiation puts its arguments into the body of its generic, all at once. The body
may be cyclic as long as no cycle goes through a union, and no argument is itself an
instantiation. -/
theorem instantiate_isSubstitution (unwrap : NodeId → TypeM Ty) (n : Nat)
    (hg : st.graph.WellFormed) (hi : st.graph.shape i = .instantiation (some origin) args)
    (horigin : st.graph.shape origin = .generic name params body)
    (hargs : ∀ t ∈ args, st.graph.kind t ≠ .instantiation)
    (hunions : ∀ j, st.graph.Reaches body (.node j) → st.graph.kind (.node j) = .union →
      ¬ Relation.TransGen st.graph.Child (.node j) (.node j)) :
    ∃ image st', (instantiate (Fold.add unwrap (n + 1)) i).Returns st (image body) st' ∧
      IsSubstitution (Fold.add unwrap (n + 1)) st.graph params args body image st' := by
  have hs : Setting st.graph (.ofArgs params args) body := by
    refine ⟨hg.closed, hg.flat, hg.bodies origin name params body horigin, fun p t ht => ?_, hunions⟩
    rcases Bindings.mem_args_of_lookup ht with hmem | rfl
    · refine ⟨hg.closed (.node i) t ?_, hargs t hmem⟩
      rw [Graph.child_node, hi]
      exact hmem
    · exact ⟨trivial, by simp [Graph.kind]⟩
  have hfuel : st.graph.size < depth st.graph + ([] : List NodeId).length := by
    rw [depth, List.length_nil]
    omega
  obtain ⟨μ, st', hrun, hp, _, hknown⟩ :=
    image_finds hs unwrap n _ .refl ⟨.nil, by simp⟩ hfuel [] st (.start hs)
  refine ⟨_, st', ?_, hp.isSubstitution hs hknown unwrap n⟩
  refine (TypeM.Returns.graph st).bind ?_
  simp only [hi, horigin]
  exact hrun.run'

/-- The generic `Box<T> = { value: T, self: Box<T>, either: "none" | T }`, where `self` leads back to
the record, and the instantiation `Box<number>`. -/
def boxes : Graph :=
  ⟨#[.unresolved (text "T"),
    .record [⟨.named (text "value"), .node 0, false⟩, ⟨.named (text "self"), .node 1, false⟩,
      ⟨.named (text "either"), .node 2, true⟩],
    .union { strings := .listed (.singleton (text "none")), unresolved := [0] },
    .generic (text "Box") [0] (.node 1),
    .instantiation (some 3) [.simple .number]]⟩

theorem boxes_isSubstitution :
    boxes.WellFormed ∧ boxes.UnionsAcyclic ∧ ∃ image st' k,
      (instantiate (m := TypeM) (Fold.add (fun _ => return .error) 1) 4).Returns { graph := boxes }
        (.node k) st' ∧
      IsSubstitution (Fold.add (fun _ => return .error) 1) boxes [0] [.simple .number] (.node 1)
        image st' ∧
      st'.graph.shape k = .record [⟨.named (text "value"), .simple .number, false⟩,
        ⟨.named (text "self"), .node k, false⟩, ⟨.named (text "either"), image (.node 2), true⟩] := by
  have hwell : boxes.WellFormed := Graph.wellFormed_of_admits (by decide)
  have hacyclic : boxes.UnionsAcyclic :=
    .of_rank (fun t => t.node?.elim 0 fun i => if i = 0 then 0 else 3 - i) (by decide)
  have hopened : ∃ image st',
      (instantiate (m := TypeM) (Fold.add (fun _ => return .error) 1) 4).Returns { graph := boxes }
        (image (.node 1)) st' ∧
      IsSubstitution (Fold.add (fun _ => return .error) 1) boxes [0] [.simple .number] (.node 1)
        image st' :=
    instantiate_isSubstitution (fun _ => return .error) 0 hwell rfl rfl (by decide)
      fun j _ => hacyclic.not_transGen
  obtain ⟨image, st', hrun, himage⟩ := hopened
  have hmentions : boxes.Mentions [0].contains (.node 1) :=
    ⟨0, text "T", .single (Graph.child_node.2 (by decide)), rfl, rfl⟩
  obtain ⟨k, _, hk, hshape⟩ := himage.copy 1 .refl hmentions (by decide) (by decide)
  have hlast (q : Nat) (hq : 0 < q) : [0][q]? ≠ some 0 := by
    rw [List.getElem?_eq_none hq]
    simp
  have hvalue : image (.node 0) = .simple .number := himage.bound 0 0 rfl rfl hlast
  refine ⟨hwell, hacyclic, image, st', k, hk ▸ hrun, himage, ?_⟩
  rw [hshape, ← hvalue, ← hk]
  rfl

end Substitution

end FlowTyping
