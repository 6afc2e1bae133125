import FlowTyping.Proofs.SubstitutionEnds
import FlowTyping.Resolvers

/-!
Graphs that grow while instantiations are opened. What opening an instantiation may open in turn is
an argument of lower rank, and copies are made so that this stays true of them, also before they are
filled.
-/

namespace FlowTyping

theorem Shape.exists_generic_of_kind {s : Shape} (hs : s.kind = .generic) :
    ∃ name params body, s = .generic name params body := by
  cases s with
  | generic name params body => exact ⟨name, params, body, rfl⟩
  | callable role => cases role <;> cases hs
  | _ => cases hs

theorem Shape.refill_eq_instantiation {s : Shape} {ts args : List Ty} {o : Option NodeId}
    (hs : s.refill ts = .instantiation o args) :
    args = ts ∧ ∃ args', s = .instantiation o args' := by
  cases s with
  | instantiation o' args' =>
    cases hs
    exact ⟨rfl, args', rfl⟩
  | _ => cases hs

namespace Graph

/-- Opening an instantiation of the generic `o` may open its arguments: the body is a parameter or
an instantiation itself, or a parameter is a member of a union inside the body. -/
def Demands (g : Graph) (o : NodeId) : Prop :=
  ∃ name params body, g.shape o = .generic name params body ∧
    ((∃ p ∈ params, body = .node p) ∨ g.kind body = .instantiation ∨
      ∃ j u, g.Reaches body (.node j) ∧ g.shape j = .union u ∧ ∃ p ∈ params, .node p ∈ u.toList)

/-- The instantiation `j` is an argument of the instantiation `i` of one of the generics. -/
def Argument (h : Graph) (demands : NodeId → Prop) (i j : NodeId) : Prop :=
  ∃ o args, h.shape i = .instantiation (some o) args ∧ demands o ∧ .node j ∈ args ∧
    h.kind (.node j) = .instantiation

/-- The body of the generic `o` is an instantiation, and opening it may open one of `o'`. -/
def Expands (g : Graph) (o o' : NodeId) : Prop :=
  ∃ name params i j args, g.shape o = .generic name params (.node i) ∧
    Relation.ReflTransGen (g.Argument g.Demands) i j ∧
    g.shape j = .instantiation (some o') args ∧ g.kind (.node o') = .generic

end Graph

/-- A graph that has grown out of `g` while instantiations were opened. Its nodes have ranks, which
fall from an instantiation to the arguments that may be opened with it. -/
structure Growth (g : Graph) where
  graph : Graph
  rank : NodeId → Nat
  ext : g.Extends graph
  well : graph.WellFormed
  generics : ∀ o, graph.kind (.node o) = .generic → o < g.size
  low : ∀ i < g.size, rank i ≤ g.size
  falls : ∀ i j, graph.Argument g.Demands i j → rank j < rank i

namespace Growth

variable {g : Graph} {w w₁ w₂ : Growth g} {t a : Ty} {i j k : NodeId} {m n : Nat} {s : Shape}

structure Adds (n : Nat) (w w₁ : Growth g) : Prop where
  ext : w.graph.Extends w₁.graph
  rank_eq : ∀ i < w.graph.size, w₁.rank i = w.rank i
  new : ∀ k, w.graph.size ≤ k → k < w₁.graph.size → w₁.rank k < n

namespace Adds

theorem refl (n : Nat) (w : Growth g) : Adds n w w :=
  ⟨.refl _, fun _ _ => rfl, fun _ hk hk' => absurd hk' (Nat.not_lt.2 hk)⟩

theorem mono (h : Adds m w w₁) (hmn : m ≤ n) : Adds n w w₁ :=
  ⟨h.ext, h.rank_eq, fun k hk hk' => (h.new k hk hk').trans_le hmn⟩

theorem trans (h₁ : Adds n w w₁) (h₂ : Adds n w₁ w₂) : Adds n w w₂ where
  ext := h₁.ext.trans h₂.ext
  rank_eq i hi := (h₂.rank_eq i (hi.trans_le h₁.ext.size_le)).trans (h₁.rank_eq i hi)
  new k hk hk' := by
    rcases Nat.lt_or_ge k w₁.graph.size with hlt | hge
    · rw [h₂.rank_eq k hlt]
      exact h₁.new k hk hlt
    · exact h₂.new k hge hk'

end Adds

def Below (n : Nat) (w : Growth g) (t : Ty) : Prop :=
  ∀ i, t = .node i → w.graph.kind t = .instantiation → w.rank i < n

theorem Below.later (ht : w.Below n t) (hhas : w.graph.Has t) (h : Adds m w w₁) :
    w₁.Below n t := by
  rintro i rfl hi
  rw [h.ext.kind_eq hhas] at hi
  rw [h.rank_eq i hhas]
  exact ht i rfl hi

def push (w : Growth g) (s : Shape) (n : Nat) (hwell : (w.graph.push s).WellFormed)
    (hgeneric : s.kind ≠ .generic) (hargs : ∀ o args, s = .instantiation o args → args = []) :
    Growth g where
  graph := w.graph.push s
  rank := Function.update w.rank w.graph.size n
  ext := w.ext.trans (.push _ _)
  well := hwell
  generics o ho := by
    have hlt : o < (w.graph.push s).size := Graph.lt_size_of_kind ho (by simp)
    rw [Graph.size_push] at hlt
    rcases Nat.lt_succ_iff_lt_or_eq.1 hlt with hlt | rfl
    · rw [Graph.kind, Graph.shape_push_of_lt s hlt] at ho
      exact w.generics o ho
    · rw [Graph.kind, Graph.shape_push_size] at ho
      exact absurd ho hgeneric
  low i hi := by
    rw [Function.update_of_ne (Nat.ne_of_lt (hi.trans_le w.ext.size_le))]
    exact w.low i hi
  falls i j := by
    rintro ⟨o, args, hi, ho, hj, hkind⟩
    have hlt : i < (w.graph.push s).size := Graph.lt_size_of_shape hi (by simp)
    rw [Graph.size_push] at hlt
    rcases Nat.lt_succ_iff_lt_or_eq.1 hlt with hlt | rfl
    · rw [Graph.shape_push_of_lt s hlt] at hi
      have hjlt : j < w.graph.size := w.well.closed.has_arg hi hj
      rw [Graph.kind, Graph.shape_push_of_lt s hjlt] at hkind
      rw [Function.update_of_ne (Nat.ne_of_lt hjlt), Function.update_of_ne (Nat.ne_of_lt hlt)]
      exact w.falls i j ⟨o, args, hi, ho, hj, hkind⟩
    · rw [Graph.shape_push_size] at hi
      rw [hargs _ _ hi] at hj
      cases hj

theorem adds_push {hwell : (w.graph.push s).WellFormed} {hgeneric : s.kind ≠ .generic}
    {hargs : ∀ o args, s = .instantiation o args → args = []} (hmn : m < n) :
    Adds n w (w.push s m hwell hgeneric hargs) where
  ext := .push _ _
  rank_eq i hi := Function.update_of_ne (Nat.ne_of_lt hi) _ _
  new k hk hk' := by
    obtain rfl : k = w.graph.size := by
      have hk' : k < (w.graph.push s).size := hk'
      rw [Graph.size_push] at hk'
      exact Nat.le_antisymm (Nat.le_of_lt_succ hk') hk
    simpa [push] using hmn

def replace (w : Growth g) (k : NodeId) (s : Shape) (hgk : g.size ≤ k) (hk : k < w.graph.size)
    (hkind : s.kind = w.graph.kind (.node k)) (hwell : (w.graph.replace k s).WellFormed)
    (hfalls : ∀ o args j, s = .instantiation (some o) args → g.Demands o → .node j ∈ args →
      w.graph.kind (.node j) = .instantiation → w.rank j < w.rank k) : Growth g where
  graph := w.graph.replace k s
  rank := w.rank
  ext := w.ext.replace hgk s
  well := hwell
  generics o ho := by
    rw [Graph.kind_replace hk hkind] at ho
    exact w.generics o ho
  low := w.low
  falls i j := by
    rintro ⟨o, args, hi, ho, hj, hopen⟩
    rw [Graph.kind_replace hk hkind] at hopen
    by_cases hik : i = k
    · subst hik
      rw [Graph.shape_replace_self s hk] at hi
      exact hfalls o args j hi ho hj hopen
    · rw [Graph.shape_replace_of_ne s hik] at hi
      exact w.falls i j ⟨o, args, hi, ho, hj, hopen⟩

/-- In every later graph, following the type through instantiations ends at a type that is none,
within `n` steps and with `n` levels inside each other. -/
def Settles (n : Nat) (w : Growth g) (t : Ty) : Prop :=
  ∀ (r : Resolvers) (depth fuel m : Nat) (w₁ : Growth g) (st : Store), r.instance? = none →
    n ≤ r.limit → n ≤ depth → n ≤ fuel → Adds m w w₁ → st.graph = w₁.graph →
    ∃ t' w₂ st', (Fold.settle (r.unwrapWithin depth) fuel t).Returns st t' st' ∧
      st'.graph = w₂.graph ∧ Adds n w₁ w₂ ∧ w₂.graph.Has t' ∧ w₂.graph.kind t' ≠ .instantiation

theorem Settles.mono (ht : w.Settles m t) (hmn : m ≤ n) : w.Settles n t := by
  intro r depth fuel l w₁ st hr hlimit hdepth hfuel hw hst
  obtain ⟨t', w₂, st', hrun, hst', hadds, ht'⟩ := ht r depth fuel l w₁ st hr (hmn.trans hlimit)
    (hmn.trans hdepth) (hmn.trans hfuel) hw hst
  exact ⟨t', w₂, st', hrun, hst', hadds.mono hmn, ht'⟩

theorem Settles.later (ht : w.Settles n t) (h : Adds m w w₁) : w₁.Settles n t := by
  intro r depth fuel l w₂ st hr hlimit hdepth hfuel hw
  exact ht r depth fuel (max m l) w₂ st hr hlimit hdepth hfuel
    ((h.mono (Nat.le_max_left m l)).trans (hw.mono (Nat.le_max_right m l)))

theorem settles_of_kind_ne (hhas : w.graph.Has t) (ht : w.graph.kind t ≠ .instantiation)
    (hn : 0 < n) : w.Settles n t := by
  intro r depth fuel m w₁ st hr hlimit hdepth hfuel hw hst
  have ht₁ : w₁.graph.kind t ≠ .instantiation := hw.ext.kind_eq hhas ▸ ht
  exact ⟨t, w₁, st, Fold.settle_of_pos (hn.trans_le hfuel) (hst ▸ ht₁), hst, .refl _ _,
    hw.ext.has hhas, ht₁⟩

theorem Settles.add {r : Resolvers} {depth : Nat} {f : Fold} {st : Store} (ht : w.Settles n t)
    (hr : r.instance? = none) (hlimit : n ≤ r.limit) (hdepth : n ≤ depth)
    (hst : st.graph = w.graph) (hf : f.Proper st.graph) :
    ∃ f' w₁ st', (Fold.add (r.unwrapWithin depth) r.limit f t).Returns st f' st' ∧
      st'.graph = w₁.graph ∧ Adds n w w₁ ∧ f'.Proper st'.graph := by
  rw [Fold.add]
  split
  · exact ⟨f, w, st, .pure f st, hst, .refl _ _, hf⟩
  · obtain ⟨t', w₁, st', hrun, hst', hadds, hhas, hopen⟩ :=
      ht r depth r.limit 0 w st hr hlimit hdepth hlimit (.refl _ _) hst
    have hext : st.graph.Extends st'.graph := by
      rw [hst, hst']
      exact hadds.ext
    rw [← hst'] at hhas hopen
    obtain ⟨f', habsorb, hf'⟩ := (hf.mono hext.kindsStay).absorb (hst' ▸ w₁.well) hhas hopen
    exact ⟨f', w₁, st', hrun.bind ((TypeM.Returns.graph st').bind (.ofExcept habsorb st')), hst',
      hadds, hf'⟩

theorem generic_eq {o : NodeId} {name : Text} {params : List NodeId} {body : Ty}
    (hg : g.WellFormed) (w : Growth g) (ho : w.graph.shape o = .generic name params body) :
    g.shape o = .generic name params body ∧ g.Has body := by
  have hlt : o < g.size := w.generics o (congrArg Shape.kind ho)
  rw [w.ext.shape_eq o hlt] at ho
  exact ⟨ho, hg.bodies o name params body ho⟩

def Lifts (m : Nat) (w : Growth g) (ν : Images) (h : Graph) : Prop :=
  ∃ w₁ : Growth g, w₁.graph = h ∧ w.Adds (g.size + m + 1) w₁ ∧
    ∀ i k, ν.lookup i = some (.node k) → w₁.rank k = w.rank i + m

section

open Substitution

variable {h : Graph} {b : Bindings} {root c y : Ty} {S : List NodeId} {μ : Images} {o : NodeId}

theorem Lifts.copy (hu : Underway w.graph b root S μ h) (hl : w.Lifts m (copies w.graph μ) h)
    (haff : Affected w.graph b j) (hroot : w.graph.Reaches root (.node j))
    (hunion : w.graph.kind (.node j) ≠ .union) (hj : μ.lookup j = none) (hlt : j < g.size) :
    w.Lifts m ((j, .node h.size) :: copies w.graph μ)
      (h.push ((w.graph.shape j).refill [])) := by
  obtain ⟨w₁, rfl, hadds, hrank⟩ := hl
  have hlow := w.low j hlt
  have hgeneric : ((w.graph.shape j).refill []).kind ≠ .generic := by
    rw [Shape.kind_refill]
    exact haff.kind_ne_generic
  refine ⟨w₁.push _ (w.rank j + m) (hu.enter haff hroot hunion hj).well hgeneric
    fun o args hs => (Shape.refill_eq_instantiation hs).1, rfl, hadds.trans (adds_push (by omega)),
    fun i k hl => ?_⟩
  rcases lookup_cons_cases hl with ⟨rfl, hk⟩ | ⟨-, hl⟩
  · cases hk
    exact Function.update_self ..
  · obtain ⟨_, ⟨⟩, -, hk, -⟩ := hu.copy i _ hl
    rw [← hrank i k hl]
    exact Function.update_of_ne (Nat.ne_of_lt hk) _ _

theorem rank_lt_of_delivers {args : List Ty} (hu : Underway w.graph b root S μ w₁.graph)
    (hadds : Adds n w w₁)
    (hrank : ∀ i k, (copies w.graph μ).lookup i = some (.node k) → w₁.rank k = w.rank i + m)
    (hbound : ∀ p a, b.lookup p = some a → w.graph.Has a ∧ w.Below m a)
    (hj : w.graph.shape j = .instantiation (some o) args) (ho : g.Demands o) (hc : c ∈ args)
    (hi : Delivers w.graph b (copies w.graph μ) w₁.graph c (.node i))
    (hopen : w₁.graph.kind (.node i) = .instantiation) : w₁.rank i < w.rank j + m := by
  have hhas : w.graph.Has c := w.well.closed.has_arg hj hc
  rcases hu.instantiation_cases hhas hi hopen with ⟨p, -, hp⟩ | ⟨hkind, rfl | ⟨q, rfl, hq⟩⟩
  · obtain ⟨hlt, hbelow⟩ := hbound p _ hp
    have hrank := hbelow.later hlt hadds i rfl hopen
    omega
  · rw [hadds.rank_eq i hhas]
    have hfalls := w.falls j i ⟨o, args, hj, ho, hc, hkind⟩
    omega
  · rw [hrank q i hq]
    have hfalls := w.falls j q ⟨o, args, hj, ho, hc, hkind⟩
    omega

theorem Lifts.fill {shown types : List Ty} (hu : Underway w.graph b root S μ h)
    (hl : w.Lifts m (copies w.graph μ) h)
    (hbound : ∀ p a, b.lookup p = some a → w.graph.Has a ∧ w.Below m a) (hj : j ∈ S)
    (hk : (copies w.graph μ).lookup j = some (.node k))
    (hshown : shown <+: (w.graph.shape j).children)
    (htypes : List.Forall₂ (Delivers w.graph b (copies w.graph μ) h) shown types) :
    w.Lifts m (copies w.graph μ) (h.replace k ((w.graph.shape j).refill types)) := by
  obtain ⟨w₁, rfl, hadds, hrank⟩ := hl
  obtain ⟨_, ⟨⟩, hwk, hlt, hkind⟩ := hu.copy j _ hk
  have hkind' : ((w.graph.shape j).refill types).kind = w₁.graph.kind (.node k) := by
    rw [Shape.kind_refill, hkind, Graph.kind]
  have hfalls (o : NodeId) (args : List Ty) (l : NodeId)
      (hs : (w.graph.shape j).refill types = .instantiation (some o) args) (ho : g.Demands o)
      (hl : .node l ∈ args) (hopen : w₁.graph.kind (.node l) = .instantiation) :
      w₁.rank l < w₁.rank k := by
    obtain ⟨rfl, args', hargs⟩ := Shape.refill_eq_instantiation hs
    obtain ⟨n, hn, hnl⟩ := List.getElem_of_mem hl
    have hn' : n < shown.length := htypes.length_eq ▸ hn
    have hc : shown[n] ∈ args' := by
      have hc := hshown.subset (List.getElem_mem hn')
      rwa [hargs] at hc
    have hdelivers := htypes.get hn' hn
    simp only [List.get_eq_getElem, hnl] at hdelivers
    rw [hrank j k hk]
    exact rank_lt_of_delivers hu hadds hrank hbound hargs ho hc hdelivers hopen
  refine ⟨w₁.replace k _ (w.ext.size_le.trans hwk) hlt hkind' (hu.fill hj hk htypes).well hfalls,
    rfl, ⟨hadds.ext.replace hwk _, hadds.rank_eq, fun l hl hl' => ?_⟩, hrank⟩
  exact hadds.new l hl (by simpa [replace] using hl')

theorem Lifts.union {f : Fold} (hu : Underway w.graph b root S μ h)
    (hl : w.Lifts m (copies w.graph μ) h) (hf : f.Proper h) :
    w.Lifts m (copies w.graph μ) (h.push (.union f.members)) := by
  obtain ⟨w₁, rfl, hadds, hrank⟩ := hl
  refine ⟨w₁.push _ 0 (hf.wellFormed_push hu.well) (by simp [Shape.kind]) (by simp), rfl,
    hadds.trans (adds_push (by omega)), fun i k hl => ?_⟩
  obtain ⟨_, ⟨⟩, -, hk, -⟩ := hu.copy i _ hl
  rw [← hrank i k hl]
  exact Function.update_of_ne (Nat.ne_of_lt hk) _ _

theorem Lifts.add {f : Fold} {st : Store} {r : Resolvers} {depth : Nat}
    (hu : Underway w.graph b root S μ st.graph) (hl : w.Lifts m (copies w.graph μ) st.graph)
    (hf : f.Proper st.graph) (hy : ∀ w₁ n, w.Adds n w₁ → w₁.graph = st.graph → w₁.Settles m y)
    (hr : r.instance? = none) (hlimit : m ≤ r.limit) (hdepth : m ≤ depth) :
    ∃ f' st', (Fold.add (r.unwrapWithin depth) r.limit f y).Returns st f' st' ∧
      st.graph.Extends st'.graph ∧ st'.graph.WellFormed ∧ w.Lifts m (copies w.graph μ) st'.graph ∧
      f'.Proper st'.graph := by
  obtain ⟨w₁, hst, hadds, hrank⟩ := hl
  obtain ⟨f', w₂, st', hadd, hst', hadds', hf'⟩ :=
    (hy w₁ _ hadds hst).add hr hlimit hdepth hst.symm hf
  refine ⟨f', st', hadd, ?_, hst' ▸ w₂.well, ⟨w₂, hst'.symm, ?_, fun i k hl => ?_⟩, hf'⟩
  · rw [← hst, hst']
    exact hadds'.ext
  · exact hadds.trans (hadds'.mono (by omega))
  · obtain ⟨_, ⟨⟩, -, hk, -⟩ := hu.copy i _ hl
    rw [← hrank i k hl]
    exact hadds'.rank_eq k (hst ▸ hk)

end

end Growth

end FlowTyping
