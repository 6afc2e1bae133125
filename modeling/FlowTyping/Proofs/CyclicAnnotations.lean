import FlowTyping.Proofs.SpellingRoundTrip
import FlowTyping.Proofs.SubstitutionLaws

namespace FlowTyping

variable {g : Graph} {t : Ty} {i : NodeId} {s : Shape}

/-- The types that the annotation of a shape shows. A named shape shows only its name. -/
def Shape.shown : Shape → List Ty
  | .interface _ _ | .nameSpace _ _ => []
  | s => s.children

theorem Shape.shown_subset_children (s : Shape) : s.shown ⊆ s.children := by
  cases s with
  | interface | nameSpace => exact List.nil_subset _
  | _ => exact List.Subset.refl _

def WriteM.Keeps {α : Type} (m : WriteM α) (opened : List NodeId) (a : α) : Prop :=
  m.run opened = (a, opened)

namespace WriteM.Keeps

variable {α β : Type} {m : WriteM α} {k : α → WriteM β} {a : α} {b : β} {opened : List NodeId}

theorem pure (a : α) (opened : List NodeId) : WriteM.Keeps (Pure.pure a) opened a := rfl

theorem bind (hm : m.Keeps opened a) (hk : (k a).Keeps opened b) : (m >>= k).Keeps opened b := by
  rw [WriteM.Keeps, StateT.run_bind, hm]
  exact hk

theorem mapM {xs : List α} {f : α → WriteM β} {v : α → β}
    (h : ∀ x ∈ xs, (f x).Keeps opened (v x)) : (xs.mapM f).Keeps opened (xs.map v) := by
  induction xs with
  | nil => exact .pure _ _
  | cons x xs ih =>
    rw [List.mapM_cons]
    have hxs := ih fun y hy => h y (List.mem_cons_of_mem _ hy)
    exact (h x List.mem_cons_self).bind (hxs.bind (.pure _ _))

end WriteM.Keeps

namespace TypeExpr

variable {write : Ty → WriteM TypeExpr} {w w' : Ty → TypeExpr} {opened : List NodeId}

def layOut (g : Graph) (w : Ty → TypeExpr) : Shape → TypeExpr
  | .union u => .union (u.toList.map w)
  | .record slots => .braces (slots.map fun s => (s.key.toText, s.optional, w s.type))
  | .callable role ps returns =>
    .signature role (ps.map fun p => (p.name, p.optional, w p.type)) [w returns]
  | .interface name _ => .reference name []
  | .intersection members => .intersection (members.map w)
  | .nameSpace name _ => .reference (text "typeof " ++ name) []
  | .generic name _ _ => .reference name []
  | .intrinsic name => .reference name []
  | .instantiation origin args => .reference (genericName g origin) (args.map w)
  | .unresolved name => .reference name []

theorem layOut_congr (h : ∀ c ∈ s.shown, w c = w' c) : layOut g w s = layOut g w' s := by
  cases s with
  | union | intersection | instantiation =>
    exact congrArg _ (List.map_congr_left h)
  | record slots =>
    refine congrArg _ (List.map_congr_left fun x hx => ?_)
    rw [h x.type (List.mem_map_of_mem hx)]
  | callable role ps returns =>
    have hparams : ∀ p ∈ ps, w p.type = w' p.type := fun p hp =>
      h p.type (List.mem_append_left _ (List.mem_map_of_mem hp))
    have hreturns : w returns = w' returns := h returns (by simp [Shape.shown, Shape.children])
    rw [layOut, layOut, hreturns, List.map_congr_left fun p hp => by rw [hparams p hp]]
  | _ => rfl

theorem ofShape_keeps (hs : s.kind ≠ .union) (h : ∀ c ∈ s.shown, (write c).Keeps opened (w c)) :
    (ofShape g write s).Keeps opened (layOut g w s) := by
  cases s with
  | union => exact absurd rfl hs
  | record slots =>
    have hfields : (fields write slots).Keeps opened
        (slots.map fun s => (s.key.toText, s.optional, w s.type)) :=
      .mapM fun x hx => (h x.type (List.mem_map_of_mem hx)).bind (.pure _ _)
    exact hfields.bind (.pure _ _)
  | callable role ps returns =>
    have hparams : (params write ps).Keeps opened
        (ps.map fun p => (p.name, p.optional, w p.type)) :=
      .mapM fun p hp =>
        (h p.type (List.mem_append_left _ (List.mem_map_of_mem hp))).bind (.pure _ _)
    have hreturns := h returns (by simp [Shape.shown, Shape.children])
    exact hparams.bind (hreturns.bind (.pure _ _))
  | intersection members =>
    have hmembers : (members.mapM write).Keeps opened (members.map w) := .mapM h
    exact hmembers.bind (.pure _ _)
  | instantiation origin args =>
    have hargs : (args.mapM write).Keeps opened (args.map w) := .mapM h
    exact hargs.bind (.pure _ _)
  | _ => exact .pure _ _

theorem guarded_of_mem (hi : i ∈ opened) (m : WriteM TypeExpr) :
    (guarded i m).Keeps opened .any := by
  refine WriteM.Keeps.bind (a := opened) rfl ?_
  rw [if_pos hi]
  exact .pure _ _

theorem guarded_keeps (hi : i ∉ opened) {m : WriteM TypeExpr} {a : TypeExpr}
    (hm : m.Keeps (i :: opened) a) : (guarded i m).Keeps opened a := by
  refine WriteM.Keeps.bind (a := opened) rfl ?_
  rw [if_neg hi]
  have hwrite : (m >>= fun a => modify (·.erase i) >>= fun _ => pure a).run (i :: opened) =
      (a, opened) := by
    rw [StateT.run_bind, hm]
    exact congrArg (Prod.mk a) (List.erase_cons_head i opened)
  exact hwrite

end TypeExpr

namespace Graph

/-- The annotation of a type to which the nodes `path` lead, by recursion over what is shown. A node
that is `hidden` there stands as `any`; unions are never hidden. -/
inductive Annotates (g : Graph) (hidden : List NodeId → NodeId → Prop) :
    List NodeId → Ty → TypeExpr → Prop
  | word {path : List NodeId} {t : Ty} (ht : t.node? = none) : Annotates g hidden path t t.written
  | cut {path : List NodeId} {i : NodeId} (hi : g.kind (.node i) ≠ .union) (hcut : hidden path i) :
    Annotates g hidden path (.node i) .any
  | full {path : List NodeId} {i : NodeId} (w : Ty → TypeExpr)
    (hi : g.kind (.node i) = .union ∨ ¬ hidden path i)
    (hw : ∀ c ∈ (g.shape i).shown, Annotates g hidden (i :: path) c (w c)) :
    Annotates g hidden path (.node i) (TypeExpr.layOut g w (g.shape i))

def Repeated (path : List NodeId) (i : NodeId) : Prop := i ∈ path

def Nowhere (_path : List NodeId) (_i : NodeId) : Prop := False

namespace Annotates

variable {hidden : List NodeId → NodeId → Prop} {path : List NodeId} {a b : TypeExpr}

theorem unique (ha : g.Annotates hidden path t a) (hb : g.Annotates hidden path t b) : a = b := by
  induction ha generalizing b with
  | word ht =>
    cases hb with
    | word => rfl
    | cut | full => cases ht
  | cut hi hcut =>
    cases hb with
    | word ht => cases ht
    | cut => rfl
    | full _ hi' => exact absurd hcut (hi'.resolve_left hi)
  | full w hi hw ih =>
    cases hb with
    | word ht => cases ht
    | cut hi' hcut => exact absurd hcut (hi.resolve_left hi')
    | full w' _ hw' => exact TypeExpr.layOut_congr fun c hc => ih c hc (hw' c hc)

theorem hidden_nowhere (ha : g.Annotates Repeated path t a)
    (hcycle : ∀ x, g.Reaches t x → ¬ Relation.TransGen g.Child x x)
    (hpath : ∀ p ∈ path, Relation.TransGen g.Child (.node p) t) : g.Annotates Nowhere path t a := by
  induction ha with
  | word ht => exact .word ht
  | cut hi hcut => exact absurd (hpath _ hcut) (hcycle _ .refl)
  | @full path i w hi hw ih =>
    refine .full w (.inr id) fun c hc => ?_
    have hchild : g.Child (.node i) c := Shape.shown_subset_children _ hc
    refine ih c hc (fun x hx => hcycle x (.head hchild hx)) fun p hp => ?_
    rcases List.mem_cons.1 hp with rfl | hp
    · exact .single hchild
    · exact (hpath p hp).tail hchild

end Annotates

def unopened (g : Graph) (opened : List NodeId) : Nat :=
  (List.range g.size).countP (· ∉ opened)

theorem unopened_cons_lt {opened : List NodeId} (hi : i < g.size) (hnot : i ∉ opened) :
    g.unopened (i :: opened) < g.unopened opened := by
  simp only [unopened, List.countP_eq_length_filter]
  have hfilter : (List.range g.size).filter (· ∉ i :: opened) =
      ((List.range g.size).filter (· ∉ opened)).filter (· ≠ i) := by
    simp [List.filter_filter]
  rw [hfilter, List.length_filter_lt_length_iff_exists]
  exact ⟨i, by simp [hi, hnot]⟩

theorem unopened_le_size (g : Graph) (opened : List NodeId) : g.unopened opened ≤ g.size := by
  simpa [unopened] using List.countP_le_length (l := List.range g.size) (p := (· ∉ opened))

/-- Steps that are enough to write a type below the nodes `opened`: two for each node that can still
be opened, since at least every second type on the way is no union. -/
def describeSteps (g : Graph) (opened : List NodeId) (t : Ty) : Nat :=
  2 * g.unopened opened + if g.kind t = .union then 2 else 1

theorem describeSteps_pos (g : Graph) (opened : List NodeId) (t : Ty) :
    0 < g.describeSteps opened t := by
  rw [describeSteps]
  split <;> omega

theorem describeSteps_le (g : Graph) (opened : List NodeId) (t : Ty) :
    g.describeSteps opened t ≤ g.describeDepth := by
  have hle := g.unopened_le_size opened
  rw [describeSteps, describeDepth]
  split <;> omega

section Steps

variable {fuel : Nat} {opened path : List NodeId} {u : Members} {w : Ty → TypeExpr} {c : Ty}

theorem describeSteps_member_lt (hg : g.Flat) (hi : g.shape i = .union u) (hc : c ∈ u.toList) :
    g.describeSteps opened c < g.describeSteps opened (.node i) := by
  rw [describeSteps, describeSteps, if_neg (hg i u hi c hc).1, if_pos (kind_of_union hi)]
  omega

theorem describeSteps_shown_lt (hi : g.kind (.node i) ≠ .union) (hnot : i ∉ opened)
    (hc : c ∈ (g.shape i).shown) :
    g.describeSteps (i :: opened) c < g.describeSteps opened (.node i) := by
  have hsize : i < g.size := by
    refine lt_size_of_shape rfl fun hs => ?_
    rw [hs] at hc
    cases hc
  have hlt := g.unopened_cons_lt hsize hnot
  rw [describeSteps, describeSteps, if_neg hi]
  split <;> omega

theorem describeTo_union (hi : g.shape i = .union u)
    (hw : ∀ c ∈ u.toList, (g.describeTo fuel c).Keeps opened (w c)) :
    (g.describeTo (fuel + 1) (.node i)).Keeps opened (TypeExpr.layOut g w (g.shape i)) := by
  have hmembers : (u.toList.mapM (g.describeTo fuel)).Keeps opened (u.toList.map w) := .mapM hw
  simp only [describeTo, hi]
  exact hmembers.bind (.pure _ _)

theorem describeTo_shape (hi : g.kind (.node i) ≠ .union) :
    g.describeTo (fuel + 1) (.node i) =
      TypeExpr.guarded i (TypeExpr.ofShape g (g.describeTo fuel) (g.shape i)) := by
  rw [describeTo]
  split
  · rename_i u hu
    exact absurd (kind_of_union hu) hi
  · rfl

theorem describeTo_annotates (hg : g.Flat)
    (hpath : ∀ i, g.kind (.node i) ≠ .union → (i ∈ opened ↔ i ∈ path))
    (hfuel : g.describeSteps opened t ≤ fuel) :
    ∃ a, (g.describeTo fuel t).Keeps opened a ∧ g.Annotates Repeated path t a := by
  have : Nonempty TypeExpr := ⟨.any⟩
  induction fuel generalizing t opened path with
  | zero => exact absurd (g.describeSteps_pos opened t) (Nat.not_lt.2 hfuel)
  | succ fuel ih =>
    by_cases ht : t.node? = none
    · rw [describeTo_of_not_node ht]
      exact ⟨_, .pure _ _, .word ht⟩
    obtain ⟨i, rfl⟩ : ∃ i, t = .node i := by cases t <;> simp_all [Ty.node?]
    by_cases hi : g.kind (.node i) = .union
    · obtain ⟨u, hu⟩ := Shape.exists_union_of_kind hi
      have hpath' (k : NodeId) (hk : g.kind (.node k) ≠ .union) : k ∈ opened ↔ k ∈ i :: path := by
        have hki : k ≠ i := fun hki => hk (hki ▸ hi)
        simp [hpath k hk, hki]
      have hmember (c : Ty) (hc : c ∈ u.toList) := ih (t := c) hpath'
        (Nat.le_of_lt_succ (Nat.lt_of_lt_of_le (describeSteps_member_lt hg hu hc) hfuel))
      choose! w hkeeps hw using hmember
      refine ⟨_, describeTo_union hu hkeeps, .full w (.inl hi) fun c hc => hw c ?_⟩
      rwa [hu] at hc
    · rw [describeTo_shape hi]
      by_cases hmem : i ∈ opened
      · exact ⟨.any, TypeExpr.guarded_of_mem hmem _, .cut hi ((hpath i hi).1 hmem)⟩
      · have hpath' (k : NodeId) (hk : g.kind (.node k) ≠ .union) :
            k ∈ i :: opened ↔ k ∈ i :: path := by
          simp [hpath k hk]
        have hshown (c : Ty) (hc : c ∈ (g.shape i).shown) := ih (t := c) hpath'
          (Nat.le_of_lt_succ (Nat.lt_of_lt_of_le (describeSteps_shown_lt hi hmem hc) hfuel))
        choose! w hkeeps hw using hshown
        refine ⟨_, TypeExpr.guarded_keeps hmem (TypeExpr.ofShape_keeps hi hkeeps),
          .full w (.inr fun hrep => hmem ((hpath i hi).2 hrep)) hw⟩

end Steps

/-- Printing ends on every graph of flat unions and keeps the set of nodes that are open. The
annotation shows a node as `any` exactly where the node has led to itself, and it is what plain
recursion gives where no cycle can be reached. -/
theorem describe_annotates (hg : g.Flat) (t : Ty) :
    (∀ fuel ≥ g.describeDepth, ∀ opened, ∃ a, (g.describeTo fuel t).run opened = (a, opened) ∧
      ∀ a', g.Annotates Repeated opened t a' ↔ a' = a) ∧
    (∀ a, g.Annotates Repeated [] t a ↔ a = g.describe t) ∧
    ((∀ x, g.Reaches t x → ¬ Relation.TransGen g.Child x x) →
      ∀ a, g.Annotates Nowhere [] t a ↔ a = g.describe t) := by
  have hwritten (fuel : Nat) (hfuel : g.describeDepth ≤ fuel) (opened : List NodeId) :
      ∃ a, (g.describeTo fuel t).run opened = (a, opened) ∧
        ∀ a', g.Annotates Repeated opened t a' ↔ a' = a := by
    obtain ⟨a, hrun, ha⟩ := describeTo_annotates hg (fun _ _ => Iff.rfl)
      (Nat.le_trans (g.describeSteps_le opened t) hfuel)
    exact ⟨a, hrun, fun a' => ⟨fun ha' => ha'.unique ha, fun heq => heq ▸ ha⟩⟩
  have hdescribe (a : TypeExpr) : g.Annotates Repeated [] t a ↔ a = g.describe t := by
    obtain ⟨b, hrun, hb⟩ := hwritten g.describeDepth (Nat.le_refl _) []
    have heq : g.describe t = b := congrArg Prod.fst hrun
    rw [heq, hb]
  refine ⟨hwritten, hdescribe, fun hcycle a => ?_⟩
  have hplain := ((hdescribe _).2 rfl).hidden_nowhere hcycle (by simp)
  exact ⟨fun ha => ha.unique hplain, fun heq => heq ▸ hplain⟩

def lists : Graph :=
  ⟨#[.record [⟨.named (text "at"), .simple .number, false⟩],
    .record [⟨.named (text "from"), .node 0, false⟩, ⟨.named (text "to"), .node 0, true⟩],
    .record [⟨.named (text "range"), .node 1, false⟩, ⟨.named (text "next"), .node 3, false⟩],
    .union { null := true, shapes := [2] }]⟩

theorem lists_annotates :
    lists.Flat ∧ lists.print (.node 2) = text ("\x7b range: \x7b from: \x7b at: number \x7d; " ++
      "to?: \x7b at: number \x7d \x7d; next: null | any \x7d") ∧
    lists.Annotates Repeated [] (.node 2) (lists.describe (.node 2)) ∧
    lists.Annotates Nowhere [] (.node 1) (lists.describe (.node 1)) := by
  have hflat : lists.Flat := (wellFormed_of_admits (by decide)).flat
  let rank : Ty → Nat := fun t => t.node?.elim 0 (· + 1)
  have hdown : ∀ x ∈ [Ty.node 1, .node 0, .simple .number], ∀ y ∈ lists.children x,
      y ∈ [Ty.node 1, .node 0, .simple .number] ∧ rank y < rank x := by decide
  have hcycle (x : Ty) (hx : lists.Reaches (.node 1) x) :
      ¬ Relation.TransGen lists.Child x x := by
    have hmem := hx.mem_of_closed (fun x hx y hxy => (hdown x hx y hxy).1) (by simp)
    have hrank {y : Ty} (hxy : Relation.TransGen lists.Child x y) :
        y ∈ [Ty.node 1, .node 0, .simple .number] ∧ rank y < rank x := by
      induction hxy with
      | single hxy => exact hdown x hmem _ hxy
      | tail _ hyz ih =>
        obtain ⟨hz, hlt⟩ := hdown _ ih.1 _ hyz
        exact ⟨hz, Nat.lt_trans hlt ih.2⟩
    exact fun hxx => Nat.lt_irrefl _ (hrank hxx).2
  exact ⟨hflat, by decide, ((describe_annotates hflat (.node 2)).2.1 _).2 rfl,
    ((describe_annotates hflat (.node 1)).2.2 hcycle _).2 rfl⟩

end Graph

end FlowTyping
