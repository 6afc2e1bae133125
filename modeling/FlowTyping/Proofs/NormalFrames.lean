import FlowTyping.Proofs.DeclaredNames
import Mathlib.Data.List.TakeWhile

namespace FlowTyping

variable {s s' : ScopeStack} {f : Frame} {n name : Text} {t : Ty} {os : List (Text × Ty)}

theorem Text.lookup_filter {β : Type} (p : Text → Bool) (bs : List (Text × β)) :
    (bs.filter fun b => p b.1).lookup n = if p n then bs.lookup n else none := by
  induction bs with
  | nil => simp
  | cons b bs ih =>
    obtain ⟨m, u⟩ := b
    rw [List.filter_cons, Text.lookup_cons]
    by_cases hn : n = m
    · subst hn
      by_cases hm : p n
      · simp [hm]
      · simpa [hm] using ih
    · by_cases hm : p m
      · simpa [hm, hn, Text.lookup_cons] using ih
      · simpa [hm, hn] using ih

theorem Text.lookup_of_not_mem {β : Type} {bs : List (Text × β)} (hn : n ∉ bs.map Prod.fst) :
    bs.lookup n = none := by
  rw [List.lookup_eq_none_iff]
  intro p hp
  have hne : n ≠ p.1 := fun heq => hn (heq ▸ List.mem_map.2 ⟨p, hp, rfl⟩)
  simpa using hne

theorem Text.lookup_of_mem {β : Type} {bs : List (Text × β)} {p : Text × β}
    (hbs : (bs.map Prod.fst).Nodup) (hp : p ∈ bs) : bs.lookup p.1 = some p.2 := by
  induction bs with
  | nil => cases hp
  | cons b bs ih =>
    obtain ⟨hfresh, hbs⟩ := List.nodup_cons.1 hbs
    rw [Text.lookup_cons]
    rcases List.mem_cons.1 hp with rfl | hp
    · rw [if_pos rfl]
    · have hne : p.1 ≠ b.1 := fun heq => hfresh (heq ▸ List.mem_map.2 ⟨p, hp, rfl⟩)
      rw [if_neg hne, ih hbs hp]

theorem Frame.lookup_overrides :
    f.overrides.lookup n = if n ∈ f.declared then none else f.bindings.lookup n := by
  rw [overrides, Text.lookup_filter fun m => m ∉ f.declared]
  by_cases hn : n ∈ f.declared <;> simp [hn]

theorem Frame.nodup_overrides (hf : (f.bindings.map Prod.fst).Nodup) :
    (f.overrides.map Prod.fst).Nodup :=
  hf.sublist (List.filter_sublist.map _)

namespace ScopeStack

theorem lookup_eq :
    s.lookup n = (s.top.bindings.lookup n).or (s.below.findSome? (·.bindings.lookup n)) := by
  rw [lookup, frames, List.findSome?_cons]
  cases s.top.bindings.lookup n <;> rfl

theorem SameBelow.bindAll (s : ScopeStack) (os : List (Text × Ty)) :
    s.SameBelow (s.bindAll os) := by
  induction os generalizing s with
  | nil => exact .refl s
  | cons o os ih => exact (SameBelow.bind s o.1 o.2).trans (ih _)

theorem declared_bindAll (s : ScopeStack) (os : List (Text × Ty)) :
    (s.bindAll os).top.declared = s.top.declared := by
  induction os generalizing s with
  | nil => rfl
  | cons o os ih => exact ih (s.bind o.1 o.2)

theorem lookup_top_bindAll (hos : (os.map Prod.fst).Nodup) :
    (s.bindAll os).top.bindings.lookup n = (os.lookup n).or (s.top.bindings.lookup n) := by
  induction os generalizing s with
  | nil => rfl
  | cons o os ih =>
    obtain ⟨hfresh, hos⟩ := List.nodup_cons.1 hos
    have hrest : (s.bindAll (o :: os)).top.bindings.lookup n =
        (os.lookup n).or ((s.bind o.1 o.2).top.bindings.lookup n) := ih hos
    rw [hrest, Text.lookup_cons, ScopeStack.bind, Frame.lookup_bind]
    by_cases hn : n = o.1
    · simp [hn, Text.lookup_of_not_mem hfresh]
    · simp [hn]

theorem lookup_bindAll (hos : (os.map Prod.fst).Nodup) :
    (s.bindAll os).lookup n = (os.lookup n).or (s.lookup n) := by
  rw [lookup_eq, lookup_top_bindAll hos, (SameBelow.bindAll s os).below, lookup_eq, Option.or_assoc]

end ScopeStack

inductive Write
  | assign (name : Text) (t : Ty)
  | declare (name : Text) (t : Ty)

namespace Write

def declares (n : Text) : Write → Bool
  | .assign _ _ => false
  | .declare name _ => name = n

def assigned? (n : Text) : Write → Option Ty
  | .assign name t => if name = n then some t else none
  | .declare _ _ => none

def lastAssigned (n : Text) (ws : List Write) : Option Ty := ws.reverse.findSome? (·.assigned? n)

def lastBefore (n : Text) (ws : List Write) : Option Ty :=
  lastAssigned n (ws.takeWhile (!·.declares n))

theorem lastAssigned_concat {ws : List Write} {w : Write} :
    lastAssigned n (ws ++ [w]) = (w.assigned? n).or (lastAssigned n ws) := by
  rw [lastAssigned, List.reverse_append, List.reverse_singleton, List.singleton_append,
    List.findSome?_cons]
  cases w.assigned? n <;> rfl

theorem lastBefore_of_not_declares {ws : List Write} (hws : ws.any (·.declares n) = false) :
    lastBefore n ws = lastAssigned n ws := by
  rw [lastBefore, List.takeWhile_eq_self_iff.2]
  intro w hw
  simpa using List.any_eq_false.1 hws w hw

end Write

namespace ScopeStack

variable {ws : List Write} {w : Write} {r : Resolvers} {st : Store}

def write (s : ScopeStack) : Write → ScopeStack
  | .assign name t => (s.assign? name t).getD s
  | .declare name t => s.declare name t

def writeAll (s : ScopeStack) (ws : List Write) : ScopeStack := ws.foldl write s

/-- What the top frame holds after calls that began on a new frame upon `s`. -/
structure Wrote (s : ScopeStack) (ws : List Write) (s' : ScopeStack) : Prop where
  below : s'.below = s.frames
  kind : s'.top.kind = .normal
  nodup : (s'.top.bindings.map Prod.fst).Nodup
  declared : ∀ n, n ∈ s'.top.declared ↔ ws.any (·.declares n) = true
  assigned : ∀ n ∈ Frame.names s.frames, n ∉ s'.top.declared →
    s'.top.bindings.lookup n = Write.lastAssigned n ws

namespace Wrote

theorem new (s : ScopeStack) : s.Wrote [] (s.push .normal) where
  below := rfl
  kind := rfl
  nodup := List.nodup_nil
  declared n := by simp [push]
  assigned n _ _ := rfl

theorem assign (hs : s.Wrote ws s') (name : Text) (t : Ty) :
    s.Wrote (ws ++ [.assign name t]) (s'.write (.assign name t)) := by
  have hany (n : Text) : (ws ++ [Write.assign name t]).any (·.declares n) =
      ws.any (·.declares n) := by
    simp [Write.declares]
  by_cases hname : s'.isDeclared name
  · have hwrite : s'.write (.assign name t) = s'.bind name t := by simp [write, assign?, hname]
    rw [hwrite]
    refine ⟨hs.below, hs.kind, Frame.nodup_bind hs.nodup, fun n => ?_, fun n hn hdeclared => ?_⟩
    · rw [hany]
      exact hs.declared n
    · rw [ScopeStack.bind, Frame.lookup_bind, Write.lastAssigned_concat, Write.assigned?]
      by_cases heq : n = name
      · simp [heq]
      · rw [if_neg heq, if_neg (Ne.symm heq), Option.none_or]
        exact hs.assigned n hn hdeclared
  · have hwrite : s'.write (.assign name t) = s' := by simp [write, assign?, hname]
    rw [hwrite]
    refine ⟨hs.below, hs.kind, hs.nodup, fun n => ?_, fun n hn hdeclared => ?_⟩
    · rw [hany]
      exact hs.declared n
    · have heq : name ≠ n := by
        rintro rfl
        apply hname
        obtain ⟨f, hf, hn⟩ := Frame.mem_names.1 hn
        rw [isDeclared, List.any_eq_true]
        refine ⟨f, ?_, by simpa using hn⟩
        rw [frames, hs.below]
        exact List.mem_cons_of_mem _ hf
      rw [Write.lastAssigned_concat, Write.assigned?, if_neg heq, Option.none_or]
      exact hs.assigned n hn hdeclared

theorem declare (hs : s.Wrote ws s') (name : Text) (t : Ty) :
    s.Wrote (ws ++ [.declare name t]) (s'.write (.declare name t)) := by
  have hsame : s'.SameBelow (s'.declare name t) := .declare s' name t
  refine ⟨hsame.below.trans hs.below, hsame.kind.trans hs.kind, ?_, fun n => ?_,
    fun n hn hdeclared => ?_⟩
  · rw [write, ScopeStack.declare, Frame.bindings_declare]
    exact Frame.nodup_bind hs.nodup
  · rw [write, ScopeStack.declare, Frame.declared_declare, hs.declared]
    have hself : Write.declares n (.declare name t) = true ↔ n = name := by
      simp [Write.declares, eq_comm]
    rw [List.any_append, Bool.or_eq_true, or_comm, ← hself]
    simp
  · rw [write, ScopeStack.declare] at hdeclared ⊢
    rw [Frame.declared_declare, not_or] at hdeclared
    rw [Frame.bindings_declare, Frame.lookup_bind, if_neg hdeclared.1, Write.lastAssigned_concat,
      Write.assigned?, Option.none_or]
    exact hs.assigned n hn hdeclared.2

theorem writeAll (s : ScopeStack) (ws : List Write) :
    s.Wrote ws ((s.push .normal).writeAll ws) := by
  induction ws using List.reverseRecOn with
  | nil => exact .new s
  | append_singleton ws w ih =>
    rw [ScopeStack.writeAll, List.foldl_append]
    cases w with
    | assign name t => exact ih.assign name t
    | declare name t => exact ih.declare name t

end Wrote

/-- After the frame is popped, a name from below has the type of the last assignment to it if the
frame did not declare it, and its old type if the frame did, also when it was assigned to before
that. So the last assignment before the declaration counts exactly when there is no declaration or
that assignment changed nothing. -/
theorem lookup_pop_writes (s : ScopeStack) (ws : List Write) (r : Resolvers) (st : Store) :
    ∃ k s', (ScopeM.pop r).Returns ⟨(s.push .normal).writeAll ws, st⟩ k s' ∧
      ∀ n ∈ Frame.names s.frames,
        s'.stack.lookup n = (if ws.any (·.declares n) then none
          else Write.lastAssigned n ws).or (s.lookup n) ∧
        (s'.stack.lookup n = (Write.lastBefore n ws).or (s.lookup n) ↔
          ws.any (·.declares n) = true → ∀ t, Write.lastBefore n ws = some t →
            s.lookup n = some t) := by
  have hws := Wrote.writeAll s ws
  refine ⟨_, _, ScopeM.pop_normal_returns r hws.below hws.kind, fun n hn => ?_⟩
  have hlookup : (s.bindAll ((s.push .normal).writeAll ws).top.overrides).lookup n =
      (if ws.any (·.declares n) then none else Write.lastAssigned n ws).or (s.lookup n) := by
    rw [lookup_bindAll (Frame.nodup_overrides hws.nodup), Frame.lookup_overrides]
    by_cases hdeclared : n ∈ ((s.push .normal).writeAll ws).top.declared
    · rw [if_pos hdeclared, if_pos ((hws.declared n).1 hdeclared)]
    · rw [if_neg hdeclared, if_neg (mt (hws.declared n).2 hdeclared), hws.assigned n hn hdeclared]
  refine ⟨hlookup, ?_⟩
  rw [hlookup]
  cases hany : ws.any (·.declares n) with
  | false => simp [Write.lastBefore_of_not_declares hany]
  | true => cases Write.lastBefore n ws <;> simp

theorem lookup_pop_writes_pair :
    let x := text "x"
    let y := text "y"
    let s := (initial.declare x (.simple .string)).declare y (.simple .string)
    let ws : List Write := [.assign x (.simple .number), .assign y (.simple .number),
      .declare y (.simple .boolean), .assign y (.simple .null)]
    s.Reached ∧ ∃ k s', (ScopeM.pop {}).Returns ⟨(s.push .normal).writeAll ws, {}⟩ k s' ∧
      s'.stack.lookup x = some (.simple .number) ∧ s'.stack.lookup y = some (.simple .string) := by
  intro x y s ws
  refine ⟨(Reached.initial.declare x _).declare y _, ?_⟩
  obtain ⟨k, s', hrun, hnames⟩ := lookup_pop_writes s ws {} {}
  exact ⟨k, s', hrun, (hnames x (by decide)).1, (hnames y (by decide)).1⟩

/-- The last assignment before a declaration of the same name does not outlive the frame. -/
theorem shadowed_override_lost :
    let x := text "x"
    let s := initial.declare x (.simple .string)
    let ws : List Write := [.assign x (.simple .number), .declare x (.simple .boolean)]
    let s' := ((ScopeM.pop {}).run.run ⟨(s.push .normal).writeAll ws, {}⟩).2.stack
    s.Reached ∧ x ∈ Frame.names s.frames ∧ Write.lastBefore x ws = some (.simple .number) ∧
      s'.lookup x = some (.simple .string) ∧
      s'.lookup x ≠ (Write.lastBefore x ws).or (s.lookup x) := by
  intro x s ws s'
  exact ⟨Reached.initial.declare x _, by decide, rfl, rfl, by decide⟩

end ScopeStack

end FlowTyping
