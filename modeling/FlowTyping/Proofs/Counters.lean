import FlowTyping.Proofs.ScopeLaws

namespace FlowTyping

theorem Text.precedes_iff {a b : Text} : precedes a b = true ↔ a < b := by
  fun_induction precedes a b with
  | case1 | case2 => simp
  | case3 a as b bs ih => simp [List.cons_lt_cons_iff, ih]

namespace Tally

variable {t : Tally} {key key' : Text} {f : UInt64 → UInt64} {n : UInt64} {x : Text × UInt64}
  {entries : List (Text × UInt64)}

def Ordered (t : Tally) : Prop := t.entries.Pairwise fun x y => x.1 < y.1

theorem mem_updateIn (hx : x ∈ updateIn key f entries) : x.1 = key ∨ x ∈ entries := by
  induction entries with
  | nil => exact .inl (by simp_all [updateIn])
  | cons y rest ih =>
    simp only [updateIn] at hx
    split at hx
    · rename_i hy
      rcases List.mem_cons.1 hx with rfl | hx
      · exact .inl hy
      · exact .inr (List.mem_cons_of_mem y hx)
    · split at hx
      · exact (List.mem_cons.1 hx).imp_left (congrArg Prod.fst)
      · rcases List.mem_cons.1 hx with rfl | hx
        · exact .inr List.mem_cons_self
        · exact (ih hx).imp_right (List.mem_cons_of_mem y)

theorem lt_of_mem (h : (x :: entries).Pairwise fun x y => x.1 < y.1) (hx : key < x.1) :
    ∀ y ∈ x :: entries, key < y.1 := by
  rw [List.pairwise_cons] at h
  exact List.forall_mem_cons.2 ⟨hx, fun y hy => List.lt_trans hx (h.1 y hy)⟩

theorem pairwise_updateIn (h : entries.Pairwise fun x y => x.1 < y.1) :
    (updateIn key f entries).Pairwise fun x y => x.1 < y.1 := by
  induction entries with
  | nil => simp [updateIn]
  | cons x rest ih =>
    obtain ⟨hx, hrest⟩ := List.pairwise_cons.1 h
    simp only [updateIn, Text.precedes_iff]
    split
    · exact List.pairwise_cons.2 ⟨hx, hrest⟩
    · split
      · rename_i hlt
        exact List.pairwise_cons.2 ⟨lt_of_mem h hlt, h⟩
      · rename_i hne hge
        refine List.pairwise_cons.2 ⟨fun y hy => ?_, ih hrest⟩
        rcases mem_updateIn hy with hy | hy
        · rw [hy]
          exact (Std.lt_trichotomy x.1 key).resolve_right (not_or.2 ⟨hne, hge⟩)
        · exact hx y hy

theorem lookup_updateIn (h : entries.Pairwise fun x y => x.1 < y.1) :
    (updateIn key f entries).lookup key' =
      if key' = key then some (f ((entries.lookup key).getD 0)) else entries.lookup key' := by
  induction entries with
  | nil => exact Text.lookup_cons
  | cons x rest ih =>
    obtain ⟨k, v⟩ := x
    simp only [updateIn, Text.precedes_iff]
    split
    · rename_i hk
      subst hk
      simp only [Text.lookup_cons, if_true, Option.getD_some]
      split <;> rfl
    · rename_i hne
      split
      · rename_i hlt
        have hnone : ((k, v) :: rest).lookup key = none := by
          rw [List.lookup_eq_none_iff]
          intro y hy
          have hy := lt_of_mem h hlt y hy
          rw [bne_iff_ne]
          rintro rfl
          exact List.lt_irrefl _ hy
        rw [Text.lookup_cons, hnone]
        rfl
      · rw [Text.lookup_cons, Text.lookup_cons, Text.lookup_cons, if_neg (Ne.symm hne),
          ih (List.pairwise_cons.1 h).2]
        grind

theorem Ordered.add (ht : t.Ordered) (key : Text) (n : UInt64) : (t.add key n).Ordered :=
  pairwise_updateIn ht

theorem Ordered.get_add (ht : t.Ordered) (key key' : Text) (n : UInt64) :
    (t.add key n).get key' = if key' = key then t.get key' + n else t.get key' := by
  have hlookup : (t.add key n).get? key' =
      if key' = key then some (t.get key + n) else t.get? key' := lookup_updateIn ht
  rw [get, hlookup]
  split
  · rename_i hkey
    rw [Option.getD_some, hkey]
  · rfl

end Tally

end FlowTyping
