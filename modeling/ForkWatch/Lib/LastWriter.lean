import Mathlib

/-!
# Last writer wins

A pass over a list that overwrites as it goes leaves, of everything one reader looks
at, what the last writer wrote (`read_foldl`). Passing over the list the other way
round leaves what the first one wrote. When no two writers write the same, the two
agree only if there is at most one writer (`findSome?_reverse_eq_iff`).

Where the list grows at its end, what the last writer wrote is `latestOf`.
-/

namespace Lib

variable {σ α β : Type}

/-- **After a pass, a reader sees the last writer**, or what was there before. -/
theorem read_foldl (read : σ → Option α) {f : σ → β → σ} {write : β → Option α}
    (h : ∀ s b, read (f s b) = (write b).or (read s)) (l : List β) (s : σ) :
    read (l.foldl f s) = (l.reverse.findSome? write).or (read s) := by
  induction l generalizing s with
  | nil => rfl
  | cons b l ih =>
      rw [List.foldl_cons, ih, h, List.reverse_cons, List.findSome?_append, Option.or_assoc]
      have hone : [b].findSome? write = write b := by
        rw [List.findSome?_cons]
        cases write b <;> rfl
      rw [hone]

/-- A list whose first and last element are the same, and no two are, has at most one. -/
theorem pairwise_false_of_head?_eq_getLast? {l : List α} (hnodup : l.Nodup)
    (h : l.head? = l.getLast?) : l.Pairwise fun _ _ => False := by
  match l with
  | [] => exact List.Pairwise.nil
  | [x] => exact List.pairwise_singleton _ _
  | x :: y :: l =>
      rw [List.head?_cons, List.getLast?_cons_cons] at h
      have hx : x ∈ y :: l := List.mem_of_getLast? h.symm
      exact absurd hx (List.nodup_cons.mp hnodup).1

/--
**First and last writer.** When different writers write different things, the first
one and the last one wrote the same exactly if no two elements write at all.
-/
theorem findSome?_reverse_eq_iff {write : β → Option α} {l : List β}
    (hne : l.Pairwise fun a b => ∀ v, write a = some v → write b ≠ some v) :
    l.findSome? write = l.reverse.findSome? write
      ↔ l.Pairwise fun a b => write a = none ∨ write b = none := by
  have hfalse : (l.filterMap write).Pairwise (fun _ _ => False)
      ↔ l.Pairwise fun a b => write a = none ∨ write b = none := by
    rw [List.pairwise_filterMap]
    refine ⟨fun h => h.imp fun hab => ?_, fun h => h.imp fun hab => ?_⟩
    · rename_i a b
      cases ha : write a with
      | none => exact Or.inl rfl
      | some v =>
          cases hb : write b with
          | none => exact Or.inr rfl
          | some v' => exact absurd (hab v ha v' hb) id
    · intro v hv v' hv'
      rcases hab with hab | hab
      · rw [hab] at hv; exact absurd hv (by simp)
      · rw [hab] at hv'; exact absurd hv' (by simp)
  rw [← hfalse, ← List.head?_filterMap, ← List.getLast?_filterMap]
  refine ⟨?_, ?_⟩
  · refine pairwise_false_of_head?_eq_getLast? ?_
    rw [List.Nodup, List.pairwise_filterMap]
    refine hne.imp fun hab v hv v' hv' heq => ?_
    rw [← heq] at hv'
    exact hab v hv hv'
  · intro h
    match hl : l.filterMap write, h with
    | [], _ => rfl
    | [x], _ => rfl
    | x :: y :: rest, h => exact absurd (List.rel_of_pairwise_cons h (List.mem_cons_self)) id

/-- What the last writer of a list wrote. -/
def latestOf (write : β → Option α) (l : List β) : Option α := l.reverse.findSome? write

@[simp] theorem latestOf_nil (write : β → Option α) : latestOf write [] = none := rfl

theorem latestOf_append (write : β → Option α) (l l' : List β) :
    latestOf write (l ++ l') = (latestOf write l').or (latestOf write l) := by
  unfold latestOf
  rw [List.reverse_append, List.findSome?_append]

theorem latestOf_singleton (write : β → Option α) (b : β) : latestOf write [b] = write b := by
  unfold latestOf
  rw [List.reverse_singleton, List.findSome?_cons]
  cases write b <;> rfl

theorem latestOf_snoc (write : β → Option α) (l : List β) (b : β) :
    latestOf write (l ++ [b]) = (write b).or (latestOf write l) := by
  rw [latestOf_append, latestOf_singleton]

/-- Where nobody writes. -/
theorem latestOf_eq_none {write : β → Option α} {l : List β} (h : ∀ b ∈ l, write b = none) :
    latestOf write l = none :=
  List.findSome?_eq_none_iff.mpr fun b hb => h b (List.mem_reverse.mp hb)

end Lib
