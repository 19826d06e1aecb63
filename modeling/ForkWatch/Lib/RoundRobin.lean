import Mathlib

/-!
# Taking turns

Whose turn a slot is repeats after every round. Any whole round has the same number of
turns for each, wherever it starts (`turns_round`), so a stretch of slots has at least
that for each of its whole rounds, and at most that for one round more
(`turns_bounds`).
-/

namespace Lib

variable {p : Nat → Bool} {r : Nat}

/-- How many of the `m` slots from `start` on are turns of `p`. -/
def turns (p : Nat → Bool) (start m : Nat) : Nat := (List.range' start m).countP p

theorem turns_add (p : Nat → Bool) (start m n : Nat) :
    turns p start (m + n) = turns p start m + turns p (start + m) n := by
  unfold turns
  rw [← List.range'_append_1, List.countP_append]

theorem turns_shift (hp : Function.Periodic p r) (start m : Nat) :
    turns p (start + r) m = turns p start m := by
  have hmap : List.range' (start + r) m = (List.range' start m).map (r + ·) := by
    rw [List.map_add_range', Nat.add_comm]
  unfold turns
  rw [hmap, List.countP_map]
  refine List.countP_congr fun s _ => ?_
  rw [Function.comp_apply, Nat.add_comm, hp]

/-- **A round is a round, wherever it starts.** -/
theorem turns_round (hp : Function.Periodic p r) (start : Nat) :
    turns p start r = turns p 0 r := by
  induction start with
  | zero => rfl
  | succ start ih =>
      -- one slot is left behind, and the one a round later comes in
      have hfirst := turns_add p start 1 r
      have hlast := turns_add p start r 1
      have hsame := turns_shift hp start 1
      rw [Nat.add_comm 1 r] at hfirst
      omega

theorem turns_rounds (hp : Function.Periodic p r) (start q : Nat) :
    turns p start (q * r) = q * turns p 0 r := by
  induction q with
  | zero => simp [turns]
  | succ q ih =>
      rw [Nat.succ_mul, turns_add, ih, turns_round hp (start + q * r), Nat.succ_mul]

/-- **Everybody gets their share of a stretch**, up to one round. -/
theorem turns_bounds (hp : Function.Periodic p r) (hr : 0 < r) (start m : Nat) :
    m / r * turns p 0 r ≤ turns p start m ∧ turns p start m ≤ (m / r + 1) * turns p 0 r := by
  have hsplit : turns p start m
      = m / r * turns p 0 r + turns p (start + m / r * r) (m % r) := by
    rw [← turns_rounds hp start, ← turns_add, Nat.div_add_mod']
  have hpart : turns p (start + m / r * r) (m % r) ≤ turns p 0 r := by
    have hlt := Nat.mod_lt m hr
    have hround := turns_add p (start + m / r * r) (m % r) (r - m % r)
    rw [Nat.add_sub_cancel' (Nat.le_of_lt hlt), turns_round hp] at hround
    omega
  refine ⟨by omega, ?_⟩
  rw [hsplit, Nat.succ_mul]
  omega

end Lib
