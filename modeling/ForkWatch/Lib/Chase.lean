import Mathlib

/-!
# Chasing references

A partial map `next` says of some things which thing they refer to. A chase follows
it from a thing to the next, and has no memory: what it passes twice it passes for
ever. So it ends exactly if it does not run into a cycle, provided that only
finitely many things refer to anything (`ends_iff`), and then it ends within as many
steps as there are such things (`follow_eq_none`).
-/

namespace Lib.Chase

variable {α : Type} {next : α → Option α}

/-- `a` refers to `b`. -/
def Refers (next : α → Option α) (a b : α) : Prop := next a = some b

/-- Where so many references lead, if there are that many. -/
def follow (next : α → Option α) : Nat → α → Option α
  | 0, a => some a
  | n + 1, a => (next a).bind (follow next n)

/-- The references from here come to an end. -/
def Ends (next : α → Option α) (a : α) : Prop := ∃ n, follow next n a = none

/-- The references from here lead to something that leads back to itself. -/
def RunsIntoCycle (next : α → Option α) (a : α) : Prop :=
  ∃ c, Relation.ReflTransGen (Refers next) a c ∧ Relation.TransGen (Refers next) c c

@[simp] theorem follow_zero (a : α) : follow next 0 a = some a := rfl

theorem follow_succ {a b : α} (h : next a = some b) (n : Nat) :
    follow next (n + 1) a = follow next n b := by
  rw [follow, h, Option.bind_some]

theorem follow_succ_of_none {a : α} (h : next a = none) (n : Nat) :
    follow next (n + 1) a = none := by
  rw [follow, h, Option.bind_none]

theorem follow_add (m n : Nat) (a : α) :
    follow next (m + n) a = (follow next m a).bind (follow next n) := by
  induction m generalizing a with
  | zero => rw [Nat.zero_add, follow_zero, Option.bind_some]
  | succ m ih =>
      rw [Nat.succ_add]
      cases h : next a with
      | none => rw [follow_succ_of_none h, follow_succ_of_none h, Option.bind_none]
      | some b => rw [follow_succ h, follow_succ h, ih]

/-- A chase that has ended stays ended. -/
theorem follow_mono {a : α} {m n : Nat} (h : follow next m a = none) (hle : m ≤ n) :
    follow next n a = none := by
  obtain ⟨k, rfl⟩ := Nat.exists_eq_add_of_le hle
  rw [follow_add, h, Option.bind_none]

/-! ## Steps and relations -/

theorem reflTransGen_of_follow {n : Nat} {a b : α} (h : follow next n a = some b) :
    Relation.ReflTransGen (Refers next) a b := by
  induction n generalizing a with
  | zero =>
      obtain rfl : a = b := Option.some.inj h
      exact .refl
  | succ n ih =>
      obtain ⟨c, hc, hcb⟩ := Option.bind_eq_some_iff.mp h
      exact .head hc (ih hcb)

theorem transGen_of_follow {n : Nat} {a b : α} (h : follow next (n + 1) a = some b) :
    Relation.TransGen (Refers next) a b := by
  obtain ⟨c, hc, hcb⟩ := Option.bind_eq_some_iff.mp h
  exact .head' hc (reflTransGen_of_follow hcb)

theorem exists_follow_of_reflTransGen {a b : α} (h : Relation.ReflTransGen (Refers next) a b) :
    ∃ n, follow next n a = some b := by
  induction h using Relation.ReflTransGen.head_induction_on with
  | refl => exact ⟨0, rfl⟩
  | head hac _ ih =>
      obtain ⟨n, hn⟩ := ih
      exact ⟨n + 1, by rw [follow_succ hac]; exact hn⟩

/-! ## Ending -/

/-- What leads to an end leads on to it from every place passed. -/
theorem Ends.of_reflTransGen {a b : α} (h : Ends next a)
    (hab : Relation.ReflTransGen (Refers next) a b) : Ends next b := by
  obtain ⟨n, hn⟩ := h
  obtain ⟨k, hk⟩ := exists_follow_of_reflTransGen hab
  refine ⟨n, ?_⟩
  have hfar : follow next (k + n) a = none := follow_mono hn (by omega)
  rw [follow_add, hk, Option.bind_some] at hfar
  exact hfar

/-- **Induction along a chase that ends**: from the things referred to, to those referring. -/
theorem Ends.induct {P : α → Prop} (hstep : ∀ a, (∀ b, next a = some b → P b) → P a) {a : α}
    (h : Ends next a) : P a := by
  obtain ⟨n, hn⟩ := h
  induction n generalizing a with
  | zero => exact absurd hn (by simp)
  | succ n ih =>
      refine hstep a fun b hb => ih ?_
      rw [follow_succ hb] at hn
      exact hn

/-- On a cycle there is no end: a shortest way to it could be cut by one round. -/
theorem not_ends_of_transGen {c : α} (h : Relation.TransGen (Refers next) c c) :
    ¬ Ends next c := by
  obtain ⟨b, hcb, hbc⟩ := Relation.TransGen.head'_iff.mp h
  obtain ⟨k, hk⟩ := exists_follow_of_reflTransGen hbc
  have hround : follow next (k + 1) c = some c := by rw [follow_succ hcb]; exact hk
  intro hends
  obtain ⟨n, hn⟩ := hends
  induction n using Nat.strong_induction_on with
  | _ n ih =>
      rcases Nat.lt_or_ge n (k + 1) with hlt | hge
      · rw [follow_mono hn (Nat.le_of_lt hlt)] at hround
        exact absurd hround (by simp)
      · obtain ⟨m, rfl⟩ := Nat.exists_eq_add_of_le hge
        rw [follow_add, hround, Option.bind_some] at hn
        exact ih m (by omega) hn

theorem Ends.not_runsIntoCycle {a : α} (h : Ends next a) : ¬ RunsIntoCycle next a := by
  intro hcycle
  obtain ⟨c, hac, hcc⟩ := hcycle
  exact not_ends_of_transGen hcc (h.of_reflTransGen hac)

/--
**Without a cycle the chase is short.** It passes no more things than there are
things that refer to others: by one more, one of them would be passed twice.
-/
theorem follow_eq_none {keys : List α} (hkeys : ∀ a b, next a = some b → a ∈ keys) {a : α}
    (h : ¬ RunsIntoCycle next a) : follow next (keys.length + 1) a = none := by
  classical
  by_contra hlong
  have hpass : ∀ i, i ≤ keys.length → ∃ p ∈ keys, follow next i a = some p := by
    intro i hi
    obtain ⟨d, hd⟩ : ∃ d, keys.length + 1 = i + (1 + d) := ⟨keys.length - i, by omega⟩
    rw [hd, follow_add] at hlong
    cases hp : follow next i a with
    | none => rw [hp] at hlong; exact absurd rfl hlong
    | some p =>
        rw [hp, Option.bind_some] at hlong
        cases hq : next p with
        | none =>
            rw [Nat.add_comm, follow_succ_of_none hq] at hlong
            exact absurd rfl hlong
        | some q => exact ⟨p, hkeys p q hq, rfl⟩
  -- pigeonhole: one step more than there are keys
  obtain ⟨i, hi, j, hj, hne, heq⟩ := Finset.exists_ne_map_eq_of_card_lt_of_maps_to
    (s := Finset.range (keys.length + 1)) (t := keys.toFinset.image some)
    (f := fun i => follow next i a)
    (by
      rw [Finset.card_range]
      exact Nat.lt_succ_of_le (Finset.card_image_le.trans keys.toFinset_card_le))
    (by
      intro i hi
      obtain ⟨p, hp, hip⟩ := hpass i (by simpa [Nat.lt_succ_iff] using hi)
      exact Finset.mem_coe.mpr (Finset.mem_image.mpr ⟨p, List.mem_toFinset.mpr hp, hip.symm⟩))
  have hback : ∀ i j, i < j → i ≤ keys.length → follow next i a = follow next j a →
      RunsIntoCycle next a := by
    intro i j hlt hi heq
    obtain ⟨p, -, hp⟩ := hpass i hi
    obtain ⟨d, rfl⟩ := Nat.exists_eq_add_of_le (Nat.succ_le_of_lt hlt)
    refine ⟨p, reflTransGen_of_follow hp, transGen_of_follow (n := d) ?_⟩
    rw [hp, Nat.succ_add, ← Nat.add_succ, follow_add, hp, Option.bind_some] at heq
    exact heq.symm
  rcases Nat.lt_or_gt_of_ne hne with hlt | hgt
  · exact h (hback i j hlt (by simpa [Nat.lt_succ_iff] using hi) heq)
  · exact h (hback j i hgt (by simpa [Nat.lt_succ_iff] using hj) heq.symm)

/-- **A chase ends exactly if it does not run into a cycle.** -/
theorem ends_iff {keys : List α} (hkeys : ∀ a b, next a = some b → a ∈ keys) {a : α} :
    Ends next a ↔ ¬ RunsIntoCycle next a :=
  ⟨Ends.not_runsIntoCycle, fun h => ⟨_, follow_eq_none hkeys h⟩⟩

/-! ## How long a chase is -/

/-- How many things a chase passes, counted up to `k`. -/
def rank (next : α → Option α) : Nat → α → Nat
  | 0, _ => 0
  | k + 1, a => (next a).elim 1 fun b => rank next k b + 1

theorem rank_le (k : Nat) (a : α) : rank next k a ≤ k := by
  induction k generalizing a with
  | zero => exact Nat.le_refl 0
  | succ k ih =>
      rw [rank]
      cases next a with
      | none => exact Nat.succ_pos k
      | some b => exact Nat.succ_le_succ (ih b)

theorem rank_pos (k : Nat) (a : α) : 0 < rank next (k + 1) a := by
  rw [rank]
  cases next a with
  | none => exact Nat.one_pos
  | some b => exact Nat.succ_pos _

/-- Counting on after the end changes nothing. -/
theorem rank_succ_of_follow {k : Nat} {a : α} (h : follow next k a = none) :
    rank next (k + 1) a = rank next k a := by
  induction k generalizing a with
  | zero => exact absurd h (by simp)
  | succ k ih =>
      rw [rank, rank]
      cases hab : next a with
      | none => rfl
      | some b =>
          rw [follow_succ hab] at h
          exact congrArg (· + 1) (ih h)

/-- What is referred to has one thing less to pass. -/
theorem rank_of_refers {keys : List α} (hkeys : ∀ a b, next a = some b → a ∈ keys) {a b : α}
    (h : ¬ RunsIntoCycle next a) (hab : next a = some b) :
    rank next (keys.length + 1) a = rank next (keys.length + 1) b + 1 := by
  have hend := follow_eq_none hkeys h
  rw [follow_succ hab] at hend
  rw [rank_succ_of_follow hend, rank, hab]
  rfl

end Lib.Chase
