import Mathlib

/-!
# Debounced absence

Something is sighted, or not, in one observation after another. It counts as
missing from the first observation without it after one with it, until it has
been there `debounce` times in a row, or absent `limit` times in all. `Watch` says
this in terms of the observations alone: it keeps those made since the thing
vanished, and lets go of them as soon as one of the two ends is reached.
-/

namespace Lib

/-- How many sightings in a row the observations end in. -/
def trailing (l : List Bool) : Nat := (l.reverse.takeWhile id).length

@[simp] theorem trailing_snoc_true (l : List Bool) : trailing (l ++ [true]) = trailing l + 1 := by
  simp [trailing]

@[simp] theorem trailing_snoc_false (l : List Bool) : trailing (l ++ [false]) = 0 := by
  simp [trailing]

/-- What the observations so far come to. -/
structure Watch where
  /-- The last observation was a sighting. -/
  present : Bool
  /-- While the thing counts as missing: the observations since it vanished. -/
  since : Option (List Bool)
  /-- How often it was given up. -/
  drops : Nat

namespace Watch

/-- Before the first observation. -/
def init : Watch := ⟨false, none, 0⟩

/-- The observations since the thing vanished, with the next one. -/
def extended (w : Watch) (now : Bool) : Option (List Bool) :=
  match w.since with
  | some s => some (s ++ [now])
  | none => if w.present && !now then some [now] else none

/-- The next observation. -/
def see (debounce limit : Nat) (w : Watch) (now : Bool) : Watch where
  present := now
  since := (w.extended now).filter fun s => trailing s < debounce && s.count false < limit
  drops := if (w.extended now).any fun s => limit ≤ s.count false then w.drops + 1 else w.drops

/-- All observations, the oldest first. -/
def watch (debounce limit : Nat) (seen : List Bool) : Watch :=
  seen.foldl (see debounce limit) init

variable {debounce limit : Nat}

theorem watch_snoc (seen : List Bool) (now : Bool) :
    watch debounce limit (seen ++ [now]) = (watch debounce limit seen).see debounce limit now :=
  List.foldl_concat ..

/-- An absence ends the sightings in a row. -/
theorem trailing_of_extended {w : Watch} {s : List Bool} (h : w.extended false = some s) :
    trailing s = 0 := by
  unfold extended at h
  split at h
  · obtain rfl := Option.some.inj h
    exact trailing_snoc_false _
  · split at h
    · obtain rfl := Option.some.inj h
      rfl
    · exact absurd h (by simp)

/-- Neither end has been reached, and the sightings in a row are up to date. -/
structure Open (debounce limit : Nat) (w : Watch) (s : List Bool) : Prop where
  debounce : trailing s < debounce
  limit : s.count false < limit
  absent : w.present = false → trailing s = 0

theorem open_see {w : Watch} {now : Bool} {s : List Bool}
    (h : (w.see debounce limit now).since = some s) : Open debounce limit (w.see debounce limit now) s := by
  unfold see at h
  dsimp only at h
  rw [Option.filter_eq_some_iff, Bool.and_eq_true, decide_eq_true_eq, decide_eq_true_eq] at h
  obtain ⟨hext, hdebounce, hlimit⟩ := h
  refine ⟨hdebounce, hlimit, ?_⟩
  intro hnow
  have hnow : now = false := hnow
  subst hnow
  exact trailing_of_extended hext

/-- While the thing counts as missing, neither end has been reached. -/
theorem open_watch {seen : List Bool} {s : List Bool}
    (h : (watch debounce limit seen).since = some s) :
    Open debounce limit (watch debounce limit seen) s := by
  induction seen using List.reverseRecOn with
  | nil => exact absurd h (by simp [watch, init])
  | append_singleton seen now _ =>
      rw [watch_snoc] at h ⊢
      exact open_see h

/-- The last observation, if there is one. -/
theorem present_watch (seen : List Bool) :
    (watch debounce limit seen).present = seen.getLastD false := by
  induction seen using List.reverseRecOn with
  | nil => rfl
  | append_singleton seen now _ =>
      rw [watch_snoc, List.getLastD_concat]
      rfl

/-- The observations kept are those from the first absence after a sighting on. -/
theorem since_watch {seen : List Bool} {s : List Bool}
    (h : (watch debounce limit seen).since = some s) :
    ∃ before rest, seen = before ++ true :: s ∧ s = false :: rest := by
  induction seen using List.reverseRecOn generalizing s with
  | nil => exact absurd h (by simp [watch, init])
  | append_singleton seen now ih =>
      rw [watch_snoc] at h
      unfold see at h
      dsimp only at h
      obtain ⟨hext, -⟩ := Option.filter_eq_some_iff.mp h
      unfold extended at hext
      split at hext
      · rename_i s' hs'
        obtain ⟨before, rest, hseen, hrest⟩ := ih hs'
        obtain rfl := Option.some.inj hext
        exact ⟨before, rest ++ [now], by rw [hseen]; simp, by rw [hrest]; rfl⟩
      · split at hext
        · rename_i hvanished
          rw [Bool.and_eq_true, Bool.not_eq_true'] at hvanished
          obtain ⟨hpresent, rfl⟩ := hvanished
          obtain rfl := Option.some.inj hext
          rw [present_watch] at hpresent
          induction seen using List.reverseRecOn with
          | nil => exact absurd hpresent (by simp)
          | append_singleton before last _ =>
              rw [List.getLastD_concat] at hpresent
              subst hpresent
              exact ⟨before, [], by simp, rfl⟩
        · exact absurd hext (by simp)

/-! ## One observation -/

variable {w : Watch} {s : List Bool}

/-- A sighting while the thing counts as missing: the debounce goes on, or ends. -/
theorem see_true_of_missing (hs : w.since = some s) (ho : Open debounce limit w s) :
    (w.see debounce limit true).since
        = (if debounce ≤ trailing s + 1 then none else some (s ++ [true])) ∧
      (w.see debounce limit true).drops = w.drops := by
  have hcount : (s ++ [true]).count false = s.count false := by simp
  have hlimit := ho.limit
  unfold see extended
  rw [hs]
  dsimp only
  rw [Option.filter_some, Option.any_some, hcount, trailing_snoc_true,
    decide_eq_true hlimit, Bool.and_true]
  refine ⟨?_, ?_⟩
  · by_cases hd : debounce ≤ trailing s + 1
    · rw [if_pos hd, decide_eq_false (by omega)]
      rfl
    · rw [if_neg hd, decide_eq_true (by omega)]
      rfl
  · rw [decide_eq_false (by omega)]
    rfl

theorem see_true_of_not_missing (hs : w.since = none) :
    (w.see debounce limit true).since = none ∧ (w.see debounce limit true).drops = w.drops := by
  unfold see extended
  rw [hs]
  simp

/-- One more absence: the thing is given up at the limit. -/
theorem see_false {n : Nat} (hd : 0 < debounce)
    (hext : (w.extended false).map (List.count false) = some n) :
    (w.see debounce limit false).since = (if limit ≤ n then none else w.extended false) ∧
      (w.see debounce limit false).drops = (if limit ≤ n then w.drops + 1 else w.drops) := by
  obtain ⟨s, hs, hcount⟩ := Option.map_eq_some_iff.mp hext
  unfold see
  dsimp only
  rw [hs, Option.filter_some, Option.any_some, hcount, trailing_of_extended hs, decide_eq_true hd,
    Bool.true_and]
  refine ⟨?_, ?_⟩
  · by_cases hl : limit ≤ n
    · rw [if_pos hl, decide_eq_false (by omega)]
      rfl
    · rw [if_neg hl, decide_eq_true (by omega)]
      rfl
  · by_cases hl : limit ≤ n
    · rw [if_pos hl, if_pos (decide_eq_true hl)]
    · rw [if_neg hl, if_neg (by simpa using hl)]

end Watch

end Lib
