import Mathlib

/-!
# Throttles

Of a sequence of items that carry a time, a throttle lets an item through when at least
`gap` has gone by since it last did. What it lets through is spaced (`letThrough_spaced`),
so that no stretch of time holds more than its share (`length_le_of_spaced`), and it
covers everything: when the times never go back, each item has one that was let through
less than `gap` before it (`letThrough_covers`).
-/

namespace Lib

variable {α : Type} {clock : α → Int} {gap : Int}

/-- What is let through, given when something last was. -/
def letThrough (clock : α → Int) (gap : Int) : Int → List α → List α
  | _, [] => []
  | last, a :: l =>
      if clock a - last < gap then letThrough clock gap last l
      else a :: letThrough clock gap (clock a) l

/-- When something was last let through. -/
def lastPassed (clock : α → Int) (gap : Int) : Int → List α → Int
  | last, [] => last
  | last, a :: l =>
      if clock a - last < gap then lastPassed clock gap last l else lastPassed clock gap (clock a) l

theorem lastPassed_snoc (last : Int) (l : List α) (a : α) :
    lastPassed clock gap last (l ++ [a])
      = if clock a - lastPassed clock gap last l < gap then lastPassed clock gap last l
        else clock a := by
  induction l generalizing last with
  | nil => rfl
  | cons b l ih =>
      simp only [List.cons_append, lastPassed]
      split
      · exact ih last
      · exact ih (clock b)

theorem letThrough_snoc (last : Int) (l : List α) (a : α) :
    letThrough clock gap last (l ++ [a]) = letThrough clock gap last l
      ++ if clock a - lastPassed clock gap last l < gap then [] else [a] := by
  induction l generalizing last with
  | nil => rfl
  | cons b l ih =>
      simp only [List.cons_append, letThrough, lastPassed]
      split
      · exact ih last
      · rw [ih (clock b), List.cons_append]

/-- Any two of the items are `gap` apart. -/
def Spaced (clock : α → Int) (gap : Int) (l : List α) : Prop :=
  l.Pairwise fun a b => clock a + gap ≤ clock b

theorem le_of_mem_letThrough (hgap : 0 ≤ gap) (last : Int) (l : List α) :
    ∀ a ∈ letThrough clock gap last l, last + gap ≤ clock a := by
  induction l generalizing last with
  | nil => simp [letThrough]
  | cons b l ih =>
      intro a ha
      unfold letThrough at ha
      split at ha
      · exact ih last a ha
      · rcases List.mem_cons.mp ha with rfl | ha
        · omega
        · have := ih (clock b) a ha
          omega

/-- **What is let through is spaced.** -/
theorem letThrough_spaced (hgap : 0 ≤ gap) (last : Int) (l : List α) :
    Spaced clock gap (letThrough clock gap last l) := by
  induction l generalizing last with
  | nil => exact List.Pairwise.nil
  | cons b l ih =>
      unfold letThrough
      split
      · exact ih last
      · exact List.Pairwise.cons (le_of_mem_letThrough hgap (clock b) l) (ih (clock b))

/-- **Spaced items are few.** A stretch of `n` gaps holds at most `n` of them. -/
theorem length_le_of_spaced {l : List α} (h : Spaced clock gap l) {t : Int} {n : Nat}
    (hin : ∀ a ∈ l, t ≤ clock a ∧ clock a < t + n * gap) : l.length ≤ n := by
  induction l generalizing t n with
  | nil => exact Nat.zero_le _
  | cons a l ih =>
      obtain ⟨hlater, hrest⟩ := List.pairwise_cons.mp h
      obtain ⟨hlo, hhi⟩ := hin a List.mem_cons_self
      cases n with
      | zero => simp at hhi; omega
      | succ n =>
          have hin' : ∀ b ∈ l, t + gap ≤ clock b ∧ clock b < t + gap + n * gap := by
            intro b hb
            have hend := (hin b (List.mem_cons_of_mem _ hb)).2
            have hgap := hlater b hb
            push_cast at hend
            rw [Int.add_mul] at hend
            omega
          have := ih hrest hin'
          rw [List.length_cons]
          omega

/-- **What is let through covers everything**, the stretch after the start apart. -/
theorem letThrough_covers (hgap : 0 < gap) (last : Int) {l : List α}
    (hmono : l.Pairwise fun a b => clock a ≤ clock b) : ∀ a ∈ l, last + gap ≤ clock a →
      ∃ b ∈ letThrough clock gap last l, clock b ≤ clock a ∧ clock a < clock b + gap := by
  induction l generalizing last with
  | nil => simp
  | cons b l ih =>
      obtain ⟨hlater, hrest⟩ := List.pairwise_cons.mp hmono
      intro a ha hlate
      unfold letThrough
      split
      · rename_i hearly
        rcases List.mem_cons.mp ha with rfl | ha
        · omega
        · exact ih last hrest a ha hlate
      · rcases List.mem_cons.mp ha with rfl | ha
        · exact ⟨a, List.mem_cons_self, by omega, by omega⟩
        · have hba := hlater a ha
          by_cases hnear : clock a < clock b + gap
          · exact ⟨b, List.mem_cons_self, hba, hnear⟩
          · obtain ⟨b', hb', hcovers⟩ := ih (clock b) hrest a ha (by omega)
            exact ⟨b', List.mem_cons_of_mem _ hb', hcovers⟩

/-! ## A throttle that has not let anything through -/

/-- The first item passes. -/
def throttled (clock : α → Int) (gap : Int) : List α → List α
  | [] => []
  | a :: l => a :: letThrough clock gap (clock a) l

/-- When something was last let through, if anything was. -/
def lastThrottled (clock : α → Int) (gap : Int) : List α → Option Int
  | [] => none
  | a :: l => some (lastPassed clock gap (clock a) l)

/-- An item passes when there is none before it less than `gap` ago. -/
def passes (gap : Int) (last : Option Int) (now : Int) : Bool :=
  last.all fun last => !decide (now - last < gap)

theorem throttled_snoc (l : List α) (a : α) : throttled clock gap (l ++ [a])
    = throttled clock gap l
      ++ if passes gap (lastThrottled clock gap l) (clock a) then [a] else [] := by
  cases l with
  | nil => rfl
  | cons b l =>
      rw [List.cons_append, throttled, letThrough_snoc, throttled, lastThrottled, passes,
        Option.all_some, List.cons_append]
      by_cases hearly : clock a - lastPassed clock gap (clock b) l < gap
      · simp [hearly]
      · simp [hearly]

theorem lastThrottled_snoc (l : List α) (a : α) : lastThrottled clock gap (l ++ [a])
    = if passes gap (lastThrottled clock gap l) (clock a) then some (clock a)
      else lastThrottled clock gap l := by
  cases l with
  | nil => rfl
  | cons b l =>
      rw [List.cons_append, lastThrottled, lastPassed_snoc, lastThrottled, passes, Option.all_some]
      by_cases hearly : clock a - lastPassed clock gap (clock b) l < gap
      · simp [hearly]
      · simp [hearly]

theorem throttled_spaced (hgap : 0 ≤ gap) (l : List α) :
    Spaced clock gap (throttled clock gap l) := by
  cases l with
  | nil => exact List.Pairwise.nil
  | cons a l =>
      exact List.Pairwise.cons (le_of_mem_letThrough hgap (clock a) l)
        (letThrough_spaced hgap (clock a) l)

end Lib
