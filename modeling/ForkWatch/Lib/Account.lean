import ForkWatch.Lib.Machine

/-!
# Accounts along a run

A *tally* adds up, over the steps of a run, what each step costs or yields in the
state it is taken from. A quantity of the state is balanced against tallies:

* `tally_balance`: a stock that every step changes by what comes in less what goes
  out is, after every run, what came in less what went out;
* `RunsDown`: a rank that some inputs lower and no admissible input raises bounds how
  many of the lowering inputs a run can hold (`RunsDown.tally_le`), and when there
  always is one until the work is done, a run of them ends the work
  (`RunsDown.exists_end`).
-/

namespace Lib

namespace Machine

variable {σ ε : Type} {m : Machine σ ε}

/-- The sum of `f` over the steps of a run, each taken in its own state. -/
def tally (m : Machine σ ε) (f : σ → ε → Nat) : σ → List ε → Nat
  | _, [] => 0
  | s, e :: evs => f s e + m.tally f (m.step s e) evs

@[simp] theorem tally_nil (f : σ → ε → Nat) (s : σ) : m.tally f s [] = 0 := rfl

@[simp] theorem tally_cons (f : σ → ε → Nat) (s : σ) (e : ε) (evs : List ε) :
    m.tally f s (e :: evs) = f s e + m.tally f (m.step s e) evs := rfl

/-- **A stock is what came in less what went out.** -/
theorem tally_balance {I : σ → Prop} {A : ε → Prop} {stock : σ → Nat} {gain loss : σ → ε → Nat}
    (hI : ∀ s e, I s → A e → I (m.step s e))
    (hstep : ∀ s e, I s → A e → stock (m.step s e) + loss s e = stock s + gain s e)
    {s : σ} (hs : I s) {evs : List ε} (hA : ∀ e ∈ evs, A e) :
    stock (m.runFrom s evs) + m.tally loss s evs = stock s + m.tally gain s evs := by
  induction evs generalizing s with
  | nil => rfl
  | cons e evs ih =>
      have he := hA e List.mem_cons_self
      have hrest := ih (hI s e hs he) fun e' he' => hA e' (List.mem_cons_of_mem _ he')
      have hone := hstep s e hs he
      simp only [runFrom_cons, tally_cons]
      omega

/-- Admissible inputs never raise the rank, and those that serve lower it. -/
structure RunsDown (m : Machine σ ε) (I : σ → Prop) (A : σ → ε → Prop) (serves : σ → ε → Bool)
    (rank : σ → Nat) : Prop where
  keeps : ∀ s e, I s → A s e → I (m.step s e)
  falls : ∀ s e, I s → A s e → serves s e = true → rank (m.step s e) < rank s
  rests : ∀ s e, I s → A s e → serves s e = false → rank (m.step s e) ≤ rank s

namespace RunsDown

variable {I : σ → Prop} {A : σ → ε → Prop} {serves : σ → ε → Bool} {rank : σ → Nat}

/-- How many inputs of a run serve. -/
def served (m : Machine σ ε) (serves : σ → ε → Bool) : σ → List ε → Nat :=
  m.tally fun s e => (serves s e).toNat

/-- **Only so many inputs of a run can serve as the rank allows.** -/
theorem tally_le (h : RunsDown m I A serves rank) {s : σ} (hs : I s) {evs : List ε}
    (hA : m.Guarded A s evs) : rank (m.runFrom s evs) + served m serves s evs ≤ rank s := by
  induction evs generalizing s with
  | nil => exact Nat.le_refl _
  | cons e evs ih =>
      obtain ⟨he, hA⟩ := hA
      have hrest := ih (h.keeps s e hs he) hA
      unfold served at hrest ⊢
      simp only [runFrom_cons, tally_cons]
      cases hserves : serves s e with
      | true =>
          have hfall := h.falls s e hs he hserves
          simp only [Bool.toNat_true]
          omega
      | false =>
          have hrest' := h.rests s e hs he hserves
          simp only [Bool.toNat_false]
          omega

/-- **While there is always an input that serves, a run of them ends the work.** -/
theorem exists_end (h : RunsDown m I A serves rank) {D : σ → Prop}
    (hserve : ∀ s, I s → ¬ D s → ∃ e, A s e ∧ serves s e = true) {s : σ} (hs : I s) :
    ∃ evs : List ε, m.Guarded A s evs ∧ m.Guarded (fun s e => serves s e = true) s evs ∧
      evs.length ≤ rank s ∧ D (m.runFrom s evs) := by
  -- by induction on the rank, which every further input lowers
  induction hr : rank s using Nat.strong_induction_on generalizing s with
  | _ r ih =>
      by_cases hdone : D s
      · exact ⟨[], trivial, trivial, Nat.zero_le _, hdone⟩
      · obtain ⟨e, he, hserves⟩ := hserve s hs hdone
        have hfall := h.falls s e hs he hserves
        obtain ⟨evs, hA, hguarded, hlen, hend⟩ :=
          ih (rank (m.step s e)) (hr ▸ hfall) (h.keeps s e hs he) rfl
        refine ⟨e :: evs, ⟨he, hA⟩, ⟨hserves, hguarded⟩, ?_, hend⟩
        rw [List.length_cons]
        omega

end RunsDown

end Machine

end Lib
