import ForkWatch.Lib.Machine

/-!
# What an observer sees

An observer sees part of a state. Suppose that what an input makes of that part depends
on nothing else, and that an input which does not concern the observer leaves it alone.
Then a run looks to him as if only the inputs that concern him had come: he cannot tell
the others from none (`Unwinding.view_run`).
-/

namespace Lib

variable {σ ε β : Type}

/-- The conditions, at states that keep the invariant. -/
structure Unwinding (m : Machine σ ε) (I : σ → Prop) (concerns : ε → Bool) (view : σ → β)
    (turn : ε → β → β) : Prop where
  init : I m.init
  keeps : ∀ s e, I s → I (m.step s e)
  /-- What is seen after an input depends on what was seen before. -/
  step : ∀ s e, I s → view (m.step s e) = turn e (view s)
  /-- What does not concern the observer changes nothing. -/
  quiet : ∀ e b, concerns e = false → turn e b = b

namespace Unwinding

variable {m : Machine σ ε} {I : σ → Prop} {concerns : ε → Bool} {view : σ → β} {turn : ε → β → β}

theorem view_runFrom (h : Unwinding m I concerns view turn) {s : σ} (hs : I s) (evs : List ε) :
    view (m.runFrom s evs) = evs.foldl (fun b e => turn e b) (view s) := by
  induction evs generalizing s with
  | nil => rfl
  | cons e evs ih => rw [Machine.runFrom_cons, ih (h.keeps s e hs), h.step s e hs]; rfl

/-- **What does not concern an observer he cannot tell from nothing.** -/
theorem view_run (h : Unwinding m I concerns view turn) (evs : List ε) :
    view (m.run evs) = view (m.run (evs.filter concerns)) := by
  have hall : view (m.run evs) = evs.foldl (fun b e => turn e b) (view m.init) :=
    h.view_runFrom h.init evs
  have hsome : view (m.run (evs.filter concerns))
      = (evs.filter concerns).foldl (fun b e => turn e b) (view m.init) :=
    h.view_runFrom h.init _
  rw [hall, hsome, List.foldl_filter]
  refine congrArg (fun f => List.foldl f (view m.init) evs) ?_
  funext b e
  split
  · rfl
  · rename_i hquiet
    exact h.quiet e b (Bool.eq_false_iff.mpr hquiet)

end Unwinding

end Lib
