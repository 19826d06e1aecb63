import ForkWatch.Lib.Machine

/-!
# Queues whose items leave when they are called

Every step of a run may bring items into a queue, and its input may *call* items:
a called item leaves, whether it was waiting or has just come in. Calls follow no
order, so an item put in late can be called at once and an early one much later.

`queue_runFrom` says what such a queue holds: of all that ever came in (`arrivals`,
in order), exactly what no input since has called.
-/

namespace Lib

namespace Machine

variable {σ ε α : Type}

/-- All that comes in along a run, each with the inputs from its own step on. -/
def arrivals (m : Machine σ ε) (adds : σ → ε → List α) : σ → List ε → List (α × List ε)
  | _, [] => []
  | s, e :: evs => (adds s e).map (·, e :: evs) ++ m.arrivals adds (m.step s e) evs

/-- None of the inputs calls the item. -/
def uncalled (calls : ε → α → Bool) (evs : List ε) (a : α) : Bool := evs.all fun e => !calls e a

/-- A step lets in what it adds and lets go what its input calls. -/
structure CallQueue (m : Machine σ ε) (queue : σ → List α) (adds : σ → ε → List α)
    (calls : ε → α → Bool) : Prop where
  step : ∀ s e, queue (m.step s e) = (queue s ++ adds s e).filter fun a => !calls e a

variable {m : Machine σ ε} {queue : σ → List α} {adds : σ → ε → List α} {calls : ε → α → Bool}

@[simp] theorem uncalled_nil (a : α) : uncalled calls [] a = true := rfl

@[simp] theorem uncalled_cons (e : ε) (evs : List ε) (a : α) :
    uncalled calls (e :: evs) a = (!calls e a && uncalled calls evs a) := rfl

theorem map_fst_arrivals_cons (s : σ) (e : ε) (evs : List ε) :
    (m.arrivals adds s (e :: evs)).map Prod.fst
      = adds s e ++ (m.arrivals adds (m.step s e) evs).map Prod.fst := by
  have hnew : ((adds s e).map (·, e :: evs)).map Prod.fst = adds s e := by
    rw [List.map_map]
    exact List.map_id _
  rw [arrivals, List.map_append, hnew]

/-- A log of all that comes in. -/
theorem log_runFrom (log : σ → List α) (hlog : ∀ s e, log (m.step s e) = log s ++ adds s e)
    (s : σ) (evs : List ε) :
    log (m.runFrom s evs) = log s ++ (m.arrivals adds s evs).map Prod.fst := by
  induction evs generalizing s with
  | nil => exact (List.append_nil _).symm
  | cons e evs ih => rw [runFrom_cons, ih, hlog, map_fst_arrivals_cons, List.append_assoc]

namespace CallQueue

/-- **A queue holds what came in and has not been called since.** -/
theorem queue_runFrom (h : CallQueue m queue adds calls) (s : σ) (evs : List ε) :
    queue (m.runFrom s evs) = (queue s).filter (uncalled calls evs)
      ++ ((m.arrivals adds s evs).filter fun p => uncalled calls p.2 p.1).map Prod.fst := by
  induction evs generalizing s with
  | nil =>
      have hall : (queue s).filter (uncalled calls []) = queue s :=
        List.filter_eq_self.mpr fun _ _ => rfl
      rw [hall]
      exact (List.append_nil _).symm
  | cons e evs ih =>
      have hnew : (((adds s e).map (·, e :: evs)).filter
          fun p => uncalled calls p.2 p.1).map Prod.fst
          = (adds s e).filter (uncalled calls (e :: evs)) := by
        rw [List.filter_map, List.map_map]
        exact List.map_id _
      have hold : ((queue s ++ adds s e).filter fun a => !calls e a).filter (uncalled calls evs)
          = (queue s ++ adds s e).filter (uncalled calls (e :: evs)) := by
        rw [List.filter_filter]
        exact List.filter_congr fun a _ => Bool.and_comm ..
      rw [runFrom_cons, ih, h.step, hold, arrivals, List.filter_append, List.filter_append,
        List.map_append, hnew, List.append_assoc]

end CallQueue

end Machine

end Lib
