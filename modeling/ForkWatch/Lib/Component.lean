import ForkWatch.Lib.Machine

/-!
# Machines made of machines

A part of a machine may be a machine itself: every input of the whole is, for the part, a
list of inputs of its own, its feed. Then a run of the whole leaves the part where its
feed alone takes it (`Component.run`), so that whatever holds of all runs of the part
holds of it in the whole. Parts have parts (`Component.comp`). The relation between the
whole and the part need not be a function: some of the part may be left to the whole.

`transcript` is what the steps of a run bring, in order, each taken in its own state.
-/

namespace Lib

variable {σ τ ε δ α : Type}

namespace Machine

/-- What the steps of a run bring, one after the other. -/
def transcript (m : Machine σ ε) (f : σ → ε → List α) : σ → List ε → List α
  | _, [] => []
  | s, e :: evs => f s e ++ m.transcript f (m.step s e) evs

variable {m : Machine σ ε} {f : σ → ε → List α}

@[simp] theorem transcript_nil (s : σ) : m.transcript f s [] = [] := rfl

theorem transcript_append (s : σ) (xs ys : List ε) :
    m.transcript f s (xs ++ ys) = m.transcript f s xs ++ m.transcript f (m.runFrom s xs) ys := by
  induction xs generalizing s with
  | nil => rfl
  | cons e xs ih =>
      rw [List.cons_append, transcript, ih, transcript, List.append_assoc, runFrom_cons]

theorem transcript_snoc (xs : List ε) (e : ε) :
    m.transcript f m.init (xs ++ [e]) = m.transcript f m.init xs ++ f (m.run xs) e := by
  rw [transcript_append, transcript, transcript_nil, List.append_nil]
  rfl

theorem transcript_filterMap {β : Type} (pick : α → Option β) (s : σ) (evs : List ε) :
    (m.transcript f s evs).filterMap pick
      = m.transcript (fun s e => (f s e).filterMap pick) s evs := by
  induction evs generalizing s with
  | nil => rfl
  | cons e evs ih => rw [transcript, List.filterMap_append, ih, transcript]

/-- What every step brings less of, the run brings less of. -/
theorem transcript_sublist {g : σ → ε → List α} (h : ∀ s e, (f s e).Sublist (g s e)) (s : σ)
    (evs : List ε) : (m.transcript f s evs).Sublist (m.transcript g s evs) := by
  induction evs generalizing s with
  | nil => exact List.Sublist.refl _
  | cons e evs ih => exact (h s e).append (ih (m.step s e))

/-- What is in the transcript, some step of the run brought. -/
theorem exists_of_mem_transcript {a : α} {evs : List ε} (ha : a ∈ m.transcript f m.init evs) :
    ∃ earlier e, earlier ++ [e] <+: evs ∧ a ∈ f (m.run earlier) e := by
  induction evs using List.reverseRecOn with
  | nil => exact absurd ha List.not_mem_nil
  | append_singleton evs e ih =>
      rw [transcript_snoc] at ha
      rcases List.mem_append.mp ha with hearlier | hlast
      · obtain ⟨earlier, e', hbefore, hbrought⟩ := ih hearlier
        exact ⟨earlier, e', hbefore.trans (List.prefix_append evs [e]), hbrought⟩
      · exact ⟨evs, e, List.prefix_rfl, hlast⟩

end Machine

/-- The part `n` of the machine `m`, with its feed. -/
structure Component (m : Machine σ ε) (n : Machine τ δ) (part : σ → τ → Prop)
    (feed : σ → ε → List δ) : Prop where
  init : part m.init n.init
  step : ∀ s t e, part s t → part (m.step s e) (n.runFrom t (feed s e))

namespace Component

variable {ρ η : Type} {m : Machine σ ε} {n : Machine τ δ} {feed : σ → ε → List δ}

/-- **A part is where its feed alone takes it.** -/
theorem runFrom {part : σ → τ → Prop} (h : Component m n part feed) {s : σ} {t : τ}
    (hs : part s t) (evs : List ε) :
    part (m.runFrom s evs) (n.runFrom t (m.transcript feed s evs)) := by
  induction evs generalizing s t with
  | nil => exact hs
  | cons e evs ih =>
      rw [Machine.runFrom_cons, Machine.transcript, Machine.runFrom_append]
      exact ih (h.step s t e hs)

theorem run {part : σ → τ → Prop} (h : Component m n part feed) (evs : List ε) :
    part (m.run evs) (n.run (m.transcript feed m.init evs)) :=
  h.runFrom h.init evs

/-- A part of a part. -/
theorem comp {part : σ → τ} (h : Component m n (fun s t => part s = t) feed) {k : Machine ρ η}
    {inner : τ → ρ → Prop} {innerFeed : τ → δ → List η} (h' : Component n k inner innerFeed) :
    Component m k (fun s u => inner (part s) u)
      (fun s e => n.transcript innerFeed (part s) (feed s e)) where
  init := by
    rw [h.init]
    exact h'.init
  step := by
    intro s u e hs
    rw [h.step s (part s) e rfl]
    exact h'.runFrom hs _

end Component

end Lib
