import Mathlib

/-!
# Runs of a deterministic machine

A machine reads one input at a time; all nondeterminism (which input comes next,
what an awaited call answers) is in the list of inputs. A *run* is such a list,
so "for every interleaving" is "for every list of inputs".

Four rules carry every argument about runs:

* `run_invariant` — what holds at the start and survives every step holds after
  every run;
* `guarded_invariant` — the same when each step is also known to meet a guard;
* `always_iff_guarded` — when, from a state that has the property, the next
  state has it exactly if the guard holds, then the property holds all along a
  run exactly if every step of the run meets the guard. This is the rule that
  turns a step condition into the *exact* condition on a run;
* `run_iff_guarded` — the same for a property that is never regained: it holds at
  the end of a run exactly if every step of the run meets the guard.
-/

namespace Lib

/-- A start state and what each input does. -/
structure Machine (σ ε : Type) where
  /-- Where every run starts. -/
  init : σ
  /-- One input. -/
  step : σ → ε → σ

namespace Machine

variable {σ ε : Type} (m : Machine σ ε)

/-- The state after a list of inputs, from a given state. -/
def runFrom (s : σ) (evs : List ε) : σ := evs.foldl m.step s

/-- The state after a list of inputs, from the start. -/
def run (evs : List ε) : σ := m.runFrom m.init evs

/-- Every step of the run meets the guard in the state it is taken from. -/
def Guarded (G : σ → ε → Prop) : σ → List ε → Prop
  | _, [] => True
  | s, e :: evs => G s e ∧ Guarded G (m.step s e) evs

instance decidableGuarded {G : σ → ε → Prop} [∀ s e, Decidable (G s e)] :
    ∀ (s : σ) (evs : List ε), Decidable (m.Guarded G s evs)
  | _, [] => isTrue trivial
  | s, e :: evs => @instDecidableAnd _ _ _ (decidableGuarded (m.step s e) evs)

variable {m}

@[simp] theorem runFrom_nil (s : σ) : m.runFrom s [] = s := rfl

@[simp] theorem runFrom_cons (s : σ) (e : ε) (evs : List ε) :
    m.runFrom s (e :: evs) = m.runFrom (m.step s e) evs := rfl

theorem runFrom_append (s : σ) (xs ys : List ε) :
    m.runFrom s (xs ++ ys) = m.runFrom (m.runFrom s xs) ys :=
  List.foldl_append ..

@[simp] theorem run_nil : m.run [] = m.init := rfl

theorem run_append (xs ys : List ε) : m.run (xs ++ ys) = m.runFrom (m.run xs) ys :=
  runFrom_append ..

theorem run_snoc (xs : List ε) (e : ε) : m.run (xs ++ [e]) = m.step (m.run xs) e := by
  rw [run_append]; rfl

theorem guarded_append {G : σ → ε → Prop} {s : σ} {xs ys : List ε} :
    m.Guarded G s (xs ++ ys) ↔ m.Guarded G s xs ∧ m.Guarded G (m.runFrom s xs) ys := by
  induction xs generalizing s with
  | nil => simp [Guarded]
  | cons e xs ih => simp [Guarded, ih, and_assoc]

theorem guarded_snoc {G : σ → ε → Prop} {s : σ} {xs : List ε} {e : ε} :
    m.Guarded G s (xs ++ [e]) ↔ m.Guarded G s xs ∧ G (m.runFrom s xs) e := by
  rw [guarded_append]; simp [Guarded]

/-- A guard that only looks at the input holds along a run when it holds of every input. -/
theorem guarded_of_forall {A : ε → Prop} {s : σ} {evs : List ε} (h : ∀ e ∈ evs, A e) :
    m.Guarded (fun _ e => A e) s evs := by
  induction evs generalizing s with
  | nil => trivial
  | cons e evs ih => exact ⟨h e (by simp), ih fun e' he' => h e' (by simp [he'])⟩

theorem forall_of_guarded {A : ε → Prop} {s : σ} {evs : List ε}
    (h : m.Guarded (fun _ e => A e) s evs) : ∀ e ∈ evs, A e := by
  induction evs generalizing s with
  | nil => simp
  | cons e evs ih => exact List.forall_mem_cons.mpr ⟨h.1, ih h.2⟩

/-- A guard that holds wherever a run can be split holds along the run. -/
theorem guarded_of_splits {G : σ → ε → Prop} {s : σ} {evs : List ε}
    (h : ∀ pre e post, evs = pre ++ e :: post → G (m.runFrom s pre) e) : m.Guarded G s evs := by
  induction evs generalizing s with
  | nil => trivial
  | cons e evs ih =>
      refine ⟨h [] e evs rfl, ih fun pre e' post heq => ?_⟩
      exact h (e :: pre) e' post (congrArg (e :: ·) heq)

/-- A run is guarded if the guard holds of every input, after the inputs before it. -/
theorem guarded_iff {G : σ → ε → Prop} {evs : List ε} :
    m.Guarded G m.init evs ↔ ∀ pre e, pre ++ [e] <+: evs → G (m.run pre) e := by
  refine ⟨fun h pre e hpre => ?_, fun h => ?_⟩
  · obtain ⟨post, rfl⟩ := hpre
    rw [guarded_append, guarded_snoc] at h
    exact h.1.2
  · refine guarded_of_splits fun pre e post heq => h pre e ⟨post, ?_⟩
    rw [heq, List.append_assoc, List.singleton_append]

theorem guarded_and {G H : σ → ε → Prop} {s : σ} {evs : List ε}
    (hg : m.Guarded G s evs) (hh : m.Guarded H s evs) :
    m.Guarded (fun s e => G s e ∧ H s e) s evs := by
  induction evs generalizing s with
  | nil => trivial
  | cons e evs ih => exact ⟨⟨hg.1, hh.1⟩, ih hg.2 hh.2⟩

/-- What every guarded step preserves survives a guarded run. -/
theorem guarded_invariant_from {G : σ → ε → Prop} {I : σ → Prop}
    (hstep : ∀ s e, I s → G s e → I (m.step s e)) {s : σ} {evs : List ε}
    (h : I s) (hg : m.Guarded G s evs) : I (m.runFrom s evs) := by
  induction evs generalizing s with
  | nil => exact h
  | cons e evs ih => exact ih (hstep s e h hg.1) hg.2

/-- **The invariant rule for guarded runs.** -/
theorem guarded_invariant {G : σ → ε → Prop} {I : σ → Prop} (hinit : I m.init)
    (hstep : ∀ s e, I s → G s e → I (m.step s e)) {evs : List ε}
    (hg : m.Guarded G m.init evs) : I (m.run evs) :=
  guarded_invariant_from hstep hinit hg

/-- **The invariant rule for runs whose inputs are all admissible.** -/
theorem run_invariant {A : ε → Prop} {I : σ → Prop} (hinit : I m.init)
    (hstep : ∀ s e, I s → A e → I (m.step s e)) {evs : List ε}
    (hA : ∀ e ∈ evs, A e) : I (m.run evs) :=
  guarded_invariant hinit hstep (guarded_of_forall hA)

/--
**The exact condition on a run.**

Under the invariant `I`, a step from a state with `P` leads to a state with `P`
exactly if it meets the guard. Then `P` holds in every state of a run exactly if
every step of the run meets the guard. `A` is what the environment guarantees.
-/
theorem always_iff_guarded {A G : σ → ε → Prop} {I P : σ → Prop}
    (hinit : I m.init) (hI : ∀ s e, I s → A s e → I (m.step s e))
    (hP₀ : P m.init) (hP : ∀ s e, I s → A s e → P s → (P (m.step s e) ↔ G s e))
    {evs : List ε} (hA : m.Guarded A m.init evs) :
    (∀ pre, pre <+: evs → P (m.run pre)) ↔ m.Guarded G m.init evs := by
  induction evs using List.reverseRecOn with
  | nil =>
      refine ⟨fun _ => trivial, fun _ pre hpre => ?_⟩
      rw [List.prefix_nil.mp hpre]; exact hP₀
  | append_singleton evs e ih =>
      rw [guarded_snoc] at hA
      obtain ⟨hA', hAe⟩ := hA
      have hIe : I (m.run evs) := guarded_invariant hinit hI hA'
      rw [guarded_snoc, ← ih hA']
      refine ⟨?_, ?_⟩
      · intro h
        refine ⟨fun pre hpre => h pre (hpre.trans (List.prefix_append ..)), ?_⟩
        have hPs : P (m.run evs) := h evs (List.prefix_append ..)
        have hPe : P (m.run (evs ++ [e])) := h _ (List.prefix_refl _)
        rw [run_snoc] at hPe
        exact (hP _ e hIe hAe hPs).mp hPe
      · rintro ⟨h, hG⟩ pre hpre
        rcases List.prefix_concat_iff.mp hpre with rfl | hpre'
        · rw [run_snoc]
          exact (hP _ e hIe hAe (h evs (List.prefix_refl _))).mpr hG
        · exact h pre hpre'

/--
**The exact condition on a run, for what is never regained.**

Under the invariant `I`, a step leads to a state with `P` exactly from a state with
`P` and if it meets the guard. Then `P` holds at the end of a run exactly if every
step of the run meets the guard.
-/
theorem run_iff_guarded {A G : σ → ε → Prop} {I P : σ → Prop} (hinit : I m.init)
    (hI : ∀ s e, I s → A s e → I (m.step s e)) (hP₀ : P m.init)
    (hP : ∀ s e, I s → A s e → (P (m.step s e) ↔ P s ∧ G s e)) {evs : List ε}
    (hA : m.Guarded A m.init evs) : P (m.run evs) ↔ m.Guarded G m.init evs := by
  induction evs using List.reverseRecOn with
  | nil => exact ⟨fun _ => trivial, fun _ => hP₀⟩
  | append_singleton evs e ih =>
      rw [guarded_snoc] at hA
      have hIe : I (m.run evs) := guarded_invariant hinit hI hA.1
      rw [guarded_snoc, ← ih hA.1, run_snoc]
      exact hP _ e hIe hA.2

end Machine

end Lib
