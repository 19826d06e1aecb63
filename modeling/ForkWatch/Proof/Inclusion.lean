import ForkWatch.Proof.Missing

/-!
# Does a clean inclusion ever become an incident?

Bodies and pool snapshots race. The inclusion of a hash is looked at in two
places: when the hash leaves the pool, and when its candidate comes up in the
review. Between them it can have become a candidate, but the acts of the pool's
side that could be seen outside check it again (`Act`), and the next snapshot
clears the candidate (`candidate_of_included`). So from its capture on, whatever
the order, the pool tells nothing of it and starts no loop for it.
-/

namespace ForkWatch.Proof

open Lib ChainContext TxTracker

variable {N : Tx → Prop} {h : Hash}

/-- The pool tells an incident of the hash, or starts a loop for it. -/
def OfPool (h : Hash) : TxReport → Prop
  | .submitted row => row.firstHash = h ∧ row.lostAtHeight = none
  | .loopStarted record => record.hash = h ∧ record.trigger = .mempoolDrop
  | _ => False

/-- Nothing of the kind was reported since `rs`. -/
def QuietSince (h : Hash) (rs rs' : List TxReport) : Prop :=
  ∃ new, rs' = rs ++ new ∧ ∀ r ∈ new, ¬ OfPool h r

theorem QuietSince.refl (h : Hash) (rs : List TxReport) : QuietSince h rs rs :=
  ⟨[], by rw [List.append_nil], by simp⟩

theorem QuietSince.trans {rs rs' rs'' : List TxReport} (hq : QuietSince h rs rs')
    (hq' : QuietSince h rs' rs'') : QuietSince h rs rs'' := by
  obtain ⟨new, rfl, hnew⟩ := hq
  obtain ⟨new', rfl, hnew'⟩ := hq'
  refine ⟨new ++ new', List.append_assoc .., fun r hr => ?_⟩
  rcases List.mem_append.mp hr with hr | hr
  · exact hnew r hr
  · exact hnew' r hr

/-! ## One step -/

/-- The acts check the inclusion before they tell or start anything. -/
theorem quiet_act {side : Side} {t t' : TxTracker} (hact : Act N side t t')
    (hin : t.includedHashes.has h = true) : QuietSince h t.history t'.history := by
  cases hact with
  | writePool => exact QuietSince.refl h _
  | writeQueue => exact QuietSince.refl h _
  | queued _ entry H =>
      refine ⟨[.queued entry H], rfl, fun r hr => ?_⟩
      rw [List.mem_singleton.mp hr]
      exact id
  | start _ _ record _ hdrop =>
      obtain ⟨timers, ever, calls, rs, heq, hof⟩ := startResubmitRetry_eq t record
      rw [heq]
      refine ⟨rs, rfl, fun r hr hpool => ?_⟩
      cases r with
      | loopStarted record' =>
          obtain rfl : record' = record := hof _ hr
          have hout := hdrop hpool.2
          rw [hpool.1, hin] at hout
          exact absurd hout (by simp)
      | submitted row => exact hof _ hr
      | _ => exact hpool
  | stop => exact QuietSince.refl h _
  | tell _ _ tx status extra _ hi =>
      rcases finalize_cases t tx status extra with ⟨-, heq⟩ | ⟨-, heq⟩
      · rw [heq]
        exact QuietSince.refl h _
      · rw [heq]
        refine ⟨[.submitted (incidentRow t tx status extra)], rfl, fun r hr hpool => ?_⟩
        rw [List.mem_singleton.mp hr] at hpool
        obtain ⟨hfirst, hlost⟩ := hpool
        cases side with
        | pool =>
            have hout := (hi.unseen rfl).2
            change tx.hash = h at hfirst
            rw [hfirst, hin] at hout
            exact absurd hout (by simp)
        | review => exact hi.lost rfl hlost

theorem quiet_step {c : ChainContext} (hs : Sourced (fun _ => True) c.txTracker) (e : Event)
    (hin : c.txTracker.includedHashes.has h = true) :
    QuietSince h c.txTracker.history (c.step e).txTracker.history := by
  obtain ⟨u, side, hu, hacts⟩ := step_acts hs (supplies_true c e)
  obtain ⟨rs, hhist, hnews⟩ := hu.history
  have hstart : QuietSince h c.txTracker.history u.history := by
    refine ⟨rs, hhist, fun r hr hpool => ?_⟩
    have hnone := hnews r hr
    cases r with
    | submitted row => exact hnone
    | loopStarted record => exact hnone
    | _ => exact hpool
  have hin' : u.includedHashes.has h = true := by
    rw [← hacts.sameGround.includedHashes]
    exact included_step_mono c e hin
  have hall := hacts.preserves (I := fun v => QuietSince h c.txTracker.history v.history ∧
      v.includedHashes.has h = true) ?_ ⟨hstart, hin'⟩
  · exact hall.1
  · intro v v' hv hact
    refine ⟨hv.1.trans (quiet_act hact hv.2), ?_⟩
    rw [hact.sameGround.includedHashes]
    exact hv.2

/-- A snapshot clears the candidate of an included hash. -/
theorem candidate_of_included {t : TxTracker} (hs : Sourced (fun _ => True) t) (hg : GuardsTold t)
    (hin : t.includedHashes.has h = true) (node : NodeName) (raw : List Extrinsic) :
    (t.pollPendingPool node (some raw)).missingCandidates.get? h = none := by
  have hall : ∀ tx ∈ extractTrackedExtrinsics raw t.lastKnownHeight, True := fun _ _ => trivial
  have hstanding := standing_pollPendingPool hs hg node hall h
  rw [hin] at hstanding
  refine (congrArg Prod.fst hstanding).trans ?_
  cases beforeReview t (snapshot raw t.lastKnownHeight) h with
  | none => rfl
  | some c => rfl

/-- What a captured body contained is included. -/
theorem included_of_captured (config : ChainConfig) (opts : TxOptions) (evs : List Event)
    {x : Hash} {n : Nat} {txs : List Tx}
    (hcap : .captured x n txs ∈ ((machine config opts).run evs).txTracker.history) {tx : Tx}
    (htx : tx ∈ txs) :
    ((machine config opts).run evs).txTracker.includedHashes.has tx.hash = true := by
  induction evs using List.reverseRecOn with
  | nil => exact absurd hcap (by simp [machine])
  | append_singleton evs e ih =>
      rw [Machine.run_snoc] at hcap ⊢
      rcases mem_history_step hcap with hold | ⟨i, body, rfl, ht, rfl⟩
      · exact included_step_mono _ e (ih hold)
      · obtain ⟨rs, heq, -⟩ :=
          captureBody_eq ((machine config opts).run evs).txTracker x n body
        have hstep : (((machine config opts).run evs).step
            (.resume i (.body (some body)))).txTracker
              = ((machine config opts).run evs).txTracker.captureBody x n body := by
          simp only [ChainContext.step, ht]
          rfl
        change (((machine config opts).run evs).step
          (.resume i (.body (some body)))).txTracker.includedHashes.has tx.hash = true
        rw [hstep, heq]
        exact (has_foldl_add _ _ _).mpr (Or.inr ⟨tx, htx, rfl⟩)

/-! ## Runs -/

/--
**A clean inclusion stays clean.** Once some captured body contains the hash, the
pool tells no incident of it and starts no loop for it; and from the next snapshot
on it is no candidate.
-/
theorem inclusion_stays_clean (config : ChainConfig) (opts : TxOptions) (pre post : List Event)
    {x : Hash} {n : Nat} {txs : List Tx} {tx : Tx}
    (hcap : .captured x n txs ∈ ((machine config opts).run pre).txTracker.history)
    (htx : tx ∈ txs) :
    QuietSince tx.hash ((machine config opts).run pre).txTracker.history
        ((machine config opts).run (pre ++ post)).txTracker.history ∧
      ∀ node raw, .poll node (some raw) ∈ post →
        ((machine config opts).run (pre ++ post)).txTracker.missingCandidates.get? tx.hash
          = none := by
  induction post using List.reverseRecOn with
  | nil =>
      rw [List.append_nil]
      exact ⟨QuietSince.refl _ _, fun _ _ hmem => absurd hmem (by simp)⟩
  | append_singleton post e ih =>
      obtain ⟨hquiet, hclear⟩ := ih
      have hs := sourced_run config opts (pre ++ post)
      have hg := guardsTold_run config opts (pre ++ post)
      -- once included, a hash stays so
      have hin : ((machine config opts).run (pre ++ post)).txTracker.includedHashes.has tx.hash
          = true := by
        rw [Machine.run_append]
        exact Machine.guarded_invariant_from (m := machine config opts) (G := fun _ _ => True)
          (fun c e hc _ => included_step_mono c e hc) (included_of_captured config opts pre hcap htx)
          (Machine.guarded_of_forall fun _ _ => trivial)
      rw [← List.append_assoc, Machine.run_snoc]
      refine ⟨hquiet.trans (quiet_step hs e hin), ?_⟩
      intro node raw hmem
      rcases snapshot_or_not e with ⟨node', raw', rfl⟩ | hno
      · exact candidate_of_included hs hg hin node' raw'
      -- without a snapshot, candidates are not reviewed
      · have hkept := (pool_of_noSnapshot hs hno).2
        have hmem' : .poll node (some raw) ∈ post := by
          rcases List.mem_append.mp hmem with hmem | hmem
          · exact hmem
          · exact absurd (List.mem_singleton.mp hmem).symm (hno node raw)
        refine Eq.trans ?_ (hclear node raw hmem')
        exact congrArg (fun m => OrdMap.get? m tx.hash) hkept

/-- The transfer has left the pool when its body is captured. -/
def racedRun : List Event :=
  [.poll "n" (some [transfer]), .poll "n" (some [])]
    ++ captures smallLineage "n" "a1" [transfer]

theorem inclusion_stays_clean_racedRun :
    ((machine {} {}).run (racedRun ++ [.poll "n" (some [])])).txTracker.missingCandidates.get? "t"
      = none := by
  have hcap : .captured "a1" 1 [pooledTx "t"]
      ∈ ((machine {} {}).run racedRun).txTracker.history := by decide
  exact (inclusion_stays_clean {} {} racedRun [.poll "n" (some [])] hcap
    (List.mem_singleton_self _)).2 "n" [] (List.mem_singleton_self _)

example : ((machine {} {}).run racedRun).txTracker.missingCandidates.has "t" = true := by decide

end ForkWatch.Proof
