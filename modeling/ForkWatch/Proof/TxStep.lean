import ForkWatch.Proof.Step

/-!
# What the transaction tracker does to itself

The tracker holds two kinds of state. Bodies, canonical inclusions and the review
queue belong to the blocks; retry loops, pool snapshots and incidents belong to
the pool. Resubmission, polling and reporting leave the first kind alone, and
each of them adds reports of known shape only: that is `Kept`.
-/

namespace ForkWatch.Proof

open Lib ChainContext TxTracker

/-! ## Frames -/

/-- What belongs to the blocks is kept, and all new reports satisfy `p`. -/
structure Kept (p : TxReport → Prop) (t t' : TxTracker) : Prop where
  opts : t'.opts = t.opts
  blockExtrinsics : t'.blockExtrinsics = t.blockExtrinsics
  processedForkHeights : t'.processedForkHeights = t.processedForkHeights
  lastCanonicalWalkHeight : t'.lastCanonicalWalkHeight = t.lastCanonicalWalkHeight
  latestBySignerNonce : t'.latestBySignerNonce = t.latestBySignerNonce
  includedHashes : t'.includedHashes = t.includedHashes
  pendingReorgReview : t'.pendingReorgReview = t.pendingReorgReview
  history : ∃ rs, t'.history = t.history ++ rs ∧ ∀ r ∈ rs, p r

theorem Kept.refl {p : TxReport → Prop} (t : TxTracker) : Kept p t t where
  opts := rfl
  blockExtrinsics := rfl
  processedForkHeights := rfl
  lastCanonicalWalkHeight := rfl
  latestBySignerNonce := rfl
  includedHashes := rfl
  pendingReorgReview := rfl
  history := ⟨[], by simp, by simp⟩

theorem Kept.trans {p : TxReport → Prop} {t t' t'' : TxTracker} (h : Kept p t t')
    (h' : Kept p t' t'') : Kept p t t'' where
  opts := h'.opts.trans h.opts
  blockExtrinsics := h'.blockExtrinsics.trans h.blockExtrinsics
  processedForkHeights := h'.processedForkHeights.trans h.processedForkHeights
  lastCanonicalWalkHeight := h'.lastCanonicalWalkHeight.trans h.lastCanonicalWalkHeight
  latestBySignerNonce := h'.latestBySignerNonce.trans h.latestBySignerNonce
  includedHashes := h'.includedHashes.trans h.includedHashes
  pendingReorgReview := h'.pendingReorgReview.trans h.pendingReorgReview
  history := appended_trans h.history h'.history

theorem Kept.mono {p q : TxReport → Prop} {t t' : TxTracker} (h : Kept p t t')
    (hpq : ∀ r, p r → q r) : Kept q t t' := by
  obtain ⟨rs, hrs, hp⟩ := h.history
  exact { h with history := ⟨rs, hrs, fun r hr => hpq r (hp r hr)⟩ }

/-- A loop whose turns keep what they find, as long as what came before was kept. -/
theorem kept_foldl {α : Type} {p : TxReport → Prop} {f : TxTracker → α → TxTracker}
    {l : List α} {t : TxTracker} (hf : ∀ u, Kept p t u → ∀ a ∈ l, Kept p u (f u a)) :
    Kept p t (l.foldl f t) :=
  List.foldlRecOn l f (Kept.refl t) fun u hu a ha => hu.trans (hf u hu a ha)

theorem kept_emit {p : TxReport → Prop} (t : TxTracker) {r : TxReport} (h : p r) :
    Kept p t (t.emit r) := by
  have hnew : ∀ r' ∈ [r], p r' := fun r' hr' => List.mem_singleton.mp hr' ▸ h
  exact { (Kept.refl t : Kept p t t) with history := ⟨[r], rfl, hnew⟩ }

/-! ## Resubmission -/

/-- Reports of the ticks of one record's loop. -/
def OfTick (record : RetryRecord) : TxReport → Prop
  | .attempted h => h = record.hash
  | .resubmitAttempt row => row.hash = record.hash
  | _ => False

/-- Reports about retrying one record. -/
def ForRecord (record : RetryRecord) : TxReport → Prop
  | .loopStarted r => r = record
  | r => OfTick record r

theorem OfTick.forRecord {record : RetryRecord} {r : TxReport} (h : OfTick record r) :
    ForRecord record r := by
  cases r with
  | loopStarted _ => exact absurd h id
  | _ => exact h

theorem kept_resubmitOnce (t : TxTracker) (record : RetryRecord) :
    Kept (OfTick record) t (t.resubmitOnce record) := by
  have hattempt : Kept (OfTick record) t (t.emit (.attempted record.hash)) := kept_emit t rfl
  unfold resubmitOnce
  dsimp only
  split
  · exact hattempt.trans (kept_emit _ rfl)
  · exact hattempt.trans { Kept.refl _ with }

theorem kept_stopResubmitRetry {p : TxReport → Prop} (t : TxTracker) (hash : Hash) :
    Kept p t (t.stopResubmitRetry hash) := { Kept.refl t with }

theorem kept_tick (t : TxTracker) (record : RetryRecord) (attempts : Nat) :
    Kept (OfTick record) t (t.tick record attempts).1 := by
  unfold tick
  split
  · split
    · have hconfirm : Kept (OfTick record) t
          (if 0 < attempts then t.recordConfirmedInclusion record else t) := by
        split
        · exact kept_emit t rfl
        · exact Kept.refl t
      exact hconfirm.trans (kept_stopResubmitRetry ..)
    · exact kept_stopResubmitRetry ..
  · split
    · exact kept_stopResubmitRetry ..
    · split
      · exact kept_stopResubmitRetry ..
      · split
        · exact Kept.refl t
        · exact kept_resubmitOnce t record

/-- **What a tick does**: it stops, confirms and stops, waits, or makes an attempt. -/
theorem tick_cases (t : TxTracker) (record : RetryRecord) (n : Nat) :
    (t.tick record n = (t.stopResubmitRetry record.hash, n) ∧
      (n = 0 ∨ (t.latestFor record.signer record.nonce).map Inclusion.hash ≠ some record.hash)) ∨
    (t.tick record n = ((t.recordConfirmedInclusion record).stopResubmitRetry record.hash, n) ∧
      0 < n ∧ (t.latestFor record.signer record.nonce).map Inclusion.hash = some record.hash) ∨
    (t.tick record n = (t, n) ∧ t.latestFor record.signer record.nonce = none) ∨
    (t.tick record n = (t.resubmitOnce record, n + 1) ∧
      t.latestFor record.signer record.nonce = none ∧ t.isExpired record.toTx = false ∧
      n < t.opts.maxResubmitRetries) := by
  unfold tick
  cases hl : t.latestFor record.signer record.nonce with
  | some latest =>
      dsimp only
      by_cases hh : latest.hash = record.hash
      · rw [if_pos hh]
        rcases Nat.eq_zero_or_pos n with hn | hn
        · subst hn
          exact Or.inl ⟨rfl, Or.inl rfl⟩
        · rw [if_pos hn]
          exact Or.inr (Or.inl ⟨rfl, hn, by simp [hh]⟩)
      · rw [if_neg hh]
        exact Or.inl ⟨rfl, Or.inr (by simpa using hh)⟩
  | none =>
      dsimp only
      split
      · exact Or.inl ⟨rfl, Or.inr (by simp)⟩
      · rename_i hera
        split
        · exact Or.inl ⟨rfl, Or.inr (by simp)⟩
        · rename_i hmax
          split
          · exact Or.inr (Or.inr (Or.inl ⟨rfl, rfl⟩))
          · exact Or.inr (Or.inr (Or.inr ⟨rfl, rfl, by simpa using hera, by omega⟩))

/-- An attempt is reported, and at most its failure with it. -/
theorem resubmitOnce_spec (t : TxTracker) (record : RetryRecord) :
    (t.resubmitOnce record).resubmitRetryTimers = t.resubmitRetryTimers ∧
      (t.resubmitOnce record).pendingPool = t.pendingPool ∧
      (t.resubmitOnce record).missingCandidates = t.missingCandidates ∧
      ∃ rs, (t.resubmitOnce record).history = t.history ++ .attempted record.hash :: rs ∧
        ∀ r ∈ rs, ∃ row, r = .resubmitAttempt row ∧ row.result = .failed := by
  unfold resubmitOnce
  dsimp only
  split
  · refine ⟨rfl, rfl, rfl, [.resubmitAttempt (resubmitRow record .failed
      (some "no connected nodes"))], by simp [emit], ?_⟩
    intro r hr
    exact ⟨_, List.mem_singleton.mp hr, rfl⟩
  · exact ⟨rfl, rfl, rfl, [], rfl, by simp⟩

/-- A tick touches no loop but its own, and neither the pool nor the candidates. -/
theorem tick_frame (t : TxTracker) (record : RetryRecord) (n : Nat) :
    (t.tick record n).1.pendingPool = t.pendingPool ∧
      (t.tick record n).1.missingCandidates = t.missingCandidates ∧
      ((t.tick record n).1.resubmitRetryTimers = t.resubmitRetryTimers ∨
        (t.tick record n).1.resubmitRetryTimers = t.resubmitRetryTimers.erase record.hash) := by
  rcases tick_cases t record n with ⟨heq, -⟩ | ⟨heq, -⟩ | ⟨heq, -⟩ | ⟨heq, -⟩
  · rw [heq]
    exact ⟨rfl, rfl, Or.inr rfl⟩
  · rw [heq]
    exact ⟨rfl, rfl, Or.inr rfl⟩
  · rw [heq]
    exact ⟨rfl, rfl, Or.inl rfl⟩
  · rw [heq]
    obtain ⟨htimers, hpool, hcand, -⟩ := resubmitOnce_spec t record
    exact ⟨hpool, hcand, Or.inl htimers⟩

theorem get?_tick_ne (t : TxTracker) (record : RetryRecord) (n : Nat) {x : Hash}
    (hne : record.hash ≠ x) :
    (t.tick record n).1.resubmitRetryTimers.get? x = t.resubmitRetryTimers.get? x := by
  rcases (tick_frame t record n).2.2 with heq | heq
  · rw [heq]
  · rw [heq, OrdMap.get?_erase, if_neg fun hx => hne hx.symm]

theorem kept_startResubmitRetry (t : TxTracker) (record : RetryRecord) :
    Kept (ForRecord record) t (t.startResubmitRetry record) := by
  unfold startResubmitRetry
  split
  · dsimp only
    generalize (if MAX_FINALIZED_HASHES ≤ t.everRetried.size then ∅ else t.everRetried).add
      record.hash = ever
    have hever : Kept (ForRecord record) t { t with everRetried := ever } := { Kept.refl t with }
    have hstart := hever.trans
      (kept_emit { t with everRetried := ever } (r := .loopStarted record) rfl)
    have htick := hstart.trans ((kept_tick _ record 0).mono fun _ => OfTick.forRecord)
    exact htick.trans { Kept.refl _ with }
  · exact Kept.refl t

theorem kept_retryTick (t : TxTracker) (hash : Hash) :
    Kept (fun r => ∃ loop, t.resubmitRetryTimers.get? hash = some loop ∧ OfTick loop.record r) t
      (t.retryTick hash) := by
  unfold retryTick
  cases hl : t.resubmitRetryTimers.get? hash with
  | none => exact Kept.refl t
  | some loop =>
      have htick := (kept_tick t loop.record loop.attempts).mono
        (q := fun r => ∃ loop', some loop = some loop' ∧ OfTick loop'.record r)
        fun r hr => ⟨loop, rfl, hr⟩
      exact htick.trans { Kept.refl _ with }

/-! ## Incidents -/

/-- The reports of one incident. -/
def IncidentOf (hash : Hash) (status : TxStatus) (lostAtHeight : Option Nat) : TxReport → Prop
  | .submitted row =>
      row.firstHash = hash ∧ row.status = status ∧ row.lostAtHeight = lostAtHeight
  | _ => False

theorem kept_finalize (t : TxTracker) (record : Tx) (hash : Hash) (status : TxStatus)
    (extra : FinalizeExtra) :
    Kept (IncidentOf hash status extra.lostAtHeight) t (t.finalize record hash status extra) := by
  unfold finalize
  split
  · exact Kept.refl t
  · generalize (if MAX_FINALIZED_HASHES ≤ t.finalizedHashes.size then ∅
      else t.finalizedHashes).add hash = seen
    have hseen : Kept (IncidentOf hash status extra.lostAtHeight) t
        { t with finalizedHashes := seen } := { Kept.refl t with }
    exact hseen.trans (kept_emit _ ⟨rfl, rfl, rfl⟩)

/-! ## The pending pool -/

/-- Reports of the pool's side: no block is captured, marked or reviewed. -/
def Plain : TxReport → Prop
  | .captured .. | .marked .. | .queued .. => False
  | .loopStarted r => r.trigger = .mempoolDrop
  | .submitted row => row.lostAtHeight = none
  | _ => True

theorem plain_of_ofTick {record : RetryRecord} {r : TxReport} (hr : OfTick record r) :
    Plain r := by
  cases r with
  | attempted _ => trivial
  | resubmitAttempt _ => trivial
  | _ => exact absurd hr id

theorem plain_of_forRecord {record : RetryRecord} (h : record.trigger = .mempoolDrop)
    {r : TxReport} (hr : ForRecord record r) : Plain r := by
  cases r with
  | loopStarted record' =>
      have hrec : record' = record := hr
      rw [hrec]
      exact h
  | attempted _ => trivial
  | resubmitAttempt _ => trivial
  | _ => exact absurd hr id

theorem plain_of_incident {hash : Hash} {status : TxStatus} {r : TxReport}
    (hr : IncidentOf hash status none r) : Plain r := by
  cases r with
  | submitted row => exact hr.2.2
  | _ => exact absurd hr id

theorem kept_pollVanished {p : TxReport → Prop} (current : OrdMap Hash Tx) (t : TxTracker)
    (e : Hash × Tx) : Kept p t (pollVanished current t e) := by
  unfold pollVanished onTxLeftPool
  split
  · exact Kept.refl t
  · split
    · exact Kept.refl t
    · split
      · exact { Kept.refl t with }
      · exact { Kept.refl t with }

theorem kept_pollPresent {p : TxReport → Prop} (t : TxTracker) (e : Hash × Tx) :
    Kept p t (t.pollPresent e) := by
  have hdebounce : Kept p t (t.debounceReappeared e.1) := by
    unfold debounceReappeared
    split
    · exact Kept.refl t
    · split
      · exact { Kept.refl t with }
      · exact { Kept.refl t with }
  unfold pollPresent
  dsimp only
  split
  · exact hdebounce
  · exact hdebounce.trans { Kept.refl _ with }

theorem kept_classifyMissing (t : TxTracker) (hash : Hash) (cand : Candidate) :
    Kept Plain t (t.classifyMissing hash cand) := by
  unfold classifyMissing
  split
  · dsimp only
    exact ((kept_finalize ..).mono fun _ => plain_of_incident).trans { Kept.refl _ with }
  · split
    · exact Kept.refl t
    · dsimp only
      exact ((kept_finalize ..).mono fun _ => plain_of_incident).trans { Kept.refl _ with }

theorem kept_reviewCandidate (current : OrdMap Hash Tx) (t : TxTracker) (e : Hash × Candidate) :
    Kept Plain t (reviewCandidate current t e) := by
  unfold reviewCandidate
  split
  · exact { Kept.refl t with }
  · split
    · exact Kept.refl t
    · have hset : Kept Plain t { t with
          missingCandidates := t.missingCandidates.modify e.1 fun _ =>
            { e.2 with missingSincePollCount := e.2.missingSincePollCount + 1 } } :=
        { Kept.refl t with }
      dsimp only
      split
      · exact hset
      · have hstart := (kept_startResubmitRetry { t with
          missingCandidates := t.missingCandidates.modify e.1 fun _ =>
            { e.2 with missingSincePollCount := e.2.missingSincePollCount + 1 } }
          (Candidate.retry { e.2 with missingSincePollCount := e.2.missingSincePollCount + 1 })).mono
          fun _ => plain_of_forRecord rfl
        exact (hset.trans hstart).trans (kept_classifyMissing _ e.1 _)

/-- **A poll keeps what belongs to the blocks.** -/
theorem kept_pollPendingPool (t : TxTracker) (node : NodeName)
    (answer : Option (List Extrinsic)) : Kept Plain t (t.pollPendingPool node answer) := by
  unfold pollPendingPool
  split
  · exact { Kept.refl t with }
  · rename_i raw
    dsimp only
    generalize (OrdMap.ofList ((extractTrackedExtrinsics raw t.lastKnownHeight).map
      fun tx => (tx.hash, tx)) : OrdMap Hash Tx) = current
    have h₁ : Kept Plain t (t.pendingPool.entries.foldl (pollVanished current) t) :=
      kept_foldl fun u _ e _ => kept_pollVanished current u e
    have h₂ := h₁.trans (kept_foldl (l := current.entries) fun u _ e _ => kept_pollPresent u e)
    generalize current.entries.foldl pollPresent _ = t₂ at h₂ ⊢
    have h₃ : Kept Plain t₂ { t₂ with
        pendingPool := t₂.pendingPool.filter fun hash _ => current.has hash } :=
      { Kept.refl t₂ with }
    unfold reviewMissingCandidates
    exact (h₂.trans h₃).trans (kept_foldl fun u _ e _ => kept_reviewCandidate current u e)

theorem kept_resubmitSettled (t : TxTracker) (call : Nat) (results : List (Option String)) :
    Kept Plain t (t.resubmitSettled call results) := by
  unfold resubmitSettled
  split
  · exact Kept.refl t
  · have hdrop : Kept Plain t { t with resubmitting := t.resubmitting.eraseIdx call } :=
      { Kept.refl t with }
    dsimp only
    split
    · exact hdrop.trans (kept_emit _ trivial)
    · exact hdrop.trans (kept_emit _ trivial)

end ForkWatch.Proof
