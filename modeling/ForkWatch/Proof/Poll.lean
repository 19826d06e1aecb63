import ForkWatch.Lib.Absence
import ForkWatch.Proof.Incidents

/-!
# What a poll makes of one hash

A poll goes over two maps in four passes. Each turn minds its own hash, so what a
poll makes of a hash can be read off the turns of that hash alone, whatever else is
in the pool (`candidate_pollPendingPool`, `pool_pollPendingPool`).
-/

namespace ForkWatch.Proof

open Lib ChainContext TxTracker

variable {N : Tx → Prop}

/-! ## The turns of one hash -/

/-- The candidate after the vanished loop, when the hash was in the pool as `tx`. -/
def leftPool (t : TxTracker) (current : OrdMap Hash Tx) (h : Hash) (tx : Tx)
    (cand : Option Candidate) : Option Candidate :=
  if current.has h || t.includedHashes.has h then cand
  else some (cand.elim ⟨tx, 0, 0, t.lastKnownHeight⟩ fun c => { c with reappearedStreak := 0 })

/-- The candidate after the present loop, when the hash is in the snapshot. -/
def reappeared (opts : TxOptions) (cand : Option Candidate) : Option Candidate :=
  cand.bind fun c =>
    if opts.reappearDebouncePolls ≤ c.reappearedStreak + 1 then none
    else some { c with reappearedStreak := c.reappearedStreak + 1 }

/-- The candidate when the review begins. -/
def beforeReview (t : TxTracker) (current : OrdMap Hash Tx) (h : Hash) : Option Candidate :=
  let cand := (t.pendingPool.get? h).elim (t.missingCandidates.get? h)
    fun tx => leftPool t current h tx (t.missingCandidates.get? h)
  (current.get? h).elim cand fun _ => reappeared t.opts cand

/-- The candidate with one more poll without it. -/
def missed (c : Candidate) : Candidate :=
  { c with missingSincePollCount := c.missingSincePollCount + 1 }

/-- The review gives the candidate up, and tells it unless it was told before. -/
def GivenUp (t : TxTracker) (c : Candidate) : Prop :=
  t.opts.dropGracePolls ≤ (missed c).missingSincePollCount ∧
    ((t.findResubmission c.toTx c.hash).isSome = true ∨
      t.opts.dropMaxWaitPolls ≤ (missed c).missingSincePollCount)

instance (t : TxTracker) (c : Candidate) : Decidable (GivenUp t c) :=
  inferInstanceAs (Decidable (_ ∧ _))

/-! ## The vanished loop -/

theorem pollVanished_eq (current : OrdMap Hash Tx) (t : TxTracker) (e : Hash × Tx) :
    ∃ m, pollVanished current t e = { t with missingCandidates := m } := by
  unfold pollVanished onTxLeftPool
  split
  · exact ⟨_, rfl⟩
  · split
    · exact ⟨_, rfl⟩
    · split
      · exact ⟨_, rfl⟩
      · exact ⟨_, rfl⟩

theorem candidate_vanished (t : TxTracker) (current : OrdMap Hash Tx) (h : Hash) :
    (t.pendingPool.entries.foldl (pollVanished current) t).missingCandidates.get? h
      = (t.pendingPool.get? h).elim (t.missingCandidates.get? h)
          fun tx => leftPool t current h tx (t.missingCandidates.get? h) := by
  refine OrdMap.foldl_turn (g := fun u : TxTracker => u.missingCandidates.get? h)
    (w := leftPool t current h) (I := fun u => ∃ m, u = { t with missingCandidates := m })
    ?_ ?_ ?_ ⟨t.missingCandidates, rfl⟩
  · intro u hu e _
    obtain ⟨m, rfl⟩ := hu
    obtain ⟨m', heq⟩ := pollVanished_eq current { t with missingCandidates := m } e
    exact ⟨m', heq⟩
  · intro u _ e _ hne
    -- a transaction with another hash
    have hne' : h ≠ e.1 := fun heq => hne heq.symm
    unfold pollVanished onTxLeftPool
    split
    · rfl
    · split
      · rfl
      · split
        · dsimp only
          rw [OrdMap.get?_modify, if_neg hne']
        · dsimp only
          rw [OrdMap.get?_set_ne _ _ hne']
  · intro u hu tx _
    obtain ⟨m, rfl⟩ := hu
    unfold pollVanished onTxLeftPool leftPool
    dsimp only
    by_cases hcur : current.has h = true
    · rw [if_pos hcur, hcur, Bool.true_or, if_pos rfl]
    · rw [if_neg hcur, Bool.eq_false_iff.mpr hcur, Bool.false_or]
      by_cases hinc : t.includedHashes.has h = true
      · rw [if_pos hinc, if_pos hinc]
      · rw [if_neg hinc, if_neg hinc]
        cases hm : m.get? h with
        | none =>
            rw [if_neg (by simp [OrdMap.has, hm])]
            dsimp only
            rw [OrdMap.get?_set_self]
            rfl
        | some c =>
            rw [if_pos (by simp [OrdMap.has, hm])]
            dsimp only
            rw [OrdMap.get?_modify, if_pos rfl, hm]
            rfl

/-! ## The present loop -/

/-- The present loop enters a hash into the pool after it has looked at the candidates. -/
theorem candidates_pollPresent (t : TxTracker) (e : Hash × Tx) :
    (t.pollPresent e).missingCandidates = (t.debounceReappeared e.1).missingCandidates := by
  unfold pollPresent
  dsimp only
  split
  · rfl
  · rfl

theorem candidate_present (t : TxTracker) (current : OrdMap Hash Tx) (h : Hash) :
    (current.entries.foldl pollPresent t).missingCandidates.get? h
      = (current.get? h).elim (t.missingCandidates.get? h)
          fun _ => reappeared t.opts (t.missingCandidates.get? h) := by
  refine OrdMap.foldl_turn (g := fun u : TxTracker => u.missingCandidates.get? h)
    (w := fun _ => reappeared t.opts) (I := fun u => u.opts = t.opts) ?_ ?_ ?_ rfl
  · intro u hu e _
    exact (kept_pollPresent (p := fun _ => True) u e).opts.trans hu
  · intro u _ e _ hne
    have hne' : h ≠ e.1 := fun heq => hne heq.symm
    rw [candidates_pollPresent]
    unfold debounceReappeared stopResubmitRetry
    split
    · rfl
    · split
      · dsimp only
        rw [OrdMap.get?_erase, if_neg hne']
      · dsimp only
        rw [OrdMap.get?_modify, if_neg hne']
  · intro u hu tx _
    rw [candidates_pollPresent]
    unfold debounceReappeared stopResubmitRetry reappeared
    dsimp only
    rw [hu]
    cases hc : u.missingCandidates.get? h with
    | none => exact hc
    | some c =>
        rw [Option.bind_some]
        dsimp only
        split
        · dsimp only
          rw [OrdMap.get?_erase, if_pos rfl]
        · dsimp only
          rw [OrdMap.get?_modify, if_pos rfl, hc]
          rfl

theorem pool_present (t : TxTracker) (current : OrdMap Hash Tx) (h : Hash) :
    (current.entries.foldl pollPresent t).pendingPool.get? h
      = (current.get? h).elim (t.pendingPool.get? h)
          fun tx => (t.pendingPool.get? h).or (some tx) := by
  -- the debounce of a candidate does not touch the pool
  have hpool : ∀ (u : TxTracker) (e : Hash × Tx), (u.pollPresent e).pendingPool
      = if u.pendingPool.has e.1 then u.pendingPool else u.pendingPool.set e.1 e.2 := by
    intro u e
    have hsame : (u.debounceReappeared e.1).pendingPool = u.pendingPool := by
      unfold debounceReappeared stopResubmitRetry
      split
      · rfl
      · split
        · rfl
        · rfl
    unfold pollPresent
    dsimp only
    rw [hsame]
    split
    · exact hsame
    · rfl
  refine OrdMap.foldl_turn (g := fun u : TxTracker => u.pendingPool.get? h)
    (w := fun tx p => p.or (some tx)) (I := fun _ => True) (fun _ _ _ _ => trivial) ?_ ?_ trivial
  · intro u _ e _ hne
    rw [hpool]
    split
    · rfl
    · rw [OrdMap.get?_set_ne _ _ fun heq => hne heq.symm]
  · intro u _ tx _
    rw [hpool]
    cases hp : u.pendingPool.get? h with
    | none =>
        rw [if_neg (by simp [OrdMap.has, hp]), OrdMap.get?_set_self]
        rfl
    | some tx' =>
        rw [if_pos (by simp [OrdMap.has, hp])]
        exact hp

/-! ## The review -/

theorem told_finalize (t : TxTracker) (tx : Tx) (status : TxStatus) (extra : FinalizeExtra) :
    told (t.finalize tx tx.hash status extra).history
      = told t.history ++ if t.finalizedHashes.has tx.hash then [] else [tx.hash] := by
  rcases finalize_cases t tx status extra with ⟨hin, heq⟩ | ⟨hout, heq⟩
  · rw [heq, hin, if_pos rfl, List.append_nil]
  · rw [heq, hout, told_append]
    rfl

/-- Once an incident has passed the guard set, its hash has been told. -/
theorem mem_told_finalize {t : TxTracker} (hg : GuardsTold t) (tx : Tx) (status : TxStatus)
    (extra : FinalizeExtra) : tx.hash ∈ told (t.finalize tx tx.hash status extra).history := by
  rw [told_finalize]
  split
  · rename_i hin
    exact List.mem_append_left _ (hg.mem_of_has hin)
  · exact List.mem_append_right _ (List.mem_singleton_self _)

theorem told_startResubmitRetry (t : TxTracker) (record : RetryRecord) :
    told (t.startResubmitRetry record).history = told t.history := by
  obtain ⟨rs, hrs, hof⟩ := (kept_startResubmitRetry t record).history
  rw [hrs, told_append, told_eq_nil hof fun _ hr => hr, List.append_nil]

/-- What is seen of a hash: its candidate, and whether a row was told for it. -/
def standing (h : Hash) (t : TxTracker) : Option Candidate × Prop :=
  (t.missingCandidates.get? h, h ∈ told t.history)

theorem standing_start (h : Hash) (t : TxTracker) (record : RetryRecord) :
    standing h (t.startResubmitRetry record) = standing h t := by
  obtain ⟨timers, ever, calls, rs, heq, -⟩ := startResubmitRetry_eq t record
  unfold standing
  rw [told_startResubmitRetry, heq]

theorem standing_tell_ne {h : Hash} {t : TxTracker} {tx : Tx} (hne : tx.hash ≠ h)
    (status : TxStatus) (extra : FinalizeExtra) :
    standing h { t.finalize tx tx.hash status extra with
      missingCandidates := (t.finalize tx tx.hash status extra).missingCandidates.erase tx.hash }
      = standing h t := by
  have hcand : (t.finalize tx tx.hash status extra).missingCandidates = t.missingCandidates := by
    rcases finalize_cases t tx status extra with ⟨-, heq⟩ | ⟨-, heq⟩ <;> rw [heq]
  unfold standing
  dsimp only
  rw [told_finalize, hcand, OrdMap.get?_erase, if_neg fun heq => hne heq.symm]
  have hmem : (h ∈ told t.history ++ if t.finalizedHashes.has tx.hash then [] else [tx.hash])
      ↔ h ∈ told t.history := by
    rw [List.mem_append]
    split
    · simp
    · simp [hne.symm]
  rw [propext hmem]

theorem standing_tell_self {t : TxTracker} (hg : GuardsTold t) (tx : Tx) (status : TxStatus)
    (extra : FinalizeExtra) :
    standing tx.hash { t.finalize tx tx.hash status extra with
      missingCandidates := (t.finalize tx tx.hash status extra).missingCandidates.erase tx.hash }
      = (none, True) := by
  have htold := mem_told_finalize hg tx status extra
  unfold standing
  dsimp only
  rw [OrdMap.get?_erase, if_pos rfl, propext (iff_true_intro htold)]

theorem standing_classifyMissing_ne {h : Hash} {c : Candidate} (hne : c.hash ≠ h)
    (t : TxTracker) : standing h (t.classifyMissing c.hash c) = standing h t := by
  have hne' : c.toTx.hash ≠ h := hne
  have htell := standing_tell_ne (t := t) hne'
  unfold classifyMissing
  split
  · exact htell _ _
  · split
    · rfl
    · exact htell _ _

theorem standing_classifyMissing_self {t : TxTracker} (hg : GuardsTold t) (c : Candidate) :
    standing c.hash (t.classifyMissing c.hash c)
      = if (t.findResubmission c.toTx c.hash).isSome = true ∨
          t.opts.dropMaxWaitPolls ≤ c.missingSincePollCount then (none, True)
        else standing c.hash t := by
  unfold classifyMissing
  cases hres : t.findResubmission c.toTx c.hash with
  | some resubmission =>
      rw [if_pos (Or.inl Option.isSome_some)]
      exact standing_tell_self hg c.toTx _ _
  | none =>
      dsimp only
      by_cases hwait : c.missingSincePollCount < t.opts.dropMaxWaitPolls
      · rw [if_pos hwait, if_neg (by simp; omega)]
      · rw [if_neg hwait, if_pos (Or.inr (by omega))]
        exact standing_tell_self hg c.toTx _ _

/-- The candidate is counted one poll more. -/
def counted (t : TxTracker) (c : Candidate) : TxTracker :=
  { t with missingCandidates := t.missingCandidates.modify c.hash fun _ => missed c }

theorem reviewCandidate_eq (t : TxTracker) (current : OrdMap Hash Tx) (c : Candidate) :
    reviewCandidate current t (c.hash, c)
      = if t.includedHashes.has c.hash then
          { t with missingCandidates := t.missingCandidates.erase c.hash }
        else if current.has c.hash then t
        else if (missed c).missingSincePollCount < t.opts.dropGracePolls then counted t c
        else ((counted t c).startResubmitRetry (missed c).retry).classifyMissing (missed c).hash
          (missed c) := rfl

/-- The turn of a candidate concerns no other hash. -/
theorem standing_reviewCandidate_ne {h : Hash} {c : Candidate} (hne : c.hash ≠ h) (t : TxTracker)
    (current : OrdMap Hash Tx) :
    standing h (reviewCandidate current t (c.hash, c)) = standing h t := by
  have hne' : h ≠ c.hash := fun heq => hne heq.symm
  have hcount : standing h (counted t c) = standing h t := by
    unfold standing counted
    dsimp only
    rw [OrdMap.get?_modify, if_neg hne']
  rw [reviewCandidate_eq]
  split
  · unfold standing
    dsimp only
    rw [OrdMap.get?_erase, if_neg hne']
  · split
    · rfl
    · split
      · exact hcount
      · rw [standing_classifyMissing_ne (c := missed c) hne, standing_start, hcount]

/-- **The turn of a candidate in the review.** -/
theorem standing_reviewCandidate_self {t : TxTracker} (hg : GuardsTold t)
    (current : OrdMap Hash Tx) (c : Candidate) :
    standing c.hash (reviewCandidate current t (c.hash, c))
      = if t.includedHashes.has c.hash then (none, (standing c.hash t).2)
        else if current.has c.hash then standing c.hash t
        else if GivenUp t c then (none, True)
        else ((standing c.hash t).1.map fun _ => missed c, (standing c.hash t).2) := by
  have hcount : standing c.hash (counted t c)
      = ((standing c.hash t).1.map fun _ => missed c, (standing c.hash t).2) := by
    unfold standing counted
    dsimp only
    rw [OrdMap.get?_modify, if_pos rfl]
  rw [reviewCandidate_eq]
  split
  · unfold standing
    dsimp only
    rw [OrdMap.get?_erase, if_pos rfl]
  · split
    · rfl
    -- within the grace period it is only counted
    · by_cases hgrace : (missed c).missingSincePollCount < t.opts.dropGracePolls
      · have hgo : ¬ GivenUp t c := fun hup => absurd hup.1 (by omega)
        rw [if_neg hgo, if_pos hgrace]
        exact hcount
      · -- the start of a retry loop changes nothing the classification looks at
        have hstart := standing_start c.hash (counted t c) (missed c).retry
        obtain ⟨timers, ever, calls, rs, heq, hof⟩ :=
          startResubmitRetry_eq (counted t c) (missed c).retry
        have hguards : GuardsTold ((counted t c).startResubmitRetry (missed c).retry) := by
          have hg' : GuardsTold (counted t c) := hg
          rw [heq]
          exact hg'.append rfl rs rfl hof fun _ hr => hr
        have hverdict : (((counted t c).startResubmitRetry (missed c).retry).findResubmission
            (missed c).toTx (missed c).hash).isSome = true ∨
            ((counted t c).startResubmitRetry (missed c).retry).opts.dropMaxWaitPolls
              ≤ (missed c).missingSincePollCount ↔ GivenUp t c := by
          rw [heq]
          exact ⟨fun hv => ⟨by omega, hv⟩, fun hup => hup.2⟩
        rw [if_neg hgrace]
        refine (standing_classifyMissing_self hguards (missed c)).trans ?_
        by_cases hup : GivenUp t c
        · rw [if_pos hup, if_pos (hverdict.mpr hup)]
        · rw [if_neg hup, if_neg fun hv => hup (hverdict.mp hv), ← hcount]
          exact hstart

/-- **The review, for one hash.** -/
theorem standing_review {t : TxTracker} (hs : Sourced N t) (hg : GuardsTold t)
    (current : OrdMap Hash Tx) (h : Hash) :
    standing h (t.reviewMissingCandidates current)
      = (t.missingCandidates.get? h).elim (standing h t) fun c =>
          if t.includedHashes.has h then (none, h ∈ told t.history)
          else if current.has h then (some c, h ∈ told t.history)
          else if GivenUp t c then (none, True)
          else (some (missed c), h ∈ told t.history) := by
  -- one turn of the loop decides, the one of the candidate itself
  have hloop : standing h (t.reviewMissingCandidates current)
      = (t.missingCandidates.get? h).elim (standing h t) fun c =>
          if t.includedHashes.has h then (none, (standing h t).2)
          else if current.has h then standing h t
          else if GivenUp t c then (none, True)
          else ((standing h t).1.map fun _ => missed c, (standing h t).2) := by
    unfold reviewMissingCandidates
    refine OrdMap.foldl_turn (g := standing h) (I := fun u => Acts N .pool t u)
      (w := fun c p => if t.includedHashes.has h then (none, p.2)
        else if current.has h then p
        else if GivenUp t c then (none, True)
        else (p.1.map fun _ => missed c, p.2)) ?_ ?_ ?_ Relation.ReflTransGen.refl
    · intro u hu e he
      exact hu.trans (acts_reviewCandidate (hu.sourced hs) current
        (hs.candidates e.1 e.2 (OrdMap.mem_of_mem_entries he)))
    · intro u _ e he hne
      obtain ⟨x, c⟩ := e
      have hx : c.hash = x := (hs.candidates x c (OrdMap.mem_of_mem_entries he)).1
      subst hx
      exact standing_reviewCandidate_ne hne u current
    · intro u hu c hc
      have hx : c.hash = h := (hs.candidates h c (OrdMap.mem_of_mem_entries hc)).1
      subst hx
      -- the turns before it changed nothing that its own verdict is read from
      have hground := hu.sameGround
      have hgu : GuardsTold u := hu.preserves (fun _ _ => guardsTold_act) hg
      have hsame : GivenUp u c ↔ GivenUp t c := by
        unfold GivenUp findResubmission
        rw [hground.opts, hground.latestFor]
      rw [standing_reviewCandidate_self hgu, hground.includedHashes]
      simp only [hsame]
  rw [hloop]
  cases hc : t.missingCandidates.get? h with
  | none => rfl
  | some c =>
      unfold standing
      rw [hc]
      rfl

/-! ## The poll -/

theorem kept_polled {p : TxReport → Prop} (t : TxTracker) (current : OrdMap Hash Tx) :
    Kept p t (polled t current) := by
  have h₁ : Kept p t (t.pendingPool.entries.foldl (pollVanished current) t) :=
    kept_foldl fun u _ e _ => kept_pollVanished current u e
  have h₂ := h₁.trans (kept_foldl (l := current.entries) fun u _ e _ => kept_pollPresent u e)
  exact h₂.trans { Kept.refl _ with }

theorem history_polled (t : TxTracker) (current : OrdMap Hash Tx) :
    (polled t current).history = t.history := by
  obtain ⟨rs, hrs, hnone⟩ := (kept_polled (p := fun _ => False) t current).history
  rw [hrs, List.eq_nil_iff_forall_not_mem.mpr hnone, List.append_nil]

theorem candidate_polled (t : TxTracker) (current : OrdMap Hash Tx) (h : Hash) :
    (polled t current).missingCandidates.get? h = beforeReview t current h := by
  have hopts : (t.pendingPool.entries.foldl (pollVanished current) t).opts = t.opts :=
    (kept_foldl (p := fun _ => True) fun u _ e _ => kept_pollVanished current u e).opts
  unfold polled beforeReview
  dsimp only
  rw [candidate_present, candidate_vanished, hopts]

/-- **What a poll makes of one hash.** -/
theorem standing_pollPendingPool {t : TxTracker} (hs : Sourced N t) (hg : GuardsTold t)
    (node : NodeName) {raw : List Extrinsic}
    (hN : ∀ tx ∈ extractTrackedExtrinsics raw t.lastKnownHeight, N tx) (h : Hash) :
    standing h (t.pollPendingPool node (some raw))
      = (beforeReview t (snapshot raw t.lastKnownHeight) h).elim (none, h ∈ told t.history) fun c =>
          if t.includedHashes.has h then (none, h ∈ told t.history)
          else if (snapshot raw t.lastKnownHeight).has h then (some c, h ∈ told t.history)
          else if GivenUp t c then (none, True)
          else (some (missed c), h ∈ told t.history) := by
  have hacts := acts_polled hs (filed_snapshot hN)
  have hground := hacts.sameGround
  have hreview := standing_review (hacts.sourced hs)
    (hacts.preserves (fun _ _ => guardsTold_act) hg) (snapshot raw t.lastKnownHeight) h
  have hgiven : ∀ c, GivenUp (polled t (snapshot raw t.lastKnownHeight)) c ↔ GivenUp t c := by
    intro c
    unfold GivenUp findResubmission
    rw [hground.opts, hground.latestFor]
  have hstanding : (polled t (snapshot raw t.lastKnownHeight)).missingCandidates.get? h = none →
      standing h (polled t (snapshot raw t.lastKnownHeight)) = (none, h ∈ told t.history) := by
    intro hnone
    unfold standing
    rw [hnone, history_polled]
  rw [pollPendingPool_eq, hreview, history_polled, hground.includedHashes]
  simp only [hgiven]
  rw [candidate_polled] at hstanding ⊢
  cases hc : beforeReview t (snapshot raw t.lastKnownHeight) h with
  | none => exact hstanding hc
  | some c => rfl

/-- The review does not look at the pool. -/
theorem pool_reviewCandidate (current : OrdMap Hash Tx) (t : TxTracker) (e : Hash × Candidate) :
    (reviewCandidate current t e).pendingPool = t.pendingPool := by
  have hfinalize : ∀ (u : TxTracker) (tx : Tx) (x : Hash) (status : TxStatus)
      (extra : FinalizeExtra), (u.finalize tx x status extra).pendingPool = u.pendingPool := by
    intro u tx x status extra
    unfold finalize
    split
    · rfl
    · rfl
  have hstart : ∀ (u : TxTracker) (record : RetryRecord),
      (u.startResubmitRetry record).pendingPool = u.pendingPool := by
    intro u record
    obtain ⟨timers, ever, calls, rs, heq, -⟩ := startResubmitRetry_eq u record
    rw [heq]
  unfold reviewCandidate
  split
  · rfl
  · split
    · rfl
    · dsimp only
      split
      · rfl
      · unfold classifyMissing
        split
        · dsimp only
          rw [hfinalize, hstart]
        · split
          · exact hstart _ _
          · dsimp only
            rw [hfinalize, hstart]

/-- **After a poll the pool is the snapshot**, each hash with the record it was entered with. -/
theorem pool_get?_pollPendingPool (t : TxTracker) (node : NodeName) (raw : List Extrinsic)
    (x : Hash) : (t.pollPendingPool node (some raw)).pendingPool.get? x
      = ((snapshot raw t.lastKnownHeight).get? x).map fun tx =>
          (t.pendingPool.get? x).getD tx := by
  rw [pollPendingPool_eq]
  generalize snapshot raw t.lastKnownHeight = current
  have hreview : ((polled t current).reviewMissingCandidates current).pendingPool
      = (polled t current).pendingPool :=
    List.foldlRecOn (motive := fun u => u.pendingPool = (polled t current).pendingPool) _ _ rfl
      fun u hu e _ => (pool_reviewCandidate current u e).trans hu
  have hvanished : (t.pendingPool.entries.foldl (pollVanished current) t).pendingPool
      = t.pendingPool := by
    refine List.foldlRecOn (motive := fun u : TxTracker => u.pendingPool = t.pendingPool) _ _ rfl ?_
    intro u hu e _
    obtain ⟨m, heq⟩ := pollVanished_eq current u e
    rw [heq]
    exact hu
  rw [hreview]
  unfold polled OrdMap.has
  dsimp only
  rw [OrdMap.get?_filter, pool_present, hvanished]
  cases current.get? x with
  | none => simp
  | some tx =>
      cases t.pendingPool.get? x with
      | none => simp
      | some tx' => simp

theorem pool_pollPendingPool (t : TxTracker) (node : NodeName) (raw : List Extrinsic) (x : Hash) :
    (t.pollPendingPool node (some raw)).pendingPool.has x
      = (snapshot raw t.lastKnownHeight).has x := by
  unfold OrdMap.has
  rw [pool_get?_pollPendingPool, Option.isSome_map]

end ForkWatch.Proof
