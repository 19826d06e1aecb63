import ForkWatch.Proof.Reinclusion
import ForkWatch.Proof.Retry

/-!
# Is the rescue of a transaction always told?

A confirmation comes from one place only, the tick of a loop that has made an
attempt and finds its own hash canonical. The loop can be gone by then: a poll
tears it down when the hash has been back in the pool for a while — which is
what a resubmission that worked looks like — and so do a prune and the retry cap.
`confirmedOnce_of_keepsLoop` says that nothing else goes wrong: in a run in which
a loop that has made an attempt lasts until its hash is canonical, and then until
its next tick, the confirmation is made, and made once.
-/

namespace ForkWatch.Proof

open Lib ChainContext TxTracker

variable {h : Hash} {s : Address} {k : Nat} {keep : Prop}

/-! ## The pending pool -/

theorem goes_finalize (t : TxTracker) (record : Tx) (hash : Hash) (status : TxStatus)
    (extra : FinalizeExtra) : Goes h s k keep t (t.finalize record hash status extra) := by
  unfold finalize
  split
  · exact Goes.refl t
  · exact goes_of_still [_] rfl rfl (fun hk => ⟨hk.timers, hk.pool, hk.candidates⟩) rfl rfl
      (by simp [Silent, Confirms])

/-- A write to the candidates that keeps them filed under their hashes. -/
theorem goes_candidates {t : TxTracker} {m : OrdMap Hash Candidate}
    (hm : Keyed h s k t → ∀ x cand, m.get? x = some cand →
      cand.hash = x ∧ NamesHash h s k cand.toTx) :
    Goes h s k keep t { t with missingCandidates := m } :=
  goes_of_still [] rfl rfl (fun hk => ⟨hk.timers, hk.pool, hm hk⟩) rfl (by simp) (by simp)

theorem goes_eraseCandidate (t : TxTracker) (x : Hash) :
    Goes h s k keep t { t with missingCandidates := t.missingCandidates.erase x } := by
  refine goes_candidates fun hk y cand hy => ?_
  rw [OrdMap.get?_erase] at hy
  split at hy
  · exact absurd hy (by simp)
  · exact hk.candidates y cand hy

/-- The entry of a snapshot or of the pool is filed under its hash. -/
def NamedEntry (h : Hash) (s : Address) (k : Nat) (e : Hash × Tx) : Prop :=
  e.2.hash = e.1 ∧ NamesHash h s k e.2

theorem goes_pollVanished {current : OrdMap Hash Tx} {t : TxTracker} {e : Hash × Tx}
    (he : NamedEntry h s k e) : Goes h s k keep t (pollVanished current t e) := by
  unfold pollVanished onTxLeftPool
  split
  · exact Goes.refl t
  · split
    · exact Goes.refl t
    · split
      · refine goes_candidates fun hk y cand hy => ?_
        rw [OrdMap.get?_modify] at hy
        split at hy
        · obtain ⟨cand', hcand', rfl⟩ := Option.map_eq_some_iff.mp hy
          exact hk.candidates y cand' hcand'
        · exact hk.candidates y cand hy
      · refine goes_candidates fun hk y cand hy => ?_
        rw [OrdMap.get?_set] at hy
        split at hy
        · rename_i hye
          obtain rfl := Option.some.inj hy
          exact ⟨he.1.trans hye.symm, he.2⟩
        · exact hk.candidates y cand hy

/-- A poll that finds `h` in the pool would not tear down a loop that has made an attempt. -/
def Calm (h : Hash) (keep : Prop) (t : TxTracker) : Prop :=
  keep → ∀ loop cand, t.resubmitRetryTimers.get? h = some loop → 0 < loop.attempts →
    t.missingCandidates.get? h = some cand →
    cand.reappearedStreak + 1 < t.opts.reappearDebouncePolls

theorem goes_debounceReappeared {t : TxTracker} {x : Hash} (hg : x = h → Calm h keep t) :
    Goes h s k keep t (t.debounceReappeared x) := by
  unfold debounceReappeared
  cases hx : t.missingCandidates.get? x with
  | none => exact Goes.refl t
  | some cand =>
      dsimp only
      split
      · rename_i hstreak
        refine (goes_eraseCandidate t x).trans (goes_stopResubmitRetry fun hxh hkeep loop hloop => ?_)
        subst hxh
        by_contra hne
        have hcalm := hg rfl hkeep loop cand hloop (by omega) hx
        omega
      · refine goes_candidates fun hk y cand' hy => ?_
        rw [OrdMap.get?_modify] at hy
        split at hy
        · obtain ⟨cand₀, hcand₀, rfl⟩ := Option.map_eq_some_iff.mp hy
          exact hk.candidates y cand₀ hcand₀
        · exact hk.candidates y cand' hy

theorem goes_pollPresent {t : TxTracker} {e : Hash × Tx} (he : NamedEntry h s k e)
    (hg : e.1 = h → Calm h keep t) : Goes h s k keep t (t.pollPresent e) := by
  unfold pollPresent
  dsimp only
  split
  · exact goes_debounceReappeared hg
  · refine (goes_debounceReappeared hg).trans (goes_of_still [] rfl rfl (fun hk => ⟨hk.timers, ?_,
      hk.candidates⟩) rfl (by simp) (by simp))
    intro y tx hy
    rw [OrdMap.get?_set] at hy
    split at hy
    · rename_i hye
      obtain rfl := Option.some.inj hy
      exact ⟨he.1.trans hye.symm, he.2⟩
    · exact hk.pool y tx hy

/-- What decides about a teardown for `h` is the same in both trackers. -/
structure SameFor (h : Hash) (t u : TxTracker) : Prop where
  opts : u.opts = t.opts
  timers : u.resubmitRetryTimers.get? h = t.resubmitRetryTimers.get? h
  candidates : u.missingCandidates.get? h = t.missingCandidates.get? h

theorem SameFor.calm {t u : TxTracker} (hu : SameFor h t u) (hc : Calm h keep t) :
    Calm h keep u := by
  intro hkeep loop cand hloop hpos hcand
  rw [hu.opts]
  rw [hu.timers] at hloop
  rw [hu.candidates] at hcand
  exact hc hkeep loop cand hloop hpos hcand

/-- A hash in the snapshot has not vanished, so the vanished loop passes it by. -/
theorem sameFor_pollVanished {current : OrdMap Hash Tx} (hin : current.has h = true)
    (t : TxTracker) (e : Hash × Tx) : SameFor h t (pollVanished current t e) := by
  unfold pollVanished onTxLeftPool
  split
  · exact ⟨rfl, rfl, rfl⟩
  · rename_i hout
    have hne : h ≠ e.1 := fun heq => hout (heq ▸ hin)
    split
    · exact ⟨rfl, rfl, rfl⟩
    · split
      · exact ⟨rfl, rfl, by dsimp only; rw [OrdMap.get?_modify, if_neg hne]⟩
      · exact ⟨rfl, rfl, by dsimp only; rw [OrdMap.get?_set_ne _ _ hne]⟩

theorem sameFor_pollPresent {e : Hash × Tx} (hne : e.1 ≠ h) (t : TxTracker) :
    SameFor h t (t.pollPresent e) := by
  have hne' : h ≠ e.1 := fun heq => hne heq.symm
  have hdebounce : SameFor h t (t.debounceReappeared e.1) := by
    unfold debounceReappeared stopResubmitRetry
    split
    · exact ⟨rfl, rfl, rfl⟩
    · split
      · exact ⟨rfl, by dsimp only; rw [OrdMap.get?_erase, if_neg hne'],
          by dsimp only; rw [OrdMap.get?_erase, if_neg hne']⟩
      · exact ⟨rfl, rfl, by dsimp only; rw [OrdMap.get?_modify, if_neg hne']⟩
  unfold pollPresent
  dsimp only
  split
  · exact hdebounce
  · exact ⟨hdebounce.opts, hdebounce.timers, hdebounce.candidates⟩

/-- The present loop meets each hash once. -/
theorem goes_presentLoop :
    ∀ {l : List (Hash × Tx)} {t : TxTracker}, (l.map Prod.fst).Nodup →
      (∀ e ∈ l, NamedEntry h s k e) → (h ∈ l.map Prod.fst → Calm h keep t) →
      Goes h s k keep t (l.foldl pollPresent t) := by
  intro l
  induction l with
  | nil => intro t _ _ _; exact Goes.refl t
  | cons e l ih =>
      intro t hnodup hnamed hcalm
      rw [List.map_cons, List.nodup_cons] at hnodup
      have hone : Goes h s k keep t (t.pollPresent e) :=
        goes_pollPresent (hnamed e (by simp)) fun he => hcalm (by simp [he])
      refine hone.trans (ih hnodup.2 (fun e' he' => hnamed e' (by simp [he'])) ?_)
      intro hin
      have hne : e.1 ≠ h := fun he => hnodup.1 (he ▸ hin)
      exact (sameFor_pollPresent hne t).calm (hcalm (by simp [hin]))

theorem goes_classifyMissing (t : TxTracker) (hash : Hash) (cand : Candidate) :
    Goes h s k keep t (t.classifyMissing hash cand) := by
  unfold classifyMissing
  split
  · exact (goes_finalize t cand.toTx hash _ _).trans (goes_eraseCandidate _ hash)
  · split
    · exact Goes.refl t
    · exact (goes_finalize t cand.toTx hash _ _).trans (goes_eraseCandidate _ hash)

theorem goes_reviewCandidate {current : OrdMap Hash Tx} {t : TxTracker} {e : Hash × Candidate}
    (he : e.2.hash = e.1 ∧ NamesHash h s k e.2.toTx) :
    Goes h s k keep t (reviewCandidate current t e) := by
  unfold reviewCandidate
  split
  · exact goes_eraseCandidate t e.1
  · split
    · exact Goes.refl t
    · have hcount : Goes h s k keep t { t with
          missingCandidates := t.missingCandidates.modify e.1 fun _ =>
            { e.2 with missingSincePollCount := e.2.missingSincePollCount + 1 } } := by
        refine goes_candidates fun hk y cand hy => ?_
        rw [OrdMap.get?_modify] at hy
        split at hy
        · rename_i hye
          obtain ⟨cand₀, -, rfl⟩ := Option.map_eq_some_iff.mp hy
          exact ⟨he.1.trans hye.symm, he.2⟩
        · exact hk.candidates y cand hy
      dsimp only
      split
      · exact hcount
      · exact (hcount.trans (goes_startResubmitRetry he.2)).trans (goes_classifyMissing ..)

/-- **A poll.** -/
theorem goes_pollPendingPool {t : TxTracker} {node : NodeName} {answer : Option (List Extrinsic)}
    (hk : Keyed h s k t)
    (hnames : ∀ raw, answer = some raw → ∀ tx ∈ extractTrackedExtrinsics raw t.lastKnownHeight,
      NamesHash h s k tx)
    (hcalm : ∀ raw, answer = some raw →
      (∃ tx ∈ extractTrackedExtrinsics raw t.lastKnownHeight, tx.hash = h) → Calm h keep t) :
    Goes h s k keep t (t.pollPendingPool node answer) := by
  unfold pollPendingPool
  cases answer with
  | none =>
      exact goes_of_still [] rfl rfl (fun hk => ⟨hk.timers, hk.pool, hk.candidates⟩) rfl (by simp)
        (by simp)
  | some raw =>
      dsimp only
      have hentry : ∀ e ∈ (OrdMap.ofList ((extractTrackedExtrinsics raw t.lastKnownHeight).map
          fun tx => (tx.hash, tx)) : OrdMap Hash Tx).entries,
          e.2 ∈ extractTrackedExtrinsics raw t.lastKnownHeight ∧ e.2.hash = e.1 := by
        intro e he
        obtain ⟨tx, htx, heq⟩ :=
          List.mem_map.mp (OrdMap.mem_of_get?_ofList (OrdMap.mem_entries_iff.mp he))
        obtain ⟨hhash, rfl⟩ := Prod.mk.inj heq
        exact ⟨htx, hhash⟩
      generalize (OrdMap.ofList ((extractTrackedExtrinsics raw t.lastKnownHeight).map
        fun tx => (tx.hash, tx)) : OrdMap Hash Tx) = current at hentry ⊢
      -- the vanished loop
      have hvanished : Goes h s k keep t (t.pendingPool.entries.foldl (pollVanished current) t) :=
        goes_foldl fun u _ e he => goes_pollVanished (hk.pool e.1 e.2 (OrdMap.mem_entries_iff.mp he))
      have hsame : current.has h = true →
          SameFor h t (t.pendingPool.entries.foldl (pollVanished current) t) := by
        intro hin
        refine List.foldlRecOn _ _ ⟨rfl, rfl, rfl⟩ fun u hu e _ => ?_
        have he := sameFor_pollVanished hin u e
        exact ⟨he.opts.trans hu.opts, he.timers.trans hu.timers,
          he.candidates.trans hu.candidates⟩
      generalize t.pendingPool.entries.foldl (pollVanished current) t = t₁ at hvanished hsame ⊢
      -- the present loop
      have hpresent : Goes h s k keep t₁ (current.entries.foldl pollPresent t₁) := by
        refine goes_presentLoop current.nodup ?_ ?_
        · intro e he
          exact ⟨(hentry e he).2, hnames raw rfl e.2 (hentry e he).1⟩
        · intro hin
          obtain ⟨e, he, hfst⟩ := List.mem_map.mp hin
          have hhas : current.has h = true := OrdMap.has_iff.mpr ⟨e.2, by
            rw [← hfst]
            exact OrdMap.mem_entries_iff.mp he⟩
          refine (hsame hhas).calm (hcalm raw rfl ⟨e.2, (hentry e he).1, ?_⟩)
          exact (hentry e he).2.trans hfst
      have hboth := hvanished.trans hpresent
      generalize current.entries.foldl pollPresent t₁ = t₂ at hboth ⊢
      -- the pool forgets what vanished, and the candidates are reviewed
      have hforget : Goes h s k keep t₂ { t₂ with
          pendingPool := t₂.pendingPool.filter fun hash _ => current.has hash } := by
        refine goes_of_still [] rfl rfl (fun hk => ⟨hk.timers, ?_, hk.candidates⟩) rfl (by simp)
          (by simp)
        intro y tx hy
        rw [OrdMap.get?_filter, Option.filter_eq_some_iff] at hy
        exact hk.pool y tx hy.1
      have hthree := hboth.trans hforget
      refine hthree.trans ?_
      unfold reviewMissingCandidates
      refine goes_foldl fun u _ e he => goes_reviewCandidate ?_
      exact (hthree.keyed hk).candidates e.1 e.2 (OrdMap.mem_entries_iff.mp he)

/-! ## Finality and pruning -/

theorem goes_queueEntry {t : TxTracker} {H : Hash} {e : ReorgEntry}
    (he : NamesHash h s k e.toTx) : Goes h s k keep t (t.queueEntry H e) := by
  unfold queueEntry
  have hqueue : Goes h s k keep t
      (TxTracker.emit { t with pendingReorgReview := t.pendingReorgReview ++ [e] } (.queued e H)) :=
    goes_of_still [.queued e H] rfl rfl (fun hk => ⟨hk.timers, hk.pool, hk.candidates⟩) rfl rfl
      (by simp [Silent, Confirms])
  exact hqueue.trans (goes_startResubmitRetry he)

/-- Every captured transaction of this hash names this signer and nonce. -/
def NamedBodies (h : Hash) (s : Address) (k : Nat) (t : TxTracker) : Prop :=
  ∀ x captured, t.blockExtrinsics.get? x = some captured →
    ∀ tx ∈ captured.extrinsics, NamesHash h s k tx

theorem goes_reviewHeight {t : TxTracker} (hb : NamedBodies h s k t) (F : Nat) (H : Hash)
    (tree : BlockTree) (height : Nat) : Goes h s k keep t (reviewHeight F H tree t height) := by
  have hlosing : ∀ u, u.blockExtrinsics = t.blockExtrinsics → ∀ canonical x,
      Goes h s k keep u (queueLosing height H canonical u x) := by
    intro u hu canonical x
    unfold queueLosing
    split
    · exact Goes.refl u
    · cases hx : u.blockExtrinsics.get? x with
      | none => exact Goes.refl u
      | some losing =>
          rw [hu] at hx
          exact goes_foldl fun v _ tx htx => goes_queueEntry (hb x losing hx tx htx)
  unfold reviewHeight
  split
  · exact Goes.refl t
  · have hnote : Goes h s k keep t
        { t with processedForkHeights := t.processedForkHeights.add height } :=
      goes_of_still [] rfl rfl (fun hk => ⟨hk.timers, hk.pool, hk.candidates⟩) rfl (by simp)
        (by simp)
    refine hnote.trans ?_
    unfold queueReorgReview
    split
    · exact Goes.refl _
    · exact goes_foldl fun u hu x _ => hlosing u hu.blockExtrinsics _ x

theorem goes_resolveDue (t : TxTracker) (F : Nat) : Goes h s k keep t (t.resolveDue F) := by
  have hentry : ∀ (u : TxTracker) (e : ReorgEntry), Goes h s k keep u (u.resolveReorgEntry e) := by
    intro u e
    unfold resolveReorgEntry
    split
    · exact goes_finalize u e.toTx e.hash _ _
    · split
      · exact Goes.refl u
      · exact goes_finalize u e.toTx e.hash _ _
  unfold resolveDue
  have hloop : Goes h s k keep t (t.pendingReorgReview.foldl (fun t entry =>
      if F < entry.dueAtHeight then t else t.resolveReorgEntry entry) t) := by
    refine goes_foldl fun u _ e _ => ?_
    split
    · exact Goes.refl u
    · exact hentry u e
  refine hloop.trans ?_
  exact goes_of_still [] rfl rfl (fun hk => ⟨hk.timers, hk.pool, hk.candidates⟩) rfl (by simp)
    (by simp)

/-- **A notification**: the walk changes what is canonical, and then there are moves only. -/
theorem moves_onHeightFinalized {t : TxTracker} (hk : Keyed h s k t) (hb : NamedBodies h s k t)
    (F : Nat) (H : Hash) (tree : BlockTree) :
    Keyed h s k (t.onHeightFinalized F H tree) ∧
      Moves h (latestHash s k (t.onHeightFinalized F H tree)) keep (lifeOf h t)
        (lifeOf h (t.onHeightFinalized F H tree)) := by
  unfold onHeightFinalized
  dsimp only
  -- the walk marks bodies and leaves the loops alone; the review and the queue move them
  generalize hwalked :
    ({ t with lastKnownHeight := max t.lastKnownHeight F } : TxTracker).walkFinalized F H tree = u
  rw [walkFinalized_eq] at hwalked
  have hlife : lifeOf h u = lifeOf h t := by
    refine lifeOf_eq ((newlyFinal t F H tree).flatMap (markReports t.blockExtrinsics)) ?_ ?_ ?_
    · subst hwalked
      rfl
    · subst hwalked
      rfl
    · intro r hr
      obtain ⟨x, txs, rfl⟩ := marked_of_mem hr
      exact ⟨by simp, rfl⟩
  have hku : Keyed h s k u := by
    subst hwalked
    exact ⟨hk.timers, hk.pool, hk.candidates⟩
  have hbu : NamedBodies h s k u := by
    subst hwalked
    exact hb
  clear hwalked
  have hgoes : Goes h s k keep u
      ((tree.getForkedHeights.foldl (reviewHeight F H tree) u).resolveDue F) := by
    refine Goes.trans (goes_foldl fun v hv height _ => ?_) (goes_resolveDue _ F)
    refine goes_reviewHeight ?_ F H tree height
    intro x captured hx
    rw [hv.blockExtrinsics] at hx
    exact hbu x captured hx
  refine ⟨hgoes.keyed hku, ?_⟩
  have hlatest : latestHash s k ((tree.getForkedHeights.foldl (reviewHeight F H tree) u).resolveDue F)
      = latestHash s k u := by
    unfold latestHash
    rw [hgoes.latest]
  rw [hlatest, ← hlife]
  exact hgoes.moves hku

/-- **A prune.** -/
theorem goes_pruneBlocks {t : TxTracker} {below : Int}
    (hg : keep → ∀ loop, t.resubmitRetryTimers.get? h = some loop → 0 < loop.attempts →
      below < (loop.record.lostAtHeight.getD 0 : Nat)) :
    Keyed h s k t → Keyed h s k (t.pruneBlocks below) ∧
      Moves h (latestHash s k t) keep (lifeOf h t) (lifeOf h (t.pruneBlocks below)) := by
  intro hk
  have htimers : ∀ x, (t.pruneBlocks below).resubmitRetryTimers.get? x
      = (t.resubmitRetryTimers.get? x).filter
        fun loop => !decide (((loop.record.lostAtHeight.getD 0 : Nat) : Int) ≤ below) :=
    fun x => OrdMap.get?_filter ..
  refine ⟨⟨?_, hk.pool, hk.candidates⟩, ?_⟩
  · intro x loop hx
    rw [htimers, Option.filter_eq_some_iff] at hx
    exact hk.timers x loop hx.1
  · cases hx : t.resubmitRetryTimers.get? h with
    | none => exact moves_of_still [] (by rw [htimers, hx]; rfl) (by simp [pruneBlocks]) (by simp)
    | some loop =>
        by_cases hlow : ((loop.record.lostAtHeight.getD 0 : Nat) : Int) ≤ below
        -- an attempted loop that is to be kept lies higher, so this one was not attempted
        · have hgone : lifeOf h (t.pruneBlocks below) = { lifeOf h t with loop := none } := by
            unfold lifeOf
            rw [htimers, hx, Option.filter_some, if_neg (by simpa using hlow)]
            rfl
          rw [hgone]
          refine Relation.ReflTransGen.single (Move.drop _ fun hkeep n hn => ?_)
          have hloop : (lifeOf h t).loop = some loop.attempts := by
            unfold lifeOf
            rw [hx]
            rfl
          rw [hloop] at hn
          obtain rfl := Option.some.inj hn
          by_contra hne
          have hhigh := hg hkeep loop hx (by omega)
          omega
        · refine moves_of_still [] ?_ (by simp [pruneBlocks]) (by simp)
          rw [htimers, hx, Option.filter_some, if_pos (by simpa using hlow)]

theorem captureBody_side (t : TxTracker) (x : Hash) (n : Nat) (body : List Extrinsic) :
    (t.captureBody x n body).resubmitRetryTimers = t.resubmitRetryTimers ∧
      (t.captureBody x n body).pendingPool = t.pendingPool ∧
      (t.captureBody x n body).missingCandidates = t.missingCandidates := by
  unfold TxTracker.captureBody
  dsimp only
  split <;> exact ⟨rfl, rfl, rfl⟩

/-- The answers to a resubmission make it a success or a failure, not a confirmation. -/
theorem goes_resubmitSettled (t : TxTracker) (call : Nat) (results : List (Option String)) :
    Goes h s k keep t (t.resubmitSettled call results) := by
  unfold resubmitSettled
  split
  · exact Goes.refl t
  · dsimp only
    split
    · exact goes_of_still [_] rfl rfl (fun hk => ⟨hk.timers, hk.pool, hk.candidates⟩) rfl rfl
        (by simp [Silent, Confirms, resubmitRow])
    · exact goes_of_still [_] rfl rfl (fun hk => ⟨hk.timers, hk.pool, hk.candidates⟩) rfl rfl
        (by simp [Silent, Confirms, resubmitRow])

/-! ## One step of the program -/

/-- The hash has been the canonical inclusion of its signer and nonce. -/
def Canonical (h : Hash) (c : ChainContext) : Prop :=
  ∃ b txs, .marked b txs ∈ c.txTracker.history ∧ ∃ tx ∈ txs, tx.hash = h

/-- A loop for the hash is running and has made an attempt. -/
def LoopRuns (h : Hash) (c : ChainContext) : Prop :=
  ∃ loop, c.txTracker.resubmitRetryTimers.get? h = some loop ∧ 0 < loop.attempts

/-- A notification of `H` marks a block that contains the hash. -/
def MarksHash (h : Hash) (c : ChainContext) (F : Nat) (H : Hash) : Prop :=
  ∃ b ∈ newlyFinal c.txTracker F H c.blockTree, ∃ captured,
    c.txTracker.blockExtrinsics.get? b.hash = some captured ∧ ∃ tx ∈ captured.extrinsics, tx.hash = h

/-- In every body and in every snapshot, this hash comes with this signer and nonce. -/
def NamedEverywhere (h : Hash) (s : Address) (k : Nat) : Event → Prop
  | .poll _ (some raw) => ∀ n, ∀ tx ∈ extractTrackedExtrinsics raw n, NamesHash h s k tx
  | e => RecoveredAs h s k e

/--
The loop of an attempted hash lasts: it runs when the hash becomes canonical, and
from then on neither a poll nor a prune takes it away, nor a tick that finds
another hash in its place.
-/
def KeepsLoop (h : Hash) (s : Address) (k : Nat) (c : ChainContext) : Event → Prop
  | .finalizedHeads _ F H => ¬ Canonical h c → .attempted h ∈ c.txTracker.history →
      MarksHash h c F H → LoopRuns h c
  | .poll _ (some raw) =>
      (∃ tx ∈ extractTrackedExtrinsics raw c.txTracker.lastKnownHeight, tx.hash = h) →
        Calm h (Canonical h c) c.txTracker
  | .retryTick x => x = h → Canonical h c → LoopRuns h c → latestHash s k c.txTracker = some h
  | .resume i .done => ∀ F, c.tasks[i]? = some (.resolveForkEvent F) → Canonical h c →
      ∀ loop, c.txTracker.resubmitRetryTimers.get? h = some loop → 0 < loop.attempts →
        F - c.config.pruneAfter < (loop.record.lostAtHeight.getD 0 : Nat)
  | _ => True

/-- Every attempted hash that has become canonical and has no loop left was confirmed, once. -/
def ConfirmedOnce (h : Hash) (c : ChainContext) : Prop :=
  .attempted h ∈ c.txTracker.history → Canonical h c →
    c.txTracker.resubmitRetryTimers.get? h = none → confirmations h c.txTracker.history = 1

/-- The invariant behind it. -/
structure RescueInv (h : Hash) (s : Address) (k : Nat) (c : ChainContext) : Prop where
  tree : TreeInv c.blockTree
  recovered : Recovered h s k c
  keyed : Keyed h s k c.txTracker
  sound : (lifeOf h c.txTracker).Sound (latestHash s k c.txTracker) (Canonical h c)

theorem Canonical.latest {c : ChainContext} (hr : Recovered h s k c) (hc : Canonical h c) :
    latestHash s k c.txTracker ≠ none := by
  obtain ⟨b, txs, hm, tx, htx, hh⟩ := hc
  obtain ⟨latest, hlatest⟩ := OrdMap.has_iff.mp (hr.marked b txs hm tx htx hh)
  unfold latestHash
  rw [hlatest]
  simp

theorem RescueInv.confirmedOnce {c : ChainContext} (hi : RescueInv h s k c) :
    ConfirmedOnce h c := by
  intro hatt hcan hnone
  rcases hi.sound.told hcan (by simpa [lifeOf] using hatt) with hone | ⟨n, hn, -⟩
  · exact hone
  · unfold lifeOf at hn
    rw [hnone] at hn
    exact absurd hn (by simp)

theorem canonical_step {c : ChainContext} {e : Event} :
    Canonical h (c.step e) ↔ Canonical h c ∨ ∃ node F H, e = .finalizedHeads node F H ∧
      MarksHash h c F H := by
  refine ⟨?_, ?_⟩
  · intro hc
    obtain ⟨b, txs, hm, tx, htx, hh⟩ := hc
    rcases mem_history_step hm with hold | ⟨node, F, H, r, captured, rfl, hpath, rfl, hcap, rfl⟩
    · exact Or.inl ⟨b, txs, hold, tx, htx, hh⟩
    · exact Or.inr ⟨node, F, H, rfl, r, hpath, captured, hcap, tx, htx, hh⟩
  · intro hc
    rcases hc with ⟨b, txs, hm, htx⟩ | ⟨node, F, H, rfl, b, hpath, captured, hcap, htx⟩
    · obtain ⟨rs, hrs, -⟩ := history_step c e
      exact ⟨b, txs, by rw [hrs]; exact List.mem_append_left _ hm, htx⟩
    · obtain ⟨review, resolution, hhist, -⟩ := (finalized_step c node F H).history
      refine ⟨b.hash, captured.extrinsics, ?_, htx⟩
      rw [hhist]
      have hm := mem_markReports.mpr ⟨b, hpath, captured, hcap, rfl⟩
      simp [hm]

/-- **One step: the lifecycle makes moves**, on what is canonical after the step. -/
theorem moves_step {c : ChainContext} {e : Event} (hi : RescueInv h s k c)
    (hn : NamedEverywhere h s k e) (hg : KeepsLoop h s k c e) :
    Keyed h s k (c.step e).txTracker ∧
      Moves h (latestHash s k (c.step e).txTracker) (Canonical h (c.step e))
        (lifeOf h c.txTracker) (lifeOf h (c.step e).txTracker) := by
  -- a step that marks nothing leaves open only what it does to the loop
  have still : (∀ node F H, e ≠ .finalizedHeads node F H) →
      (c.step e).txTracker.latestBySignerNonce = c.txTracker.latestBySignerNonce →
      Keyed h s k (c.step e).txTracker ∧ Moves h (latestHash s k c.txTracker) (Canonical h c)
          (lifeOf h c.txTracker) (lifeOf h (c.step e).txTracker) →
      Keyed h s k (c.step e).txTracker ∧
        Moves h (latestHash s k (c.step e).txTracker) (Canonical h (c.step e))
          (lifeOf h c.txTracker) (lifeOf h (c.step e).txTracker) := by
    intro hno hsame hmoves
    have hcan : Canonical h (c.step e) ↔ Canonical h c := by
      rw [canonical_step]
      simp [hno]
    have hlatest : latestHash s k (c.step e).txTracker = latestHash s k c.txTracker := by
      unfold latestHash
      rw [hsame]
    rw [hlatest, propext hcan]
    exact hmoves
  have goes : (∀ node F H, e ≠ .finalizedHeads node F H) →
      Goes h s k (Canonical h c) c.txTracker (c.step e).txTracker →
      Keyed h s k (c.step e).txTracker ∧
        Moves h (latestHash s k (c.step e).txTracker) (Canonical h (c.step e))
          (lifeOf h c.txTracker) (lifeOf h (c.step e).txTracker) :=
    fun hno hg => still hno hg.latest ⟨hg.keyed hi.keyed, hg.moves hi.keyed⟩
  -- and what touches neither loops, pool nor candidates leaves nothing open
  have same : ∀ u : TxTracker, u.blockExtrinsics = c.txTracker.blockExtrinsics →
      u.latestBySignerNonce = c.txTracker.latestBySignerNonce →
      u.resubmitRetryTimers = c.txTracker.resubmitRetryTimers →
      u.pendingPool = c.txTracker.pendingPool →
      u.missingCandidates = c.txTracker.missingCandidates → u.history = c.txTracker.history →
      Goes h s k (Canonical h c) c.txTracker u := by
    intro u hb hl ht hp hm hh
    exact goes_of_still [] hb hl (fun hk => ⟨by rw [ht]; exact hk.timers, by rw [hp]; exact hk.pool,
      by rw [hm]; exact hk.candidates⟩) (by rw [ht]) (by rw [hh, List.append_nil]) (by simp)
  cases e with
  | allHeads node header =>
      refine goes (by simp) ?_
      rw [(allHeads_frame c node header).2]
      exact Goes.refl c.txTracker
  | finalizedHeads node F H => exact moves_onHeightFinalized hi.keyed hi.recovered.bodies F H _
  | resume i a =>
      rcases resume_cases c i a with ⟨x, n, body, -, rfl, heq⟩ | ⟨F, ht, rfl, heq⟩ | hq
      · obtain ⟨htimers, hpool, hcand⟩ := captureBody_side c.txTracker x n body
        have hcap := captureBody_spec c.txTracker x n body
        obtain ⟨rs, hrs, htracked⟩ := hcap.history
        refine still (by simp) (by rw [heq]; exact hcap.latestBySignerNonce) ?_
        rw [heq]
        refine ⟨⟨by rw [htimers]; exact hi.keyed.timers, by rw [hpool]; exact hi.keyed.pool,
          by rw [hcand]; exact hi.keyed.candidates⟩, moves_of_still _ (by rw [htimers]) hrs ?_⟩
        intro r hr
        rcases List.mem_cons.mp hr with rfl | hr
        · exact ⟨by simp, rfl⟩
        · obtain ⟨m, rfl⟩ := htracked r hr
          exact ⟨by simp, rfl⟩
      · refine still (by simp) (by rw [heq]; rfl) ?_
        rw [heq]
        exact goes_pruneBlocks (hg F ht) hi.keyed
      · refine goes (by simp) ?_
        obtain ⟨m, -, hm⟩ := hq.txTracker
        rw [hm]
        exact same _ rfl rfl rfl rfl rfl rfl
  | poll node answer =>
      refine goes (by simp) (goes_pollPendingPool hi.keyed ?_ ?_)
      · rintro raw rfl
        exact hn _
      · rintro raw rfl
        exact hg
  | retryTick x =>
      refine goes (by simp) (goes_retryTick fun hx hcan loop hloop hpos => ?_)
      exact hg hx hcan ⟨loop, hloop, hpos⟩
  | resubmitSettled call results => exact goes (by simp) (goes_resubmitSettled ..)
  | connections connected => exact goes (by simp) (same _ rfl rfl rfl rfl rfl rfl)
  | setupCausation => exact goes (by simp) (Goes.refl c.txTracker)
  | identities entries => exact goes (by simp) (Goes.refl c.txTracker)

theorem NamedEverywhere.recovered {e : Event} (hn : NamedEverywhere h s k e) :
    RecoveredAs h s k e := by
  cases e with
  | poll node answer => trivial
  | _ => exact hn

theorem rescueInv_init (h : Hash) (s : Address) (k : Nat) (config : ChainConfig)
    (opts : TxOptions) : RescueInv h s k (machine config opts).init where
  tree := treeInv_init
  recovered := recovered_init config opts h s k
  keyed := by
    refine ⟨?_, ?_, ?_⟩
    · intro x loop hx; exact absurd hx (by simp [machine])
    · intro x tx hx; exact absurd hx (by simp [machine])
    · intro x cand hx; exact absurd hx (by simp [machine])
  sound := by
    refine ⟨?_, ?_, ?_⟩
    · intro n hn; exact absurd hn (by simp [lifeOf, machine])
    · intro hconf; exact absurd hconf (by simp [lifeOf, machine, confirmations])
    · intro hcan
      obtain ⟨b, txs, hm, -⟩ := hcan
      exact absurd hm (by simp [machine])

theorem rescueInv_step {c : ChainContext} {e : Event} (hi : RescueInv h s k c)
    (hn : NamedEverywhere h s k e) (hg : KeepsLoop h s k c e) : RescueInv h s k (c.step e) := by
  have hr := recovered_step hi.recovered hi.tree hn.recovered
  obtain ⟨hkeyed, hmoves⟩ := moves_step hi hn hg
  refine ⟨treeInv_step hi.tree e, hr, hkeyed, ?_⟩
  refine sound_moves (Canonical.latest hr) ⟨hi.sound.attempted, ?_, ?_⟩ hmoves
  · intro hconf
    obtain ⟨hl, hone, hloop⟩ := hi.sound.once hconf
    -- inclusions are replaced, never forgotten
    refine ⟨?_, hone, hloop⟩
    have hold : c.txTracker.latestBySignerNonce.has (s, k) = true := by
      unfold latestHash at hl
      cases hget : c.txTracker.latestBySignerNonce.get? (s, k) with
      | none => rw [hget] at hl; exact absurd rfl hl
      | some latest => exact OrdMap.has_iff.mpr ⟨latest, hget⟩
    obtain ⟨latest, hlatest⟩ := OrdMap.has_iff.mp (latest_step_mono c e hold)
    unfold latestHash
    rw [hlatest]
    simp
  · intro hcan hatt
    by_cases hwas : Canonical h c
    · exact hi.sound.told hwas hatt
    · -- this very step makes the hash canonical
      rcases canonical_step.mp hcan with hold | ⟨node, F, H, rfl, hmarks⟩
      · exact absurd hold hwas
      · have hattempted : .attempted h ∈ c.txTracker.history := by simpa [lifeOf] using hatt
        obtain ⟨loop, hloop, hpos⟩ := hg hwas hattempted hmarks
        refine Or.inr ⟨loop.attempts, ?_, hpos⟩
        unfold lifeOf
        rw [hloop]
        rfl

/-! ## Two runs

Alice's transfer vanishes from the pool for three polls, so that the tracker submits
it again. In both runs the transfer then becomes canonical in `a1`. -/

/-- The transfer is in the pool, then it is not, and the third miss starts the loop. -/
def dropped : List Event :=
  [.connections ["n"], .poll "n" (some [transfer]), .poll "n" (some []), .poll "n" (some []),
    .poll "n" (some [])]

/-- The only block of its height is captured and finalized. -/
def becomesCanonical (x : Hash) (body : List Extrinsic) : List Event :=
  captures smallLineage "n" x body ++ [finalizes smallLineage "n" x]

theorem namedEverywhere_poll {node : NodeName} {raw : List Extrinsic}
    (h : ∀ ext ∈ raw, ext = transfer) : NamedEverywhere "t" "alice" 0 (.poll node (some raw)) := by
  intro n tx htx _
  obtain ⟨ext, hext, htx⟩ := List.mem_filterMap.mp htx
  obtain rfl := h ext hext
  obtain rfl := Option.some.inj htx
  exact ⟨rfl, rfl⟩

theorem namedEverywhere_becomesCanonical {x : Hash} {e : Event}
    (he : e ∈ becomesCanonical x [transfer]) : NamedEverywhere "t" "alice" 0 e := by
  simp only [becomesCanonical, captures, List.cons_append, List.nil_append, List.mem_cons,
    List.not_mem_nil, or_false] at he
  rcases he with rfl | rfl | rfl | rfl
  · trivial
  · trivial
  · intro n tx htx _
    obtain rfl := List.mem_singleton.mp htx
    exact ⟨rfl, rfl⟩
  · trivial

theorem namedEverywhere_dropped {e : Event} (he : e ∈ dropped) :
    NamedEverywhere "t" "alice" 0 e := by
  simp only [dropped, List.mem_cons, List.not_mem_nil, or_false] at he
  rcases he with rfl | rfl | rfl | rfl | rfl
  · trivial
  · exact namedEverywhere_poll (by simp)
  · exact namedEverywhere_poll (by simp)
  · exact namedEverywhere_poll (by simp)
  · exact namedEverywhere_poll (by simp)

/--
**When the rescue of a transaction is told, and told once.**

Let a hash come with one signer and one nonce everywhere. In every run whose steps
keep the loop of that hash, in every state: if the hash was attempted, has become
canonical, and has no loop left, there is exactly one confirmation of it.
-/
theorem confirmedOnce_of_keepsLoop (config : ChainConfig) (opts : TxOptions) (evs : List Event)
    {h : Hash} {s : Address} {k : Nat} (hn : ∀ e ∈ evs, NamedEverywhere h s k e)
    (hg : (machine config opts).Guarded (KeepsLoop h s k) (machine config opts).init evs) :
    ∀ pre, pre <+: evs → ConfirmedOnce h ((machine config opts).run pre) := by
  intro pre hpre
  obtain ⟨post, rfl⟩ := hpre
  have hpre := (Machine.guarded_append.mp hg).1
  have hinv : RescueInv h s k ((machine config opts).run pre) := by
    refine Machine.guarded_invariant (G := fun c e => NamedEverywhere h s k e ∧ KeepsLoop h s k c e)
      (rescueInv_init h s k config opts) (fun c e hi he => rescueInv_step hi he.1 he.2) ?_
    exact Machine.guarded_and
      (Machine.guarded_of_forall fun e he => hn e (List.mem_append_left _ he)) hpre
  exact hinv.confirmedOnce

/-- The loop is still there when the transfer is canonical, and ticks once more. -/
def nextTickRun : List Event :=
  dropped ++ becomesCanonical "a1" [transfer] ++ [.retryTick "t"]

/-- That tick confirms. -/
theorem confirmedOnce_nextTick :
    ConfirmedOnce "t" ((machine {} { resubmitEnabled := true }).run nextTickRun) := by
  refine confirmedOnce_of_keepsLoop {} { resubmitEnabled := true } nextTickRun
    (s := "alice") (k := 0) ?_ ?_ _ (List.prefix_refl _)
  · intro e he
    rcases List.mem_append.mp he with he | he
    · rcases List.mem_append.mp he with he | he
      · exact namedEverywhere_dropped he
      · exact namedEverywhere_becomesCanonical he
    · obtain rfl := List.mem_singleton.mp he
      trivial
  · refine ⟨trivial, ?_, ?_, ?_, ?_, trivial, ?_, ?_, ?_, ?_, trivial⟩
    · intro _ _ loop _ hloop
      exact nomatch (hloop : (none : Option RetryLoop) = some loop)
    · intro hex
      obtain ⟨tx, htx, -⟩ := hex
      exact absurd htx (by simp [extractTrackedExtrinsics])
    · intro hex
      obtain ⟨tx, htx, -⟩ := hex
      exact absurd htx (by simp [extractTrackedExtrinsics])
    · intro hex
      obtain ⟨tx, htx, -⟩ := hex
      exact absurd htx (by simp [extractTrackedExtrinsics])
    · intro F hF
      exact nomatch (hF : some (Task.imported _ false) = some (Task.resolveForkEvent F))
    · trivial
    · intro _ _ _
      exact ⟨_, rfl, by decide⟩
    · intro _ _ _
      decide

/--
The resubmission works: the transfer is back in the pool, and the second poll that
finds it there stops the loop. The inclusion comes after that.
-/
def backInPoolRun : List Event :=
  dropped ++ [.poll "n" (some [transfer]), .poll "n" (some [transfer])] ++
    becomesCanonical "a1" [transfer]

/-- The transfer was attempted, is canonical, has no loop left, and was never confirmed. -/
theorem not_confirmedOnce_backInPoolRun :
    (∀ e ∈ backInPoolRun, NamedEverywhere "t" "alice" 0 e ∧ FromLineage smallLineage e) ∧
      ¬ ConfirmedOnce "t" ((machine {} { resubmitEnabled := true }).run backInPoolRun) := by
  refine ⟨?_, ?_⟩
  · intro e he
    rcases List.mem_append.mp he with he | he
    · rcases List.mem_append.mp he with he | he
      · refine ⟨namedEverywhere_dropped he, ?_⟩
        simp only [dropped, List.mem_cons, List.not_mem_nil, or_false] at he
        rcases he with rfl | rfl | rfl | rfl | rfl <;> trivial
      · simp only [List.mem_cons, List.not_mem_nil, or_false, or_self] at he
        subst he
        exact ⟨namedEverywhere_poll (by simp), trivial⟩
    · refine ⟨namedEverywhere_becomesCanonical he, ?_⟩
      rcases List.mem_append.mp he with he | he
      · exact fromLineage_captures he
      · obtain rfl := List.mem_singleton.mp he
        exact fromLineage_finalizes ..
  · intro h
    have hcan : Canonical "t" ((machine {} { resubmitEnabled := true }).run backInPoolRun) :=
      ⟨"a1", extractTrackedExtrinsics [transfer] 1, by decide, _, List.mem_singleton_self _, rfl⟩
    have hone := h (by decide) hcan (by decide)
    exact absurd hone (by decide)

end ForkWatch.Proof
