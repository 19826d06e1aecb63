import ForkWatch.Lib.Component
import ForkWatch.Chain.Polling
import ForkWatch.Proof.Acts

/-!
# A chain under its poll timer

The poll timer is the only one to read which nodes reject the poll. So a chain that is
polled is a run of the chain alone, in which the nodes that were asked answer, and only
those: but for that set, the two states are the same (`chain_of_polled`). Whatever holds
of all runs of a chain, with any node answering a poll at any time, holds under the timer.
-/

namespace ForkWatch.Proof

open Lib TxTracker ChainContext

/-! ## The tracker -/

section Asking

variable (nodes : OrdSet NodeName)

/-- The tracker, with other nodes that reject the poll. -/
def asking (t : TxTracker) : TxTracker := { t with unsupportedNodes := nodes }

theorem asking_foldl {α : Type} {f : TxTracker → α → TxTracker}
    (hf : ∀ t a, f (asking nodes t) a = asking nodes (f t a)) (l : List α) (t : TxTracker) :
    l.foldl f (asking nodes t) = asking nodes (l.foldl f t) := by
  induction l generalizing t with
  | nil => rfl
  | cons a l ih => rw [List.foldl_cons, List.foldl_cons, hf, ih]

theorem asking_captureBody (t : TxTracker) (x : Hash) (n : Nat) (body : List Extrinsic) :
    (asking nodes t).captureBody x n body = asking nodes (t.captureBody x n body) := by
  unfold TxTracker.captureBody
  dsimp only
  split
  · rfl
  · rfl

theorem asking_resubmitOnce (t : TxTracker) (record : RetryRecord) :
    (asking nodes t).resubmitOnce record = asking nodes (t.resubmitOnce record) := by
  unfold resubmitOnce asking emit
  dsimp only
  split
  · rfl
  · rfl

theorem asking_tick (t : TxTracker) (record : RetryRecord) (attempts : Nat) :
    (asking nodes t).tick record attempts
      = (asking nodes (t.tick record attempts).1, (t.tick record attempts).2) := by
  have hlatest : (asking nodes t).latestFor record.signer record.nonce
      = t.latestFor record.signer record.nonce := rfl
  have hexpired : (asking nodes t).isExpired record.toTx = t.isExpired record.toTx := rfl
  unfold tick
  rw [hlatest, hexpired, asking_resubmitOnce]
  unfold asking
  dsimp only
  cases t.latestFor record.signer record.nonce with
  | some latest =>
      dsimp only
      split
      · split
        · rfl
        · rfl
      · rfl
  | none =>
      dsimp only
      split
      · rfl
      · split
        · rfl
        · split
          · rfl
          · rfl

theorem asking_startResubmitRetry (t : TxTracker) (record : RetryRecord) :
    (asking nodes t).startResubmitRetry record = asking nodes (t.startResubmitRetry record) := by
  have hmay : (asking nodes t).mayRetry record = t.mayRetry record := rfl
  unfold startResubmitRetry
  rw [hmay]
  split
  · have htick := asking_tick nodes ({ t with everRetried := (if MAX_FINALIZED_HASHES ≤
      t.everRetried.size then ∅ else t.everRetried).add record.hash }.emit (.loopStarted record))
      record 0
    unfold asking at htick ⊢
    dsimp only [emit] at htick ⊢
    rw [htick]
  · rfl

theorem asking_retryTick (t : TxTracker) (hash : Hash) :
    (asking nodes t).retryTick hash = asking nodes (t.retryTick hash) := by
  have htimers : (asking nodes t).resubmitRetryTimers = t.resubmitRetryTimers := rfl
  unfold retryTick
  rw [htimers]
  cases t.resubmitRetryTimers.get? hash with
  | none => rfl
  | some loop =>
      dsimp only
      rw [asking_tick]
      rfl

theorem asking_resubmitSettled (t : TxTracker) (i : Nat) (results : List (Option String)) :
    (asking nodes t).resubmitSettled i results = asking nodes (t.resubmitSettled i results) := by
  have hcalls : (asking nodes t).resubmitting = t.resubmitting := rfl
  unfold resubmitSettled
  rw [hcalls]
  cases t.resubmitting[i]? with
  | none => rfl
  | some call =>
      dsimp only
      split
      · rfl
      · rfl

theorem asking_finalize (t : TxTracker) (tx : Tx) (hash : Hash) (status : TxStatus)
    (extra : FinalizeExtra) :
    (asking nodes t).finalize tx hash status extra
      = asking nodes (t.finalize tx hash status extra) := by
  unfold finalize asking
  dsimp only
  split
  · rfl
  · rfl

theorem asking_resolveReorgEntry (t : TxTracker) (entry : ReorgEntry) :
    (asking nodes t).resolveReorgEntry entry = asking nodes (t.resolveReorgEntry entry) := by
  have hfind : (asking nodes t).findResubmission entry.toTx entry.hash
      = t.findResubmission entry.toTx entry.hash := rfl
  have hlatest : (asking nodes t).latestFor entry.signer entry.nonce
      = t.latestFor entry.signer entry.nonce := rfl
  have hexpired : (asking nodes t).isExpired entry.toTx = t.isExpired entry.toTx := rfl
  unfold resolveReorgEntry
  rw [hfind, hlatest, hexpired]
  cases t.findResubmission entry.toTx entry.hash with
  | some resubmission => exact asking_finalize ..
  | none =>
      dsimp only
      split
      · rfl
      · exact asking_finalize ..

theorem asking_canonicalWalk (tree : BlockTree) (floor : Int) (fuel : Nat)
    (cursor : Option BlockRecord) (t : TxTracker) :
    canonicalWalk tree floor fuel cursor (asking nodes t)
      = asking nodes (canonicalWalk tree floor fuel cursor t) := by
  induction fuel generalizing cursor t with
  | zero => cases cursor with
    | none => rfl
    | some r => rfl
  | succ fuel ih =>
      cases cursor with
      | none => rfl
      | some r =>
          have hmark : (asking nodes t).markCanonical r.hash r.number
              = asking nodes (t.markCanonical r.hash r.number) := by
            unfold markCanonical asking
            dsimp only
            split
            · rfl
            · rfl
          unfold canonicalWalk
          split
          · rw [hmark, ih]
          · rfl

theorem asking_reviewHeight (F : Nat) (H : Hash) (tree : BlockTree) (t : TxTracker)
    (height : Nat) : reviewHeight F H tree (asking nodes t) height
      = asking nodes (reviewHeight F H tree t height) := by
  have hlosing : ∀ canonical (t : TxTracker) hash,
      queueLosing height H canonical (asking nodes t) hash
        = asking nodes (queueLosing height H canonical t hash) := by
    intro canonical t hash
    have hbodies : (asking nodes t).blockExtrinsics = t.blockExtrinsics := rfl
    unfold queueLosing
    rw [hbodies]
    split
    · rfl
    · cases t.blockExtrinsics.get? hash with
      | none => rfl
      | some losing =>
          refine asking_foldl nodes (fun t tx => ?_) losing.extrinsics t
          exact asking_startResubmitRetry nodes ({ t with pendingReorgReview :=
            t.pendingReorgReview ++ [lostEntry t.opts height hash tx] }.emit
            (.queued (lostEntry t.opts height hash tx) H)) _
  have hprocessed : (asking nodes t).processedForkHeights = t.processedForkHeights := rfl
  unfold reviewHeight
  rw [hprocessed]
  split
  · rfl
  · unfold queueReorgReview
    cases tree.getBlocksAtHeight height with
    | none => rfl
    | some blocks =>
        exact asking_foldl nodes (hlosing (tree.getCanonicalAncestorAt H height)) blocks.keys
          { t with processedForkHeights := t.processedForkHeights.add height }

theorem asking_onHeightFinalized (t : TxTracker) (F : Nat) (H : Hash) (tree : BlockTree) :
    (asking nodes t).onHeightFinalized F H tree = asking nodes (t.onHeightFinalized F H tree) := by
  have hdue : ∀ t : TxTracker, (asking nodes t).resolveDue F = asking nodes (t.resolveDue F) := by
    intro t
    have hfold := asking_foldl nodes (f := fun t (entry : ReorgEntry) =>
      if F < entry.dueAtHeight then t else t.resolveReorgEntry entry) (fun t entry => by
        split
        · rfl
        · exact asking_resolveReorgEntry nodes t entry) t.pendingReorgReview t
    have hqueue : (asking nodes t).pendingReorgReview = t.pendingReorgReview := rfl
    unfold resolveDue
    rw [hqueue, hfold]
    rfl
  have hwalk : ∀ t : TxTracker, (asking nodes t).walkFinalized F H tree
      = asking nodes (t.walkFinalized F H tree) := by
    intro t
    unfold walkFinalized
    dsimp only
    rw [asking_canonicalWalk]
    rfl
  unfold onHeightFinalized
  dsimp only
  rw [← hdue, ← asking_foldl nodes (asking_reviewHeight nodes F H tree), ← hwalk]
  rfl

theorem asking_pollVanished (current : OrdMap Hash Tx) (t : TxTracker) (e : Hash × Tx) :
    pollVanished current (asking nodes t) e = asking nodes (pollVanished current t e) := by
  unfold pollVanished onTxLeftPool asking
  dsimp only
  split
  · rfl
  · split
    · rfl
    · split
      · rfl
      · rfl

theorem asking_pollPresent (t : TxTracker) (e : Hash × Tx) :
    (asking nodes t).pollPresent e = asking nodes (t.pollPresent e) := by
  have hdebounce : (asking nodes t).debounceReappeared e.1
      = asking nodes (t.debounceReappeared e.1) := by
    have hcandidates : (asking nodes t).missingCandidates = t.missingCandidates := rfl
    have hopts : (asking nodes t).opts = t.opts := rfl
    unfold debounceReappeared
    rw [hcandidates, hopts]
    cases t.missingCandidates.get? e.1 with
    | none => rfl
    | some cand =>
        dsimp only
        split
        · rfl
        · rfl
  unfold pollPresent
  dsimp only
  rw [hdebounce]
  unfold asking
  dsimp only
  split
  · rfl
  · rfl

theorem asking_classifyMissing (t : TxTracker) (hash : Hash) (cand : Candidate) :
    (asking nodes t).classifyMissing hash cand = asking nodes (t.classifyMissing hash cand) := by
  have hfind : (asking nodes t).findResubmission cand.toTx hash
      = t.findResubmission cand.toTx hash := rfl
  have hexpired : (asking nodes t).isExpired cand.toTx = t.isExpired cand.toTx := rfl
  have hopts : (asking nodes t).opts = t.opts := rfl
  unfold classifyMissing
  rw [hfind, hexpired, hopts]
  cases t.findResubmission cand.toTx hash with
  | some resubmission =>
      dsimp only
      rw [asking_finalize]
      rfl
  | none =>
      dsimp only
      split
      · rfl
      · rw [asking_finalize]
        rfl

theorem asking_reviewCandidate (current : OrdMap Hash Tx) (t : TxTracker) (e : Hash × Candidate) :
    reviewCandidate current (asking nodes t) e = asking nodes (reviewCandidate current t e) := by
  have hincluded : (asking nodes t).includedHashes = t.includedHashes := rfl
  have hopts : (asking nodes t).opts = t.opts := rfl
  unfold reviewCandidate
  rw [hincluded]
  dsimp only
  rw [hopts]
  split
  · rfl
  · split
    · rfl
    · split
      · rfl
      · rw [← asking_classifyMissing, ← asking_startResubmitRetry]
        rfl

theorem asking_pollPendingPool (t : TxTracker) (node : NodeName) (raw : List Extrinsic) :
    (asking nodes t).pollPendingPool node (some raw)
      = asking nodes (t.pollPendingPool node (some raw)) := by
  have hpool : (asking nodes t).pendingPool = t.pendingPool := rfl
  have hheight : (asking nodes t).lastKnownHeight = t.lastKnownHeight := rfl
  unfold pollPendingPool reviewMissingCandidates
  dsimp only
  rw [hpool, hheight, asking_foldl nodes (asking_pollVanished nodes _),
    asking_foldl nodes (asking_pollPresent nodes),
    ← asking_foldl nodes (asking_reviewCandidate nodes _)]
  rfl

/-! ## The chain -/

/-- The chain, with other nodes that reject the poll. -/
def askedOf (c : ChainContext) : ChainContext := { c with txTracker := asking nodes c.txTracker }

theorem askedOf_writeHeld (c : ChainContext) (n epoch : Nat) (x : Hash)
    (f : BlockRecord → BlockRecord) : (askedOf nodes c).writeHeld n epoch x f
      = askedOf nodes (c.writeHeld n epoch x f) := by
  have hmaps : (askedOf nodes c).detached = c.detached := rfl
  unfold writeHeld
  rw [hmaps]
  split
  · rfl
  · rfl

theorem askedOf_insertForkBlocks (c : ChainContext) (header : Header) (epoch : Nat)
    (rest : List BlockRecord) (event : ForkEventRow) (hooked : Bool) :
    (askedOf nodes c).insertForkBlocks header epoch rest event hooked
      = askedOf nodes (c.insertForkBlocks header epoch rest event hooked) := by
  cases rest with
  | nil => rfl
  | cons b rest => rfl

theorem askedOf_importNew (c : ChainContext) (header : Header) :
    (askedOf nodes c).importNew header = askedOf nodes (c.importNew header) := by
  have htree : (askedOf nodes c).blockTree = c.blockTree := rfl
  have hdetector : (askedOf nodes c).forkDetector = c.forkDetector := rfl
  unfold importNew
  rw [htree, hdetector]
  dsimp only
  split
  · split
    · rfl
    · unfold detectFork
      rw [← askedOf_insertForkBlocks]
      rfl
  · rfl

theorem askedOf_onAllHeads (c : ChainContext) (node : NodeName) (header : Header) :
    (askedOf nodes c).onAllHeads node header = askedOf nodes (c.onAllHeads node header) := by
  have htree : (askedOf nodes c).blockTree = c.blockTree := rfl
  unfold onAllHeads
  rw [htree]
  dsimp only
  split
  · rw [← askedOf_importNew]
    rfl
  · rfl

theorem askedOf_recordCause (c : ChainContext) (header : Header) (epoch : Nat)
    (blocks : List BlockRecord) (relayParents : List (Option RelayParent)) :
    (askedOf nodes c).recordCause header epoch blocks relayParents
      = askedOf nodes (c.recordCause header epoch blocks relayParents) := by
  have hheld : (askedOf nodes c).held header.number epoch = c.held header.number epoch := rfl
  unfold ChainContext.recordCause
  rw [hheld]
  dsimp only
  split
  · rfl
  · rfl

theorem askedOf_analyzeForkCause (c : ChainContext) (header : Header) (epoch : Nat) :
    (askedOf nodes c).analyzeForkCause header epoch
      = askedOf nodes (c.analyzeForkCause header epoch) := by
  have hheld : (askedOf nodes c).heldAt header.number epoch = c.heldAt header.number epoch := rfl
  unfold analyzeForkCause
  rw [hheld]
  dsimp only
  split
  · rfl
  · rfl

theorem askedOf_enrichForkAuthors (c : ChainContext) (header : Header) (epoch : Nat)
    (visited : List Hash) : (askedOf nodes c).enrichForkAuthors header epoch visited
      = askedOf nodes (c.enrichForkAuthors header epoch visited) := by
  have htree : (askedOf nodes c).blockTree = c.blockTree := rfl
  have hheld : (askedOf nodes c).heldAt header.number epoch = c.heldAt header.number epoch := rfl
  unfold enrichForkAuthors
  rw [hheld]
  split
  · unfold updateForkAuthors
    rw [htree]
    split
    · rfl
    · rfl
  · rfl

theorem askedOf_storeRelayParents (c : ChainContext) (n epoch : Nat) (blocks : List BlockRecord)
    (relayParents : List (Option RelayParent)) :
    (askedOf nodes c).storeRelayParents n epoch blocks relayParents
      = askedOf nodes (c.storeRelayParents n epoch blocks relayParents) := by
  unfold storeRelayParents
  generalize blocks.zip relayParents = pairs
  induction pairs generalizing c with
  | nil => rfl
  | cons pair pairs ih =>
      rw [List.foldl_cons, List.foldl_cons]
      split
      · exact ih c
      · rw [askedOf_writeHeld]
        exact ih _

/-- **Neither does any handler read which nodes are asked.** -/
theorem askedOf_resumeTask (c : ChainContext) (task : Task) (a : Answer) :
    (askedOf nodes c).resumeTask task a = askedOf nodes (c.resumeTask task a) := by
  have htree : (askedOf nodes c).blockTree = c.blockTree := rfl
  unfold resumeTask
  split
  · exact askedOf_insertForkBlocks ..
  · split
    · exact askedOf_analyzeForkCause ..
    · rfl
  · unfold onRelayParents
    dsimp only
    split
    · rfl
    · exact askedOf_recordCause ..
  · exact askedOf_recordCause ..
  · rw [askedOf_storeRelayParents]
    rfl
  · rfl
  · unfold afterImport
    rw [htree]
    split
    · split
      · rfl
      · exact askedOf_enrichForkAuthors ..
    · rfl
  · unfold onAuthor
    split
    · exact askedOf_enrichForkAuthors ..
    · rw [askedOf_writeHeld]
      rfl
  · rfl
  · unfold onIdentity
    dsimp only
    rw [askedOf_writeHeld, ← askedOf_enrichForkAuthors]
    rfl
  · unfold askedOf
    dsimp only
    rw [asking_captureBody]
  · rfl
  · rfl
  · rfl

theorem askedOf_step (c : ChainContext) {e : Event} (he : ∀ node, e ≠ .poll node none) :
    (askedOf nodes c).step e = askedOf nodes (c.step e) := by
  cases e with
  | allHeads node header => exact askedOf_onAllHeads ..
  | finalizedHeads node F x =>
      unfold step onFinalizedHeads
      dsimp only
      have hfinal := asking_onHeightFinalized nodes c.txTracker F x
        { c.blockTree with finalizedHeight := max c.blockTree.finalizedHeight F }
      unfold askedOf
      dsimp only
      rw [hfinal]
      rfl
  | resume i a =>
      have htasks : (askedOf nodes c).tasks = c.tasks := rfl
      unfold step
      dsimp only
      rw [htasks]
      cases c.tasks[i]? with
      | none => rfl
      | some task => exact askedOf_resumeTask nodes { c with tasks := c.tasks.eraseIdx i } task a
  | poll node answer =>
      cases answer with
      | none => exact absurd rfl (he node)
      | some raw =>
          unfold step askedOf
          dsimp only
          rw [asking_pollPendingPool]
  | retryTick x =>
      unfold step askedOf
      dsimp only
      rw [asking_retryTick]
  | resubmitSettled call results =>
      unfold step askedOf
      dsimp only
      rw [asking_resubmitSettled]
  | connections => rfl
  | setupCausation => rfl
  | identities => rfl

end Asking

/-! ## The timer -/

/-- What reaches the chain itself. -/
def eventsOfPoll (p : PolledChain) : PollEvent → List Event
  | .chain (.poll ..) => []
  | .chain e => [e]
  | .tick .. => []
  | .answered call answer => (p.calls[call]?).toList.map fun node => .poll node answer

/-- The chain, whichever nodes are asked. -/
def Asked (p : PolledChain) (c : ChainContext) : Prop := ∃ nodes, p.ctx = askedOf nodes c

theorem asked_step {p p' : PolledChain} {c : ChainContext} (h : Asked p c) {e : Event}
    (hp : p'.ctx = p.ctx.step e) : Asked p' (c.step e) := by
  obtain ⟨nodes, hctx⟩ := h
  by_cases hreject : ∃ node, e = .poll node none
  · obtain ⟨node, rfl⟩ := hreject
    exact ⟨nodes.add node, by rw [hp, hctx]; rfl⟩
  · refine ⟨nodes, ?_⟩
    rw [hp, hctx]
    exact askedOf_step nodes c fun node heq => hreject ⟨node, heq⟩

theorem asked_tick {p : PolledChain} {c : ChainContext} (h : Asked p c) (now : Int)
    (connections : List PollConnection) : Asked (p.tick now connections) c := by
  have hrecheck : Asked (p.recheck now) c := by
    unfold PolledChain.recheck
    split
    · exact h
    · split
      · obtain ⟨nodes, hctx⟩ := h
        refine ⟨∅, ?_⟩
        unfold PolledChain.clearUnsupported
        dsimp only
        rw [hctx]
        rfl
      · exact h
  unfold PolledChain.tick
  dsimp only
  split
  · split
    · exact hrecheck
    · exact hrecheck
  · exact hrecheck

/-- **A chain that is polled is a run of the chain alone.** -/
theorem chain_of_polled (config : ChainConfig) (opts : TxOptions) :
    Component (PolledChain.machine config opts) (ChainContext.machine config opts) Asked
      eventsOfPoll where
  init := ⟨∅, rfl⟩
  step := by
    intro p c e h
    cases e with
    | chain e =>
        by_cases hpoll : ∃ node answer, e = .poll node answer
        · obtain ⟨node, answer, rfl⟩ := hpoll
          exact h
        · have hboth : p.step (.chain e) = { p with ctx := p.ctx.step e }
              ∧ eventsOfPoll p (.chain e) = [e] := by
            cases e with
            | poll node answer => exact absurd ⟨node, answer, rfl⟩ hpoll
            | _ => exact ⟨rfl, rfl⟩
          change Asked (p.step (.chain e)) _
          rw [hboth.1, hboth.2]
          exact asked_step h rfl
    | tick now connections => exact asked_tick h now connections
    | answered call answer =>
        change Asked (p.answer call answer) ((ChainContext.machine config opts).runFrom c
          ((p.calls[call]?).toList.map fun node => .poll node answer))
        unfold PolledChain.answer
        cases p.calls[call]? with
        | none => exact h
        | some node => exact asked_step h (e := .poll node answer) rfl

end ForkWatch.Proof
