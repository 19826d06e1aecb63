import ForkWatch.Monitor.Extrinsic

/-!
# The transaction tracker

`src/monitor/tx-tracker.js`: one state machine per `(signer, nonce)`, fed by two
independent sources — snapshots of a node's pending pool, and block bodies
together with the resolution of forks.

Each method runs to its end without an await, except for the body fetch, the
pool fetch and the fan-out of a resubmission; these enter as the arguments
`extrinsics`, `answer` and `results`. `history` is write-only: what the tracker
reported, and what the proofs remember of a run. Wall-clock times are left out,
and so is the choice of the node to poll.
-/

namespace ForkWatch

open Lib

def MAX_FINALIZED_HASHES : Nat := 10000

/-- The options of the constructor, with its defaults. -/
structure TxOptions where
  reorgGracePeriodBlocks : Nat := 10
  dropGracePolls : Nat := 3
  dropMaxWaitPolls : Nat := 20
  reappearDebouncePolls : Nat := 2
  resubmitEnabled : Bool := false
  maxResubmitRetries : Nat := 30

/-- A captured block body. -/
structure Captured where
  number : Nat
  extrinsics : List Tx
  deriving DecidableEq

/-- A canonical inclusion. -/
structure Inclusion where
  hash : Hash
  blockHash : Hash
  blockNumber : Nat
  pallet : String
  method : String
  era : Option Era
  deriving DecidableEq

/-- A hash that vanished from the pool. -/
structure Candidate extends Tx where
  missingSincePollCount : Nat
  reappearedStreak : Nat
  lostAtHeight : Nat
  deriving DecidableEq

/-- An extrinsic of a losing block. -/
structure ReorgEntry extends Tx where
  lostAtHeight : Nat
  lostAtHash : Hash
  dueAtHeight : Nat
  deriving DecidableEq

inductive Trigger where
  | mempoolDrop
  | reorgLoss
  deriving DecidableEq

/-- What `startResubmitRetry` is given. -/
structure RetryRecord extends Tx where
  lostAtHeight : Option Nat
  trigger : Trigger
  deriving DecidableEq

def Candidate.retry (c : Candidate) : RetryRecord :=
  { c.toTx with lostAtHeight := some c.lostAtHeight, trigger := .mempoolDrop }

def ReorgEntry.retry (e : ReorgEntry) : RetryRecord :=
  { e.toTx with lostAtHeight := some e.lostAtHeight, trigger := .reorgLoss }

/-- A running retry loop: what its closure holds. -/
structure RetryLoop where
  record : RetryRecord
  attempts : Nat
  deriving DecidableEq

inductive TxStatus where
  | dropped
  | expired
  | resubmitted
  | reorgedLost
  | reorgedResubmitted
  deriving DecidableEq

inductive AttemptOutcome where
  | orphanedByReorg
  | vanishedFromPool
  | dropped
  | expired
  | included
  deriving DecidableEq

/-- What became of the original hash, as told by the status of the incident. -/
def TxStatus.originalOutcome : TxStatus → AttemptOutcome
  | .reorgedLost | .reorgedResubmitted => .orphanedByReorg
  | .resubmitted => .vanishedFromPool
  | .dropped => .dropped
  | .expired => .expired

/-- One hash an incident went through. -/
structure TxAttempt where
  hash : Hash
  birth : Option Nat
  death : Option Nat
  outcome : AttemptOutcome
  deriving DecidableEq

/-- The argument of `insertSubmittedTx`. -/
structure SubmittedTx where
  signer : Option Address
  nonce : Option Nat
  kind : TxKind
  pallet : String
  method : String
  status : TxStatus
  firstHash : Hash
  lastHash : Hash
  attempts : List TxAttempt
  lostAtHeight : Option Nat
  lostAtHash : Option Hash
  resolvedHash : Option Hash
  resolvedHeight : Option Nat
  deriving DecidableEq

inductive ResubmitResult where
  | succeeded
  | failed
  | confirmed
  deriving DecidableEq

/-- The argument of `insertResubmitAttempt`. -/
structure ResubmitAttempt where
  signer : Option Address
  nonce : Option Nat
  hash : Hash
  trigger : Trigger
  result : ResubmitResult
  error : Option String
  deriving DecidableEq

/-- The last argument of `finalize`. -/
structure FinalizeExtra where
  replacedBy : Option Hash := none
  lostAtHeight : Option Nat := none
  lostAtHash : Option Hash := none
  resolvedHeight : Option Nat := none

inductive TxReport where
  /-- A block body was captured (history only). -/
  | captured (block : Hash) (number : Nat) (txs : List Tx)
  /-- The canonical walk found this body (history only). -/
  | marked (block : Hash) (txs : List Tx)
  /-- `queueReorgReview` queued this entry, on a notification of this hash (history only). -/
  | queued (entry : ReorgEntry) (finalizedHash : Hash)
  /-- A retry loop was started (history only). -/
  | loopStarted (record : RetryRecord)
  /-- `tx_tracked_total`. -/
  | tracked (count : Nat)
  /-- `tx_resubmit_attempted_total`: one call of `resubmitOnce`. -/
  | attempted (hash : Hash)
  /-- `insertResubmitAttempt`, with the metric of its result. -/
  | resubmitAttempt (row : ResubmitAttempt)
  /-- `insertSubmittedTx`, with the metric of its status. -/
  | submitted (row : SubmittedTx)
  deriving DecidableEq

structure TxTracker where
  opts : TxOptions := {}
  resubmitRetryTimers : OrdMap Hash RetryLoop := ∅
  everRetried : OrdSet Hash := ∅
  /-- The connected nodes `getConnections` would list; none before `start`. -/
  connected : List NodeName := []
  blockExtrinsics : OrdMap Hash Captured := ∅
  processedForkHeights : OrdSet Nat := ∅
  lastCanonicalWalkHeight : Option Nat := none
  lastKnownHeight : Nat := 0
  /-- The key string of the source is injective, since a nonce prints without a colon. -/
  latestBySignerNonce : OrdMap (Address × Nat) Inclusion := ∅
  includedHashes : OrdSet Hash := ∅
  pendingPool : OrdMap Hash Tx := ∅
  missingCandidates : OrdMap Hash Candidate := ∅
  pendingReorgReview : List ReorgEntry := []
  finalizedHashes : OrdSet Hash := ∅
  unsupportedNodes : OrdSet NodeName := ∅
  /-- Resubmissions whose nodes have not all answered yet. -/
  resubmitting : List (RetryRecord × List NodeName) := []
  history : List TxReport := []

namespace TxTracker

def emit (t : TxTracker) (r : TxReport) : TxTracker := { t with history := t.history ++ [r] }

/-! ## Block bodies -/

/-- `onNewBlock` up to the fetch of the body. -/
def onNewBlock (t : TxTracker) (number : Nat) : TxTracker :=
  { t with lastKnownHeight := max t.lastKnownHeight number }

/-- `onNewBlock` once the body is there. -/
def captureBody (t : TxTracker) (hash : Hash) (number : Nat) (body : List Extrinsic) : TxTracker :=
  let extrinsics := extractTrackedExtrinsics body number
  let t := { t with blockExtrinsics := t.blockExtrinsics.set hash { number, extrinsics } }
  let t := t.emit (.captured hash number extrinsics)
  let t := if extrinsics.length = 0 then t else t.emit (.tracked extrinsics.length)
  { t with includedHashes := extrinsics.foldl (fun s tx => s.add tx.hash) t.includedHashes }

/-- Make `tx` the latest inclusion of its signer and nonce, if both are known. -/
def recordInclusion (blockHash : Hash) (blockNumber : Nat)
    (latest : OrdMap (Address × Nat) Inclusion) (tx : Tx) : OrdMap (Address × Nat) Inclusion :=
  match tx.signer, tx.nonce with
  | some signer, some nonce =>
      latest.set (signer, nonce)
        { hash := tx.hash, blockHash, blockNumber, pallet := tx.pallet, method := tx.method,
          era := tx.era }
  | _, _ => latest

/-- Mark a block's extrinsics canonical; nothing happens when its body was not captured. -/
def markCanonical (t : TxTracker) (blockHash : Hash) (blockNumber : Nat) : TxTracker :=
  match t.blockExtrinsics.get? blockHash with
  | none => t
  | some captured =>
      { t with
        latestBySignerNonce := captured.extrinsics.foldl (recordInclusion blockHash blockNumber)
          t.latestBySignerNonce }.emit (.marked blockHash captured.extrinsics)

/-! ## Resubmission -/

/-- The latest canonical inclusion for a signer and nonce. -/
def latestFor (t : TxTracker) (signer : Option Address) (nonce : Option Nat) : Option Inclusion :=
  match signer, nonce with
  | some s, some n => t.latestBySignerNonce.get? (s, n)
  | _, _ => none

/-- The era, if there is one, has passed. -/
def isExpired (t : TxTracker) (record : Tx) : Bool :=
  match record.era with
  | none => false
  | some era => era.death ≤ t.lastKnownHeight

def resubmitRow (record : RetryRecord) (result : ResubmitResult) (error : Option String) :
    ResubmitAttempt where
  signer := record.signer
  nonce := record.nonce
  hash := record.hash
  trigger := record.trigger
  result := result
  error := error

def recordConfirmedInclusion (t : TxTracker) (record : RetryRecord) : TxTracker :=
  t.emit (.resubmitAttempt (resubmitRow record .confirmed none))

/-- `resubmitOnce` up to the answers of the nodes. -/
def resubmitOnce (t : TxTracker) (record : RetryRecord) : TxTracker :=
  let t := t.emit (.attempted record.hash)
  if t.connected = [] then
    t.emit (.resubmitAttempt (resubmitRow record .failed (some "no connected nodes")))
  else { t with resubmitting := t.resubmitting ++ [(record, t.connected)] }

/-- `resubmitOnce` once every node has answered: `none` for acceptance, else the message. -/
def resubmitSettled (t : TxTracker) (i : Nat) (results : List (Option String)) : TxTracker :=
  match t.resubmitting[i]? with
  | none => t
  | some (record, nodes) =>
      let t := { t with resubmitting := t.resubmitting.eraseIdx i }
      -- every message once, in the order of the nodes
      let summary := "; ".intercalate (results.filterMap id).eraseDups
      if results.contains none then
        t.emit (.resubmitAttempt (resubmitRow record .succeeded none))
      else
        t.emit (.resubmitAttempt (resubmitRow record .failed
          (some ("0/" ++ toString nodes.length ++ " nodes accepted: " ++ summary))))

def stopResubmitRetry (t : TxTracker) (hash : Hash) : TxTracker :=
  { t with resubmitRetryTimers := t.resubmitRetryTimers.erase hash }

/-- One tick of a retry loop, with the attempt counter of its closure. -/
def tick (t : TxTracker) (record : RetryRecord) (attempts : Nat) : TxTracker × Nat :=
  match t.latestFor record.signer record.nonce with
  | some latest =>
      if latest.hash = record.hash then
        let t := if 0 < attempts then t.recordConfirmedInclusion record else t
        (t.stopResubmitRetry record.hash, attempts)
      else (t.stopResubmitRetry record.hash, attempts)
  | none =>
      if t.isExpired record.toTx then (t.stopResubmitRetry record.hash, attempts)
      else if t.opts.maxResubmitRetries ≤ attempts then (t.stopResubmitRetry record.hash, attempts)
      else if t.connected = [] then (t, attempts)
      else (t.resubmitOnce record, attempts + 1)

/-- The guards of `startResubmitRetry`. -/
def mayRetry (t : TxTracker) (record : RetryRecord) : Bool :=
  t.opts.resubmitEnabled && (record.raw ≠ "") && (orNull record.signer).isSome
    && !t.resubmitRetryTimers.has record.hash && !t.everRetried.has record.hash

/--
Start a retry loop: tick once at once, then register the interval timer — even
when that first tick already decided to stop.
-/
def startResubmitRetry (t : TxTracker) (record : RetryRecord) : TxTracker :=
  if t.mayRetry record then
    let t := { t with
      everRetried :=
        (if MAX_FINALIZED_HASHES ≤ t.everRetried.size then ∅ else t.everRetried).add record.hash }
    let t := t.emit (.loopStarted record)
    let (t, attempts) := t.tick record 0
    { t with resubmitRetryTimers := t.resubmitRetryTimers.set record.hash { record, attempts } }
  else t

/-- The interval timer of a loop fires. -/
def retryTick (t : TxTracker) (hash : Hash) : TxTracker :=
  match t.resubmitRetryTimers.get? hash with
  | none => t
  | some loop =>
      let (t, attempts) := t.tick loop.record loop.attempts
      { t with
        resubmitRetryTimers :=
          t.resubmitRetryTimers.modify hash (fun loop => { loop with attempts }) }

/-! ## Classification -/

/-- A different hash is canonical for the record's signer and nonce. -/
def findResubmission (t : TxTracker) (record : Tx) (originalHash : Hash) : Option Inclusion :=
  (t.latestFor record.signer record.nonce).filter (fun latest => latest.hash ≠ originalHash)

def toAttempt (era : Option Era) (hash : Hash) (outcome : AttemptOutcome) : TxAttempt where
  hash := hash
  birth := era.map Era.birth
  death := era.map Era.death
  outcome := outcome

/-- The attempts of an incident: the original hash, and what replaced it. -/
def finalAttempts (t : TxTracker) (record : Tx) (originalHash : Hash) (status : TxStatus)
    (extra : FinalizeExtra) : List TxAttempt :=
  toAttempt record.era originalHash status.originalOutcome ::
    if extra.replacedBy.isSome then
      ((t.latestFor record.signer record.nonce).map fun replaced =>
        toAttempt replaced.era replaced.hash .included).toList
    else []

/-- Report an incident, once per original hash. -/
def finalize (t : TxTracker) (record : Tx) (originalHash : Hash) (status : TxStatus)
    (extra : FinalizeExtra := {}) : TxTracker :=
  if t.finalizedHashes.has originalHash then t
  else
    { t with
      finalizedHashes :=
        (if MAX_FINALIZED_HASHES ≤ t.finalizedHashes.size then ∅ else t.finalizedHashes).add
          originalHash }.emit
      (.submitted
        { signer := record.signer, nonce := record.nonce, kind := record.kind,
          pallet := record.pallet, method := record.method, status, firstHash := originalHash,
          lastHash := extra.replacedBy.getD originalHash,
          attempts := t.finalAttempts record originalHash status extra,
          lostAtHeight := extra.lostAtHeight, lostAtHash := extra.lostAtHash,
          resolvedHash := extra.replacedBy, resolvedHeight := extra.resolvedHeight })

/-- Classify an entry whose grace window has ended. -/
def resolveReorgEntry (t : TxTracker) (entry : ReorgEntry) : TxTracker :=
  match t.findResubmission entry.toTx entry.hash with
  | some resubmission =>
      t.finalize entry.toTx entry.hash .reorgedResubmitted
        { replacedBy := some resubmission.hash, lostAtHeight := some entry.lostAtHeight,
          lostAtHash := some entry.lostAtHash, resolvedHeight := some resubmission.blockNumber }
  | none =>
      -- included again under the same hash: not worth a row
      if (t.latestFor entry.signer entry.nonce).map Inclusion.hash = some entry.hash then t
      else
        t.finalize entry.toTx entry.hash (if t.isExpired entry.toTx then .expired else .reorgedLost)
          { lostAtHeight := some entry.lostAtHeight, lostAtHash := some entry.lostAtHash }

/-! ## Finality -/

/--
The walk over the newly finalized range, from the finalized block down to the
floor. The loop of the source has no bound; a walk that ends meets every stored
block at most once, so the number of stored blocks is fuel enough.
-/
def canonicalWalk (tree : BlockTree) (walkFloor : Int) :
    Nat → Option BlockRecord → TxTracker → TxTracker
  | _, none, t => t
  | 0, some _, t => t
  | fuel + 1, some cursor, t =>
      if walkFloor < cursor.number then
        canonicalWalk tree walkFloor fuel (tree.getBlock cursor.parentHash)
          (t.markCanonical cursor.hash cursor.number)
      else t

/-- The canonical walk of one notification, and the floor it leaves behind. -/
def walkFinalized (t : TxTracker) (finalizedHeight : Nat) (finalizedHash : Hash)
    (tree : BlockTree) : TxTracker :=
  let walkFloor : Int := match t.lastCanonicalWalkHeight with
    | some h => h
    | none => finalizedHeight - 1
  let t := canonicalWalk tree walkFloor tree.blocksByHash.size (tree.getBlock finalizedHash) t
  { t with
    lastCanonicalWalkHeight := some (max (t.lastCanonicalWalkHeight.getD 0) finalizedHeight) }

/-- Queue one extrinsic of a losing block, and start trying to get it back in. -/
def queueEntry (t : TxTracker) (finalizedHash : Hash) (entry : ReorgEntry) : TxTracker :=
  ({ t with pendingReorgReview := t.pendingReorgReview ++ [entry] }.emit
    (.queued entry finalizedHash)).startResubmitRetry entry.retry

/-- The review entry of an extrinsic of a losing block. -/
def lostEntry (opts : TxOptions) (height : Nat) (hash : Hash) (tx : Tx) : ReorgEntry :=
  { tx with lostAtHeight := height, lostAtHash := hash,
            dueAtHeight := height + opts.reorgGracePeriodBlocks }

/-- One competing block of a forked height: queue its extrinsics unless it won. -/
def queueLosing (height : Nat) (finalizedHash : Hash) (canonical : Option BlockRecord)
    (t : TxTracker) (hash : Hash) : TxTracker :=
  if canonical.map BlockRecord.hash = some hash then t
  else match t.blockExtrinsics.get? hash with
    | none => t
    | some losing =>
        losing.extrinsics.foldl
          (fun t tx => t.queueEntry finalizedHash (lostEntry t.opts height hash tx)) t

def queueReorgReview (t : TxTracker) (height : Nat) (finalizedHash : Hash) (tree : BlockTree) :
    TxTracker :=
  match tree.getBlocksAtHeight height with
  | none => t
  | some blocksAtHeight =>
      blocksAtHeight.keys.foldl
        (queueLosing height finalizedHash (tree.getCanonicalAncestorAt finalizedHash height)) t

/-- Review one forked height, unless it is above the finalized one or reviewed already. -/
def reviewHeight (finalizedHeight : Nat) (finalizedHash : Hash) (tree : BlockTree) (t : TxTracker)
    (height : Nat) : TxTracker :=
  if finalizedHeight < height || t.processedForkHeights.has height then t
  else
    { t with processedForkHeights := t.processedForkHeights.add height }.queueReorgReview
      height finalizedHash tree

/-- Resolve the entries whose grace window has elapsed and keep the others. -/
def resolveDue (t : TxTracker) (finalizedHeight : Nat) : TxTracker :=
  let resolved := t.pendingReorgReview.foldl
    (fun t entry => if finalizedHeight < entry.dueAtHeight then t else t.resolveReorgEntry entry) t
  { resolved with pendingReorgReview :=
      t.pendingReorgReview.filter (fun entry => finalizedHeight < entry.dueAtHeight) }

def onHeightFinalized (t : TxTracker) (finalizedHeight : Nat) (finalizedHash : Hash)
    (tree : BlockTree) : TxTracker :=
  let t := { t with lastKnownHeight := max t.lastKnownHeight finalizedHeight }
  let t := t.walkFinalized finalizedHeight finalizedHash tree
  let t := tree.getForkedHeights.foldl (reviewHeight finalizedHeight finalizedHash tree) t
  t.resolveDue finalizedHeight

/-- Forget what lies at and below `belowHeight`, and stop the loops of losses down there. -/
def pruneBlocks (t : TxTracker) (belowHeight : Int) : TxTracker :=
  { t with
    blockExtrinsics := t.blockExtrinsics.filter
      (fun _ entry => !decide ((entry.number : Int) ≤ belowHeight))
    processedForkHeights := t.processedForkHeights.filter
      (fun height _ => !decide ((height : Int) ≤ belowHeight))
    resubmitRetryTimers := t.resubmitRetryTimers.filter
      -- a missing height compares like zero
      (fun _ loop => !decide (((loop.record.lostAtHeight.getD 0 : Nat) : Int) ≤ belowHeight)) }

/-! ## The pending pool -/

def onTxLeftPool (t : TxTracker) (hash : Hash) (tx : Tx) : TxTracker :=
  if t.includedHashes.has hash then t
  else if t.missingCandidates.has hash then
    -- flickered: the recovery call is off, the missing-since clock keeps running
    { t with
      missingCandidates :=
        t.missingCandidates.modify hash (fun c => { c with reappearedStreak := 0 }) }
  else
    { t with
      missingCandidates := t.missingCandidates.set hash
        { tx with missingSincePollCount := 0, reappearedStreak := 0,
                  lostAtHeight := t.lastKnownHeight } }

/-- One turn of the vanished loop. -/
def pollVanished (currentByHash : OrdMap Hash Tx) (t : TxTracker) (e : Hash × Tx) : TxTracker :=
  if currentByHash.has e.1 then t else t.onTxLeftPool e.1 e.2

/-- The reappear debounce for a hash that is in the pool. -/
def debounceReappeared (t : TxTracker) (hash : Hash) : TxTracker :=
  match t.missingCandidates.get? hash with
  | none => t
  | some cand =>
      if t.opts.reappearDebouncePolls ≤ cand.reappearedStreak + 1 then
        { t with missingCandidates := t.missingCandidates.erase hash }.stopResubmitRetry hash
      else
        { t with
          missingCandidates := t.missingCandidates.modify hash
            (fun c => { c with reappearedStreak := cand.reappearedStreak + 1 }) }

/-- One turn of the present loop. -/
def pollPresent (t : TxTracker) (e : Hash × Tx) : TxTracker :=
  let t := t.debounceReappeared e.1
  if t.pendingPool.has e.1 then t else { t with pendingPool := t.pendingPool.set e.1 e.2 }

/-- What a candidate past the noise threshold comes to, in one poll. -/
def classifyMissing (t : TxTracker) (hash : Hash) (cand : Candidate) : TxTracker :=
  match t.findResubmission cand.toTx hash with
  | some resubmission =>
      let t := t.finalize cand.toTx hash .resubmitted
        { replacedBy := some resubmission.hash, resolvedHeight := some resubmission.blockNumber }
      { t with missingCandidates := t.missingCandidates.erase hash }
  | none =>
      if cand.missingSincePollCount < t.opts.dropMaxWaitPolls then t
      else
        let t := t.finalize cand.toTx hash (if t.isExpired cand.toTx then .expired else .dropped)
        { t with missingCandidates := t.missingCandidates.erase hash }

/-- One turn of the loop of `reviewMissingCandidates`. -/
def reviewCandidate (currentByHash : OrdMap Hash Tx) (t : TxTracker) (e : Hash × Candidate) :
    TxTracker :=
  if t.includedHashes.has e.1 then { t with missingCandidates := t.missingCandidates.erase e.1 }
  else if currentByHash.has e.1 then t
  else
    let cand := { e.2 with missingSincePollCount := e.2.missingSincePollCount + 1 }
    let t := { t with missingCandidates := t.missingCandidates.modify e.1 (fun _ => cand) }
    if cand.missingSincePollCount < t.opts.dropGracePolls then t
    else (t.startResubmitRetry cand.retry).classifyMissing e.1 cand

def reviewMissingCandidates (t : TxTracker) (currentByHash : OrdMap Hash Tx) : TxTracker :=
  t.missingCandidates.entries.foldl (reviewCandidate currentByHash) t

/-- The pool fetch of `pollPendingPool` has come back, or was rejected. -/
def pollPendingPool (t : TxTracker) (nodeName : NodeName) (answer : Option (List Extrinsic)) :
    TxTracker :=
  match answer with
  | none => { t with unsupportedNodes := t.unsupportedNodes.add nodeName }
  | some raw =>
      let extracted := extractTrackedExtrinsics raw t.lastKnownHeight
      let currentByHash : OrdMap Hash Tx := OrdMap.ofList (extracted.map fun tx => (tx.hash, tx))
      let t := t.pendingPool.entries.foldl (pollVanished currentByHash) t
      let t := currentByHash.entries.foldl pollPresent t
      let t := { t with pendingPool := t.pendingPool.filter (fun hash _ => currentByHash.has hash) }
      t.reviewMissingCandidates currentByHash

end TxTracker

end ForkWatch
