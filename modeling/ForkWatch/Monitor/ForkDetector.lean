import ForkWatch.Monitor.Causation

/-!
# The fork detector

`src/monitor/fork-detector.js`, split at its awaits: this module holds what each
method does between two of them, `ForkWatch.Chain.Context` strings the pieces
together.

A detector serves one chain and only ever sees entries of that chain, so the
chain name, by which the source also filters `recentForks`, is left out; so are
the timestamps.

Everything that leaves the program — a metric, a call of one of the queries —
is a `Report`. Reports also carry what the proofs need to tell two of them
apart (the height of a fork event, the block behind an author count), although
the metric itself has no such label.
-/

namespace ForkWatch

open Lib

/-- An entry of the ring buffer of recent forks. -/
structure RecentFork where
  blockNumber : Nat
  competingCount : Nat
  authors : List String
  cause : Option Cause := none
  relayHeight : Option Nat := none
  depth : Nat
  sameAuthor : Option Bool := none
  sameRelay : Option Bool := none
  sameParent : Option Bool := none
  resolved : Bool := false
  resolvedHash : Option Hash := none
  deriving DecidableEq

/-- The argument of `insertForkBlock`. -/
structure ForkBlockRow where
  blockNumber : Nat
  blockHash : Hash
  parentHash : Hash
  stateRoot : Option String := none
  extrinsicsRoot : Option String := none
  author : Option Address
  authorName : Option String
  relayParent : Option Hash
  relayNumber : Option Nat := none
  seenBy : List NodeName
  deriving DecidableEq

/-- The argument of `insertForkEvent`; its cause is always set later. -/
structure ForkEventRow where
  blockNumber : Nat
  competingCount : Nat
  authors : List String
  depth : Nat
  deriving DecidableEq

/-- What leaves the program, and what the proofs remember of a run. -/
inductive Report where
  /-- A header reached the all-heads handler (history only). -/
  | delivered (node : NodeName) (hash : Hash) (number : Nat)
  /-- `blocks_imported_total`. -/
  | blocksImported (node : NodeName)
  /-- `fork_events_total`: one call of `onForkDetected`. -/
  | forkEvent (height : Nat)
  /-- `fork_depth`. -/
  | forkDepth (height depth : Nat)
  /-- `active_fork_heights` incremented. -/
  | forkActive (height : Nat)
  /-- `active_fork_heights` decremented. -/
  | forkInactive (height : Nat)
  /-- `author_fork_blocks_total`. -/
  | authorForkBlock (hash : Hash) (author : String)
  | insertForkBlock (row : ForkBlockRow)
  | insertForkEvent (row : ForkEventRow)
  /-- A ring buffer entry became resolved, on a notification of this hash. -/
  | resolved (entry : RecentFork) (finalizedHash : Hash)
  /-- `parachain_fork_cause_total` and the update of the `fork_events` row. -/
  | forkCause (height : Nat) (blocks : List BlockRecord) (verdict : CauseVerdict)
  /-- `parachain_forks_relay_caused_total`. -/
  | relayCaused (height : Nat)
  | resolveForkEvent (height : Nat) (hash : Hash)
  deriving DecidableEq

def MAX_RECENT_FORKS : Nat := 5000

structure ForkDetector where
  /-- Heights where a fork event is already recorded. -/
  recordedForks : OrdSet Nat := ∅
  /-- Oldest first. -/
  recentForks : List RecentFork := []
  totalForkCount : Nat := 0

/-- Apply `f` to the last element that passes the test. -/
def modifyLast {α : Type} (p : α → Bool) (f : α → α) : List α → List α
  | [] => []
  | x :: xs =>
      if xs.any p then x :: modifyLast p f xs
      else if p x then f x :: xs
      else x :: xs

/-- `array.findLast`. -/
def findLast {α : Type} (p : α → Bool) (l : List α) : Option α := l.reverse.find? p

namespace ForkDetector

/-- `push`, then `shift` once the buffer is over its size. -/
def pushRecent (recentForks : List RecentFork) (entry : RecentFork) : List RecentFork :=
  let pushed := recentForks ++ [entry]
  if MAX_RECENT_FORKS < pushed.length then pushed.drop 1 else pushed

/-- The ring buffer entry of a height: the latest one. -/
def recentEntry (d : ForkDetector) (height : Nat) : Option RecentFork :=
  findLast (fun f => f.blockNumber = height) d.recentForks

/-- Change the ring buffer entry of a height. -/
def updateRecent (d : ForkDetector) (height : Nat) (f : RecentFork → RecentFork) : ForkDetector :=
  { d with recentForks := modifyLast (fun e => e.blockNumber = height) f d.recentForks }

/-- The count of a forked block for its author, when the author is known. -/
def authorReport (b : BlockRecord) : Option Report :=
  (orNull b.author).map fun _ => .authorForkBlock b.hash b.authorLabel

/-- The row `onForkDetected` inserts for a competing block. -/
def forkBlockRow (b : BlockRecord) : ForkBlockRow where
  blockNumber := b.number
  blockHash := b.hash
  parentHash := b.parentHash
  stateRoot := b.stateRoot
  extrinsicsRoot := b.extrinsicsRoot
  author := b.author
  authorName := b.authorName
  relayParent := b.relayParent
  relayNumber := b.relayNumber
  seenBy := b.seenByNodes.keys

/-- The row `onForkUpdated` inserts: without the roots and the relay number. -/
def updatedForkBlockRow (b : BlockRecord) : ForkBlockRow where
  blockNumber := b.number
  blockHash := b.hash
  parentHash := b.parentHash
  author := b.author
  authorName := b.authorName
  relayParent := b.relayParent
  seenBy := b.seenByNodes.keys

/-- The row `onForkDetected` inserts for the fork, from what it saw at the start. -/
def forkEventRow (tree : BlockTree) (height : Nat) (blocks : List BlockRecord) : ForkEventRow where
  blockNumber := height
  competingCount := blocks.length
  authors := blocks.map BlockRecord.authorLabel
  depth := tree.measureForkDepth height

/-- `onForkDetected` up to its first await. -/
def onForkDetected (d : ForkDetector) (tree : BlockTree) (height : Nat)
    (blocks : List BlockRecord) : ForkDetector × List Report :=
  let authors := blocks.map BlockRecord.authorLabel
  let depth := tree.measureForkDepth height
  ({ d with
      totalForkCount := d.totalForkCount + 1
      recentForks := pushRecent d.recentForks
        { blockNumber := height, competingCount := blocks.length, authors, depth } },
    [.forkEvent height, .forkDepth height depth, .forkActive height]
      ++ blocks.filterMap authorReport)

/-- `onForkUpdated` up to its only await; `blocks` is in order of arrival. -/
def onForkUpdated (blocks : List BlockRecord) : List Report :=
  match blocks.getLast? with
  | none => []
  | some latest => (authorReport latest).toList ++ [.insertForkBlock (updatedForkBlockRow latest)]

/-- One turn of the loop of `onHeightFinalized`. -/
def resolveHeight (finalizedHash : Hash) (acc : ForkDetector × List Report) (height : Nat) :
    ForkDetector × List Report :=
  let d := acc.1
  let resolve (f : RecentFork) : RecentFork :=
    { f with resolved := true, resolvedHash := some finalizedHash }
  ({ (d.updateRecent height resolve) with recordedForks := d.recordedForks.erase height },
    acc.2 ++ [.forkInactive height]
      ++ ((d.recentEntry height).map fun f => .resolved (resolve f) finalizedHash).toList)

/-- Resolve all recorded forks at or below the finalized height. -/
def onHeightFinalized (d : ForkDetector) (finalizedHeight : Nat) (finalizedHash : Hash) :
    ForkDetector × List Report :=
  (d.recordedForks.keys.filter (fun height => height ≤ finalizedHeight)).foldl
    (resolveHeight finalizedHash) (d, [])

def pruneRecordedForks (d : ForkDetector) (belowHeight : Int) : ForkDetector :=
  { d with recordedForks :=
      d.recordedForks.filter (fun height _ => !decide ((height : Int) ≤ belowHeight)) }

/-- What `analyzeForkCause` writes into the ring buffer. -/
def recordCause (d : ForkDetector) (height : Nat) (v : CauseVerdict) : ForkDetector :=
  d.updateRecent height fun f =>
    { f with
      cause := some v.cause
      relayHeight := v.relayHeight
      sameAuthor := some v.sameAuthor
      sameRelay := some (v.sameRelayNumber && v.sameRelayHash)
      sameParent := some v.sameParent
      authors := v.authors }

end ForkDetector

end ForkWatch
