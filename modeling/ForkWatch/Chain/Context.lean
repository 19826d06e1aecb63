import ForkWatch.Lib.Machine
import ForkWatch.Monitor.AuthorExtractor
import ForkWatch.Monitor.ForkDetector
import ForkWatch.Monitor.TxTracker

/-!
# One chain, and the handlers that drive it

`src/chain/manager.js`, with the hook `src/monitor/causation.js` puts into the
fork detector. Handlers of any number of nodes run concurrently and interleave
at their awaits, so a handler that waits is a `Task`, and an `Event` is whatever
the event loop does next: a header or a finality notification arrives, a task is
resumed with the answer it waited for, a poll answers, a retry timer fires. An
answer a task does not wait for changes nothing.

A handler that waits keeps the map of its height, and with it the records, that it had
when it started. A prune takes the map out of the tree but not out of the handler's
hands: what the handler writes afterwards goes into the old records, and a block that
arrives again gets a new one. So `detached` keeps every map that was pruned, and a task
says by an epoch which of the maps of its height it holds.

Left out: the slot tracker (its own machine, `ForkWatch.Monitor.SlotTracker`),
the per-node gauges and the finality log, connecting and reconnecting, and the
database updates of author names. The transaction tracker is taken as enabled.
-/

namespace ForkWatch

open Lib

/-- What the handlers read of a header. -/
structure Header where
  hash : Hash
  number : Nat
  parentHash : Hash
  stateRoot : String
  extrinsicsRoot : String
  deriving DecidableEq

/-- The record as it stands now. -/
def BlockTree.current (t : BlockTree) (b : BlockRecord) : BlockRecord :=
  (t.getBlock b.hash).getD b

/-- The blocks of a height as they stand now. -/
def BlockTree.currentAt (t : BlockTree) (height : Nat) : List BlockRecord :=
  match t.getBlocksAtHeight height with
  | none => []
  | some blocks => blocks.values

/-- Where a handler waits; `epoch` says which map of the header's height it holds. -/
inductive Task where
  /-- `onForkDetected`: an `insertForkBlock`; these blocks are still to be inserted. -/
  | insertForkBlocks (header : Header) (epoch : Nat) (rest : List BlockRecord)
      (event : ForkEventRow) (hooked : Bool)
  /-- `onForkDetected`: the `insertForkEvent`. -/
  | insertForkEvent (header : Header) (epoch : Nat) (hooked : Bool)
  /-- `analyzeForkCause`: the relay parents of all competing blocks. -/
  | relayParents (header : Header) (epoch : Nat) (blocks : List BlockRecord)
  /-- `analyzeForkCause`: the second round, for those not known after the first. -/
  | retryRelayParents (header : Header) (epoch : Nat) (blocks : List BlockRecord)
      (known : List (Option RelayParent))
  /-- `analyzeForkCause`: the database updates. -/
  | updateCause (header : Header) (epoch : Nat) (blocks : List BlockRecord)
      (relayParents : List (Option RelayParent))
  /-- `onForkUpdated`: the `insertForkBlock`. -/
  | forkUpdated (header : Header)
  /-- The all-heads handler: `onNewBlock` of the detector, about to return. -/
  | imported (header : Header) (forked : Bool)
  /-- `enrichForkAuthors`: the author of `block`; `visited` are done. -/
  | extractAuthor (header : Header) (epoch : Nat) (visited : List Hash) (block : BlockRecord)
  /-- `enrichForkAuthors`: the identity of the author just found for `block`, until no query
  is left. -/
  | resolveIdentity (header : Header) (epoch : Nat) (visited : List Hash)
      (block : BlockRecord) (author : Address) (lookup : Option Lookup)
  /-- `onNewBlock` of the transaction tracker: the block body. -/
  | getBlock (hash : Hash) (number : Nat)
  /-- The finalized handler: `resolveForkEvent`. -/
  | resolveForkEvent (finalizedNumber : Nat)

/-- What an awaited call may answer. -/
inductive Answer where
  /-- A database call returned, or failed and was logged. -/
  | done
  /-- The relay parent of each block, by hash. -/
  | relayParents (parent : Hash → Option RelayParent)
  /-- `extractAuthor`. -/
  | author (author : Option Address)
  /-- A query of the identity pallet. -/
  | identity (answer : IdentityAnswer)
  /-- A block body, or a failed fetch. -/
  | body (extrinsics : Option (List Extrinsic))

/-- What the event loop does next. -/
inductive Event where
  | allHeads (node : NodeName) (header : Header)
  | finalizedHeads (node : NodeName) (number : Nat) (hash : Hash)
  | resume (task : Nat) (answer : Answer)
  | poll (node : NodeName) (answer : Option (List Extrinsic))
  | retryTick (hash : Hash)
  | resubmitSettled (call : Nat) (results : List (Option String))
  /-- Node connections came up or went down. -/
  | connections (connected : List NodeName)
  /-- `setupCausation` installs the hook. -/
  | setupCausation
  /-- Identities prefetched in the background. -/
  | identities (entries : List (Address × Option String))

structure ChainConfig where
  pruneAfter : Int := 50
  knownAuthors : Address → Option String := fun _ => none

structure ChainContext where
  config : ChainConfig := {}
  blockTree : BlockTree := {}
  forkDetector : ForkDetector := {}
  txTracker : TxTracker := {}
  identityCache : IdentityCache := ∅
  /-- `onForkDetected` has been replaced by the hook of `ForkCausation`. -/
  hooked : Bool := false
  tasks : List Task := []
  /-- The maps of each height that have been pruned, in the order of their pruning. -/
  detached : Nat → List (OrdMap Hash BlockRecord) := fun _ => []
  history : List Report := []

namespace ChainContext

def report (c : ChainContext) (rs : List Report) : ChainContext :=
  { c with history := c.history ++ rs }

/-- A handler suspends at an await. -/
def await (c : ChainContext) (t : Task) : ChainContext := { c with tasks := c.tasks ++ [t] }

/-- Name of an author: configuration first, then the on-chain identity. -/
def resolveAuthorName (c : ChainContext) (address : Address) : Option String :=
  (orNull (c.config.knownAuthors address)).or (orNull ((c.identityCache.get? address).getD none))

/-! ## Captured maps -/

/-- Which map of a height a handler captures now: so many have been pruned before it. -/
def epochAt (c : ChainContext) (height : Nat) : Nat := (c.detached height).length

/-- The blocks of a captured map, as they stand now. -/
def heldAt (c : ChainContext) (height epoch : Nat) : List BlockRecord :=
  match (c.detached height)[epoch]? with
  | none => c.blockTree.currentAt height
  | some blocks => blocks.values

/-- A record of a captured map, as it stands now. -/
def held (c : ChainContext) (height epoch : Nat) (b : BlockRecord) : BlockRecord :=
  match (c.detached height)[epoch]? with
  | none => c.blockTree.current b
  | some blocks => (blocks.get? b.hash).getD b

/-- Write into a record of a captured map. -/
def writeHeld (c : ChainContext) (height epoch : Nat) (hash : Hash)
    (f : BlockRecord → BlockRecord) : ChainContext :=
  match (c.detached height)[epoch]? with
  | none => { c with blockTree := c.blockTree.updateRecord hash f }
  | some blocks =>
      { c with
        detached := Function.update c.detached height
          ((c.detached height).set epoch (blocks.modify hash f)) }

/-! ## Importing a header -/

/-- The next `insertForkBlock` of `onForkDetected`, or `insertForkEvent` after the last one. -/
def insertForkBlocks (c : ChainContext) (header : Header) (epoch : Nat) (rest : List BlockRecord)
    (event : ForkEventRow) (hooked : Bool) : ChainContext :=
  match rest with
  | [] => (c.report [.insertForkEvent event]).await (.insertForkEvent header epoch hooked)
  | b :: rest =>
      (c.report [.insertForkBlock (ForkDetector.forkBlockRow (c.held header.number epoch b))]).await
        (.insertForkBlocks header epoch rest event hooked)

/-- The call of `onForkDetected`, up to its first await. -/
def detectFork (c : ChainContext) (header : Header) (blocks : List BlockRecord) : ChainContext :=
  let (forkDetector, reports) :=
    c.forkDetector.onForkDetected c.blockTree header.number blocks
  ({ c with forkDetector }.report reports).insertForkBlocks header (c.epochAt header.number) blocks
    (ForkDetector.forkEventRow c.blockTree header.number blocks) c.hooked

/-- `ForkDetector.onNewBlock` for a header that is new, up to its first await. -/
def importNew (c : ChainContext) (header : Header) : ChainContext :=
  let blocksAtHeight := c.blockTree.currentAt header.number
  if 1 < blocksAtHeight.length then
    if c.forkDetector.recordedForks.has header.number then
      (c.report (ForkDetector.onForkUpdated blocksAtHeight)).await (.forkUpdated header)
    else
      { c with
        forkDetector := { c.forkDetector with
          recordedForks := c.forkDetector.recordedForks.add header.number } }.detectFork
        header blocksAtHeight
  else c.await (.imported header false)

/-- The all-heads handler, up to its first await. -/
def onAllHeads (c : ChainContext) (node : NodeName) (header : Header) : ChainContext :=
  let (blockTree, isNew) := c.blockTree.addBlock header.hash header.number header.parentHash
    none none none node
    { stateRoot := some header.stateRoot, extrinsicsRoot := some header.extrinsicsRoot }
  let c := { c with blockTree }.report [.delivered node header.hash header.number]
  if isNew then (c.report [.blocksImported node]).importNew header else c

/-! ## The cause of a fork -/

/-- `analyzeForkCause` up to its first await; the hook passes the map captured at the import. -/
def analyzeForkCause (c : ChainContext) (header : Header) (epoch : Nat) : ChainContext :=
  let blocks := c.heldAt header.number epoch
  if blocks.length < 2 then c.await (.imported header true)
  else c.await (.relayParents header epoch blocks)

/-- The verdict, once the relay parents are there: ring buffer, metrics, database. -/
def recordCause (c : ChainContext) (header : Header) (epoch : Nat) (blocks : List BlockRecord)
    (relayParents : List (Option RelayParent)) : ChainContext :=
  let blocks := blocks.map (c.held header.number epoch)
  match determineCause blocks relayParents with
  | none => c.await (.imported header true)
  | some verdict =>
      ({ c with forkDetector := c.forkDetector.recordCause header.number verdict }.report
        (.forkCause header.number blocks verdict ::
          if verdict.cause.blamesRelayChain then [.relayCaused header.number] else [])).await
        (.updateCause header epoch blocks relayParents)

/-- The first round of relay parents is there; a second one follows if some are missing. -/
def onRelayParents (c : ChainContext) (header : Header) (epoch : Nat) (blocks : List BlockRecord)
    (parent : Hash → Option RelayParent) : ChainContext :=
  let known := blocks.map (fun b => parent b.hash)
  if (known.filterMap id).length < blocks.length then
    c.await (.retryRelayParents header epoch blocks known)
  else c.recordCause header epoch blocks known

/-- The second round fills in what the first one left open. -/
def onRetryRelayParents (c : ChainContext) (header : Header) (epoch : Nat)
    (blocks : List BlockRecord) (known : List (Option RelayParent))
    (parent : Hash → Option RelayParent) : ChainContext :=
  c.recordCause header epoch blocks
    (List.zipWith (fun (b : BlockRecord) known => known.or (parent b.hash)) blocks known)

/-- The last loop of `analyzeForkCause`: the relay parents go into the records. -/
def storeRelayParents (c : ChainContext) (height epoch : Nat) (blocks : List BlockRecord)
    (relayParents : List (Option RelayParent)) : ChainContext :=
  (blocks.zip relayParents).foldl
    (fun c e => match e.2 with
      | none => c
      | some rp => c.writeHeld height epoch e.1.hash
          (fun r => { r with relayParent := rp.hash, relayNumber := rp.number }))
    c

/-! ## After the import -/

/-- `TxTracker.onNewBlock`, fired and forgotten. -/
def captureBody (c : ChainContext) (header : Header) : ChainContext :=
  { c with txTracker := c.txTracker.onNewBlock header.number }.await
    (.getBlock header.hash header.number)

/-- `updateForkAuthors`: the ring buffer entry gets the authors known by now. -/
def updateForkAuthors (c : ChainContext) (height : Nat) : ChainContext :=
  match c.blockTree.getBlocksAtHeight height with
  | none => c
  | some blocks =>
      { c with
        forkDetector := c.forkDetector.updateRecent height
          (fun f => { f with authors := blocks.values.map BlockRecord.authorLabel }) }

/--
The loop of `enrichForkAuthors`: go to the next block of the captured map whose
author is missing. The map is iterated live, so a block that arrives while the
loop waits is visited too.
-/
def enrichForkAuthors (c : ChainContext) (header : Header) (epoch : Nat) (visited : List Hash) :
    ChainContext :=
  match (c.heldAt header.number epoch).find?
      (fun b => !visited.contains b.hash && (orNull b.author).isNone) with
  | none => (c.updateForkAuthors header.number).captureBody header
  | some b => c.await (.extractAuthor header epoch (visited ++ [b.hash]) b)

/-- The all-heads handler after `onNewBlock` of the detector. -/
def afterImport (c : ChainContext) (header : Header) (forked : Bool) : ChainContext :=
  if forked then
    match c.blockTree.getBlocksAtHeight header.number with
    | none => c.captureBody header
    | some _ => c.enrichForkAuthors header (c.epochAt header.number) []
  else c.captureBody header

/-- `resolveAuthorIdentity` up to its first query; a name in the configuration needs none. -/
def resolveAuthorIdentity (c : ChainContext) (address : Address) : Option Lookup :=
  if (orNull (c.config.knownAuthors address)).isSome then none
  else (startLookup c.identityCache address []).2

/-- An author came back; it goes into the record before its name is looked up. -/
def onAuthor (c : ChainContext) (header : Header) (epoch : Nat) (visited : List Hash)
    (block : BlockRecord) (author : Option Address) : ChainContext :=
  match orNull author with
  | none => c.enrichForkAuthors header epoch visited
  | some author =>
      (c.writeHeld header.number epoch block.hash (fun r => { r with author := some author })).await
        (.resolveIdentity header epoch visited { block with author := some author } author
          (c.resolveAuthorIdentity author))

/-- The lookup of an author's identity goes on, until no query is left. -/
def onLookup (c : ChainContext) (header : Header) (epoch : Nat) (visited : List Hash)
    (block : BlockRecord) (author : Address) (lookup : Lookup) (answer : IdentityAnswer) :
    ChainContext :=
  let (identityCache, lookup) := lookup.resume c.identityCache answer
  { c with identityCache }.await (.resolveIdentity header epoch visited block author lookup)

/-- The identity of an author is resolved: name the block and count it. -/
def onIdentity (c : ChainContext) (header : Header) (epoch : Nat) (visited : List Hash)
    (block : BlockRecord) (author : Address) : ChainContext :=
  let name := c.resolveAuthorName author
  let label := { c.held header.number epoch block with authorName := name }.authorLabel
  ((c.writeHeld header.number epoch block.hash (fun r => { r with authorName := name })).report
    [.authorForkBlock block.hash label]).enrichForkAuthors header epoch visited

def cacheIdentities (c : ChainContext) (entries : List (Address × Option String)) : ChainContext :=
  { c with identityCache := entries.foldl (fun m e => m.set e.1 e.2) c.identityCache }

/-! ## Finality -/

/-- The finalized handler, up to its only await. -/
def onFinalizedHeads (c : ChainContext) (finalizedNumber : Nat) (finalizedHash : Hash) :
    ChainContext :=
  let blockTree := { c.blockTree with
    finalizedHeight := max c.blockTree.finalizedHeight finalizedNumber }
  let (forkDetector, reports) := c.forkDetector.onHeightFinalized finalizedNumber finalizedHash
  let txTracker := c.txTracker.onHeightFinalized finalizedNumber finalizedHash blockTree
  ({ c with blockTree, forkDetector, txTracker }.report
    (reports ++ [Report.resolveForkEvent finalizedNumber finalizedHash])).await
    (.resolveForkEvent finalizedNumber)

/-- The finalized handler after its await. -/
def prune (c : ChainContext) (finalizedNumber : Nat) : ChainContext :=
  let pruneBelow : Int := finalizedNumber - c.config.pruneAfter
  { c with
    blockTree := c.blockTree.prune pruneBelow
    detached := fun height => c.detached height ++
      if (height : Int) ≤ pruneBelow then (c.blockTree.getBlocksAtHeight height).toList else []
    forkDetector := c.forkDetector.pruneRecordedForks pruneBelow
    txTracker := c.txTracker.pruneBlocks pruneBelow }

/-! ## The event loop -/

/-- A task goes on with its answer. -/
def resumeTask (c : ChainContext) : Task → Answer → ChainContext
  | .insertForkBlocks header epoch rest event hooked, .done =>
      c.insertForkBlocks header epoch rest event hooked
  | .insertForkEvent header epoch hooked, .done =>
      if hooked then c.analyzeForkCause header epoch else c.await (.imported header true)
  | .relayParents header epoch blocks, .relayParents parent =>
      c.onRelayParents header epoch blocks parent
  | .retryRelayParents header epoch blocks known, .relayParents parent =>
      c.onRetryRelayParents header epoch blocks known parent
  | .updateCause header epoch blocks relayParents, .done =>
      (c.storeRelayParents header.number epoch blocks relayParents).await (.imported header true)
  | .forkUpdated header, .done => c.await (.imported header true)
  | .imported header forked, .done => c.afterImport header forked
  | .extractAuthor header epoch visited block, .author author =>
      c.onAuthor header epoch visited block author
  | .resolveIdentity header epoch visited block author (some lookup), .identity answer =>
      c.onLookup header epoch visited block author lookup answer
  | .resolveIdentity header epoch visited block author none, .done =>
      c.onIdentity header epoch visited block author
  | .getBlock hash number, .body (some extrinsics) =>
      { c with txTracker := c.txTracker.captureBody hash number extrinsics }
  | .getBlock _ _, .body none => c
  | .resolveForkEvent finalizedNumber, .done => c.prune finalizedNumber
  | task, _ => c.await task

/-- One turn of the event loop. -/
def step (c : ChainContext) : Event → ChainContext
  | .allHeads node header => c.onAllHeads node header
  | .finalizedHeads _ number hash => c.onFinalizedHeads number hash
  | .resume task answer =>
      match c.tasks[task]? with
      | none => c
      | some t => { c with tasks := c.tasks.eraseIdx task }.resumeTask t answer
  | .poll node answer => { c with txTracker := c.txTracker.pollPendingPool node answer }
  | .retryTick hash => { c with txTracker := c.txTracker.retryTick hash }
  | .resubmitSettled call results =>
      { c with txTracker := c.txTracker.resubmitSettled call results }
  | .connections connected => { c with txTracker := { c.txTracker with connected } }
  | .setupCausation => { c with hooked := true }
  | .identities entries => c.cacheIdentities entries

/-- The machine of one chain, from its configuration. -/
def machine (config : ChainConfig) (opts : TxOptions) : Machine ChainContext Event where
  init := { config, txTracker := { opts } }
  step := step

end ChainContext

end ForkWatch
