import ForkWatch.Monitor.BlockTree

/-!
# Why a fork happened

`src/monitor/causation.js`: the decision `analyzeForkCause` takes once the relay
parents of the competing blocks have been fetched, and how the relay parent of one
block is looked up among the nodes. When that happens relative to everything else
is part of `ForkWatch.Chain.Context`, for which the lookup is one call.

The JSON `details` column and the log lines are left out.
-/

namespace ForkWatch

/-- What `getRelayParent` returns for one block. -/
structure RelayParent where
  hash : Option Hash
  number : Option Nat
  deriving DecidableEq

/-- The cause categories. -/
inductive Cause where
  | relayFork
  | relayForkSameAuthor
  | collatorContention
  | doubleProduction
  | doubleProductionReorg
  | doubleProductionTiming
  deriving DecidableEq

namespace Cause

/-- The causes that say one collator produced all the competing blocks. -/
def blamesOneAuthor : Cause → Bool
  | relayForkSameAuthor | doubleProduction | doubleProductionReorg | doubleProductionTiming => true
  | relayFork | collatorContention => false

/-- The causes that say the relay chain forked. -/
def blamesRelayChain : Cause → Bool
  | relayFork | relayForkSameAuthor => true
  | collatorContention | doubleProduction | doubleProductionReorg | doubleProductionTiming => false

end Cause

/-- `b.authorName || b.author || 'unknown'`. -/
def BlockRecord.authorLabel (b : BlockRecord) : String :=
  ((orNull b.authorName).or (orNull b.author)).getD "unknown"

/-- `new Set(xs).size`. -/
def distinct {α : Type} [DecidableEq α] (xs : List α) : Nat := xs.dedup.length

/-- What `analyzeForkCause` records about a fork. -/
structure CauseVerdict where
  authors : List String
  cause : Cause
  relayHeight : Option Nat
  sameAuthor : Bool
  sameRelayNumber : Bool
  sameRelayHash : Bool
  sameParent : Bool
  deriving DecidableEq

/--
The decision of `analyzeForkCause`.

`relayParents` is aligned with `blocks`; with fewer than two of them known,
nothing is recorded.
-/
def determineCause (blocks : List BlockRecord) (relayParents : List (Option RelayParent)) :
    Option CauseVerdict :=
  let validRelayParents := relayParents.filterMap id
  if validRelayParents.length < 2 then none else
  let authors := blocks.map BlockRecord.authorLabel
  let relayNumbers := validRelayParents.filterMap RelayParent.number
  let relayHashes := validRelayParents.filterMap RelayParent.hash
  let sameAuthor : Bool := distinct authors = 1
  let sameParent : Bool := distinct (blocks.map BlockRecord.parentHash) = 1
  let sameRelayNumber : Bool := distinct relayNumbers ≤ 1
  let sameRelayHash : Bool := distinct relayHashes ≤ 1
  let verdict (cause : Cause) (relayHeight : Option Nat) : Option CauseVerdict :=
    some { authors, cause, relayHeight, sameAuthor, sameRelayNumber, sameRelayHash, sameParent }
  if sameRelayNumber && !sameRelayHash then
    verdict (if sameAuthor then .relayForkSameAuthor else .relayFork) relayNumbers.head?
  else if sameAuthor then
    if !sameRelayNumber then verdict .doubleProductionTiming none
    else if !sameParent then verdict .doubleProductionReorg none
    else verdict .doubleProduction none
  else verdict .collatorContention none

/-! ## Looking up the relay parent -/

/-- What `parachainSystem.validationData` says of a block. -/
structure ValidationData where
  relayParentStorageRoot : Hash
  relayParentNumber : Nat
  deriving DecidableEq

/-- The relay parent as the argument of `setValidationData` has it, in either of two places. -/
structure InherentArgs where
  /-- `args.validationData?.relayParentNumber?.toNumber?.()`. -/
  nestedNumber : Option Nat := none
  /-- `args.validationData?.relayParentStorageRoot?.toHex?.()`. -/
  nestedRoot : Option Hash := none
  /-- `args.relayParentNumber?.toNumber?.()`. -/
  number : Option Nat := none
  /-- `args.relayParentStorageRoot?.toHex?.()`. -/
  root : Option Hash := none
  deriving DecidableEq

/-- An extrinsic of a block body; `args` is its first argument, if it has one. -/
structure InherentExtrinsic where
  pallet : String
  method : String
  args : Option InherentArgs
  deriving DecidableEq

/-- The calls of a node about one block; an outer `none` is a failure. -/
structure RelayApi where
  validationDataAt : Hash → Option (Option ValidationData)
  lastRelayChainBlockNumberAt : Hash → Option (Option Nat)
  getBlock : Hash → Option (List InherentExtrinsic)

/-- A connection of the parachain. -/
structure RelayConnection where
  connected : Bool
  api : RelayApi

/-- `n || null`: zero counts as missing. -/
def nonzero (n : Option Nat) : Option Nat := n.filter (fun n => n ≠ 0)

/-- What the arguments say, the nested place first. -/
def InherentArgs.relayParent (args : InherentArgs) : RelayParent where
  hash := (orNull args.nestedRoot).or (orNull args.root)
  number := (nonzero args.nestedNumber).or (nonzero args.number)

/-- The loop of `getRelayParentFromInherent`; a missing argument throws. -/
def findInherent : List InherentExtrinsic → Option (Option RelayParent)
  | [] => some none
  | ext :: rest =>
      if ext.pallet = "parachainSystem" ∧ ext.method = "setValidationData" then
        match ext.args with
        | none => none
        | some args =>
            if args.relayParent.number.isSome || args.relayParent.hash.isSome then
              some (some args.relayParent)
            else findInherent rest
      else findInherent rest

def getRelayParentFromInherent (api : RelayApi) (blockHash : Hash) :
    Option (Option RelayParent) :=
  match api.getBlock blockHash with
  | none => none
  | some extrinsics => findInherent extrinsics

/-- The two storage queries; `none` if one of them throws. -/
def queryRelayParent (api : RelayApi) (blockHash : Hash) : Option (Option RelayParent) :=
  match api.validationDataAt blockHash with
  | none => none
  | some (some data) =>
      some (some { hash := some data.relayParentStorageRoot, number := some data.relayParentNumber })
  | some none =>
      (api.lastRelayChainBlockNumberAt blockHash).map fun relayNumber =>
        relayNumber.map fun number => { hash := none, number := some number }

/-- The loop of `getRelayParent`. -/
def askNodes (blockHash : Hash) : List RelayConnection → Option RelayParent
  | [] => none
  | conn :: rest =>
      match queryRelayParent conn.api blockHash with
      | some (some relayParent) => some relayParent
      | some none => askNodes blockHash rest
      | none =>
          -- the queries threw: what the inherent says is returned, null included
          match getRelayParentFromInherent conn.api blockHash with
          | some relayParent => relayParent
          | none => askNodes blockHash rest

/-- The relay parent of a block, from the connected nodes. -/
def getRelayParent (connections : List RelayConnection) (blockHash : Hash) : Option RelayParent :=
  askNodes blockHash (connections.filter RelayConnection.connected)

end ForkWatch
