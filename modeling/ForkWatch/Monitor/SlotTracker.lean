import ForkWatch.Lib.Machine
import ForkWatch.Monitor.BlockTree

/-!
# The slot tracker

`src/monitor/slot-tracker.js`: who produced which aura slot of the finalized
chain, and which slots nobody did. Calls of `onFinalizedHeader` are serialized by
a promise queue, so a call is one step; the RPC calls inside it are an argument,
each answering or failing.

Timestamps are left out. So is the reading of the authorities list from the
chain: `refreshAuthorities` is given its outcome.
-/

namespace ForkWatch

open Lib

def MAX_HISTORY : Nat := 30

/-- How many missed-slot combos are kept. -/
def MAX_COMBOS : Nat := 100

/-- A digest log; engine and payload are those of a pre-runtime log. -/
structure DigestLog where
  isPreRuntime : Bool
  engine : String
  payload : List UInt8
  deriving DecidableEq

/-- What the slot tracker reads of a header. -/
structure SlotHeader where
  number : Nat
  hash : Hash
  logs : List DigestLog
  deriving DecidableEq

/-- The number whose little-endian bytes these are. -/
def littleEndian (bytes : List UInt8) : Nat :=
  bytes.foldr (fun b n => b.toNat + 256 * n) 0

/--
The aura slot of a header: the first eight bytes of its first aura pre-runtime
digest. The source converts to a double, which is exact below 2^53.
-/
def extractSlot (header : SlotHeader) : Option Nat :=
  match header.logs.find? (fun log => log.isPreRuntime && log.engine = "aura") with
  | none => none
  | some log => if log.payload.length < 8 then none else some (littleEndian (log.payload.take 8))

/-- The calls of the node's API; `none` is a failure. -/
structure SlotApi where
  getBlockHash : Nat → Option Hash
  getHeader : Hash → Option SlotHeader
  /-- The author of a block, by `derive.chain.getHeader`. -/
  deriveAuthor : Hash → Option Address

/-- An entry of the slot history. -/
structure SlotEntry where
  slot : Nat
  expected : Option String
  produced : Bool
  block : Option Nat
  deriving DecidableEq

/-- A run of at least two missed slots. -/
structure MissedCombo where
  startSlot : Nat
  length : Nat
  collators : List String
  deriving DecidableEq

/-- The run of missed slots that is still growing. -/
structure OpenMiss where
  startSlot : Nat
  collators : List String
  deriving DecidableEq

inductive SlotReport where
  /-- `collator_missed_slots_total`. -/
  | collatorMissed (collator : String)
  /-- `collator_produced_slots_total`. -/
  | collatorProduced (collator : String)
  /-- `addHistory`: the recent slots forget, this does not. -/
  | classified (entry : SlotEntry)
  deriving DecidableEq

structure SlotTracker where
  resolveAuthorName : Address → Option String := fun _ => none
  authorities : Option (List Address) := none
  lastSlot : Option Nat := none
  totalMissed : Nat := 0
  totalProduced : Nat := 0
  recentSlots : List SlotEntry := []
  lastProcessedBlock : Option Nat := none
  missedCombos : List MissedCombo := []
  openMiss : Option OpenMiss := none
  history : List SlotReport := []

namespace SlotTracker

/-- `push`, then `shift` once the list is over its size. -/
def pushBounded {α : Type} (bound : Nat) (l : List α) (x : α) : List α :=
  if bound < l.length + 1 then (l ++ [x]).drop 1 else l ++ [x]

def report (t : SlotTracker) (rs : List SlotReport) : SlotTracker :=
  { t with history := t.history ++ rs }

def addHistory (t : SlotTracker) (entry : SlotEntry) : SlotTracker :=
  { t with recentSlots := pushBounded MAX_HISTORY t.recentSlots entry }.report [.classified entry]

/-- The collator whose turn a slot is. -/
def expectedAuthor (t : SlotTracker) (slot : Nat) : Option String :=
  match t.authorities with
  | none => none
  | some authorities =>
      (authorities[slot % authorities.length]?).map fun addr =>
        (orNull (t.resolveAuthorName addr)).getD addr

def closeOpenMiss (t : SlotTracker) : SlotTracker :=
  match t.openMiss with
  | none => t
  | some run =>
      { t with
        openMiss := none
        missedCombos :=
          if 2 ≤ run.collators.length then
            pushBounded MAX_COMBOS t.missedCombos
              { startSlot := run.startSlot, length := run.collators.length,
                collators := run.collators }
          else t.missedCombos }

/-- Extend the open run of missed slots, or open a new one. -/
def extendOpenMiss (t : SlotTracker) (slot : Nat) (collator : String) : SlotTracker :=
  match t.openMiss with
  | some run =>
      if slot = run.startSlot + run.collators.length then
        { t with openMiss := some { run with collators := run.collators ++ [collator] } }
      else { t.closeOpenMiss with openMiss := some { startSlot := slot, collators := [collator] } }
  | none => { t with openMiss := some { startSlot := slot, collators := [collator] } }

def recordMiss (t : SlotTracker) (slot : Nat) (expected : Option String) : SlotTracker :=
  let t := t.report ((orNull expected).map SlotReport.collatorMissed).toList
  let t := t.addHistory { slot, expected, produced := false, block := none }
  { t with totalMissed := t.totalMissed + 1 }.extendOpenMiss slot ((orNull expected).getD "unknown")

def recordProduce (t : SlotTracker) (slot : Nat) (expected : Option String)
    (blockNumber : Option Nat) : SlotTracker :=
  let t := t.closeOpenMiss
  let t := t.report ((orNull expected).map SlotReport.collatorProduced).toList
  let t := t.addHistory { slot, expected, produced := true, block := blockNumber }
  { t with totalProduced := t.totalProduced + 1, lastSlot := some slot }

/-- The slots between the last one seen and this one were missed. -/
def recordMisses (t : SlotTracker) (slot : Nat) : SlotTracker :=
  match t.lastSlot with
  | none => t
  | some last =>
      (List.range' (last + 1) (slot - (last + 1))).foldl
        (fun t s => t.recordMiss s (t.expectedAuthor s)) t

/-- Process a slot, attributing it to the collator whose turn it was. -/
def processSlot (t : SlotTracker) (slot : Nat) (blockNumber : Option Nat) : SlotTracker :=
  if t.lastSlot.any (fun last => slot ≤ last) then t
  else
    let t := t.recordMisses slot
    t.recordProduce slot (t.expectedAuthor slot) blockNumber

/-- The name shown for the author of a slot: the actual one, else the expected one. -/
def displayName (t : SlotTracker) (actual : Option Address) (slot : Nat) : Option String :=
  match orNull actual with
  | none => t.expectedAuthor slot
  | some actual => some ((orNull (t.resolveAuthorName actual)).getD actual)

/-- Process a slot, attributing it to the block's actual author. -/
def processSlotWithActual (t : SlotTracker) (api : SlotApi) (slot blockNumber : Nat)
    (blockHash : Hash) : SlotTracker :=
  if t.lastSlot.any (fun last => slot ≤ last) then t
  else
    let t := t.recordMisses slot
    t.recordProduce slot (t.displayName (api.deriveAuthor blockHash) slot) (some blockNumber)

/-- One block of the backfill; any failure skips it. -/
def backfill (api : SlotApi) (t : SlotTracker) (n : Nat) : SlotTracker :=
  match api.getBlockHash n with
  | none => t
  | some hash =>
      match api.getHeader hash with
      | none => t
      | some header =>
          match extractSlot header with
          | none => t
          | some slot => t.processSlotWithActual api slot n hash

/-- The block itself, at the end. -/
def processHeader (t : SlotTracker) (api : SlotApi) (header : SlotHeader) : SlotTracker :=
  match extractSlot header with
  | none => t
  | some slot => t.processSlotWithActual api slot header.number header.hash

/-- The headers finality jumped over, as far back as the window reaches. -/
def backfillRange (startFrom currentNumber : Nat) : List Nat :=
  let start := max (startFrom + 1) (currentNumber - 50)
  if startFrom + 1 < currentNumber then List.range' start (currentNumber - start) else []

/-- `onFinalizedHeader`, once it is its turn. -/
def onFinalizedHeader (t : SlotTracker) (api : SlotApi) (header : SlotHeader)
    (lastFinalizedNumber : Option Nat) : SlotTracker :=
  if t.lastProcessedBlock.any (fun last => header.number ≤ last) then t
  else
    let missing := match t.lastProcessedBlock.or lastFinalizedNumber with
      | none => []
      | some startFrom => backfillRange startFrom header.number
    { (missing.foldl (backfill api) t).processHeader api header with
      lastProcessedBlock := some header.number }

/-! ## Single calls -/

/-- What the tracker holds at some time that the names of collators depend on. -/
structure Roster where
  authorities : Option (List Address)
  resolveAuthorName : Address → Option String

/-- The tracker with another roster, as other handlers may leave it. -/
def holding (t : SlotTracker) (roster : Roster) : SlotTracker :=
  { t with authorities := roster.authorities, resolveAuthorName := roster.resolveAuthorName }

/-- `processSlotWithActual`, with the roster there is by the time the author is known. -/
def processSlotAwaiting (t : SlotTracker) (api : SlotApi) (slot blockNumber : Nat)
    (blockHash : Hash) (later : Roster) : SlotTracker :=
  if t.lastSlot.any (fun last => slot ≤ last) then t
  else
    let t := (t.recordMisses slot).holding later
    t.recordProduce slot (t.displayName (api.deriveAuthor blockHash) slot) (some blockNumber)

/-- A call for one slot, and the rosters held when it starts and when it goes on. -/
inductive SlotCall where
  | processSlot (roster : Roster) (slot : Nat) (blockNumber : Option Nat)
  | processSlotWithActual (roster later : Roster) (api : SlotApi) (slot blockNumber : Nat)
      (blockHash : Hash)

def SlotCall.slot : SlotCall → Nat
  | .processSlot _ slot _ => slot
  | .processSlotWithActual _ _ _ slot _ _ => slot

def SlotCall.apply (t : SlotTracker) : SlotCall → SlotTracker
  | .processSlot roster slot blockNumber => (t.holding roster).processSlot slot blockNumber
  | .processSlotWithActual roster later api slot blockNumber blockHash =>
      (t.holding roster).processSlotAwaiting api slot blockNumber blockHash later

/-- `refreshAuthorities`, with the list it arrives at; an empty one counts as none. -/
def refreshAuthorities (t : SlotTracker) (authorities : Option (List Address)) : SlotTracker :=
  { t with authorities := authorities.filter (fun l => l ≠ []) }

/-! ## The machine -/

/-- A finalized header of one delivery, with the API of its node. -/
structure Delivery where
  api : SlotApi
  header : SlotHeader
  lastFinalizedNumber : Option Nat

inductive Event where
  | finalizedHeader (delivery : Delivery)
  | authorities (authorities : Option (List Address))

def step (t : SlotTracker) : Event → SlotTracker
  | .finalizedHeader d => t.onFinalizedHeader d.api d.header d.lastFinalizedNumber
  | .authorities l => t.refreshAuthorities l

def machine (resolveAuthorName : Address → Option String) : Machine SlotTracker Event where
  init := { resolveAuthorName }
  step := step

/-- A fresh tracker, under one call after the other. -/
def callMachine : Machine SlotTracker SlotCall where
  init := {}
  step := SlotCall.apply

end SlotTracker

end ForkWatch
