import ForkWatch.Lib.OrdMap

/-!
# The block tree

`src/monitor/block-tree.js`. Two indexes over the same records: by height, for
finding forks, and by hash, for walking parent links.

A record is one object shared by both indexes, so an update made through one is
seen through the other; `updateRecord` is the only place where that sharing is
spelled out. The time of import is left out.
-/

namespace ForkWatch

open Lib

/-- Hex strings; only ever compared. -/
abbrev Hash := String

/-- SS58 or H160 account strings; only ever compared. -/
abbrev Address := String

abbrev NodeName := String

/-- `s || null`: the empty string counts as missing. -/
def orNull (s : Option String) : Option String := s.filter (fun x => x ≠ "")

/-- What is known of one imported block. -/
structure BlockRecord where
  hash : Hash
  number : Nat
  parentHash : Hash
  author : Option Address
  authorName : Option String
  stateRoot : Option String
  extrinsicsRoot : Option String
  relayParent : Option Hash
  relayNumber : Option Nat
  seenByNodes : OrdSet NodeName
  deriving DecidableEq

/-- The optional last argument of `addBlock`. -/
structure BlockExtra where
  stateRoot : Option String := none
  extrinsicsRoot : Option String := none
  relayNumber : Option Nat := none

structure BlockTree where
  blocksByHeight : OrdMap Nat (OrdMap Hash BlockRecord) := ∅
  blocksByHash : OrdMap Hash BlockRecord := ∅
  finalizedHeight : Nat := 0
  bestHeight : Nat := 0

namespace BlockTree

/-- The tree of a chain no node has reported on yet. -/
def init : BlockTree := {}

/-- Change one record, as seen through both indexes. -/
def updateRecord (t : BlockTree) (hash : Hash) (f : BlockRecord → BlockRecord) : BlockTree :=
  match t.blocksByHash.get? hash with
  | none => t
  | some record =>
      { t with
        blocksByHash := t.blocksByHash.modify hash f
        blocksByHeight := t.blocksByHeight.modify record.number (fun blocks => blocks.modify hash f) }

/-- The record `addBlock` creates for a hash it has not seen. -/
def newRecord (hash : Hash) (number : Nat) (parentHash : Hash) (author : Option Address)
    (authorName : Option String) (relayParent : Option Hash) (nodeName : NodeName)
    (extra : BlockExtra) : BlockRecord where
  hash := hash
  number := number
  parentHash := parentHash
  author := author
  authorName := authorName
  stateRoot := orNull extra.stateRoot
  extrinsicsRoot := orNull extra.extrinsicsRoot
  relayParent := relayParent
  relayNumber := extra.relayNumber.filter (fun n => n ≠ 0)
  seenByNodes := (∅ : OrdSet NodeName).add nodeName

/-- Enter a record into both indexes. -/
def insertRecord (t : BlockTree) (record : BlockRecord) : BlockTree :=
  { t with
    blocksByHeight := t.blocksByHeight.set record.number
      (((t.blocksByHeight.get? record.number).getD ∅).set record.hash record)
    blocksByHash := t.blocksByHash.set record.hash record
    bestHeight := if t.bestHeight < record.number then record.number else t.bestHeight }

/-- Add a block; the flag says whether it is new. -/
def addBlock (t : BlockTree) (hash : Hash) (number : Nat) (parentHash : Hash)
    (author : Option Address) (authorName : Option String) (relayParent : Option Hash)
    (nodeName : NodeName) (extra : BlockExtra := {}) : BlockTree × Bool :=
  match t.blocksByHash.get? hash with
  | some _ =>
      (t.updateRecord hash (fun r => { r with seenByNodes := r.seenByNodes.add nodeName }), false)
  | none =>
      (t.insertRecord
        (newRecord hash number parentHash author authorName relayParent nodeName extra), true)

def getBlocksAtHeight (t : BlockTree) (height : Nat) : Option (OrdMap Hash BlockRecord) :=
  t.blocksByHeight.get? height

def getBlock (t : BlockTree) (hash : Hash) : Option BlockRecord := t.blocksByHash.get? hash

/-- More than one distinct block at this height. -/
def isForked (t : BlockTree) (height : Nat) : Bool :=
  match t.blocksByHeight.get? height with
  | none => false
  | some blocks => 1 < blocks.size

/-- The heights with more than one distinct block hash, ascending. -/
def getForkedHeights (t : BlockTree) : List Nat :=
  ((t.blocksByHeight.entries.filter (fun e => 1 < e.2.size)).map Prod.fst).insertionSort (· ≤ ·)

/-- How many consecutive heights ending at `h` are forked. -/
def forkRun (t : BlockTree) : Nat → Nat
  | 0 => if t.isForked 0 then 1 else 0
  | h + 1 => if t.isForked (h + 1) then t.forkRun h + 1 else 0

/-- Consecutive forked heights down from `forkHeight`, which counts in any case. -/
def measureForkDepth (t : BlockTree) (forkHeight : Nat) : Nat :=
  match forkHeight with
  | 0 => 1
  | h + 1 => 1 + t.forkRun h

/-- The walk of `getCanonicalAncestorAt`; `fuel` is what is left of its step bound. -/
def ancestorWalk (t : BlockTree) (targetHeight : Nat) : Nat → Option BlockRecord → Option BlockRecord
  | _, none => none
  | 0, some current => if current.number = targetHeight then some current else none
  | fuel + 1, some current =>
      if targetHeight < current.number then
        t.ancestorWalk targetHeight fuel (t.blocksByHash.get? current.parentHash)
      else if current.number = targetHeight then some current else none

/--
Walk parent links from `fromHash` to the record at `targetHeight`.

The source gives up when its step counter passes `bestHeight - targetHeight +
100`, which may be negative; no step is allowed then.
-/
def getCanonicalAncestorAt (t : BlockTree) (fromHash : Hash) (targetHeight : Nat) :
    Option BlockRecord :=
  t.ancestorWalk targetHeight ((t.bestHeight : Int) - targetHeight + 100).toNat
    (t.blocksByHash.get? fromHash)

/-- The records at heights up to `keepAboveHeight`. -/
def prunable (t : BlockTree) (keepAboveHeight : Int) : List (Nat × OrdMap Hash BlockRecord) :=
  t.blocksByHeight.entries.filter (fun e => (e.1 : Int) ≤ keepAboveHeight)

/-- Forget everything at and below `keepAboveHeight`. -/
def prune (t : BlockTree) (keepAboveHeight : Int) : BlockTree :=
  { t with
    blocksByHash := ((t.prunable keepAboveHeight).flatMap (fun e => e.2.keys)).foldl
      (fun m hash => m.erase hash) t.blocksByHash
    blocksByHeight := t.blocksByHeight.filter (fun height _ => !decide ((height : Int) ≤ keepAboveHeight)) }

end BlockTree

end ForkWatch
