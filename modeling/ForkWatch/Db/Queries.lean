import ForkWatch.Monitor.ForkDetector
import ForkWatch.Monitor.FinalityTracker
import ForkWatch.Monitor.TxTracker

/-!
# The database

`src/db/schema.sql` and `src/db/queries.js`, with the updates that
`src/monitor/causation.js` and `src/chain/manager.js` send themselves.

A statement takes effect at once and as a whole, at a time of its own: the pool runs
statements of many handlers and chains in an order of its own choosing, so a run is any
list of statements, and the times, which are those at which they began, may go back. A
statement that fails is one that is not in the list. `cleanupOldData` is five
statements, between which others may come in and after each of which it may give up.

Where several rows were detected at the same moment, the database may take any of them
for the latest; a statement that asks for the latest row says which.

Left out: the serial numbers of the tables other than `fork_events`, where no statement
uses them, and the `details` column.
-/

namespace ForkWatch

open Lib

abbrev ChainName := String

/-- `INTERVAL '1 day'`, in milliseconds. -/
def DAY : Int := 24 * 60 * 60 * 1000

/-! ## The tables -/

/-- A row of `fork_blocks`. -/
structure ForkBlock extends ForkBlockRow where
  chain : ChainName
  importedAt : Int
  deriving DecidableEq

/-- A row of `fork_events`. -/
structure ForkEvent extends ForkEventRow where
  id : Nat
  chain : ChainName
  cause : Option Cause := none
  relayHeight : Option Nat := none
  sameAuthor : Option Bool := none
  sameRelay : Option Bool := none
  sameParent : Option Bool := none
  resolved : Bool := false
  resolvedHash : Option Hash := none
  detectedAt : Int
  resolvedAt : Option Int := none
  deriving DecidableEq

/-- A row of a table that is only inserted into and cleaned up. -/
structure LogEntry (α : Type) where
  chain : ChainName
  /-- `recorded_at`, `detected_at` or `attempted_at`. -/
  time : Int
  row : α

/-- What `resubmit_attempts` takes: the signer and the nonce must not be null. -/
structure ResubmitAttemptRow where
  signer : Address
  nonce : Nat
  hash : Hash
  trigger : Trigger
  result : ResubmitResult
  error : Option String

structure Database where
  /-- By `block_hash`, which is unique. -/
  forkBlocks : OrdMap Hash ForkBlock := ∅
  forkEvents : List ForkEvent := []
  /-- The next serial number of `fork_events`. -/
  nextForkEvent : Nat := 1
  finalityLog : List (LogEntry FinalityLogRow) := []
  submittedTxs : List (LogEntry SubmittedTx) := []
  resubmitAttempts : List (LogEntry ResubmitAttemptRow) := []

/-! ## The statements -/

inductive Query where
  | insertForkBlock (chain : ChainName) (row : ForkBlockRow)
  | insertForkEvent (chain : ChainName) (row : ForkEventRow)
  | resolveForkEvent (chain : ChainName) (blockNumber : Nat) (resolvedHash : Hash)
  | insertFinalityLog (chain : ChainName) (row : FinalityLogRow)
  | insertSubmittedTx (chain : ChainName) (row : SubmittedTx)
  | insertResubmitAttempt (chain : ChainName) (row : ResubmitAttempt)
  /-- `analyzeForkCause`, on one of the latest rows of the height without a cause. -/
  | updateCause (chain : ChainName) (height : Nat) (verdict : CauseVerdict) (pick : Nat)
  /-- `analyzeForkCause`, on one competing block. -/
  | updateRelayParent (hash : Hash) (relayParent : RelayParent)
  /-- `updateForkAuthors`, on one of the latest rows of the height. -/
  | updateForkAuthors (chain : ChainName) (height : Nat) (authors : List String) (pick : Nat)
  /-- `updateForkAuthors`, on one competing block. -/
  | updateBlockAuthor (hash : Hash) (author : Address) (authorName : Option String)
  /-- The five statements of `cleanupOldData`. -/
  | deleteForkBlocks (retentionDays : Int)
  | deleteFinalityLog (retentionDays : Int)
  | deleteForkEvents (forkEventRetentionDays : Int)
  | deleteSubmittedTxs (txRetentionDays : Int)
  | deleteResubmitAttempts (txRetentionDays : Int)

/-- A statement and the time it sees. -/
structure Statement where
  now : Int
  query : Query

namespace Database

/-- `t < NOW() - INTERVAL '1 day' * days`. -/
def outdated (now days t : Int) : Bool := t < now - DAY * days

/-- `ON CONFLICT (block_hash) DO UPDATE` only adds to `seen_by`. -/
def insertForkBlock (db : Database) (now : Int) (chain : ChainName) (row : ForkBlockRow) :
    Database :=
  { db with
    forkBlocks := db.forkBlocks.upsert
      (fun old new => { old with seenBy := old.seenBy ++ new.seenBy })
      row.blockHash { row with chain, importedAt := now } }

def insertForkEvent (db : Database) (now : Int) (chain : ChainName) (row : ForkEventRow) :
    Database :=
  { db with
    forkEvents := db.forkEvents ++ [{ row with id := db.nextForkEvent, chain, detectedAt := now }]
    nextForkEvent := db.nextForkEvent + 1 }

/-- The hash is passed, but not written. -/
def resolveForkEvent (db : Database) (now : Int) (chain : ChainName) (blockNumber : Nat) :
    Database :=
  { db with
    forkEvents := db.forkEvents.map fun r =>
      if r.chain = chain ∧ r.blockNumber ≤ blockNumber ∧ r.resolved = false then
        { r with resolved := true, resolvedAt := some now }
      else r }

/-- The rows that pass the test and than which none that does was detected later. -/
def latestForkEvents (db : Database) (test : ForkEvent → Bool) : List ForkEvent :=
  db.forkEvents.filter fun r =>
    test r && (db.forkEvents.filter test).all fun r' => decide (r'.detectedAt ≤ r.detectedAt)

/-- `UPDATE fork_events ... WHERE id = (SELECT id ... ORDER BY detected_at DESC LIMIT 1)`. -/
def updateLatest (db : Database) (test : ForkEvent → Bool) (pick : Nat)
    (f : ForkEvent → ForkEvent) : Database :=
  match (db.latestForkEvents test)[pick]? with
  | none => db
  | some latest =>
      { db with forkEvents := db.forkEvents.map fun r => if r.id = latest.id then f r else r }

/-- What `analyzeForkCause` writes into the row. -/
def writeCause (v : CauseVerdict) (r : ForkEvent) : ForkEvent :=
  { r with
    cause := some v.cause
    relayHeight := v.relayHeight
    sameAuthor := some v.sameAuthor
    sameRelay := some (v.sameRelayNumber && v.sameRelayHash)
    sameParent := some v.sameParent }

def updateCause (db : Database) (chain : ChainName) (height : Nat) (v : CauseVerdict)
    (pick : Nat) : Database :=
  db.updateLatest (fun r => r.chain = chain ∧ r.blockNumber = height ∧ r.cause = none) pick
    (writeCause v)

def updateForkAuthors (db : Database) (chain : ChainName) (height : Nat) (authors : List String)
    (pick : Nat) : Database :=
  db.updateLatest (fun r => r.chain = chain ∧ r.blockNumber = height) pick
    fun r => { r with authors }

def updateForkBlock (db : Database) (hash : Hash) (f : ForkBlock → ForkBlock) : Database :=
  { db with forkBlocks := db.forkBlocks.modify hash f }

/-- A signer or a nonce that is null fails the statement. -/
def resubmitAttemptRow (row : ResubmitAttempt) : Option ResubmitAttemptRow :=
  match row.signer, row.nonce with
  | some signer, some nonce =>
      some
        { signer, nonce, hash := row.hash, trigger := row.trigger, result := row.result
          error := orNull row.error }
  | _, _ => none

def execute (db : Database) (s : Statement) : Database :=
  match s.query with
  | .insertForkBlock chain row => db.insertForkBlock s.now chain row
  | .insertForkEvent chain row => db.insertForkEvent s.now chain row
  | .resolveForkEvent chain blockNumber _ => db.resolveForkEvent s.now chain blockNumber
  | .insertFinalityLog chain row =>
      { db with finalityLog := db.finalityLog ++ [⟨chain, s.now, row⟩] }
  | .insertSubmittedTx chain row =>
      { db with submittedTxs := db.submittedTxs ++ [⟨chain, s.now, row⟩] }
  | .insertResubmitAttempt chain row =>
      { db with resubmitAttempts := db.resubmitAttempts
          ++ ((resubmitAttemptRow row).map (⟨chain, s.now, ·⟩)).toList }
  | .updateCause chain height verdict pick => db.updateCause chain height verdict pick
  | .updateRelayParent hash rp =>
      db.updateForkBlock hash fun r => { r with relayParent := rp.hash, relayNumber := rp.number }
  | .updateForkAuthors chain height authors pick =>
      db.updateForkAuthors chain height authors pick
  | .updateBlockAuthor hash author authorName =>
      db.updateForkBlock hash fun r => { r with author := some author, authorName }
  | .deleteForkBlocks days =>
      { db with forkBlocks :=
          db.forkBlocks.filter fun _ r => !outdated s.now days r.importedAt }
  | .deleteFinalityLog days =>
      { db with finalityLog := db.finalityLog.filter fun r => !outdated s.now days r.time }
  | .deleteForkEvents days =>
      { db with forkEvents := db.forkEvents.filter fun r => !outdated s.now days r.detectedAt }
  | .deleteSubmittedTxs days =>
      { db with submittedTxs := db.submittedTxs.filter fun r => !outdated s.now days r.time }
  | .deleteResubmitAttempts days =>
      { db with resubmitAttempts :=
          db.resubmitAttempts.filter fun r => !outdated s.now days r.time }

/-- A database that starts empty. -/
def machine : Machine Database Statement where
  init := {}
  step := execute

end Database

/-! ## Reading -/

/-- The value of a placeholder. -/
inductive Param where
  | text (s : String)
  | number (n : Nat)
  deriving DecidableEq

/-- `column = $placeholder`; placeholders count from one. -/
structure Condition (κ : Type) where
  column : κ
  placeholder : Nat

/-- `SELECT * FROM ... WHERE ... AND ... ORDER BY time [DESC] [LIMIT $limit]`. -/
structure Select (κ : Type) where
  conditions : List (Condition κ)
  newestFirst : Bool := true
  limit : Option Nat
  params : List Param

namespace Select

variable {κ ρ : Type}

/-- The value of a placeholder, if that many were passed. -/
def param (q : Select κ) (placeholder : Nat) : Option Param := q.params[placeholder - 1]?

/-- A null column equals nothing. -/
def selects (q : Select κ) (column : κ → Option Param) : Bool :=
  q.conditions.all fun c => (column c.column).isSome && column c.column = q.param c.placeholder

/--
What the database may answer: the selected rows in order, those of one time in any, and
of them as many as the limit says. A limit that is no number fails.
-/
def Answers (q : Select κ) (column : ρ → κ → Option Param) (time : ρ → Int) (table : List ρ)
    (rows : List ρ) : Prop :=
  ∃ sorted : List ρ, sorted.Perm (table.filter fun r => q.selects (column r)) ∧
    (sorted.Pairwise fun r r' => if q.newestFirst then time r' ≤ time r else time r ≤ time r') ∧
    match q.limit with
    | none => rows = sorted
    | some placeholder => ∃ n, q.param placeholder = some (.number n) ∧ rows = sorted.take n

end Select

inductive TxColumn where
  | chain
  | status
  | kind
  | signer

inductive ForkColumn where
  | chain
  | blockNumber

/-- `conditions` and `params`, while a query is put together. -/
structure Where (κ : Type) where
  conditions : List (Condition κ) := []
  params : List Param := []
  /-- Every condition compares with a parameter that is there. -/
  numbered : ∀ c ∈ conditions, 0 < c.placeholder ∧ c.placeholder ≤ params.length := by simp

namespace Where

variable {κ : Type}

/-- `params.push(value)`, then `conditions.push(...)` with the number of parameters. -/
def push (w : Where κ) (column : κ) (value : Param) : Where κ where
  conditions := w.conditions ++ [{ column, placeholder := w.params.length + 1 }]
  params := w.params ++ [value]
  numbered := by
    intro c hc
    rw [List.length_append, List.length_singleton]
    rcases List.mem_append.mp hc with hc | hc
    · have hbound := w.numbered c hc
      omega
    · rw [List.mem_singleton.mp hc]
      exact ⟨Nat.succ_pos _, Nat.le_refl _⟩

/-- `if (value)`: null and the empty string ask for nothing. -/
def ask (w : Where κ) (column : κ) (value : Option String) : Where κ :=
  match orNull value with
  | none => w
  | some value => w.push column (.text value)

/-- The limit is the last parameter. -/
def limited (w : Where κ) (limit : Nat) : Select κ where
  conditions := w.conditions
  limit := some (w.params.length + 1)
  params := w.params ++ [.number limit]

end Where

def getSubmittedTxs (chain status : Option String) (limit : Nat) (kind : Option String) :
    Select TxColumn :=
  let conditions : Where TxColumn := {}
  (((conditions.ask .chain chain).ask .status status).ask .kind kind).limited limit

def getSubmittedTxsBySigner (chain signer : String) (limit : Nat) : Select TxColumn where
  conditions := [{ column := .chain, placeholder := 1 }, { column := .signer, placeholder := 2 }]
  limit := some 3
  params := [.text chain, .text signer, .number limit]

def getResubmitAttempts (chain signer : Option String) (limit : Nat) : Select TxColumn :=
  let conditions : Where TxColumn := {}
  ((conditions.ask .chain chain).ask .signer signer).limited limit

/-- Here the limit comes first. -/
def getRecentForkEvents (chain : Option String) (limit : Nat) : Select ForkColumn :=
  match orNull chain with
  | none => { conditions := [], limit := some 1, params := [.number limit] }
  | some chain =>
      { conditions := [{ column := .chain, placeholder := 2 }], limit := some 1
        params := [.number limit, .text chain] }

def getBlocksAtHeight (chain : String) (height : Nat) : Select ForkColumn where
  conditions :=
    [{ column := .chain, placeholder := 1 }, { column := .blockNumber, placeholder := 2 }]
  newestFirst := false
  limit := none
  params := [.text chain, .number height]

def TxStatus.text : TxStatus → String
  | .dropped => "dropped"
  | .expired => "expired"
  | .resubmitted => "resubmitted"
  | .reorgedLost => "reorged_lost"
  | .reorgedResubmitted => "reorged_resubmitted"

def TxKind.text : TxKind → String
  | .substrate => "substrate"
  | .evm => "evm"

/-- The columns of a row of `submitted_txs` that queries ask for. -/
def submittedTxColumn (r : LogEntry SubmittedTx) : TxColumn → Option Param
  | .chain => some (.text r.chain)
  | .status => some (.text r.row.status.text)
  | .kind => some (.text r.row.kind.text)
  | .signer => r.row.signer.map .text

/-- The columns of a row of `resubmit_attempts` that queries ask for. -/
def resubmitAttemptColumn (r : LogEntry ResubmitAttemptRow) : TxColumn → Option Param
  | .chain => some (.text r.chain)
  | .signer => some (.text r.row.signer)
  | .status | .kind => none

/-- The columns of a row of `fork_events` that queries ask for. -/
def forkEventColumn (r : ForkEvent) : ForkColumn → Option Param
  | .chain => some (.text r.chain)
  | .blockNumber => some (.number r.blockNumber)

/-- The columns of a row of `fork_blocks` that queries ask for. -/
def forkBlockColumn (r : ForkBlock) : ForkColumn → Option Param
  | .chain => some (.text r.chain)
  | .blockNumber => some (.number r.blockNumber)

end ForkWatch
