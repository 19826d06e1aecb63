import ForkWatch.Chain.Monitor
import ForkWatch.Db.Queries

/-!
# The program

`ChainManager` of `src/chain/manager.js`, the database that its chains share, and the
daily cleanup of `src/index.js`.

A handler issues a statement and awaits it, or does not; the pool runs it later, at the
same time as others. So a statement that was issued is in flight until it takes effect or
fails, in any order. Of the rows detected at one moment the database may take any for the
latest: the event says which.

The database is taken as configured. The relay chain that a chain is set up with is only
named in a metric; of `setupCausation` there remains which chains get the hook. Its
`ctx.relay` is never set, so the first babe chain of another name is taken.
-/

namespace ForkWatch

open Lib

structure ProgramConfig where
  chains : List (ChainName × MonitorConfig)
  /-- `RETENTION_DAYS`. -/
  retention : Option Nat := none
  /-- `FORK_EVENT_RETENTION_DAYS`. -/
  forkEventRetention : Option Nat := none
  /-- `TX_RETENTION_DAYS`. -/
  txRetention : Option Nat := none

namespace ProgramConfig

def retentionDays (config : ProgramConfig) : Nat := numberOr config.retention 90

def forkEventRetentionDays (config : ProgramConfig) : Nat :=
  numberOr config.forkEventRetention 365

def txRetentionDays (config : ProgramConfig) : Nat := numberOr config.txRetention 180

end ProgramConfig

/-- The statements of `cleanupOldData`. -/
inductive Cleanup where
  | forkBlocks
  | finalityLog
  | forkEvents
  | submittedTxs
  | resubmitAttempts

def Cleanup.query (config : ProgramConfig) : Cleanup → Query
  | .forkBlocks => .deleteForkBlocks config.retentionDays
  | .finalityLog => .deleteFinalityLog config.retentionDays
  | .forkEvents => .deleteForkEvents config.forkEventRetentionDays
  | .submittedTxs => .deleteSubmittedTxs config.txRetentionDays
  | .resubmitAttempts => .deleteResubmitAttempts config.txRetentionDays

/-! ## What a chain issues -/

/-- `analyzeForkCause`: the relay parents, which follow the verdict. -/
def relayParentQueries (c : ChainContext) : List Query :=
  match c.tasks.getLast? with
  | some (.updateCause _ _ blocks relayParents) =>
      (blocks.zip relayParents).filterMap fun e => e.2.map (.updateRelayParent e.1.hash)
  | _ => []

def reportQueries (name : ChainName) (c : ChainContext) : Report → List Query
  | .insertForkBlock row => [.insertForkBlock name row]
  | .insertForkEvent row => [.insertForkEvent name row]
  | .resolveForkEvent height hash => [.resolveForkEvent name height hash]
  | .forkCause height _ verdict => .updateCause name height verdict 0 :: relayParentQueries c
  | _ => []

/-- `updateForkAuthors`. -/
def updateForkAuthorsQueries (name : ChainName) (c : ChainContext) (height : Nat) : List Query :=
  match c.blockTree.getBlocksAtHeight height with
  | none => []
  | some blocks =>
      .updateForkAuthors name height (blocks.values.map BlockRecord.authorLabel) 0 ::
        blocks.values.filterMap fun b =>
          (orNull b.author).map fun author => .updateBlockAuthor b.hash author b.authorName

/-- The header of a task that goes on with `enrichForkAuthors`. -/
def Task.enriching : Task → Option Header
  | .imported header true => some header
  | .extractAuthor header .. | .resolveIdentity header .. => some header
  | _ => none

/-- The authors of a fork are updated by a handler that has gone on to the block body. -/
def authorQueries (name : ChainName) (c c' : ChainContext) : Event → List Query
  | .resume i _ =>
      match (c.tasks[i]?).bind Task.enriching, c'.tasks.getLast? with
      | some header, some (.getBlock ..) => updateForkAuthorsQueries name c' header.number
      | _, _ => []
  | _ => []

def txQueries (name : ChainName) : TxReport → List Query
  | .submitted row => [.insertSubmittedTx name row]
  | .resubmitAttempt row => [.insertResubmitAttempt name row]
  | _ => []

def finalityQueries (name : ChainName) : FinalityReport → List Query
  | .insertFinalityLog _ row => [.insertFinalityLog name row]
  | _ => []

/-- All that a step of a chain issues. -/
def issued (name : ChainName) (m : ChainMonitor) (e : MonitorEvent) : List Query :=
  let m' := m.step e
  (m'.finalityTracker.history.drop m.finalityTracker.history.length).flatMap (finalityQueries name)
    ++ (m'.ctx.history.drop m.ctx.history.length).flatMap (reportQueries name m'.ctx)
    ++ (m'.ctx.txTracker.history.drop m.ctx.txTracker.history.length).flatMap (txQueries name)
    ++ match e.what with
      | .handler e => authorQueries name m.ctx m'.ctx e
      | _ => []

/-! ## The program -/

structure Program where
  config : ProgramConfig
  chains : OrdMap ChainName ChainMonitor
  /-- Statements that were issued and have not been settled. -/
  inFlight : List Query := []
  db : Database := {}
  /-- The statements that took effect (history only). -/
  executed : List Statement := []

inductive ProgramEvent where
  | chain (name : ChainName) (e : MonitorEvent)
  | setupCausation
  /-- A statement takes effect. -/
  | takesEffect (k : Nat) (now : Int) (pick : Nat)
  | fails (k : Nat)
  | cleanup (now : Int) (cleanup : Cleanup)

/-- The row the database takes for the latest. -/
def Query.picking (pick : Nat) : Query → Query
  | .updateCause chain height verdict _ => .updateCause chain height verdict pick
  | .updateForkAuthors chain height authors _ => .updateForkAuthors chain height authors pick
  | q => q

namespace Program

def execute (p : Program) (s : Statement) : Program :=
  { p with db := p.db.execute s, executed := p.executed ++ [s] }

def onChain (p : Program) (name : ChainName) (e : MonitorEvent) : Program :=
  match p.chains.get? name with
  | none => p
  | some m =>
      { p with
        chains := p.chains.set name (m.step e)
        inFlight := p.inFlight ++ issued name m e }

/-- The first babe chain of another name. -/
def relayOf (p : Program) (name : ChainName) : Option ChainName :=
  (p.chains.entries.find? fun e => e.2.config.consensus = .babe && e.1 ≠ name).map Prod.fst

def setupCausation (p : Program) : Program :=
  { p with
    chains := p.chains.keys.foldl (fun chains name =>
      chains.modify name fun m =>
        if m.config.consensus = .aura ∧ (p.relayOf name).isSome then m.chainEvent .setupCausation
        else m) p.chains }

def step (p : Program) : ProgramEvent → Program
  | .chain name e => p.onChain name e
  | .setupCausation => p.setupCausation
  | .takesEffect k now pick =>
      match p.inFlight[k]? with
      | none => p
      | some q =>
          { p with inFlight := p.inFlight.eraseIdx k }.execute ⟨now, q.picking pick⟩
  | .fails k => { p with inFlight := p.inFlight.eraseIdx k }
  | .cleanup now cleanup => p.execute ⟨now, cleanup.query p.config⟩

/-- A statement takes effect if it is in flight. -/
theorem takesEffect_cases (p : Program) (k : Nat) (now : Int) (pick : Nat) :
    p.step (.takesEffect k now pick) = p ∨ ∃ q, p.inFlight[k]? = some q ∧
      p.step (.takesEffect k now pick)
        = { p with inFlight := p.inFlight.eraseIdx k }.execute ⟨now, q.picking pick⟩ := by
  unfold step
  dsimp only
  cases p.inFlight[k]? with
  | none => exact Or.inl rfl
  | some q => exact Or.inr ⟨q, rfl, rfl⟩

def machine (config : ProgramConfig) : Machine Program ProgramEvent where
  init :=
    { config
      chains := .ofList (config.chains.map fun e => (e.1, (ChainMonitor.machine e.2).init)) }
  step := step

end Program

end ForkWatch
