import ForkWatch.Lib.Unwinding
import ForkWatch.Proof.BlockTable
import ForkWatch.Proof.EventTable
import ForkWatch.Proof.LogTables

/-!
# Chains share the tables and nothing else

All chains write into the same tables, and their statements take effect in any order.
Still the rows of a chain are those there would be if the other chains had sent nothing
(`chains_isolated`), the serial numbers apart.

The updates of `fork_blocks` do not say which chain they are for: they name a block by
its hash alone. So what is said of that table is said of a set of blocks.
-/

namespace ForkWatch.Proof

open Lib Database

/-- The statements for a chain or for one of these blocks; cleanups are for all. -/
def concerns (chain : ChainName) (ours : Hash → Bool) (s : Statement) : Bool :=
  match s.query with
  | .insertForkBlock _ row => ours row.blockHash
  | .updateRelayParent hash _ => ours hash
  | .updateBlockAuthor hash _ _ => ours hash
  | .insertForkEvent c _ | .resolveForkEvent c _ _ | .insertFinalityLog c _
  | .insertSubmittedTx c _ | .insertResubmitAttempt c _ | .updateCause c _ _ _
  | .updateForkAuthors c _ _ _ => c = chain
  | .deleteForkBlocks _ | .deleteFinalityLog _ | .deleteForkEvents _ | .deleteSubmittedTxs _
  | .deleteResubmitAttempts _ => true

/-! ## `fork_events` -/

/-- Serial numbers are given out to all chains in turn. -/
def unnumbered (r : ForkEvent) : ForkEvent := { r with id := 0 }

/-- The rows of a chain, in order. -/
def eventsOf (chain : ChainName) (db : Database) : List ForkEvent :=
  (db.forkEvents.filter fun r => r.chain = chain).map unnumbered

/-- `updateLatest`, without serial numbers. -/
def updateLatestRow (test : ForkEvent → Bool) (pick : Nat) (f : ForkEvent → ForkEvent)
    (l : List ForkEvent) : List ForkEvent :=
  modifyNth (fun r => test r && (l.filter test).all fun r' => decide (r'.detectedAt ≤ r.detectedAt))
    f pick l

theorem forkEvents_updateLatest {db : Database} (h : Numbered db) (test : ForkEvent → Bool)
    (pick : Nat) (f : ForkEvent → ForkEvent) :
    (db.updateLatest test pick f).forkEvents = updateLatestRow test pick f db.forkEvents := by
  have hids : (db.forkEvents.map ForkEvent.id).Nodup :=
    List.pairwise_map.mpr (h.increasing.imp fun hlt => Nat.ne_of_lt hlt)
  unfold updateLatest updateLatestRow
  cases hlatest : (db.latestForkEvents test)[pick]? with
  | none => exact (modifyNth_of_none hlatest).symm
  | some latest => exact map_eq_modifyNth hids hlatest

/-- An update of one of a chain's own rows. -/
theorem eventsOf_updateLatest {db : Database} (h : Numbered db) {chain : ChainName}
    {test : ForkEvent → Bool} {f : ForkEvent → ForkEvent}
    (htest : ∀ r, test r = true → r.chain = chain) (hsame : ∀ r, test (unnumbered r) = test r)
    (hf : ∀ r, f (unnumbered r) = unnumbered (f r)) (hchain : ∀ r, (f r).chain = r.chain)
    (pick : Nat) : eventsOf chain (db.updateLatest test pick f)
      = updateLatestRow test pick f (eventsOf chain db) := by
  -- the rows of the chain hold all that the test is passed by
  have hown : (eventsOf chain db).filter test = (db.forkEvents.filter test).map unnumbered := by
    have hcomp : test ∘ unnumbered = test := funext hsame
    unfold eventsOf
    rw [List.filter_map, hcomp, List.filter_filter]
    refine congrArg (List.map unnumbered) (List.filter_congr fun r _ => ?_)
    cases hr : test r with
    | false => rfl
    | true => simp [htest r hr]
  unfold eventsOf
  rw [forkEvents_updateLatest h]
  unfold updateLatestRow
  rw [filter_modifyNth]
  · refine map_modifyNth (fun r => ?_) hf pick _
    change (test (unnumbered r) && ((eventsOf chain db).filter test).all _) = _
    rw [hsame, hown, List.all_map]
    rfl
  · intro r hr
    exact decide_eq_true (htest r (Bool.and_eq_true_iff.mp hr).1)
  · intro r
    rw [hchain]

/-- An update of another chain's row. -/
theorem eventsOf_updateLatest_of_ne {db : Database} (h : Numbered db) {chain : ChainName}
    {test : ForkEvent → Bool} {f : ForkEvent → ForkEvent}
    (htest : ∀ r, test r = true → r.chain ≠ chain) (hchain : ∀ r, (f r).chain = r.chain)
    (pick : Nat) : eventsOf chain (db.updateLatest test pick f) = eventsOf chain db := by
  unfold eventsOf
  rw [forkEvents_updateLatest h]
  unfold updateLatestRow
  rw [filter_modifyNth_of_apart]
  · intro r hr
    exact decide_eq_false (htest r (Bool.and_eq_true_iff.mp hr).1)
  · intro r
    rw [hchain]

/-- A row of the latest kind, where the statement is for the chain. -/
def updateOwn (chain c : ChainName) (test : ForkEvent → Bool) (pick : Nat)
    (f : ForkEvent → ForkEvent) (l : List ForkEvent) : List ForkEvent :=
  if c = chain then updateLatestRow test pick f l else l

theorem eventsOf_updateOwn {db : Database} (h : Numbered db) (chain c : ChainName)
    (test : ForkEvent → Bool) (f : ForkEvent → ForkEvent)
    (htest : ∀ r, test r = true → r.chain = c) (hsame : ∀ r, test (unnumbered r) = test r)
    (hf : ∀ r, f (unnumbered r) = unnumbered (f r)) (hchain : ∀ r, (f r).chain = r.chain)
    (pick : Nat) : eventsOf chain (db.updateLatest test pick f)
      = updateOwn chain c test pick f (eventsOf chain db) := by
  unfold updateOwn
  split
  · rename_i heq
    exact eventsOf_updateLatest h (fun r hr => (htest r hr).trans heq) hsame hf hchain pick
  · rename_i hne
    exact eventsOf_updateLatest_of_ne h (fun r hr heq => hne ((htest r hr).symm.trans heq))
      hchain pick

/-- What a statement makes of the rows of a chain. -/
def turnEvents (chain : ChainName) (s : Statement) (l : List ForkEvent) : List ForkEvent :=
  match s.query with
  | .insertForkEvent c row =>
      if c = chain then l ++ [{ row with id := 0, chain := c, detectedAt := s.now }] else l
  | .resolveForkEvent c blockNumber _ =>
      if c = chain then
        l.map fun r =>
          if r.blockNumber ≤ blockNumber ∧ r.resolved = false then
            { r with resolved := true, resolvedAt := some s.now }
          else r
      else l
  | .updateCause c height verdict pick =>
      updateOwn chain c (fun r => r.chain = c ∧ r.blockNumber = height ∧ r.cause = none) pick
        (writeCause verdict) l
  | .updateForkAuthors c height authors pick =>
      updateOwn chain c (fun r => r.chain = c ∧ r.blockNumber = height) pick
        (fun r => { r with authors }) l
  | .deleteForkEvents days => l.filter fun r => !outdated s.now days r.detectedAt
  | _ => l

theorem eventsOf_insertForkEvent (db : Database) (now : Int) (chain c : ChainName)
    (row : ForkEventRow) : eventsOf chain (db.insertForkEvent now c row)
      = if c = chain then
          eventsOf chain db ++ [{ row with id := 0, chain := c, detectedAt := now }]
        else eventsOf chain db := by
  unfold eventsOf insertForkEvent
  rw [List.filter_append, List.map_append]
  by_cases hc : c = chain
  · simp [hc, unnumbered]
  · simp [hc]

theorem eventsOf_resolveForkEvent (db : Database) (now : Int) (chain c : ChainName)
    (blockNumber : Nat) : eventsOf chain (db.resolveForkEvent now c blockNumber)
      = if c = chain then
          (eventsOf chain db).map fun r =>
            if r.blockNumber ≤ blockNumber ∧ r.resolved = false then
              { r with resolved := true, resolvedAt := some now }
            else r
        else eventsOf chain db := by
  unfold eventsOf resolveForkEvent
  rw [List.filter_map, List.map_map]
  have hchain : ((fun r : ForkEvent => decide (r.chain = chain)) ∘ fun r : ForkEvent =>
      if r.chain = c ∧ r.blockNumber ≤ blockNumber ∧ r.resolved = false then
        { r with resolved := true, resolvedAt := some now }
      else r) = fun r => decide (r.chain = chain) := by
    funext r
    rw [Function.comp_apply]
    split
    · rfl
    · rfl
  rw [hchain]
  by_cases hc : c = chain
  · rw [if_pos hc, List.map_map]
    refine List.map_congr_left fun r hr => ?_
    have hown : r.chain = c := (of_decide_eq_true (List.mem_filter.mp hr).2).trans hc.symm
    by_cases hopen : r.blockNumber ≤ blockNumber ∧ r.resolved = false
    · simp [unnumbered, hown, hopen]
    · rw [Function.comp_apply, if_neg fun hand => hopen hand.2]
      exact (if_neg hopen).symm
  · rw [if_neg hc]
    refine List.map_congr_left fun r hr => ?_
    have hown : r.chain = chain := of_decide_eq_true (List.mem_filter.mp hr).2
    rw [Function.comp_apply, if_neg fun hand => hc (hand.1.symm.trans hown)]

theorem unwinding_eventsOf (chain : ChainName) (ours : Hash → Bool) :
    Unwinding machine Numbered (concerns chain ours) (eventsOf chain) (turnEvents chain) where
  init := ⟨List.Pairwise.nil, fun _ hr => absurd hr List.not_mem_nil⟩
  keeps := fun _ s h => numbered_execute h s
  step := by
    intro db s h
    obtain ⟨now, query⟩ := s
    cases query with
    | insertForkEvent c row => exact eventsOf_insertForkEvent db now chain c row
    | resolveForkEvent c blockNumber hash =>
        exact eventsOf_resolveForkEvent db now chain c blockNumber
    | updateCause c height verdict pick =>
        refine eventsOf_updateOwn h chain c _ (writeCause verdict) ?_ (fun _ => rfl) (fun _ => rfl)
          (fun _ => rfl) pick
        exact fun r hr => (of_decide_eq_true hr).1
    | updateForkAuthors c height authors pick =>
        refine eventsOf_updateOwn h chain c _ (fun r => { r with authors }) ?_ (fun _ => rfl)
          (fun _ => rfl) (fun _ => rfl) pick
        exact fun r hr => (of_decide_eq_true hr).1
    | deleteForkEvents days =>
        change ((db.forkEvents.filter _).filter _).map unnumbered
          = (((db.forkEvents.filter _).map unnumbered).filter _)
        rw [List.filter_map, List.filter_comm]
        rfl
    | insertForkBlock | insertFinalityLog | insertSubmittedTx | insertResubmitAttempt
    | updateRelayParent | updateBlockAuthor | deleteForkBlocks | deleteFinalityLog
    | deleteSubmittedTxs | deleteResubmitAttempts => rfl
  quiet := by
    intro s l hquiet
    obtain ⟨now, query⟩ := s
    cases query with
    | insertForkEvent | resolveForkEvent | updateCause | updateForkAuthors =>
        exact if_neg (of_decide_eq_false hquiet)
    | deleteForkEvents => exact absurd hquiet (by simp [concerns])
    | _ => rfl

/-! ## `fork_blocks` -/

/-- The rows of a set of blocks. -/
def blocksOf (ours : Hash → Bool) (db : Database) (hash : Hash) : Option ForkBlock :=
  if ours hash then db.forkBlocks.get? hash else none

/-- What a statement makes of the rows of a set of blocks. -/
def turnBlocks (ours : Hash → Bool) (s : Statement) (rows : Hash → Option ForkBlock) (hash : Hash) :
    Option ForkBlock :=
  if ours hash then
    match rows hash with
    | none => insertsBlock hash s
    | some r => turnBlock hash s r
  else rows hash

/-- A statement about other blocks. -/
theorem turnBlocks_quiet {chain : ChainName} {ours : Hash → Bool} {s : Statement}
    (hquiet : concerns chain ours s = false) (rows : Hash → Option ForkBlock) :
    turnBlocks ours s rows = rows := by
  funext hash
  unfold turnBlocks
  cases hours : ours hash with
  | false => rfl
  | true =>
      have hapart : ∀ h, ours h = false → ¬ h = hash := by
        intro h hh heq
        rw [heq, hours] at hh
        exact Bool.noConfusion hh
      have hrow : insertsBlock hash s = none → turnBlock hash s = some →
          (match rows hash with
            | none => insertsBlock hash s
            | some r => turnBlock hash s r) = rows hash := by
        intro hinserts hturn
        rw [hinserts, hturn]
        cases rows hash <;> rfl
      obtain ⟨now, query⟩ := s
      cases query with
      | insertForkBlock c row =>
          have hother := hapart row.blockHash hquiet
          exact hrow (if_neg hother) (turnBlock_quiet (if_neg hother) rfl rfl fun _ => rfl)
      | updateRelayParent h relayParent =>
          exact hrow rfl (turnBlock_quiet rfl rfl (if_neg (hapart h hquiet)) fun _ => rfl)
      | updateBlockAuthor h author authorName =>
          exact hrow rfl (turnBlock_quiet rfl (if_neg (hapart h hquiet)) rfl fun _ => rfl)
      | deleteForkBlocks => exact absurd hquiet (by simp [concerns])
      | _ => exact hrow rfl (turnBlock_quiet rfl rfl rfl fun _ => rfl)

theorem unwinding_blocksOf (chain : ChainName) (ours : Hash → Bool) :
    Unwinding machine (fun _ => True) (concerns chain ours) (blocksOf ours) (turnBlocks ours) where
  init := trivial
  keeps := fun _ _ _ => trivial
  step := by
    intro db s _
    funext hash
    unfold turnBlocks blocksOf
    cases ours hash with
    | false => rfl
    | true => exact get?_execute db s hash
  quiet := fun _ rows hquiet => turnBlocks_quiet hquiet rows

/-! ## The other tables -/

section Logs

variable {α : Type} {inserts : Statement → List (LogEntry α)} {cleans : Statement → Option Int}
  {table : Database → List (LogEntry α)}

/-- The rows of a chain, in order. -/
def entriesOf (chain : ChainName) (l : List (LogEntry α)) : List (LogEntry α) :=
  l.filter fun r => r.chain = chain

theorem entriesOf_of_ne {chain c : ChainName} (hne : ¬ c = chain) {time : Int} {row : α} :
    entriesOf chain [⟨c, time, row⟩] = [] :=
  List.filter_cons_of_neg fun heq => hne (of_decide_eq_true heq)

/-- What a statement makes of the rows of a chain. -/
def turnEntries (inserts : Statement → List (LogEntry α)) (cleans : Statement → Option Int)
    (chain : ChainName) (s : Statement) (l : List (LogEntry α)) : List (LogEntry α) :=
  turned (fun s => entriesOf chain (inserts s)) cleans s l

theorem unwinding_entriesOf {chain : ChainName} {ours : Hash → Bool}
    (hstep : ∀ db s, table (db.execute s) = turned inserts cleans s (table db))
    (hinserts : ∀ s, concerns chain ours s = false → entriesOf chain (inserts s) = [])
    (hcleans : ∀ s, concerns chain ours s = false → cleans s = none) :
    Unwinding machine (fun _ => True) (concerns chain ours) (fun db => entriesOf chain (table db))
      (turnEntries inserts cleans chain) where
  init := trivial
  keeps := fun _ _ _ => trivial
  step := by
    intro db s _
    change entriesOf chain (table (db.execute s)) = _
    rw [hstep]
    unfold turnEntries turned entriesOf
    rw [List.filter_append, List.filter_comm]
  quiet := fun s l hquiet => (turned_quiet rfl (hinserts s hquiet) (hcleans s hquiet)).symm

end Logs

/-- What a chain can see of the database. -/
structure Isolated (chain : ChainName) (ours : Hash → Bool) (db db' : Database) : Prop where
  forkEvents : eventsOf chain db = eventsOf chain db'
  forkBlocks : ∀ hash, ours hash = true → db.forkBlocks.get? hash = db'.forkBlocks.get? hash
  finalityLog : entriesOf chain db.finalityLog = entriesOf chain db'.finalityLog
  submittedTxs : entriesOf chain db.submittedTxs = entriesOf chain db'.submittedTxs
  resubmitAttempts : entriesOf chain db.resubmitAttempts = entriesOf chain db'.resubmitAttempts

/-- **A chain cannot tell what the others send.** -/
theorem chains_isolated (chain : ChainName) (ours : Hash → Bool) (evs : List Statement) :
    Isolated chain ours (machine.run evs) (machine.run (evs.filter (concerns chain ours))) where
  forkEvents := (unwinding_eventsOf chain ours).view_run evs
  forkBlocks := by
    intro hash hours
    have hview := congrFun ((unwinding_blocksOf chain ours).view_run evs) hash
    unfold blocksOf at hview
    rw [if_pos hours, if_pos hours] at hview
    exact hview
  finalityLog := by
    refine (unwinding_entriesOf (fun db s => (logs_execute db s).finalityLog) ?_ ?_).view_run evs
    -- an insertion of another chain adds no row of this one
    · intro s hquiet
      obtain ⟨now, query⟩ := s
      cases query with
      | insertFinalityLog => exact entriesOf_of_ne (of_decide_eq_false hquiet)
      | _ => rfl
    · intro s hquiet
      obtain ⟨now, query⟩ := s
      cases query with
      | deleteFinalityLog => exact absurd hquiet (by simp [concerns])
      | _ => rfl
  submittedTxs := by
    refine (unwinding_entriesOf (fun db s => (logs_execute db s).submittedTxs) ?_ ?_).view_run evs
    · intro s hquiet
      obtain ⟨now, query⟩ := s
      cases query with
      | insertSubmittedTx => exact entriesOf_of_ne (of_decide_eq_false hquiet)
      | _ => rfl
    · intro s hquiet
      obtain ⟨now, query⟩ := s
      cases query with
      | deleteSubmittedTxs => exact absurd hquiet (by simp [concerns])
      | _ => rfl
  resubmitAttempts := by
    refine (unwinding_entriesOf (fun db s => (logs_execute db s).resubmitAttempts) ?_ ?_).view_run
      evs
    · intro s hquiet
      obtain ⟨now, query⟩ := s
      cases query with
      | insertResubmitAttempt c row =>
          change entriesOf chain ((resubmitAttemptRow row).map _).toList = []
          cases resubmitAttemptRow row with
          | none => rfl
          | some attempt => exact entriesOf_of_ne (of_decide_eq_false hquiet)
      | _ => rfl
    · intro s hquiet
      obtain ⟨now, query⟩ := s
      cases query with
      | deleteResubmitAttempts => exact absurd hquiet (by simp [concerns])
      | _ => rfl

end ForkWatch.Proof
