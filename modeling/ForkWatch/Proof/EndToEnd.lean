import ForkWatch.Chain.Program
import ForkWatch.Proof.BlockTable
import ForkWatch.Proof.EventTable
import ForkWatch.Proof.LogTables
import ForkWatch.Proof.Provenance

/-!
# From the nodes to the database

What the database holds of a chain was shown to that chain, by a subscription that was
live: two blocks or more at the height of every row of `fork_events`, a finalized head at
or above it once the row is resolved, a header for every row of `fork_blocks` and for
each node it names, both heads of every sample of the finality log, and the transaction of
every row of `submitted_txs` (`provenance`).

A statement says what its chain reported, from when it is issued until it takes effect,
whatever else happens in between and whatever chain it is that comes first.
-/

namespace ForkWatch.Proof

open Lib

/-! ## One chain -/

section Chain

variable {S : Shown}

/-- The finality tracker knows heads that were shown, and has logged such. -/
structure FinalityShown (S : Shown) (t : FinalityTracker) : Prop where
  best : ∀ node n, t.bestHeads.get? node = some n → S.best node n
  finalized : ∀ node F, t.finalizedHeads.get? node = some F → ∃ x, S.finalized node F x
  rows : ∀ now row, .insertFinalityLog now row ∈ t.history →
    S.best row.node row.bestHeight ∧ ∃ x, S.finalized row.node row.finalizedHeight x

theorem finalityShown_emit {t : FinalityTracker} (h : FinalityShown S t) {r : FinalityReport}
    (hr : ∀ now row, r = .insertFinalityLog now row →
      S.best row.node row.bestHeight ∧ ∃ x, S.finalized row.node row.finalizedHeight x) :
    FinalityShown S (t.emit r) where
  best := h.best
  finalized := h.finalized
  rows := by
    intro now row hrow
    rcases List.mem_append.mp hrow with hrow | hrow
    · exact h.rows now row hrow
    · exact hr now row (List.mem_singleton.mp hrow).symm

theorem finalityShown_updateLag {t : FinalityTracker} (h : FinalityShown S t) (node : NodeName) :
    FinalityShown S (t.updateLag node) := by
  unfold FinalityTracker.updateLag
  split
  · exact finalityShown_emit h (by simp)
  · exact h

theorem finalityShown_onBestHead {t : FinalityTracker} (h : FinalityShown S t) {node : NodeName}
    {n : Nat} (hn : S.best node n) : FinalityShown S (t.onBestHead node n) := by
  have hset : FinalityShown S { t with bestHeads := t.bestHeads.set node n } := by
    refine ⟨fun node' n' hget => ?_, h.finalized, h.rows⟩
    rw [OrdMap.get?_set] at hget
    split at hget
    · rename_i heq
      rw [heq, ← Option.some.inj hget]
      exact hn
    · exact h.best node' n' hget
  exact finalityShown_updateLag (finalityShown_emit hset (by simp)) node

theorem finalityShown_sample {t : FinalityTracker} (h : FinalityShown S t) (node : NodeName)
    (now : Int) : FinalityShown S (t.maybeSampleFinalityLog node now) := by
  unfold FinalityTracker.maybeSampleFinalityLog
  split
  · exact h
  · dsimp only
    have hnoted : FinalityShown S { t with lastLogTime := t.lastLogTime.set node now } :=
      ⟨h.best, h.finalized, h.rows⟩
    split
    · rename_i best finalized hbest hfinalized
      refine finalityShown_emit hnoted fun now' row heq => ?_
      obtain ⟨-, rfl⟩ := FinalityReport.insertFinalityLog.inj heq
      exact ⟨h.best node best hbest, h.finalized node finalized hfinalized⟩
    · exact hnoted

theorem finalityShown_onFinalizedHead {t : FinalityTracker} (h : FinalityShown S t)
    {node : NodeName} {F : Nat} {x : Hash} (hF : S.finalized node F x) (now : Int) :
    FinalityShown S (t.onFinalizedHead node F now) := by
  have hset : FinalityShown S { t with finalizedHeads := t.finalizedHeads.set node F } := by
    refine ⟨h.best, fun node' F' hget => ?_, h.rows⟩
    rw [OrdMap.get?_set] at hget
    split at hget
    · rename_i heq
      rw [heq, ← Option.some.inj hget]
      exact ⟨x, hF⟩
    · exact h.finalized node' F' hget
  exact finalityShown_sample (finalityShown_updateLag (finalityShown_emit hset (by simp)) node) node
    now

structure MonitorShown (S : Shown) (m : ChainMonitor) : Prop where
  chain : ChainShown S m.ctx
  finality : FinalityShown S m.finalityTracker

/-- An event shows a chain nothing beyond the account; heads count if they are heard. -/
def Shown.Covers (S : Shown) (m : ChainMonitor) (e : MonitorEvent) : Prop :=
  match e.what with
  | .allHeads place header => ∀ node, m.hears place .allHeads = some node → S.header node header
  | .newHeads place number => ∀ node, m.hears place .newHeads = some node → S.best node number
  | .finalizedHeads place _ header => ∀ node, m.hears place .finalizedHeads = some node →
      S.finalized node header.number header.hash
  | .pollAnswered call answer => ∀ node, m.polled.calls[call]? = some node →
      Supplies S.tx m.ctx (.poll node answer)
  | .handler (.resume i a) => Supplies S.tx m.ctx (.resume i a)
  | _ => True

/-- An event that is no head. -/
theorem Shown.admits_of_supplies {c : ChainContext} {e : Event}
    (hheads : ∀ node header, e ≠ .allHeads node header)
    (hfinal : ∀ node F x, e ≠ .finalizedHeads node F x) (htx : Supplies S.tx c e) :
    S.Admits c e where
  header := fun node header heq => absurd heq (hheads node header)
  finalized := fun node F x heq => absurd heq (hfinal node F x)
  tx := htx

theorem monitorShown_chainEvent {m : ChainMonitor} (h : MonitorShown S m) {e : Event}
    (he : S.Admits m.ctx e) : MonitorShown S (m.chainEvent e) := by
  refine ⟨?_, h.finality⟩
  cases e with
  | poll => exact h.chain
  | _ => exact chainShown_step h.chain he

theorem monitorShown_onHandler {m : ChainMonitor} (h : MonitorShown S m) {e : Event}
    (he : ∀ i a, e = .resume i a → Supplies S.tx m.ctx (.resume i a)) :
    MonitorShown S (m.onHandler e) := by
  cases e with
  | resume i a =>
      exact monitorShown_chainEvent h (S.admits_of_supplies (by simp) (by simp) (he i a rfl))
  | retryTick => exact monitorShown_chainEvent h (S.admits_of_supplies (by simp) (by simp) trivial)
  | resubmitSettled =>
      exact monitorShown_chainEvent h (S.admits_of_supplies (by simp) (by simp) trivial)
  | identities =>
      exact monitorShown_chainEvent h (S.admits_of_supplies (by simp) (by simp) trivial)
  | allHeads | finalizedHeads | poll | connections | setupCausation => exact h

/-- Which nodes are asked has no part in it. -/
theorem chainShown_unsupported {c : ChainContext} (h : ChainShown S c) (nodes : OrdSet NodeName) :
    ChainShown S { c with txTracker := { c.txTracker with unsupportedNodes := nodes } } where
  treeInv := h.treeInv
  detached := h.detached
  records := h.records
  tasks := h.tasks
  reports := h.reports
  sourced :=
    ⟨h.sourced.bodies, h.sourced.queue, h.sourced.pool, h.sourced.candidates, h.sourced.loops⟩
  txs := h.txs

theorem chainShown_tick {p : PolledChain} (h : ChainShown S p.ctx) (now : Int)
    (connections : List PollConnection) : ChainShown S (p.tick now connections).ctx := by
  have hrecheck : ChainShown S (p.recheck now).ctx := by
    unfold PolledChain.recheck
    split
    · exact h
    · split
      · exact chainShown_unsupported h ∅
      · exact h
  unfold PolledChain.tick
  dsimp only
  split
  · split
    · exact hrecheck
    · exact hrecheck
  · exact hrecheck

theorem chainShown_answer {p : PolledChain} (h : ChainShown S p.ctx) {call : Nat}
    {answer : Option (List Extrinsic)} (he : ∀ node, p.calls[call]? = some node →
      Supplies S.tx p.ctx (.poll node answer)) : ChainShown S (p.answer call answer).ctx := by
  unfold PolledChain.answer
  split
  · exact h
  · rename_i node hnode
    have hadmits : S.Admits p.ctx (.poll node answer) :=
      S.admits_of_supplies (by simp) (by simp) (he node hnode)
    exact chainShown_step h hadmits

/-- **A chain goes on holding what was shown to it.** -/
theorem monitorShown_happen {m : ChainMonitor} (h : MonitorShown S m) {e : MonitorEvent}
    (he : S.Covers m e) : MonitorShown S (m.happen e.now e.up e.what) := by
  unfold Shown.Covers at he
  cases hwhat : e.what with
  | connection e =>
      cases e with
      | _ => exact ⟨h.chain, h.finality⟩
  | allHeads place header =>
      rw [hwhat] at he
      change MonitorShown S (m.onAllHeads e.now place header)
      unfold ChainMonitor.onAllHeads
      split
      · exact h
      · rename_i node hhears
        have hadmits : S.Admits m.ctx (.allHeads node header) :=
          ⟨fun node' header' heq => by
            obtain ⟨rfl, rfl⟩ := Event.allHeads.inj heq
            exact he node hhears, by simp, trivial⟩
        have hstep := chainShown_step h.chain hadmits
        unfold ChainMonitor.noteDetection
        split
        · exact ⟨hstep, h.finality⟩
        · exact ⟨hstep, h.finality⟩
  | newHeads place number =>
      rw [hwhat] at he
      change MonitorShown S (m.onNewHeads place number)
      unfold ChainMonitor.onNewHeads
      split
      · exact h
      · rename_i node hhears
        exact ⟨h.chain, finalityShown_onBestHead h.finality (he node hhears)⟩
  | finalizedHeads place api header =>
      rw [hwhat] at he
      change MonitorShown S (m.onFinalizedHeads e.now place api header)
      unfold ChainMonitor.onFinalizedHeads
      split
      · exact h
      · rename_i node hhears
        have hfinal := he node hhears
        have hadmits : S.Admits m.ctx (.finalizedHeads node header.number header.hash) :=
          ⟨by simp, fun node' F x heq => by
            obtain ⟨rfl, rfl, rfl⟩ := Event.finalizedHeads.inj heq
            exact hfinal, trivial⟩
        exact ⟨chainShown_step h.chain hadmits, finalityShown_onFinalizedHead h.finality hfinal _⟩
  | handler e =>
      refine monitorShown_onHandler h fun i a heq => ?_
      rw [hwhat, heq] at he
      exact he
  | pollTick => exact ⟨chainShown_tick h.chain _ _, h.finality⟩
  | pollAnswered call answer =>
      rw [hwhat] at he
      exact ⟨chainShown_answer h.chain he, h.finality⟩
  | slotTurn =>
      change MonitorShown S m.slotTurn
      unfold ChainMonitor.slotTurn
      split
      · exact ⟨h.chain, h.finality⟩
      · exact h
  | authorities l => exact ⟨h.chain, h.finality⟩

theorem monitorShown_step {m : ChainMonitor} (h : MonitorShown S m) {e : MonitorEvent}
    (he : S.Covers m e) : MonitorShown S (m.step e) := by
  have hconnected : S.Admits m.ctx (.connections (m.connectedNodes e.up)) :=
    S.admits_of_supplies (by simp) (by simp) trivial
  exact monitorShown_happen (monitorShown_chainEvent h hconnected) he

theorem monitorShown_init (config : MonitorConfig) :
    MonitorShown S (ChainMonitor.machine config).init where
  chain := chainShown_init config.chain config.opts
  finality := by
    refine ⟨?_, ?_, ?_⟩
    · exact fun _ _ hget => absurd hget (by simp [ChainMonitor.machine, FinalityTracker.machine])
    · exact fun _ _ hget => absurd hget (by simp [ChainMonitor.machine, FinalityTracker.machine])
    · exact fun _ _ hrow => absurd hrow (by simp [ChainMonitor.machine, FinalityTracker.machine])

end Chain

/-! ## Statements -/

/-- What a statement says was shown to its chain. -/
def QueryShown (S : ChainName → Shown) : Query → Prop
  | .insertForkBlock name row => BlockShown (S name) row
  | .insertForkEvent name row => EventShown (S name) row
  | .resolveForkEvent name F x => ∃ node, (S name).finalized node F x
  | .insertFinalityLog name row =>
      (S name).best row.node row.bestHeight ∧ ∃ x, (S name).finalized row.node row.finalizedHeight x
  | .insertSubmittedTx name row => TxShown (S name) (.submitted row)
  | _ => True

variable {S : ChainName → Shown}

theorem queryShown_picking {q : Query} (h : QueryShown S q) (pick : Nat) :
    QueryShown S (q.picking pick) := by
  cases q with
  | _ => exact h

/-- The updates of authors and relay parents say nothing of this kind. -/
theorem queryShown_reportQueries {name : ChainName} {c : ChainContext} {r : Report}
    (h : ReportShown (S name) r) : ∀ q ∈ reportQueries name c r, QueryShown S q := by
  intro q hq
  cases r with
  | insertForkBlock row =>
      rw [List.mem_singleton.mp hq]
      exact h
  | insertForkEvent row =>
      rw [List.mem_singleton.mp hq]
      exact h
  | resolveForkEvent height hash =>
      rw [List.mem_singleton.mp hq]
      exact h
  | forkCause height blocks verdict =>
      rcases List.mem_cons.mp hq with rfl | hq
      · trivial
      · unfold relayParentQueries at hq
        split at hq
        · obtain ⟨e, -, he⟩ := List.mem_filterMap.mp hq
          obtain ⟨rp, -, rfl⟩ := Option.map_eq_some_iff.mp he
          trivial
        · exact absurd hq (by simp)
  | _ => exact absurd hq (by simp [reportQueries])

theorem queryShown_authorQueries (name : ChainName) (c c' : ChainContext) (e : Event) :
    ∀ q ∈ authorQueries name c c' e, QueryShown S q := by
  intro q hq
  unfold authorQueries at hq
  split at hq
  · split at hq
    · unfold updateForkAuthorsQueries at hq
      split at hq
      · exact absurd hq (by simp)
      · rcases List.mem_cons.mp hq with rfl | hq
        · trivial
        · obtain ⟨b, -, hb⟩ := List.mem_filterMap.mp hq
          obtain ⟨author, -, rfl⟩ := Option.map_eq_some_iff.mp hb
          trivial
    · exact absurd hq (by simp)
  · exact absurd hq (by simp)

/-- **All that a step issues was shown.** -/
theorem queryShown_issued {name : ChainName} {m : ChainMonitor} {e : MonitorEvent}
    (h : MonitorShown (S name) (m.step e)) : ∀ q ∈ issued name m e, QueryShown S q := by
  intro q hq
  unfold issued at hq
  rcases List.mem_append.mp hq with hq | hq
  · rcases List.mem_append.mp hq with hq | hq
    · rcases List.mem_append.mp hq with hq | hq
      · obtain ⟨r, hr, hq⟩ := List.mem_flatMap.mp hq
        have hin := List.mem_of_mem_drop hr
        cases r with
        | insertFinalityLog now row =>
            rw [List.mem_singleton.mp hq]
            exact h.finality.rows now row hin
        | _ => exact absurd hq (by simp [finalityQueries])
      · obtain ⟨r, hr, hq⟩ := List.mem_flatMap.mp hq
        exact queryShown_reportQueries (h.chain.reports r (List.mem_of_mem_drop hr)) q hq
    · obtain ⟨r, hr, hq⟩ := List.mem_flatMap.mp hq
      have hshown := h.chain.txs r (List.mem_of_mem_drop hr)
      cases r with
      | submitted row =>
          rw [List.mem_singleton.mp hq]
          exact hshown
      | resubmitAttempt row =>
          rw [List.mem_singleton.mp hq]
          trivial
      | _ => exact absurd hq (by simp [txQueries])
  · split at hq
    · exact queryShown_authorQueries name _ _ _ q hq
    · exact absurd hq (by simp)

/-! ## Rows -/

/-- A row of `fork_blocks`; a hash that chains share may have been seen on any of them. -/
structure ForkBlockShown (S : ChainName → Shown) (hash : Hash) (r : ForkBlock) : Prop where
  key : r.blockHash = hash
  header : HeaderShown (S r.chain) r.toForkBlockRow
  seenBy : ∀ node ∈ r.seenBy, ∃ name header, (S name).header node header ∧ header.hash = hash

/-- A row of `fork_events`, verdict and authors apart. -/
structure ForkEventShown (S : ChainName → Shown) (r : ForkEventCore) : Prop where
  event : EventShown (S r.chain) ⟨r.blockNumber, r.competingCount, [], r.depth⟩
  resolved : r.resolved = true →
    ∃ node F x, (S r.chain).finalized node F x ∧ r.blockNumber ≤ F

/-- All rows of the database were shown. -/
structure RowsShown (S : ChainName → Shown) (db : Database) : Prop where
  forkEvents : ∀ r ∈ db.forkEvents.map core, ForkEventShown S r
  forkBlocks : ∀ hash r, db.forkBlocks.get? hash = some r → ForkBlockShown S hash r
  finalityLog : ∀ r ∈ db.finalityLog, QueryShown S (.insertFinalityLog r.chain r.row)
  submittedTxs : ∀ r ∈ db.submittedTxs, QueryShown S (.insertSubmittedTx r.chain r.row)

theorem forkEventShown_turn {s : Statement} (hs : QueryShown S s.query) {r r' : ForkEventCore}
    (hr : ForkEventShown S r) (hturn : turnEvent s r = some r') : ForkEventShown S r' := by
  unfold turnEvent resolveCore at hturn
  split at hturn
  · exact absurd hturn (by simp)
  · obtain rfl := Option.some.inj hturn
    split
    · exact hr
    · split
      · exact hr
      · rename_i now hresolves
        refine ⟨hr.event, fun _ => ?_⟩
        unfold resolves at hresolves
        split at hresolves
        · rename_i c blockNumber hash hquery
          split at hresolves
          · rename_i hmatch
            rw [hquery] at hs
            obtain ⟨rfl, hheight⟩ := hmatch
            obtain ⟨node, hfinal⟩ := hs
            exact ⟨node, blockNumber, hash, hfinal, hheight⟩
          · exact absurd hresolves (by simp)
        · exact absurd hresolves (by simp)

theorem forkEventShown_new {s : Statement} (hs : QueryShown S s.query) {r : ForkEventCore}
    (hr : r ∈ newEvent s) : ForkEventShown S r := by
  unfold newEvent at hr
  split at hr
  · rename_i chain row hquery
    rw [hquery] at hs
    rw [List.mem_singleton.mp hr]
    exact ⟨hs, by simp⟩
  · exact absurd hr (by simp)

theorem forkBlockShown_new {s : Statement} (hs : QueryShown S s.query) {hash : Hash} {r : ForkBlock}
    (hr : insertsBlock hash s = some r) : ForkBlockShown S hash r := by
  unfold insertsBlock at hr
  split at hr
  · rename_i chain row hquery
    rw [hquery] at hs
    split at hr
    · rename_i hhash
      obtain rfl := Option.some.inj hr
      refine ⟨hhash, hs.header, fun node hnode => ?_⟩
      obtain ⟨header, hheader, hsame⟩ := hs.seenBy.2 node hnode
      exact ⟨chain, header, hheader, hsame.trans hhash⟩
    · exact absurd hr (by simp)
  · exact absurd hr (by simp)

theorem forkBlockShown_turn {s : Statement} (hs : QueryShown S s.query) {hash : Hash}
    {r r' : ForkBlock} (hr : ForkBlockShown S hash r) (hturn : turnBlock hash s r = some r') :
    ForkBlockShown S hash r' := by
  unfold turnBlock at hturn
  split at hturn
  · exact absurd hturn (by simp)
  · obtain rfl := Option.some.inj hturn
    refine ⟨hr.key, hr.header, fun node hnode => ?_⟩
    rcases List.mem_append.mp hnode with hnode | hnode
    · exact hr.seenBy node hnode
    · unfold seenOf at hnode
      split at hnode
      · rename_i chain row hquery
        rw [hquery] at hs
        split at hnode
        · rename_i hhash
          obtain ⟨header, hheader, hsame⟩ := hs.seenBy.2 node hnode
          exact ⟨chain, header, hheader, hsame.trans hhash⟩
        · exact absurd hnode (by simp)
      · exact absurd hnode (by simp)

theorem rowsShown_execute {db : Database} (h : RowsShown S db) {s : Statement}
    (hs : QueryShown S s.query) : RowsShown S (db.execute s) where
  forkEvents := by
    rw [core_execute]
    intro r hr
    rcases List.mem_append.mp hr with hr | hr
    · obtain ⟨r₀, hr₀, hturn⟩ := List.mem_filterMap.mp hr
      exact forkEventShown_turn hs (h.forkEvents r₀ hr₀) hturn
    · exact forkEventShown_new hs hr
  forkBlocks := by
    intro hash r hr
    rw [get?_execute] at hr
    split at hr
    · exact forkBlockShown_new hs hr
    · rename_i r₀ hr₀
      exact forkBlockShown_turn hs (h.forkBlocks hash r₀ hr₀) hr
  finalityLog := by
    rw [(logs_execute db s).finalityLog]
    intro r hr
    rcases List.mem_append.mp hr with hr | hr
    · exact h.finalityLog r (List.mem_filter.mp hr).1
    · unfold insertsFinality at hr
      split at hr
      · rename_i chain row hquery
        rw [hquery] at hs
        rw [List.mem_singleton.mp hr]
        exact hs
      · exact absurd hr (by simp)
  submittedTxs := by
    rw [(logs_execute db s).submittedTxs]
    intro r hr
    rcases List.mem_append.mp hr with hr | hr
    · exact h.submittedTxs r (List.mem_filter.mp hr).1
    · unfold insertsTx at hr
      split at hr
      · rename_i chain row hquery
        rw [hquery] at hs
        rw [List.mem_singleton.mp hr]
        exact hs
      · exact absurd hr (by simp)

/-! ## The program -/

/-- Chains, statements in flight and rows: all of it was shown. -/
structure ProgramShown (S : ChainName → Shown) (p : Program) : Prop where
  chains : ∀ name m, p.chains.get? name = some m → MonitorShown (S name) m
  inFlight : ∀ q ∈ p.inFlight, QueryShown S q
  db : RowsShown S p.db

/-- What an event shows to a chain goes into its account. -/
def CoversProgram (S : ChainName → Shown) (p : Program) : ProgramEvent → Prop
  | .chain name e => ∀ m, p.chains.get? name = some m → (S name).Covers m e
  | _ => True

theorem programShown_onChain {p : Program} (h : ProgramShown S p) {name : ChainName}
    {e : MonitorEvent} (he : CoversProgram S p (.chain name e)) :
    ProgramShown S (p.onChain name e) := by
  unfold Program.onChain
  cases hget : p.chains.get? name with
  | none => exact h
  | some m =>
      have hstep := monitorShown_step (h.chains name m hget) (he m hget)
      refine ⟨?_, ?_, h.db⟩
      · intro name' m' hget'
        dsimp only at hget'
        rw [OrdMap.get?_set] at hget'
        split at hget'
        · rename_i heq
          rw [heq, ← Option.some.inj hget']
          exact hstep
        · exact h.chains name' m' hget'
      · intro q hq
        rcases List.mem_append.mp hq with hq | hq
        · exact h.inFlight q hq
        · exact queryShown_issued hstep q hq

theorem programShown_step {p : Program} (h : ProgramShown S p) {e : ProgramEvent}
    (he : CoversProgram S p e) : ProgramShown S (p.step e) := by
  cases e with
  | chain name e => exact programShown_onChain h he
  | setupCausation =>
      refine ⟨?_, h.inFlight, h.db⟩
      change ∀ name m, (p.chains.keys.foldl _ p.chains).get? name = some m → _
      refine List.foldlRecOn (motive := fun chains : OrdMap ChainName ChainMonitor =>
        ∀ name m, chains.get? name = some m → MonitorShown (S name) m) _ _ h.chains ?_
      intro chains hchains name' _ name m hget
      rw [OrdMap.get?_modify] at hget
      split at hget
      · rename_i heq
        obtain ⟨m₀, hget₀, rfl⟩ := Option.map_eq_some_iff.mp hget
        have hm₀ := hchains name m₀ hget₀
        have hhook : (S name).Admits m₀.ctx .setupCausation :=
          Shown.admits_of_supplies (by simp) (by simp) trivial
        split
        · exact monitorShown_chainEvent hm₀ hhook
        · exact hm₀
      · exact hchains name m hget
  | takesEffect k now pick =>
      rcases p.takesEffect_cases k now pick with heq | ⟨q, hq, heq⟩
      · rw [heq]
        exact h
      · have hshown := queryShown_picking (h.inFlight q (List.mem_of_getElem? hq)) pick
        rw [heq]
        exact ⟨h.chains, fun q' hq' => h.inFlight q' (List.mem_of_mem_eraseIdx hq'),
          rowsShown_execute h.db hshown⟩
  | fails k => exact ⟨h.chains, fun q hq => h.inFlight q (List.mem_of_mem_eraseIdx hq), h.db⟩
  | cleanup now cleanup =>
      refine ⟨h.chains, h.inFlight, rowsShown_execute h.db ?_⟩
      cases cleanup with
      | _ => trivial

theorem programShown_init (config : ProgramConfig) :
    ProgramShown S (Program.machine config).init where
  chains := by
    intro name m hget
    obtain ⟨e, -, he⟩ := List.mem_map.mp (OrdMap.mem_of_get?_ofList hget)
    rw [← (Prod.mk.inj he).2]
    exact monitorShown_init e.2
  inFlight := fun _ hq => absurd hq (by simp [Program.machine])
  db := by
    refine ⟨?_, ?_, ?_, ?_⟩
    · exact fun _ hr => absurd hr (by simp [Program.machine])
    · exact fun _ _ hr => absurd hr (by simp [Program.machine])
    · exact fun _ hr => absurd hr (by simp [Program.machine])
    · exact fun _ hr => absurd hr (by simp [Program.machine])

/-- At some point of the run this happened to a chain, as it was by then. -/
def Happened (config : ProgramConfig) (evs : List ProgramEvent) (name : ChainName)
    (P : ChainMonitor → Happening → Prop) : Prop :=
  ∃ pre e post m, evs = pre ++ .chain name e :: post ∧
    ((Program.machine config).run pre).chains.get? name = some m ∧ P m e.what

/-- The transaction is in a pending pool, or in a block body, that arrives. -/
def ShowsTx (m : ChainMonitor) (what : Happening) (tx : Tx) : Prop :=
  ∃ body k, tx ∈ extractTrackedExtrinsics body k ∧
    ((∃ call node, what = .pollAnswered call (some body) ∧ m.polled.calls[call]? = some node) ∨
      ∃ i x, what = .handler (.resume i (.body (some body))) ∧
        m.ctx.tasks[i]? = some (.getBlock x k))

/-- What the nodes of a chain have shown by heads that were heard and calls that were answered. -/
def heard (config : ProgramConfig) (evs : List ProgramEvent) (name : ChainName) : Shown where
  header := fun node header => Happened config evs name fun m what =>
    ∃ place, what = .allHeads place header ∧ m.hears place .allHeads = some node
  best := fun node n => Happened config evs name fun m what =>
    ∃ place, what = .newHeads place n ∧ m.hears place .newHeads = some node
  finalized := fun node F x => Happened config evs name fun m what =>
    ∃ place api header, what = .finalizedHeads place api header ∧
      m.hears place .finalizedHeads = some node ∧ header.number = F ∧ header.hash = x
  tx := fun tx => Happened config evs name fun m what => ShowsTx m what tx

/-- The account of a run covers its events. -/
theorem covers_heard {config : ProgramConfig} {evs pre post : List ProgramEvent} {e : ProgramEvent}
    (hevs : evs = pre ++ e :: post) :
    CoversProgram (heard config evs) ((Program.machine config).run pre) e := by
  cases e with
  | chain name e =>
      intro m hget
      have hhappened : ∀ P : ChainMonitor → Happening → Prop, P m e.what →
          Happened config evs name P := fun P hP => ⟨pre, e, post, m, hevs, hget, hP⟩
      -- what an event shows is shown at this place of the run
      unfold Shown.Covers
      split
      · rename_i place header hwhat
        intro node hhears
        exact hhappened (fun m what => ∃ place, what = .allHeads place header ∧
          m.hears place .allHeads = some node) ⟨place, hwhat, hhears⟩
      · rename_i place number hwhat
        intro node hhears
        exact hhappened (fun m what => ∃ place, what = .newHeads place number ∧
          m.hears place .newHeads = some node) ⟨place, hwhat, hhears⟩
      · rename_i place api header hwhat
        intro node hhears
        exact hhappened (fun m what => ∃ place api header',
          what = .finalizedHeads place api header' ∧ m.hears place .finalizedHeads = some node ∧
          header'.number = header.number ∧ header'.hash = header.hash)
          ⟨place, api, header, hwhat, hhears, rfl, rfl⟩
      · rename_i call answer hwhat
        intro node hcall
        cases answer with
        | none => trivial
        | some raw =>
            intro tx htx
            exact hhappened (fun m what => ShowsTx m what tx)
              ⟨raw, _, htx, Or.inl ⟨call, node, hwhat, hcall⟩⟩
      · rename_i i a hwhat
        cases a with
        | body block =>
            cases block with
            | none => trivial
            | some body =>
                intro x n hti tx htx
                exact hhappened (fun m what => ShowsTx m what tx)
                  ⟨body, n, htx, Or.inr ⟨i, x, hwhat, hti⟩⟩
        | _ => trivial
      · trivial
  | _ => trivial

/-- What the rows of the database go back to. -/
structure Provenance (heard : ChainName → Shown) (db : Database) : Prop where
  /-- As many blocks of the height were shown to the chain as the row counts, two at least. -/
  forkEvents : ∀ r ∈ db.forkEvents, EventShown (heard r.chain) r.toForkEventRow
  /-- A resolved fork lies at or below a finalized head. -/
  resolved : ∀ r ∈ db.forkEvents, r.resolved = true →
    ∃ node F x, (heard r.chain).finalized node F x ∧ r.blockNumber ≤ F
  forkBlocks : ∀ hash r, db.forkBlocks.get? hash = some r → ForkBlockShown heard hash r
  /-- Both heads of a sample were heard from its node. -/
  finalityLog : ∀ r ∈ db.finalityLog, (heard r.chain).best r.row.node r.row.bestHeight ∧
    ∃ x, (heard r.chain).finalized r.row.node r.row.finalizedHeight x
  submittedTxs : ∀ r ∈ db.submittedTxs, TxShown (heard r.chain) (.submitted r.row)

/-- **Nothing is in the database that no node has shown.** -/
theorem provenance (config : ProgramConfig) (evs : List ProgramEvent) :
    Provenance (heard config evs) ((Program.machine config).run evs).db := by
  have hcovers : (Program.machine config).Guarded (CoversProgram (heard config evs))
      (Program.machine config).init evs :=
    Machine.guarded_of_splits fun pre e post hevs => covers_heard hevs
  have hshown : ProgramShown (heard config evs) ((Program.machine config).run evs) :=
    Machine.guarded_invariant (programShown_init config)
      (fun p e h he => programShown_step h he) hcovers
  have hevents : ∀ r ∈ ((Program.machine config).run evs).db.forkEvents,
      ForkEventShown (heard config evs) (core r) := fun r hr =>
    hshown.db.forkEvents _ (List.mem_map_of_mem hr)
  exact ⟨fun r hr => (hevents r hr).event, fun r hr => (hevents r hr).resolved,
    hshown.db.forkBlocks, hshown.db.finalityLog, hshown.db.submittedTxs⟩

end ForkWatch.Proof
