import ForkWatch.Proof.Detection

/-!
# The books of the detector

A fork event is counted by `totalForkCount`, entered into the ring buffer, and
written to the database by a handler that suspends in between. `ForkBooks` says
that the three always agree with the events told, whatever the order of things:
a row that is not inserted yet is owed by exactly one suspended handler.
-/

namespace ForkWatch.Proof

open Lib ChainContext

/-- The rows of a height: inserted, or still to be inserted by a suspended handler. -/
def rows (c : ChainContext) (n : Nat) : Nat :=
  (rowHeights c.history).count n + (c.tasks.filterMap owedRow).count n

/-- The last `MAX_RECENT_FORKS` of a list. -/
def latest (l : List Nat) : List Nat := l.drop (l.length - MAX_RECENT_FORKS)

/-- What goes with a fork event goes with every one of them, once. -/
structure ForkBooks (c : ChainContext) : Prop where
  /-- `totalForkCount` counts the events. -/
  total : c.forkDetector.totalForkCount = (eventHeights c.history).length
  /-- The ring buffer holds the latest of them. -/
  ring : c.forkDetector.recentForks.map RecentFork.blockNumber = latest (eventHeights c.history)
  /-- Each of them has its row, or will have it. -/
  rows : ∀ n, rows c n = (eventHeights c.history).count n

/-- The rows of `c'` are those of `c`, and one more for `o`. -/
structure RowsGrow (o : Option Nat) (c c' : ChainContext) : Prop where
  grow : ∀ n, rows c' n = rows c n + if o = some n then 1 else 0

/-- Reports without rows change nothing. -/
theorem rowsGrow_none {c c' : ChainContext} (rs : List Report)
    (hh : c'.history = c.history ++ rs) (hr : rowHeights rs = []) (ht : c'.tasks = c.tasks) :
    RowsGrow none c c' := by
  refine ⟨fun n => ?_⟩
  unfold rows
  rw [hh, ht, rowHeights_append, hr]
  simp

/-- Nor do they when the handler suspends: what it owes, it owes then. -/
theorem rowsGrow_await {c c' : ChainContext} (t : Task) (rs : List Report)
    (hh : c'.history = c.history ++ rs) (hr : rowHeights rs = [])
    (ht : c'.tasks = c.tasks ++ [t]) : RowsGrow (owedRow t) c c' := by
  refine ⟨fun n => ?_⟩
  unfold rows
  rw [hh, ht, rowHeights_append, hr, List.append_nil, List.filterMap_append, List.count_append]
  cases ho : owedRow t with
  | none => simp [ho]
  | some m => simp [ho, List.count_singleton, Nat.add_assoc]

theorem RowsGrow.trans {o : Option Nat} {c c' c'' : ChainContext} (h : RowsGrow none c c')
    (h' : RowsGrow o c' c'') : RowsGrow o c c'' := by
  refine ⟨fun n => ?_⟩
  rw [h'.grow n, h.grow n]
  simp

theorem rowsGrow_insertForkBlocks (c : ChainContext) (header : Header) (epoch : Nat)
    (rest : List BlockRecord) (event : ForkEventRow) (hooked : Bool) :
    RowsGrow (some event.blockNumber) c (c.insertForkBlocks header epoch rest event hooked) := by
  unfold insertForkBlocks
  cases rest with
  | nil =>
      refine ⟨fun n => ?_⟩
      have hrow : rowHeights [.insertForkEvent event] = [event.blockNumber] := rfl
      have htask : List.filterMap owedRow [.insertForkEvent header epoch hooked] = [] := rfl
      unfold rows await report
      dsimp only
      rw [rowHeights_append, List.filterMap_append, hrow, htask, List.append_nil,
        List.count_append, List.count_singleton]
      simp only [beq_iff_eq, Option.some.injEq]
      omega
  | cons b rest =>
      exact rowsGrow_await (.insertForkBlocks header epoch rest event hooked) _ rfl rfl rfl

theorem rowsGrow_recordCause (c : ChainContext) (header : Header) (epoch : Nat)
    (blocks : List BlockRecord) (rps : List (Option RelayParent)) :
    RowsGrow none c (c.recordCause header epoch blocks rps) := by
  unfold ChainContext.recordCause
  dsimp only
  split
  · exact rowsGrow_await (.imported header true) [] (by simp [await]) rfl rfl
  · refine rowsGrow_await (.updateCause header epoch _ rps) _ rfl ?_ rfl
    split <;> rfl

theorem rowsGrow_captureBody (c : ChainContext) (header : Header) :
    RowsGrow none c (c.captureBody header) :=
  rowsGrow_await (.getBlock header.hash header.number) []
    (by simp [captureBody, await]) rfl rfl

theorem rowsGrow_enrichForkAuthors (c : ChainContext) (header : Header) (epoch : Nat)
    (visited : List Hash) : RowsGrow none c (c.enrichForkAuthors header epoch visited) := by
  unfold enrichForkAuthors
  split
  · refine RowsGrow.trans ?_ (rowsGrow_captureBody _ header)
    unfold updateForkAuthors
    split
    · exact rowsGrow_none [] (by simp) rfl rfl
    · exact rowsGrow_none [] (by simp) rfl rfl
  · exact rowsGrow_await (.extractAuthor header _ _ _) [] (by simp [await]) rfl rfl

theorem rowsGrow_afterImport (c : ChainContext) (header : Header) (forked : Bool) :
    RowsGrow none c (c.afterImport header forked) := by
  unfold afterImport
  split
  · split
    · exact rowsGrow_captureBody c header
    · exact rowsGrow_enrichForkAuthors c header _ []
  · exact rowsGrow_captureBody c header

theorem rowsGrow_writeHeld (c : ChainContext) (n epoch : Nat) (x : Hash)
    (f : BlockRecord → BlockRecord) : RowsGrow none c (c.writeHeld n epoch x f) := by
  obtain ⟨htasks, hhist, -⟩ := writeHeld_frame c n epoch x f
  refine rowsGrow_none [] ?_ rfl htasks
  rw [hhist, List.append_nil]

/-- A task that goes on inserts its row or passes the duty on. -/
theorem Resumed.rowsGrow {c c' : ChainContext} {task : Task} {a : Answer}
    (h : Resumed c task a c') : RowsGrow (owedRow task) c c' := by
  have suspend : ∀ t, RowsGrow (owedRow t) c (c.await t) :=
    fun t => rowsGrow_await t [] (by simp [await]) rfl rfl
  cases h with
  | insertForkBlocks => exact rowsGrow_insertForkBlocks ..
  | unhooked header => exact suspend (.imported header true)
  | hooked header epoch =>
      unfold analyzeForkCause
      dsimp only
      split
      · exact suspend (.imported header true)
      · exact suspend (.relayParents header epoch _)
  | relayParents header epoch blocks parent =>
      unfold onRelayParents
      dsimp only
      split
      · exact suspend (.retryRelayParents header epoch blocks _)
      · exact rowsGrow_recordCause ..
  | retryRelayParents => exact rowsGrow_recordCause ..
  | updateCause header epoch blocks rps =>
      obtain ⟨htasks, hhist, -⟩ := storeRelayParents_frame c header.number epoch blocks rps
      refine RowsGrow.trans (rowsGrow_none [] ?_ rfl htasks)
        (rowsGrow_await (.imported header true) [] (by simp [await]) rfl rfl)
      rw [hhist, List.append_nil]
  | forkUpdated header => exact suspend (.imported header true)
  | imported => exact rowsGrow_afterImport ..
  | extractAuthor header epoch visited block author =>
      unfold onAuthor
      split
      · exact rowsGrow_enrichForkAuthors ..
      · exact (rowsGrow_writeHeld ..).trans
          (rowsGrow_await (.resolveIdentity header epoch visited _ _ _) [] (by simp [await]) rfl rfl)
  | lookup header epoch visited block author lookup answer =>
      exact rowsGrow_await (.resolveIdentity header epoch visited block author
        (lookup.resume c.identityCache answer).2) [] (by simp [onLookup, await]) rfl rfl
  | resolveIdentity header epoch visited block author =>
      refine RowsGrow.trans ?_ (rowsGrow_enrichForkAuthors _ header epoch visited)
      refine (rowsGrow_writeHeld c header.number epoch block.hash
        (fun r => { r with authorName := c.resolveAuthorName author })).trans ?_
      exact rowsGrow_none _ rfl rfl rfl
  | body => exact rowsGrow_none [] (by simp) rfl rfl
  | noBody => exact rowsGrow_none [] (by simp) rfl rfl
  | resolveForkEvent => exact rowsGrow_none [] (by simp [ChainContext.prune]) rfl rfl
  | other => exact suspend task

theorem rows_taken {c : ChainContext} {i : Nat} {task : Task} (h : c.tasks[i]? = some task)
    (n : Nat) :
    rows c n = rows (taken c i) n + if owedRow task = some n then 1 else 0 := by
  obtain ⟨hi, ht⟩ := List.getElem?_eq_some_iff.mp h
  have hperm := (List.getElem_cons_eraseIdx_perm hi).filterMap owedRow
  have hcount := hperm.count_eq n
  unfold rows taken
  dsimp only
  rw [← hcount, ht]
  cases ho : owedRow task with
  | none => simp [ho]
  | some m =>
      simp only [List.filterMap_cons, ho, List.count_cons, beq_iff_eq, Option.some.injEq]
      omega

theorem latest_snoc (l : List Nat) (n : Nat) (f : RecentFork) (ring : List RecentFork)
    (hf : f.blockNumber = n) (hring : ring.map RecentFork.blockNumber = latest l) :
    (ForkDetector.pushRecent ring f).map RecentFork.blockNumber = latest (l ++ [n]) := by
  have hmax : 0 < MAX_RECENT_FORKS := by decide
  have hlen : ring.length = (latest l).length := by rw [← hring, List.length_map]
  unfold latest at hring hlen ⊢
  rw [List.length_drop] at hlen
  unfold ForkDetector.pushRecent
  dsimp only
  rw [List.length_append, List.length_singleton, List.length_append, List.length_singleton]
  by_cases hfull : MAX_RECENT_FORKS < ring.length + 1
  · -- the buffer is full: the oldest entry goes
    have hle : l.length - MAX_RECENT_FORKS ≤ l.length := by omega
    rw [if_pos hfull, List.map_drop, List.map_append, hring, List.map_singleton, hf,
      show l.length + 1 - MAX_RECENT_FORKS = (l.length - MAX_RECENT_FORKS) + 1 by omega,
      ← List.drop_drop, List.drop_append_of_le_length hle]
  · rw [if_neg hfull, List.map_append, hring, List.map_singleton, hf,
      show l.length - MAX_RECENT_FORKS = 0 by omega,
      show l.length + 1 - MAX_RECENT_FORKS = 0 by omega]
    rfl

/-- Steps that touch neither counter nor ring buffer nor rows. -/
theorem forkBooks_of_same {c c' : ChainContext} (h : ForkBooks c)
    (ht : c'.forkDetector.totalForkCount = c.forkDetector.totalForkCount)
    (hr : c'.forkDetector.recentForks.map RecentFork.blockNumber
      = c.forkDetector.recentForks.map RecentFork.blockNumber)
    (he : eventHeights c'.history = eventHeights c.history)
    (hw : ∀ n, rows c' n = rows c n) : ForkBooks c' where
  total := by rw [ht, he, h.total]
  ring := by rw [hr, he, h.ring]
  rows := fun n => by rw [hw, he, h.rows n]

theorem blockNumbers_of_settled {l l' : List RecentFork}
    (h : l'.map RecentFork.settled = l.map RecentFork.settled) :
    l'.map RecentFork.blockNumber = l.map RecentFork.blockNumber := by
  have := congrArg (List.map Prod.fst) h
  rwa [List.map_map, List.map_map] at this

theorem blockNumbers_onHeightFinalized (d : ForkDetector) (n : Nat) (x : Hash) :
    (d.onHeightFinalized n x).1.recentForks.map RecentFork.blockNumber
      = d.recentForks.map RecentFork.blockNumber := by
  have := congrArg (List.map RecentFork.blockNumber) (onHeightFinalized_spec d n x).recentForks
  rwa [List.map_map, List.map_map] at this

/-- A detection is entered into all three books. -/
theorem forkBooks_detectFork {c : ChainContext} (h : ForkBooks c) (header : Header)
    (blocks : List BlockRecord) : ForkBooks (c.detectFork header blocks) := by
  obtain ⟨⟨rs, hrs, hhist⟩, -, htotal, f, hf, hring⟩ := detectFork_spec c header blocks
  have hev : eventHeights (c.detectFork header blocks).history
      = eventHeights c.history ++ [header.number] := by
    rw [hhist, eventHeights_append, show Report.forkEvent header.number :: rs
      = [.forkEvent header.number] ++ rs from rfl, eventHeights_append,
      eventHeights_of_sideline hrs, List.append_nil]
    rfl
  have hrows : RowsGrow (some header.number) c (c.detectFork header blocks) := by
    unfold detectFork
    dsimp only
    refine RowsGrow.trans ?_ (rowsGrow_insertForkBlocks _ header (c.epochAt header.number) blocks
      (ForkDetector.forkEventRow c.blockTree header.number blocks) c.hooked)
    refine rowsGrow_none _ rfl ?_ rfl
    unfold ForkDetector.onForkDetected
    dsimp only
    rw [rowHeights_append, rowHeights_of_inert (inert_authorReports blocks)]
    rfl
  refine ⟨?_, ?_, fun n => ?_⟩
  · rw [htotal, hev, h.total, List.length_append, List.length_singleton]
  · rw [blockNumbers_of_settled hring, hev]
    exact latest_snoc _ _ _ _ hf h.ring
  · rw [hrows.grow, h.rows n, hev, List.count_append, List.count_singleton]
    simp

theorem forkBooks_init (config : ChainConfig) (opts : TxOptions) :
    ForkBooks (machine config opts).init where
  total := rfl
  ring := by simp [machine, latest, eventHeights]
  rows := fun _ => rfl

theorem forkBooks_allHeads {c : ChainContext} (h : ForkBooks c) (node : NodeName)
    (header : Header) : ForkBooks (c.step (.allHeads node header)) := by
  cases hget : c.blockTree.getBlock header.hash with
  | some r =>
      have hgrow : RowsGrow none c (seenAgain c node header) := rowsGrow_none _ rfl rfl rfl
      rw [step_allHeads_of_known hget]
      exact forkBooks_of_same h rfl rfl (seenAgain_spec c node header).2.1 hgrow.grow
  | none =>
      rw [step_allHeads_of_new hget]
      have hgrow : RowsGrow none c (entered c node header) := rowsGrow_none _ rfl rfl rfl
      have hentered : ForkBooks (entered c node header) :=
        forkBooks_of_same h rfl rfl (entered_spec c node header).2.1 hgrow.grow
      generalize entered c node header = c' at hentered
      rcases importNew_cases c' header with ⟨-, heq⟩ | ⟨hd, rs, t, hrs, ht, heq⟩
      · rw [heq]
        refine forkBooks_detectFork ?_ header _
        exact forkBooks_of_same hentered rfl rfl rfl fun _ => rfl
      · have hev := (importNew_of_not_detects hd).2.1
        rw [heq] at hev ⊢
        refine forkBooks_of_same hentered rfl rfl hev fun n => ?_
        have hgrow : RowsGrow (owedRow t) c' ((c'.report rs).await t) :=
          rowsGrow_await t rs rfl (rowHeights_of_inert hrs) rfl
        rw [ht] at hgrow
        exact hgrow.grow n

theorem forkBooks_resume {c : ChainContext} (h : ForkBooks c) (i : Nat) (a : Answer)
    (hi : TreeInv c.blockTree) : ForkBooks (c.step (.resume i a)) := by
  have hev := (quiet_events (e := .resume i a) (by simp) hi).1
  have hrows : ∀ n, rows (c.step (.resume i a)) n = rows c n := by
    intro n
    unfold step
    dsimp only
    cases ht : c.tasks[i]? with
    | none => rfl
    | some task => rw [rows_taken ht, ← (resumed (taken c i) task a).rowsGrow.grow]; rfl
  rcases resume_cases c i a with ⟨y, n, body, -, -, heq⟩ | ⟨F, -, -, heq⟩ | hq
  · refine forkBooks_of_same h ?_ ?_ hev hrows
    · rw [heq]; rfl
    · rw [heq]; rfl
  · refine forkBooks_of_same h ?_ ?_ hev hrows
    · rw [heq]; rfl
    · rw [heq]; rfl
  · exact forkBooks_of_same h hq.totalForkCount (blockNumbers_of_settled hq.recentForks) hev hrows

/-- **The books agree with the events after every step.** -/
theorem forkBooks_step {c : ChainContext} (h : ForkBooks c) (hi : TreeInv c.blockTree) (e : Event) :
    ForkBooks (c.step e) := by
  cases e with
  | allHeads node header => exact forkBooks_allHeads h node header
  | resume i a => exact forkBooks_resume h i a hi
  | finalizedHeads node n x =>
      refine forkBooks_of_same h (onHeightFinalized_spec c.forkDetector n x).totalForkCount
        (blockNumbers_onHeightFinalized c.forkDetector n x)
        (quiet_events (e := .finalizedHeads node n x) (by simp) hi).1 fun m => ?_
      refine (rowsGrow_await (c := c) (.resolveForkEvent n)
        ((c.forkDetector.onHeightFinalized n x).2 ++ [.resolveForkEvent n x]) rfl ?_ rfl).grow m
      rw [rowHeights_append, rowHeights_of_inert (inert_onHeightFinalized _ _ _)]
      rfl
  | _ => exact forkBooks_of_same h rfl rfl rfl fun _ => rfl

end ForkWatch.Proof
