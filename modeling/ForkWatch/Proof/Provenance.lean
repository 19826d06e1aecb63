import ForkWatch.Proof.Acts
import ForkWatch.Proof.Dues

/-!
# What a chain reports was shown to it

Whatever a chain hands to the database goes back to what nodes have shown: the row of a
block to a header with this hash, and to one from every node it names; the row of a fork
to as many blocks of its height as it counts; a resolution to a finalized head; the row
of a transaction to a pending pool or a block body.

`Shown` is any account of what was shown, so the invariant (`chainShown_run`) holds of the
true one.
-/

namespace ForkWatch.Proof

open Lib ChainContext

/-- What the nodes of a chain have shown. -/
structure Shown where
  header : NodeName → Header → Prop
  best : NodeName → Nat → Prop
  finalized : NodeName → Nat → Hash → Prop
  tx : Tx → Prop

/-- An event shows nothing beyond the account. -/
structure Shown.Admits (S : Shown) (c : ChainContext) (e : Event) : Prop where
  header : ∀ node header, e = .allHeads node header → S.header node header
  finalized : ∀ node F x, e = .finalizedHeads node F x → S.finalized node F x
  tx : Supplies S.tx c e

variable {S : Shown}

/-! ## What it is for a row to go back to headers -/

/-- A header that says of the block what the row says. -/
def HeaderShown (S : Shown) (row : ForkBlockRow) : Prop :=
  ∃ node header, S.header node header ∧ header.hash = row.blockHash ∧
    header.number = row.blockNumber ∧ header.parentHash = row.parentHash ∧
    (∀ root, row.stateRoot = some root → header.stateRoot = root) ∧
    ∀ root, row.extrinsicsRoot = some root → header.extrinsicsRoot = root

/-- A block as it was shown. -/
structure BlockShown (S : Shown) (row : ForkBlockRow) : Prop where
  header : HeaderShown S row
  seenBy : row.seenBy ≠ [] ∧
    ∀ node ∈ row.seenBy, ∃ header, S.header node header ∧ header.hash = row.blockHash

/-- As many blocks were shown for the height as the row counts. -/
def EventShown (S : Shown) (row : ForkEventRow) : Prop :=
  2 ≤ row.competingCount ∧ ∃ hashes : List Hash, hashes.Nodup ∧
    hashes.length = row.competingCount ∧
    ∀ x ∈ hashes, ∃ node header, S.header node header ∧ header.hash = x ∧
      header.number = row.blockNumber

def ReportShown (S : Shown) : Report → Prop
  | .insertForkBlock row => BlockShown S row
  | .insertForkEvent row => EventShown S row
  | .resolveForkEvent F x => ∃ node, S.finalized node F x
  | _ => True

/-- The rows a task is going to hand in. -/
def TaskShown (S : Shown) : Task → Prop
  | .insertForkBlocks _ _ rest event _ =>
      (∀ b ∈ rest, BlockShown S (ForkDetector.forkBlockRow b)) ∧ EventShown S event
  | _ => True

/-- All that is on record was shown, in the tree or out of it. -/
def RecordsShown (S : Shown) (c : ChainContext) : Prop :=
  ∀ x r, Recorded c x r → BlockShown S (ForkDetector.forkBlockRow r)

/-- The columns that no handler rewrites. -/
def shownRow (r : BlockRecord) : ForkBlockRow :=
  { ForkDetector.forkBlockRow r with
    author := none, authorName := none, relayParent := none, relayNumber := none }

theorem blockShown_congr {r r' : BlockRecord} (h : shownRow r = shownRow r')
    (hr : BlockShown S (ForkDetector.forkBlockRow r)) :
    BlockShown S (ForkDetector.forkBlockRow r') := by
  have hshown : BlockShown S (shownRow r) := ⟨hr.header, hr.seenBy⟩
  rw [h] at hshown
  exact ⟨hshown.header, hshown.seenBy⟩

theorem taskShown_of_free {t : Task} (h : Free t) : TaskShown S t := by
  cases t with
  | insertForkBlocks => exact absurd h id
  | _ => trivial

/-! ## Handlers -/

theorem adds_recordCause_shown (c : ChainContext) (header : Header) (epoch : Nat)
    (blocks : List BlockRecord) (rps : List (Option RelayParent)) :
    ∃ rs ts, Adds c (c.recordCause header epoch blocks rps) rs ts ∧
      (∀ r ∈ rs, ReportShown S r) ∧ ∀ t ∈ ts, TaskShown S t := by
  unfold ChainContext.recordCause
  dsimp only
  split
  · exact ⟨[], _, adds_await c _, by simp, by simp [TaskShown]⟩
  · refine ⟨_, _, ⟨rfl, rfl⟩, ?_, by simp [TaskShown]⟩
    intro r hr
    rcases List.mem_cons.mp hr with rfl | hr
    · trivial
    · split at hr
      · rw [List.mem_singleton.mp hr]
        trivial
      · exact absurd hr (by simp)

theorem held_shown {c : ChainContext} (hc : RecordsShown S c) (n epoch : Nat) {b : BlockRecord}
    (hb : BlockShown S (ForkDetector.forkBlockRow b)) :
    BlockShown S (ForkDetector.forkBlockRow (c.held n epoch b)) := by
  rcases held_cases c n epoch b with heq | hrecorded
  · rw [heq]
    exact hb
  · exact hc _ _ hrecorded

/-- **A handler goes on reporting what was shown.** -/
theorem Resumed.shown {c c' : ChainContext} {task : Task} {a : Answer} (h : Resumed c task a c')
    (hc : RecordsShown S c) (htask : TaskShown S task) :
    ∃ rs ts, Adds c c' rs ts ∧ (∀ r ∈ rs, ReportShown S r) ∧ ∀ t ∈ ts, TaskShown S t := by
  have waits : ∀ {d : ChainContext} {t : Task}, Adds c d [] [t] → TaskShown S t →
      ∃ rs ts, Adds c d rs ts ∧ (∀ r ∈ rs, ReportShown S r) ∧ ∀ t ∈ ts, TaskShown S t :=
    fun hadds ht => ⟨_, _, hadds, by simp, fun t' ht' => List.mem_singleton.mp ht' ▸ ht⟩
  have silent : ∀ {d : ChainContext} {ts : List Task}, Adds c d [] ts → (∀ t ∈ ts, Free t) →
      ∃ rs ts, Adds c d rs ts ∧ (∀ r ∈ rs, ReportShown S r) ∧ ∀ t ∈ ts, TaskShown S t :=
    fun hadds hts => ⟨_, _, hadds, by simp, fun t ht => taskShown_of_free (hts t ht)⟩
  cases h with
  | insertForkBlocks header epoch rest event hooked =>
      obtain ⟨hrest, hevent⟩ := htask
      unfold ChainContext.insertForkBlocks
      cases rest with
      | nil => exact ⟨_, _, ⟨rfl, rfl⟩, by simpa [ReportShown] using hevent, by simp [TaskShown]⟩
      | cons b rest =>
          have hb := held_shown hc header.number epoch (hrest b List.mem_cons_self)
          refine ⟨_, _, ⟨rfl, rfl⟩, by simpa [ReportShown] using hb, ?_⟩
          intro t ht
          rw [List.mem_singleton.mp ht]
          exact ⟨fun b' hb' => hrest b' (List.mem_cons_of_mem _ hb'), hevent⟩
  | unhooked => exact waits (adds_await c _) trivial
  | hooked =>
      unfold analyzeForkCause
      dsimp only
      split
      · exact waits (adds_await c _) trivial
      · exact waits (adds_await c _) trivial
  | relayParents header epoch blocks =>
      unfold onRelayParents
      dsimp only
      split
      · exact waits (adds_await c _) trivial
      · exact adds_recordCause_shown c header epoch blocks _
  | retryRelayParents header epoch blocks => exact adds_recordCause_shown c header epoch blocks _
  | updateCause header epoch blocks rps =>
      obtain ⟨htasks, hhist, -⟩ := storeRelayParents_frame c header.number epoch blocks rps
      have hadds : Adds c ((c.storeRelayParents header.number epoch blocks rps).await
          (.imported header true)) [] [.imported header true] :=
        ⟨hhist.trans (List.append_nil _).symm, congrArg (· ++ _) htasks⟩
      exact waits hadds trivial
  | forkUpdated => exact waits (adds_await c _) trivial
  | imported header forked =>
      unfold afterImport
      split
      · split
        · exact waits (adds_captureBody c header) trivial
        · obtain ⟨ts, hadds, hts⟩ := adds_enrichForkAuthors c header (c.epochAt header.number) []
          exact silent hadds hts
      · exact waits (adds_captureBody c header) trivial
  | extractAuthor header epoch visited block answer =>
      unfold onAuthor
      cases orNull answer with
      | none =>
          obtain ⟨ts, hadds, hts⟩ := adds_enrichForkAuthors c header epoch visited
          exact silent hadds hts
      | some author =>
          obtain ⟨htasks, hhist, -⟩ := writeHeld_frame c header.number epoch block.hash
            fun r => { r with author := some author }
          exact waits ⟨hhist.trans (List.append_nil _).symm, congrArg (· ++ _) htasks⟩ trivial
  | lookup => exact waits ⟨(List.append_nil _).symm, rfl⟩ trivial
  | resolveIdentity header epoch visited block author =>
      obtain ⟨label, ts, hadds, hts⟩ := adds_onIdentity c header epoch visited block author
      exact ⟨_, ts, hadds, by simp [ReportShown], fun t ht => taskShown_of_free (hts t ht)⟩
  | body => exact silent (adds_nothing rfl rfl) (by simp)
  | noBody => exact silent (adds_nothing rfl rfl) (by simp)
  | resolveForkEvent F => exact silent (adds_nothing rfl rfl) (by simp)
  | other _ _ hexp => exact waits (adds_await c task) htask

/-! ## The tree -/

theorem blockShown_recordOf {node : NodeName} {header : Header} (h : S.header node header) :
    BlockShown S (ForkDetector.forkBlockRow (recordOf node header)) where
  header := by
    -- an empty root is left out
    have hroot : ∀ {root root' : String}, orNull (some root) = some root' → root = root' :=
      fun hroot => Option.some.inj (Option.filter_eq_some_iff.mp hroot).1
    exact ⟨node, header, h, rfl, rfl, rfl, fun _ => hroot, fun _ => hroot⟩
  seenBy := by
    refine ⟨List.cons_ne_nil _ _, ?_⟩
    intro node' hnode
    rw [List.mem_singleton.mp hnode]
    exact ⟨header, h, rfl⟩

/-- One more node has shown the block. -/
theorem blockShown_seen {r : BlockRecord} (hr : BlockShown S (ForkDetector.forkBlockRow r))
    {node : NodeName} {header : Header} (h : S.header node header) (hhash : header.hash = r.hash) :
    BlockShown S (ForkDetector.forkBlockRow { r with seenByNodes := r.seenByNodes.add node }) where
  header := hr.header
  seenBy := by
    have hkeys : ∀ n, n ∈ (r.seenByNodes.add node).keys ↔ n = node ∨ n ∈ r.seenByNodes.keys := by
      intro n
      rw [OrdMap.mem_keys_iff, ← OrdMap.has_iff, OrdMap.has_add, Bool.or_eq_true,
        decide_eq_true_eq, OrdMap.has_iff, ← OrdMap.mem_keys_iff]
    refine ⟨List.ne_nil_of_mem ((hkeys node).mpr (Or.inl rfl)), ?_⟩
    intro n hn
    rcases (hkeys n).mp hn with rfl | hn
    · exact ⟨header, h, hhash⟩
    · exact hr.seenBy.2 n hn

/-- Everything on record goes on being what was shown. -/
theorem recordsShown_step {c : ChainContext} (hi : TreeInv c.blockTree) (hd : DetachedInv c)
    (hc : RecordsShown S c) {e : Event} (he : S.Admits c e) : RecordsShown S (c.step e) := by
  have hboth : ∀ x r, Recorded (c.step e) x r →
      r.hash = x ∧ BlockShown S (ForkDetector.forkBlockRow r) := by
    refine records_step_of hi e ?_ ?_ ?_ fun x r hr => ⟨hr.hash_eq hi hd, hc x r hr⟩
    · intro x f r hf hr
      have hrow : shownRow r = shownRow (f r) := by
        cases hf with
        | _ => rfl
      exact ⟨(hf.keepsHeader r).1.trans hr.1, blockShown_congr hrow hr.2⟩
    · intro node header heq r hr
      exact ⟨hr.1, blockShown_seen hr.2 (he.header node header heq) hr.1.symm⟩
    · intro node header heq
      exact ⟨rfl, blockShown_recordOf (he.header node header heq)⟩
  exact fun x r hr => (hboth x r hr).2

/-! ## A new header -/

theorem currentAt_hashes_nodup {t : BlockTree} (hi : TreeInv t) (n : Nat) :
    ((t.currentAt n).map BlockRecord.hash).Nodup := by
  unfold BlockTree.currentAt
  cases hm : t.getBlocksAtHeight n with
  | none => exact List.nodup_nil
  | some m =>
      have hkeys : m.values.map BlockRecord.hash = m.keys := by
        unfold OrdMap.values OrdMap.keys
        rw [List.map_map]
        refine List.map_congr_left fun e he => ?_
        exact (hi.byHeight n m e.1 e.2 hm (OrdMap.mem_entries_iff.mp he)).2.1
      dsimp only
      rw [hkeys]
      exact m.keys_nodup

/-- The competitors of a height, counted. -/
theorem eventShown_currentAt {t : BlockTree} (hi : TreeInv t)
    (ht : ∀ x r, t.getBlock x = some r → BlockShown S (ForkDetector.forkBlockRow r)) (height : Nat)
    (htwo : 2 ≤ (t.currentAt height).length) :
    EventShown S (ForkDetector.forkEventRow t height (t.currentAt height)) := by
  refine ⟨htwo, (t.currentAt height).map BlockRecord.hash, currentAt_hashes_nodup hi height,
    List.length_map .., ?_⟩
  intro x hx
  obtain ⟨b, hb, rfl⟩ := List.mem_map.mp hx
  obtain ⟨hget, hnumber⟩ := hi.mem_currentAt_iff.mp hb
  obtain ⟨node, header, hheader, hhash, hnum, -⟩ := (ht _ b hget).header
  exact ⟨node, header, hheader, hhash, hnum.trans hnumber⟩

theorem reportShown_onForkDetected (d : ForkDetector) {tree : BlockTree} {height : Nat}
    {blocks : List BlockRecord} :
    ∀ r ∈ (d.onForkDetected tree height blocks).2, ReportShown S r := by
  intro r hr
  rcases List.mem_append.mp hr with hr | hr
  · simp only [List.mem_cons, List.not_mem_nil, or_false] at hr
    rcases hr with rfl | rfl | rfl
    · trivial
    · trivial
    · trivial
  · obtain ⟨b, -, hb⟩ := List.mem_filterMap.mp hr
    obtain ⟨a, -, rfl⟩ := Option.map_eq_some_iff.mp hb
    trivial

/-- What the arrival of a header adds. -/
theorem allHeads_shown {c : ChainContext} (hi : TreeInv c.blockTree) (hc : RecordsShown S c)
    {node : NodeName} {header : Header} (h : S.header node header) :
    ∃ rs ts, Adds c (c.step (.allHeads node header)) rs ts ∧ (∀ r ∈ rs, ReportShown S r) ∧
      ∀ t ∈ ts, TaskShown S t := by
  cases hget : c.blockTree.getBlock header.hash with
  | some r =>
      rw [step_allHeads_of_known hget]
      exact ⟨_, [], ⟨rfl, (List.append_nil _).symm⟩, by simp [ReportShown], by simp⟩
  | none =>
      have harrives := arrives node hi hget
      generalize c.step (.allHeads node header) = c' at harrives
      have hentered : ∀ r ∈ [Report.delivered node header.hash header.number,
          .blocksImported node], ReportShown S r := by simp [ReportShown]
      cases harrives with
      | alone => exact ⟨_, _, ⟨rfl, rfl⟩, hentered, by simp [TaskShown]⟩
      | later =>
          have hrow := blockShown_recordOf h
          refine ⟨_, _, ⟨List.append_assoc .., rfl⟩, ?_, by simp [TaskShown]⟩
          intro r hr
          rcases List.mem_append.mp hr with hr | hr
          · exact hentered r hr
          · rw [List.mem_singleton.mp hr]
            -- the updated row leaves out the roots
            obtain ⟨node', header', hheader, hhash, hnum, hparent, -⟩ := hrow.header
            exact ⟨⟨node', header', hheader, hhash, hnum, hparent, by simp
              [ForkDetector.updatedForkBlockRow], by simp [ForkDetector.updatedForkBlockRow]⟩,
              hrow.seenBy⟩
      | second hsome =>
          -- the rows are made from the tree the header is in by then
          have hi' : TreeInv (onRecord c node header).blockTree := treeInv_insertRecord hi hget
          have hc' : RecordsShown S (onRecord c node header) := by
            intro x r hr
            rcases hr with hx | hdetached
            · have hinsert :=
                (getBlock_insertRecord c.blockTree (recordOf node header) x).symm.trans hx
              split at hinsert
              · obtain rfl := Option.some.inj hinsert
                exact blockShown_recordOf h
              · exact hc x r (Or.inl hinsert)
            · exact hc x r (Or.inr hdetached)
          have ht' : ∀ x r, (onRecord c node header).blockTree.getBlock x = some r →
              BlockShown S (ForkDetector.forkBlockRow r) := fun x r hr => hc' x r (Or.inl hr)
          have hblocks : (onRecord c node header).blockTree.currentAt header.number
              = c.blockTree.currentAt header.number ++ [recordOf node header] :=
            currentAt_entered node hi hget
          have hshown : ∀ b ∈ (onRecord c node header).blockTree.currentAt header.number,
              BlockShown S (ForkDetector.forkBlockRow b) := fun b hb =>
            ht' _ b (hi'.mem_currentAt_iff.mp hb).1
          have hevent := eventShown_currentAt hi' ht' header.number (by
            rw [hblocks, List.length_append, List.length_singleton]
            have hpos := List.length_pos_of_ne_nil hsome
            omega)
          rw [← hblocks]
          obtain ⟨b, rest, hold⟩ := List.exists_cons_of_ne_nil
            (show (onRecord c node header).blockTree.currentAt header.number ≠ [] by
              rw [hblocks]
              simp)
          rw [hold] at hshown hevent ⊢
          have hadds := adds_detectFork (onRecord c node header) header b rest
          refine ⟨_, _, ⟨hadds.history.trans (List.append_assoc ..), hadds.tasks⟩, ?_, ?_⟩
          · intro r hr
            rcases List.mem_append.mp hr with hr | hr
            · exact hentered r hr
            · rcases List.mem_append.mp hr with hr | hr
              · exact reportShown_onForkDetected _ r hr
              · rw [List.mem_singleton.mp hr]
                have hb := held_shown hc' header.number
                  ((onRecord c node header).epochAt header.number) (hshown b List.mem_cons_self)
                rw [held_epochAt] at hb
                exact hb
          · intro t htask
            rw [List.mem_singleton.mp htask]
            exact ⟨fun b' hb' => hshown b' (List.mem_cons_of_mem _ hb'), hevent⟩

/-! ## Transactions -/

/-- A row is about a transaction that was shown. -/
def TxShown (S : Shown) : TxReport → Prop
  | .submitted row => ∃ tx, S.tx tx ∧ row.firstHash = tx.hash ∧ row.signer = tx.signer ∧
      row.nonce = tx.nonce ∧ row.kind = tx.kind ∧ row.pallet = tx.pallet ∧ row.method = tx.method
  | _ => True

theorem txShown_of_noNews {r : TxReport} (h : NoNews r) : TxShown S r := by
  cases r with
  | submitted => exact absurd h id
  | _ => trivial

/-- All rows told so far. -/
def TrackerShown (S : Shown) (t : TxTracker) : Prop := ∀ r ∈ t.history, TxShown S r

theorem trackerShown_append {t t' : TxTracker} (h : TrackerShown S t) {rs : List TxReport}
    (hhist : t'.history = t.history ++ rs) (hrs : ∀ r ∈ rs, TxShown S r) : TrackerShown S t' := by
  intro r hr
  rw [hhist] at hr
  rcases List.mem_append.mp hr with hr | hr
  · exact h r hr
  · exact hrs r hr

theorem trackerShown_act {t t' : TxTracker} {side : Side} (h : TrackerShown S t)
    (hact : Act S.tx side t t') : TrackerShown S t' := by
  cases hact with
  | writePool => exact h
  | writeQueue => exact h
  | queued _ entry H =>
      have hhist : (t.emit (.queued entry H)).history = t.history ++ [.queued entry H] := rfl
      exact trackerShown_append h hhist (by simp [TxShown])
  | start _ _ record =>
      obtain ⟨timers, ever, calls, rs, heq, hof⟩ := startResubmitRetry_eq t record
      rw [heq]
      refine trackerShown_append h rfl fun r hr => ?_
      have hrecord := hof r hr
      cases r with
      | submitted => exact absurd hrecord id
      | _ => trivial
  | stop => exact h
  | tell _ _ tx status extra hN =>
      rcases finalize_cases t tx status extra with ⟨-, heq⟩ | ⟨-, heq⟩
      · rw [heq]
        exact h
      · rw [heq]
        refine trackerShown_append h rfl fun r hr => ?_
        rw [List.mem_singleton.mp hr]
        exact ⟨tx, hN, rfl, rfl, rfl, rfl, rfl, rfl⟩

theorem trackerShown_step {c : ChainContext} {e : Event} (hs : Sourced S.tx c.txTracker)
    (he : Supplies S.tx c e) (h : TrackerShown S c.txTracker) :
    TrackerShown S (c.step e).txTracker := by
  obtain ⟨u, side, hu, hacts⟩ := step_acts hs he
  obtain ⟨rs, hrs, hno⟩ := hu.history
  have hu' : TrackerShown S u := trackerShown_append h hrs fun r hr => txShown_of_noNews (hno r hr)
  exact hacts.preserves (fun _ _ => trackerShown_act) hu'

/-! ## The run -/

/-- Everything a chain holds or has reported was shown to it. -/
structure ChainShown (S : Shown) (c : ChainContext) : Prop where
  treeInv : TreeInv c.blockTree
  detached : DetachedInv c
  records : RecordsShown S c
  tasks : ∀ t ∈ c.tasks, TaskShown S t
  reports : ∀ r ∈ c.history, ReportShown S r
  sourced : Sourced S.tx c.txTracker
  txs : TrackerShown S c.txTracker

theorem chainShown_init (config : ChainConfig) (opts : TxOptions) :
    ChainShown S (machine config opts).init where
  treeInv := treeInv_init
  detached := fun _ _ h => absurd h (by simp [machine])
  records := by
    rintro x r (h | ⟨n, m, h, -⟩)
    · exact absurd h (by simp [machine, BlockTree.getBlock])
    · exact absurd h (by simp [machine])
  tasks := fun _ h => absurd h (by simp [machine])
  reports := fun _ h => absurd h (by simp [machine])
  sourced := sourced_init S.tx opts
  txs := fun _ h => absurd h (by simp [machine])

/-- What an event adds to the tasks and the reports. -/
theorem ChainShown.adds {c : ChainContext} (h : ChainShown S c) {e : Event} (he : S.Admits c e) :
    (∀ t ∈ (c.step e).tasks, TaskShown S t) ∧ ∀ r ∈ (c.step e).history, ReportShown S r := by
  have hadded : ∀ {c₀ c' : ChainContext} {rs : List Report} {ts : List Task}, Adds c₀ c' rs ts →
      (∀ t ∈ c₀.tasks, TaskShown S t) → (∀ r ∈ c₀.history, ReportShown S r) →
      (∀ r ∈ rs, ReportShown S r) → (∀ t ∈ ts, TaskShown S t) →
      (∀ t ∈ c'.tasks, TaskShown S t) ∧ ∀ r ∈ c'.history, ReportShown S r := by
    intro c₀ c' rs ts hadds htasks hreports hrs hts
    rw [hadds.tasks, hadds.history]
    refine ⟨fun t ht => ?_, fun r hr => ?_⟩
    · exact (List.mem_append.mp ht).elim (htasks t) (hts t)
    · exact (List.mem_append.mp hr).elim (hreports r) (hrs r)
  cases e with
  | allHeads node header =>
      obtain ⟨rs, ts, hadds, hrs, hts⟩ :=
        allHeads_shown h.treeInv h.records (he.header node header rfl)
      exact hadded hadds h.tasks h.reports hrs hts
  | finalizedHeads node F x =>
      refine hadded (adds_finalizedHeads c node F x) h.tasks h.reports ?_ (by simp [TaskShown])
      intro r hr
      rcases List.mem_append.mp hr with hr | hr
      · rcases (onHeightFinalized_spec c.forkDetector F x).reports r hr with ⟨height, rfl⟩ | ⟨f, rfl⟩
        · trivial
        · trivial
      · rw [List.mem_singleton.mp hr]
        exact ⟨node, he.finalized node F x rfl⟩
  | resume i a =>
      unfold ChainContext.step
      dsimp only
      cases hti : c.tasks[i]? with
      | none => exact ⟨h.tasks, h.reports⟩
      | some task =>
          have htask : TaskShown S task := h.tasks task (List.mem_of_getElem? hti)
          obtain ⟨rs, ts, hadds, hrs, hts⟩ :=
            (resumed (taken c i) task a).shown h.records htask
          -- the task itself is taken off
          exact hadded hadds (fun t ht => h.tasks t (List.mem_of_mem_eraseIdx ht)) h.reports hrs hts
  | _ => exact ⟨h.tasks, h.reports⟩

theorem chainShown_step {c : ChainContext} (h : ChainShown S c) {e : Event} (he : S.Admits c e) :
    ChainShown S (c.step e) where
  treeInv := treeInv_step h.treeInv e
  detached := detachedInv_step h.treeInv h.detached e
  records := recordsShown_step h.treeInv h.detached h.records he
  tasks := (h.adds he).1
  reports := (h.adds he).2
  sourced := sourced_step h.sourced he.tx
  txs := trackerShown_step h.sourced he.tx h.txs

end ForkWatch.Proof
