import ForkWatch.Proof.Step

/-!
# What the detector is told, and what it tells

The history of a run holds every header delivered and every fork event told. This
file says what one event of the program adds to either, and ties both to the
state: what is stored has been delivered, and what `recordedForks` holds has been
told. Neither holds the other way round, since tree and `recordedForks` forget.
-/

namespace ForkWatch.Proof

open Lib ChainContext

/-! ## What a history says -/

/-- The heights of the fork events, in order. -/
def eventHeights (rs : List Report) : List Nat :=
  rs.filterMap fun
    | .forkEvent n => some n
    | _ => none

/-- The heights of the rows inserted into `fork_events`, in order. -/
def rowHeights (rs : List Report) : List Nat :=
  rs.filterMap fun
    | .insertForkEvent row => some row.blockNumber
    | _ => none

/-- Some node delivered this block for this height. -/
def Delivered (c : ChainContext) (x : Hash) (n : Nat) : Prop :=
  ∃ node, .delivered node x n ∈ c.history

/-- The `fork_events` row a suspended handler is still going to insert. -/
def owedRow : Task → Option Nat
  | .insertForkBlocks _ _ _ event _ => some event.blockNumber
  | _ => none

theorem eventHeights_append (rs rs' : List Report) :
    eventHeights (rs ++ rs') = eventHeights rs ++ eventHeights rs' := List.filterMap_append

theorem rowHeights_append (rs rs' : List Report) :
    rowHeights (rs ++ rs') = rowHeights rs ++ rowHeights rs' := List.filterMap_append

/-- Reports that are neither fork events nor deliveries. -/
def Sideline : Report → Prop
  | .forkEvent _ | .delivered .. => False
  | _ => True

theorem eventHeights_of_sideline {rs : List Report} (h : ∀ r ∈ rs, Sideline r) :
    eventHeights rs = [] := by
  unfold eventHeights
  rw [List.filterMap_eq_nil_iff]
  intro r hr
  have := h r hr
  cases r <;> first | rfl | exact absurd this id

theorem not_delivered_of_sideline {rs : List Report} (h : ∀ r ∈ rs, Sideline r) {node : NodeName}
    {x : Hash} {n : Nat} : .delivered node x n ∉ rs := fun hm => h _ hm

theorem sideline_of_fromTask {r : Report} (h : FromTask r) : Sideline r := by
  cases r <;> trivial

/-- Sideline reports that are no row of `fork_events` either. -/
def Inert : Report → Prop
  | .forkEvent _ | .delivered .. | .insertForkEvent _ => False
  | _ => True

theorem Inert.sideline {r : Report} (h : Inert r) : Sideline r := by
  cases r <;> trivial

theorem rowHeights_of_inert {rs : List Report} (h : ∀ r ∈ rs, Inert r) : rowHeights rs = [] := by
  unfold rowHeights
  rw [List.filterMap_eq_nil_iff]
  intro r hr
  have := h r hr
  cases r <;> first | rfl | exact absurd this id

/-- A step that adds sideline reports only. -/
theorem sideline_step {c c' : ChainContext} {rs : List Report} (hc : c'.history = c.history ++ rs)
    (h : ∀ r ∈ rs, Sideline r) :
    eventHeights c'.history = eventHeights c.history ∧ ∀ x n, Delivered c' x n ↔ Delivered c x n := by
  refine ⟨by rw [hc, eventHeights_append, eventHeights_of_sideline h, List.append_nil], ?_⟩
  intro x n
  unfold Delivered
  rw [hc]
  refine ⟨?_, ?_⟩
  · intro hex
    obtain ⟨node, hm⟩ := hex
    exact ⟨node, (List.mem_append.mp hm).resolve_right (not_delivered_of_sideline h)⟩
  · intro hex
    obtain ⟨node, hm⟩ := hex
    exact ⟨node, List.mem_append_left _ hm⟩

/-! ## What each event does to it -/

theorem inert_of_aboutBlocks {r : Report} (h : AboutBlocks r) : Inert r := by
  cases r <;> trivial

theorem inert_authorReports (blocks : List BlockRecord) :
    ∀ r ∈ blocks.filterMap ForkDetector.authorReport, Inert r := by
  intro r hr
  obtain ⟨b, -, hb⟩ := List.mem_filterMap.mp hr
  exact inert_of_aboutBlocks (aboutBlocks_authorReport hb)

theorem inert_onHeightFinalized (d : ForkDetector) (n : Nat) (x : Hash) :
    ∀ r ∈ (d.onHeightFinalized n x).2, Inert r := by
  intro r hr
  rcases (onHeightFinalized_spec d n x).reports r hr with ⟨h, rfl⟩ | ⟨f, rfl⟩
  · trivial
  · trivial

/-- No event but a header brings fork events, deliveries, recorded forks or blocks. -/
theorem quiet_events {c : ChainContext} {e : Event} (he : ∀ node h, e ≠ .allHeads node h)
    (hi : TreeInv c.blockTree) :
    eventHeights (c.step e).history = eventHeights c.history ∧
      (∀ x n, Delivered (c.step e) x n ↔ Delivered c x n) ∧
      (∀ n, (c.step e).forkDetector.recordedForks.has n = true →
        c.forkDetector.recordedForks.has n = true) ∧
      ∀ x, Holds (c.step e).blockTree x → Holds c.blockTree x := by
  cases e with
  | allHeads node h => exact absurd rfl (he node h)
  | finalizedHeads node n x =>
      have hhist : (c.step (.finalizedHeads node n x)).history
          = c.history ++ ((c.forkDetector.onHeightFinalized n x).2 ++ [.resolveForkEvent n x]) := rfl
      obtain ⟨h1, h2⟩ := sideline_step hhist (by
        intro r hr
        rcases List.mem_append.mp hr with hr | hr
        · exact (inert_onHeightFinalized _ _ _ r hr).sideline
        · rw [List.mem_singleton] at hr
          subst hr
          trivial)
      exact ⟨h1, h2, (onHeightFinalized_spec _ _ _).recordedForks, fun y hy => hy⟩
  | resume i a =>
      rcases resume_cases c i a with ⟨y, n, body, -, -, heq⟩ | ⟨F, -, -, heq⟩ | hq
      · rw [heq]
        exact ⟨rfl, fun _ _ => Iff.rfl, fun _ h => h, fun _ h => h⟩
      · rw [heq]
        refine ⟨rfl, fun _ _ => Iff.rfl, fun n hn => ?_, fun x hx => ?_⟩
        · change (c.forkDetector.pruneRecordedForks _).recordedForks.has n = true at hn
          unfold ForkDetector.pruneRecordedForks at hn
          rw [OrdMap.has_filter, Bool.and_eq_true] at hn
          exact hn.1
        · obtain ⟨r, hr⟩ := hx
          change (c.blockTree.prune _).getBlock x = some r at hr
          rw [getBlock_prune hi, Option.filter_eq_some_iff] at hr
          exact ⟨r, hr.1⟩
      · obtain ⟨rs, hrs, hp⟩ := hq.history
        obtain ⟨h1, h2⟩ := sideline_step hrs fun r hr => sideline_of_fromTask (hp r hr)
        exact ⟨h1, h2, fun n hn => by rw [hq.recordedForks] at hn; exact hn,
          fun x hx => (hq.tree.holds x).mp hx⟩
  | _ => exact ⟨rfl, fun _ _ => Iff.rfl, fun _ h => h, fun _ h => h⟩

/-- Some block is stored at this height. -/
def HasBlockAt (t : BlockTree) (n : Nat) : Prop := ∃ m, t.getBlocksAtHeight n = some m

/-- Once entered, a header is alone at its height exactly if none was stored there. -/
theorem competing_iff {c : ChainContext} (node : NodeName) {header : Header}
    (hi : TreeInv c.blockTree) (hnew : c.blockTree.getBlock header.hash = none) :
    1 < ((entered c node header).blockTree.currentAt header.number).length
      ↔ HasBlockAt c.blockTree header.number := by
  have hat : (entered c node header).blockTree.getBlocksAtHeight header.number
      = some (((c.blockTree.getBlocksAtHeight header.number).getD ∅).set header.hash
          (recordOf node header)) := by
    show (c.blockTree.insertRecord (recordOf node header)).getBlocksAtHeight header.number = _
    exact (getBlocksAtHeight_insertRecord ..).trans (if_pos rfl)
  have hlen : ((entered c node header).blockTree.currentAt header.number).length
      = ((c.blockTree.getBlocksAtHeight header.number).getD ∅).size + 1 := by
    unfold BlockTree.currentAt
    rw [hat]
    dsimp only
    rw [OrdMap.values, List.length_map, ← OrdMap.size, OrdMap.size_set_of_not_mem]
    cases hq : c.blockTree.getBlocksAtHeight header.number with
    | none => rfl
    | some m =>
        rw [Option.getD_some]
        -- the hash is new to the tree, and so to the height
        cases hr : m.get? header.hash with
        | none => rfl
        | some r =>
            rw [(hi.byHeight _ m _ r hq hr).2.2] at hnew
            exact absurd hnew (by simp)
  rw [hlen]
  refine ⟨?_, ?_⟩
  · intro h
    cases hq : c.blockTree.getBlocksAtHeight header.number with
    | none => rw [hq] at h; exact absurd h (by decide)
    | some m => exact ⟨m, hq⟩
  · intro hex
    obtain ⟨m, hm⟩ := hex
    -- a height that is kept has a block
    have := hi.inhabited _ m hm
    rw [hm, Option.getD_some]
    omega

/-- **The call of `onForkDetected`:** one event, one push, one more in the count. -/
theorem detectFork_spec (c : ChainContext) (header : Header) (blocks : List BlockRecord) :
    (∃ rs, (∀ r ∈ rs, Sideline r) ∧
      (c.detectFork header blocks).history = c.history ++ .forkEvent header.number :: rs) ∧
    (c.detectFork header blocks).forkDetector.recordedForks = c.forkDetector.recordedForks ∧
    (c.detectFork header blocks).forkDetector.totalForkCount = c.forkDetector.totalForkCount + 1 ∧
    ∃ f : RecentFork, f.blockNumber = header.number ∧
      (c.detectFork header blocks).forkDetector.recentForks.map RecentFork.settled
        = (ForkDetector.pushRecent c.forkDetector.recentForks f).map RecentFork.settled := by
  unfold detectFork
  dsimp only
  have hq := quiet_insertForkBlocks
    ({ c with forkDetector :=
        (c.forkDetector.onForkDetected c.blockTree header.number blocks).1 }.report
      (c.forkDetector.onForkDetected c.blockTree header.number blocks).2)
    header (c.epochAt header.number) blocks
    (ForkDetector.forkEventRow c.blockTree header.number blocks) c.hooked
  refine ⟨?_, hq.recordedForks, hq.totalForkCount, _, rfl, hq.recentForks⟩
  obtain ⟨rs, hrs, hp⟩ := hq.history
  refine ⟨[.forkDepth header.number (c.blockTree.measureForkDepth header.number),
    .forkActive header.number] ++ blocks.filterMap ForkDetector.authorReport ++ rs, ?_, ?_⟩
  · intro r hr
    rcases List.mem_append.mp hr with hr | hr
    · rcases List.mem_append.mp hr with hr | hr
      · simp only [List.mem_cons, List.not_mem_nil, or_false] at hr
        rcases hr with rfl | rfl <;> trivial
      · exact (inert_authorReports _ r hr).sideline
    · exact sideline_of_fromTask (hp r hr)
  · rw [hrs]
    simp [report, ForkDetector.onForkDetected]

/-- A new header is an event exactly if it competes at a height that is not recorded. -/
def Detects (c : ChainContext) (header : Header) : Prop :=
  1 < (c.blockTree.currentAt header.number).length ∧
    c.forkDetector.recordedForks.has header.number = false

/-- **What a new header does.** -/
theorem importNew_cases (c : ChainContext) (header : Header) :
    (Detects c header ∧ c.importNew header
      = { c with
          forkDetector := { c.forkDetector with
            recordedForks := c.forkDetector.recordedForks.add header.number } }.detectFork header
          (c.blockTree.currentAt header.number)) ∨
    (¬ Detects c header ∧ ∃ rs t, (∀ r ∈ rs, Inert r) ∧ owedRow t = none ∧
      c.importNew header = (c.report rs).await t) := by
  unfold importNew Detects
  dsimp only
  by_cases hlen : 1 < (c.blockTree.currentAt header.number).length
  · by_cases hrec : c.forkDetector.recordedForks.has header.number = true
    · rw [if_pos hlen, if_pos hrec]
      exact Or.inr ⟨fun h => absurd h.2 (by simp [hrec]), _, _,
        fun r hr => inert_of_aboutBlocks (aboutBlocks_onForkUpdated hr), rfl, rfl⟩
    · rw [if_pos hlen, if_neg hrec]
      exact Or.inl ⟨⟨hlen, by simpa using hrec⟩, rfl⟩
  · rw [if_neg hlen]
    refine Or.inr ⟨fun h => hlen h.1, [], .imported header false, by simp, rfl, ?_⟩
    simp [report]

theorem importNew_of_detects {c : ChainContext} {header : Header} (h : Detects c header) :
    (∀ x n, Delivered (c.importNew header) x n ↔ Delivered c x n) ∧
      eventHeights (c.importNew header).history
        = eventHeights c.history ++ [header.number] ∧
      (c.importNew header).forkDetector.recordedForks
        = c.forkDetector.recordedForks.add header.number := by
  rcases importNew_cases c header with ⟨-, heq⟩ | ⟨hn, -⟩
  · rw [heq]
    obtain ⟨⟨rs, hrs, hhist⟩, hrec, -, -⟩ := detectFork_spec
      { c with
        forkDetector := { c.forkDetector with
          recordedForks := c.forkDetector.recordedForks.add header.number } } header
      (c.blockTree.currentAt header.number)
    refine ⟨fun x n => ?_, ?_, hrec⟩
    · unfold Delivered
      rw [hhist]
      refine ⟨?_, ?_⟩
      · intro hex
        obtain ⟨node, hm⟩ := hex
        rcases List.mem_append.mp hm with hm | hm
        · exact ⟨node, hm⟩
        · rcases List.mem_cons.mp hm with hm | hm
          · exact absurd hm (by simp)
          · exact absurd hm (not_delivered_of_sideline hrs)
      · intro hex
        obtain ⟨node, hm⟩ := hex
        exact ⟨node, List.mem_append_left _ hm⟩
    · rw [hhist, eventHeights_append, show Report.forkEvent header.number :: rs
        = [.forkEvent header.number] ++ rs from rfl, eventHeights_append,
        eventHeights_of_sideline hrs, List.append_nil]
      rfl
  · exact absurd h hn

theorem importNew_of_not_detects {c : ChainContext} {header : Header} (h : ¬ Detects c header) :
    (∀ x n, Delivered (c.importNew header) x n ↔ Delivered c x n) ∧
      eventHeights (c.importNew header).history = eventHeights c.history ∧
      (c.importNew header).forkDetector.recordedForks = c.forkDetector.recordedForks := by
  rcases importNew_cases c header with ⟨hd, -⟩ | ⟨-, rs, t, hrs, -, heq⟩
  · exact absurd hd h
  · rw [heq]
    obtain ⟨h1, h2⟩ := sideline_step (show ((c.report rs).await t).history = c.history ++ rs from rfl)
      fun r hr => (hrs r hr).sideline
    exact ⟨h2, h1, rfl⟩

/-! ## The invariants of the detector -/

/-- What tree, detector and history know about each other. -/
structure DetectorInv (L : Lineage Hash) (c : ChainContext) : Prop extends TrueTree L c where
  /-- Deliveries are of true headers. -/
  deliveredNumber : ∀ x n, Delivered c x n → n = L.number x
  /-- Whatever is stored was delivered. -/
  storedDelivered : ∀ x, Holds c.blockTree x → Delivered c x (L.number x)
  /-- Whatever is recorded was reported. -/
  recordedReported : ∀ n, c.forkDetector.recordedForks.has n = true → n ∈ eventHeights c.history

theorem detectorInv_init (L : Lineage Hash) (config : ChainConfig) (opts : TxOptions) :
    DetectorInv L (machine config opts).init where
  toTrueTree := trueTree_init L config opts
  deliveredNumber := by
    rintro x n ⟨node, h⟩
    exact absurd h (by simp [machine])
  storedDelivered := by
    rintro x ⟨r, h⟩
    exact absurd h (by simp [machine, BlockTree.getBlock])
  recordedReported := by
    intro n h
    exact absurd h (by simp [machine])

/-- One delivery more. -/
theorem delivered_iff (c : ChainContext) (node : NodeName) (header : Header) (x : Hash) (n : Nat) :
    (∃ node', .delivered node' x n ∈ c.history ∨
        node' = node ∧ x = header.hash ∧ n = header.number) ↔
      Delivered c x n ∨ x = header.hash ∧ n = header.number := by
  refine ⟨?_, ?_⟩
  · intro h
    obtain ⟨node', h | ⟨-, rfl, rfl⟩⟩ := h
    · exact Or.inl ⟨node', h⟩
    · exact Or.inr ⟨rfl, rfl⟩
  · intro h
    obtain ⟨node', h⟩ | ⟨rfl, rfl⟩ := h
    · exact ⟨node', Or.inl h⟩
    · exact ⟨node, Or.inr ⟨rfl, rfl, rfl⟩⟩

/-- Entering a header adds its delivery, and its hash to the store. -/
theorem entered_spec (c : ChainContext) (node : NodeName) (header : Header) :
    (∀ x n, Delivered (entered c node header) x n
      ↔ Delivered c x n ∨ x = header.hash ∧ n = header.number) ∧
    eventHeights (entered c node header).history = eventHeights c.history ∧
    ∀ x, Holds (entered c node header).blockTree x ↔ Holds c.blockTree x ∨ x = header.hash := by
  refine ⟨fun x n => ?_, ?_, fun x => ?_⟩
  · simp only [Delivered, entered, report, List.mem_append, List.mem_cons, Report.delivered.injEq,
      reduceCtorEq, List.not_mem_nil, or_false]
    exact delivered_iff c node header x n
  · show eventHeights (c.history ++ _) = _
    rw [eventHeights_append]
    exact List.append_nil _
  · show (∃ r, (c.blockTree.insertRecord (recordOf node header)).getBlock x = some r) ↔ _
    rw [getBlock_insertRecord]
    show (∃ r, (if x = header.hash then _ else _) = some r) ↔ _
    by_cases hx : x = header.hash
    · simp [hx]
    · simp [hx, Holds]

/-- Seeing a header again adds its delivery only. -/
theorem seenAgain_spec (c : ChainContext) (node : NodeName) (header : Header) :
    (∀ x n, Delivered (seenAgain c node header) x n
      ↔ Delivered c x n ∨ x = header.hash ∧ n = header.number) ∧
    eventHeights (seenAgain c node header).history = eventHeights c.history ∧
    ∀ x, Holds (seenAgain c node header).blockTree x ↔ Holds c.blockTree x := by
  refine ⟨fun x n => ?_, ?_, fun x => ?_⟩
  · simp only [Delivered, seenAgain, report, List.mem_append, List.mem_cons,
      Report.delivered.injEq, List.not_mem_nil, or_false]
    exact delivered_iff c node header x n
  · show eventHeights (c.history ++ _) = _
    rw [eventHeights_append]
    exact List.append_nil _
  · have href : Refreshed c.blockTree (c.blockTree.updateRecord header.hash
        (fun r => { r with seenByNodes := r.seenByNodes.add node })) :=
      Refreshed.refl.update header.hash fun _ => ⟨rfl, rfl, rfl⟩
    exact href.holds x

theorem detectorInv_step {L : Lineage Hash} {c : ChainContext} {e : Event} (h : DetectorInv L c)
    (he : FromLineage L e) : DetectorInv L (c.step e) := by
  have htree := trueTree_step h.toTrueTree he
  by_cases hheads : ∃ node header, e = .allHeads node header
  · obtain ⟨node, header, rfl⟩ := hheads
    have hnum : header.number = L.number header.hash := he.1
    cases hget : c.blockTree.getBlock header.hash with
    | some r =>
        obtain ⟨hdel, hev, hholds⟩ := seenAgain_spec c node header
        rw [step_allHeads_of_known hget] at htree ⊢
        refine ⟨htree, fun x n hx => ?_, fun x hx => ?_, fun n hn => ?_⟩
        · rcases (hdel x n).mp hx with hx | ⟨rfl, rfl⟩
          · exact h.deliveredNumber x n hx
          · exact hnum
        · exact (hdel _ _).mpr (Or.inl (h.storedDelivered x ((hholds x).mp hx)))
        · rw [hev]
          exact h.recordedReported n hn
    | none =>
        obtain ⟨hdel, hev, hholds⟩ := entered_spec c node header
        have htreeEq := (importNew_frame (entered c node header) header).2.1
        rw [step_allHeads_of_new hget] at htree ⊢
        -- the detector reports nothing as delivered, and puts on record what it reports
        have hinv : (∀ x n, Delivered ((entered c node header).importNew header) x n
              ↔ Delivered (entered c node header) x n) ∧
            ∀ n, ((entered c node header).importNew header).forkDetector.recordedForks.has n = true →
              n ∈ eventHeights ((entered c node header).importNew header).history := by
          by_cases hd : Detects (entered c node header) header
          · obtain ⟨h1, h2, h3⟩ := importNew_of_detects hd
            refine ⟨h1, fun n hn => ?_⟩
            rw [h3, OrdMap.has_add, Bool.or_eq_true, decide_eq_true_eq] at hn
            rw [h2, hev]
            rcases hn with rfl | hn
            · simp
            · exact List.mem_append_left _ (h.recordedReported n hn)
          · obtain ⟨h1, h2, h3⟩ := importNew_of_not_detects hd
            refine ⟨h1, fun n hn => ?_⟩
            rw [h3] at hn
            rw [h2, hev]
            exact h.recordedReported n hn
        refine ⟨htree, fun x n hx => ?_, fun x hx => ?_, hinv.2⟩
        · rcases (hdel x n).mp ((hinv.1 x n).mp hx) with hx | ⟨rfl, rfl⟩
          · exact h.deliveredNumber x n hx
          · exact hnum
        · rw [htreeEq] at hx
          rw [hinv.1, hdel]
          rcases (hholds x).mp hx with hx | rfl
          · exact Or.inl (h.storedDelivered x hx)
          · exact Or.inr ⟨rfl, hnum.symm⟩
  · push Not at hheads
    obtain ⟨hev, hdel, hrec, hholds⟩ := quiet_events hheads h.inv
    refine ⟨htree, fun x n hx => h.deliveredNumber x n ((hdel x n).mp hx), fun x hx => ?_,
      fun n hn => ?_⟩
    · exact (hdel _ _).mpr (h.storedDelivered x (hholds x hx))
    · rw [hev]
      exact h.recordedReported n (hrec n hn)

end ForkWatch.Proof
