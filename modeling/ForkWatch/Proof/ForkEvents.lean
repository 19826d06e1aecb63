import ForkWatch.Proof.ForkBooks

/-!
# One fork event per fork

A height is forked once two different blocks were delivered for it. The detector
does not remember deliveries: it looks at the tree when a new header comes in,
and at `recordedForks` to know whether it has reported the height before. Both
forget. `recordedForks` forgets a height when it is finalized or pruned, the tree
when it is pruned, and so a late header can be told as a second fork, or a fork
can go untold.

`TimelyHeader` lists the headers for which this does not happen, by what the tree and
`recordedForks` hold and have ever held (`EverRecorded`), and along a run the count is
right exactly as long as all headers are of that kind (`oneEventPerFork_iff`). `ForkBooks` is the part that never goes wrong: counter,
ring buffer and database rows agree with the events.
-/

namespace ForkWatch.Proof

open Lib ChainContext

/-- The event count of one height is right. -/
structure OneEventAt (c : ChainContext) (n : Nat) : Prop where
  /-- Two different blocks were delivered: one event. -/
  forked : ∀ x y, x ≠ y → Delivered c x n → Delivered c y n →
    (eventHeights c.history).count n = 1
  /-- All deliveries were of one block: none. -/
  unforked : (∀ x y, Delivered c x n → Delivered c y n → x = y) →
    (eventHeights c.history).count n = 0

/-- **One fork event per fork,** and with it one of everything that goes with an event. -/
structure OneEventPerFork (c : ChainContext) : Prop where
  events : ∀ n, OneEventAt c n
  books : ForkBooks c

/-- `recordedForks` holds the height, or has held it before. -/
def EverRecorded (m : Machine ChainContext Event) (evs : List Event) (n : Nat) : Prop :=
  ∃ pre, pre <+: evs ∧ (m.run pre).forkDetector.recordedForks.has n = true

/-- The headers that tree and detector together judge right; `told` are the heights told before. -/
def TimelyHeader (told : Nat → Prop) (c : ChainContext) : Event → Prop
  | .allHeads _ header =>
      -- a header that is stored already
      Holds c.blockTree header.hash ∨
      -- one more block at a height that is recorded
      c.forkDetector.recordedForks.has header.number = true ∨
      -- the first competitor of a stored block
      (HasBlockAt c.blockTree header.number ∧ ¬ told header.number) ∨
      -- no block is stored: the fork was told before, or there is none
      (¬ HasBlockAt c.blockTree header.number ∧
        (told header.number ∨
          ∀ y, Delivered c y header.number → y = header.hash))
  | _ => True

theorem timelyHeader_congr {told told' : Nat → Prop} (h : ∀ n, told n ↔ told' n)
    (c : ChainContext) (e : Event) : TimelyHeader told c e ↔ TimelyHeader told' c e := by
  rw [funext fun n => propext (h n)]

theorem OneEventAt.count_eq {c : ChainContext} {n : Nat} (h : OneEventAt c n) :
    (eventHeights c.history).count n = if n ∈ eventHeights c.history then 1 else 0 := by
  have hle : (eventHeights c.history).count n ≤ 1 := by
    by_cases hall : ∀ x y, Delivered c x n → Delivered c y n → x = y
    · rw [h.unforked hall]; omega
    · push Not at hall
      obtain ⟨x, y, hx, hy, hne⟩ := hall
      rw [h.forked x y hne hx hy]
  split
  · rename_i hm
    have := List.count_pos_iff.mpr hm
    omega
  · rename_i hm
    exact List.count_eq_zero.mpr hm

theorem oneEventAt_congr {c c' : ChainContext} {n : Nat}
    (hdel : ∀ x, Delivered c' x n ↔ Delivered c x n)
    (hev : (eventHeights c'.history).count n = (eventHeights c.history).count n) :
    OneEventAt c' n ↔ OneEventAt c n := by
  refine ⟨?_, ?_⟩
  · intro hboth
    obtain ⟨h1, h2⟩ := hboth
    refine ⟨fun x y hne hx hy => ?_, fun hall => ?_⟩
    · rw [← hev]; exact h1 x y hne ((hdel x).mpr hx) ((hdel y).mpr hy)
    · rw [← hev]; exact h2 fun x y hx hy => hall x y ((hdel x).mp hx) ((hdel y).mp hy)
  · intro hboth
    obtain ⟨h1, h2⟩ := hboth
    refine ⟨fun x y hne hx hy => ?_, fun hall => ?_⟩
    · rw [hev]; exact h1 x y hne ((hdel x).mp hx) ((hdel y).mp hy)
    · rw [hev]; exact h2 fun x y hx hy => hall x y ((hdel x).mpr hx) ((hdel y).mpr hy)

/-- A block stored at a height was delivered for it. -/
theorem exists_delivered_of_hasBlockAt {L : Lineage Hash} {c : ChainContext} (h : DetectorInv L c)
    {n : Nat} (hb : HasBlockAt c.blockTree n) :
    ∃ x, Holds c.blockTree x ∧ Delivered c x n := by
  obtain ⟨m, hm⟩ := hb
  have hpos := h.inv.inhabited n m hm
  have hne : ¬ ∀ x, m.get? x = none := fun hall => by
    rw [OrdMap.size_eq_zero_iff.mpr hall] at hpos
    exact Nat.lt_irrefl _ hpos
  push Not at hne
  obtain ⟨x, hx⟩ := hne
  obtain ⟨r, hr⟩ := Option.ne_none_iff_exists'.mp hx
  obtain ⟨hnum, -, hget⟩ := h.inv.byHeight n m x r hm hr
  refine ⟨x, ⟨r, hget⟩, ?_⟩
  rw [← hnum, (h.authentic x r hget).2.1]
  exact h.storedDelivered x ⟨r, hget⟩

/-- Once two different blocks were delivered, there must be one event. -/
theorem oneEventAt_iff_of_two {c : ChainContext} {n : Nat} {x y : Hash} (hne : x ≠ y)
    (hx : Delivered c x n) (hy : Delivered c y n) :
    OneEventAt c n ↔ (eventHeights c.history).count n = 1 := by
  refine ⟨fun h => h.forked x y hne hx hy, fun hone => ⟨fun _ _ _ _ _ => hone, fun hall => ?_⟩⟩
  exact absurd (hall x y hx hy) hne

/-- As long as all deliveries were of one block, there must be none. -/
theorem oneEventAt_iff_of_one {c : ChainContext} {n : Nat}
    (hall : ∀ x y, Delivered c x n → Delivered c y n → x = y) :
    OneEventAt c n ↔ (eventHeights c.history).count n = 0 := by
  refine ⟨fun h => h.unforked hall, fun hnone => ⟨fun x y hne hx hy => ?_, fun _ => hnone⟩⟩
  exact absurd (hall x y hx hy) hne

/-- What a new header adds: a delivery, and a fork event if the detector sees one. -/
theorem newHeader_spec {c : ChainContext} (node : NodeName) {header : Header}
    (hnew : c.blockTree.getBlock header.hash = none) :
    (∀ x n, Delivered (c.step (.allHeads node header)) x n
      ↔ Delivered c x n ∨ x = header.hash ∧ n = header.number) ∧
    (Detects (entered c node header) header →
      eventHeights (c.step (.allHeads node header)).history
        = eventHeights c.history ++ [header.number]) ∧
    (¬ Detects (entered c node header) header →
      eventHeights (c.step (.allHeads node header)).history = eventHeights c.history) := by
  obtain ⟨hdel, hev, -⟩ := entered_spec c node header
  rw [step_allHeads_of_new hnew]
  refine ⟨fun x n => ?_, fun hd => ?_, fun hd => ?_⟩
  · by_cases hd : Detects (entered c node header) header
    · rw [(importNew_of_detects hd).1, hdel]
    · rw [(importNew_of_not_detects hd).1, hdel]
  · rw [(importNew_of_detects hd).2.1, hev]
  · rw [(importNew_of_not_detects hd).2.1, hev]

/-- Other heights are not concerned. -/
theorem oneEvent_elsewhere {c : ChainContext} {node : NodeName} {header : Header}
    (hnew : c.blockTree.getBlock header.hash = none) {n : Nat} (hn : n ≠ header.number) :
    OneEventAt (c.step (.allHeads node header)) n ↔ OneEventAt c n := by
  obtain ⟨hdel, hdetects, hnot⟩ := newHeader_spec node hnew
  refine oneEventAt_congr (fun x => ?_) ?_
  · rw [hdel]
    exact ⟨fun hx => hx.resolve_right fun hx => hn hx.2, Or.inl⟩
  · by_cases hd : Detects (entered c node header) header
    · rw [hdetects hd, List.count_append]
      simp [Ne.symm hn]
    · rw [hnot hd]

/-- Next to a stored block, the height is forked from now on. -/
theorem oneEvent_of_competitor {L : Lineage Hash} {c : ChainContext} (h : DetectorInv L c)
    {node : NodeName} {header : Header} (hP : OneEventAt c header.number)
    (hnew : c.blockTree.getBlock header.hash = none)
    (hblock : HasBlockAt c.blockTree header.number) :
    OneEventAt (c.step (.allHeads node header)) header.number
      ↔ c.forkDetector.recordedForks.has header.number = true ∨
        header.number ∉ eventHeights c.history := by
  obtain ⟨hdel, hdetects, hquiet⟩ := newHeader_spec node hnew
  obtain ⟨y, ⟨r, hr⟩, hyd⟩ := exists_delivered_of_hasBlockAt h hblock
  have hyne : y ≠ header.hash := fun heq => by
    rw [heq, hnew] at hr
    exact absurd hr (by simp)
  rw [oneEventAt_iff_of_two hyne ((hdel _ _).mpr (Or.inl hyd)) ((hdel _ _).mpr (Or.inr ⟨rfl, rfl⟩))]
  by_cases hrec : c.forkDetector.recordedForks.has header.number = true
  · -- it is recorded, hence told already
    have hd : ¬ Detects (entered c node header) header := fun hd => by
      have hfalse : c.forkDetector.recordedForks.has header.number = false := hd.2
      rw [hrec] at hfalse
      exact absurd hfalse (by simp)
    rw [hquiet hd, hP.count_eq, if_pos (h.recordedReported _ hrec)]
    exact ⟨fun _ => Or.inl hrec, fun _ => rfl⟩
  · -- it is not, so this header is an event, whatever was told before
    have hfalse : c.forkDetector.recordedForks.has header.number = false := by simpa using hrec
    have hd : Detects (entered c node header) header :=
      ⟨(competing_iff node h.inv hnew).mpr hblock, hfalse⟩
    rw [hdetects hd, List.count_append, hP.count_eq, List.count_singleton_self]
    by_cases hm : header.number ∈ eventHeights c.history
    · rw [if_pos hm]
      exact ⟨fun hone => absurd hone (by simp), fun hor => absurd hm (hor.resolve_left hrec)⟩
    · rw [if_neg hm]
      exact ⟨fun _ => Or.inr hm, fun _ => rfl⟩

/-- Where nothing is stored, nothing is detected, and only the past can make it a fork. -/
theorem oneEvent_of_alone {L : Lineage Hash} {c : ChainContext} (h : DetectorInv L c)
    {node : NodeName} {header : Header} (hP : OneEventAt c header.number)
    (hnew : c.blockTree.getBlock header.hash = none)
    (hblock : ¬ HasBlockAt c.blockTree header.number) :
    OneEventAt (c.step (.allHeads node header)) header.number
      ↔ header.number ∈ eventHeights c.history ∨
        ∀ y, Delivered c y header.number → y = header.hash := by
  obtain ⟨hdel, -, hquiet⟩ := newHeader_spec node hnew
  have hd : ¬ Detects (entered c node header) header := fun hd =>
    hblock ((competing_iff node h.inv hnew).mp hd.1)
  have hcount := hquiet hd
  by_cases hall : ∀ y, Delivered c y header.number → y = header.hash
  · -- only this block was ever delivered
    have honly : ∀ x, Delivered (c.step (.allHeads node header)) x header.number →
        x = header.hash := fun x hx => by
      rcases (hdel _ _).mp hx with hx | ⟨hx, -⟩
      · exact hall x hx
      · exact hx
    rw [oneEventAt_iff_of_one fun x y hx hy => (honly x hx).trans (honly y hy).symm, hcount]
    have hnone : (eventHeights c.history).count header.number = 0 :=
      hP.unforked fun x y hx hy => (hall x hx).trans (hall y hy).symm
    exact ⟨fun _ => Or.inr hall, fun _ => hnone⟩
  · have hsome := hall
    push Not at hsome
    obtain ⟨y, hyd, hyne⟩ := hsome
    rw [oneEventAt_iff_of_two hyne ((hdel _ _).mpr (Or.inl hyd))
      ((hdel _ _).mpr (Or.inr ⟨rfl, rfl⟩)), hcount, hP.count_eq]
    by_cases hm : header.number ∈ eventHeights c.history
    · rw [if_pos hm]
      exact ⟨fun _ => Or.inl hm, fun _ => rfl⟩
    · rw [if_neg hm]
      exact ⟨fun hone => absurd hone (by simp), fun hor => (hor.elim hm hall).elim⟩

/-- A new header leaves the count right exactly if it is timely. -/
theorem oneEvent_of_new {L : Lineage Hash} {c : ChainContext} (h : DetectorInv L c)
    (hP : ∀ n, OneEventAt c n) {node : NodeName} {header : Header}
    (hnew : c.blockTree.getBlock header.hash = none) :
    (∀ n, OneEventAt (c.step (.allHeads node header)) n)
      ↔ TimelyHeader (· ∈ eventHeights c.history) c (.allHeads node header) := by
  have hnot : ¬ Holds c.blockTree header.hash := by
    intro hex
    obtain ⟨r, hr⟩ := hex
    rw [hnew] at hr
    exact absurd hr (by simp)
  have hsplit : (∀ n, OneEventAt (c.step (.allHeads node header)) n)
      ↔ OneEventAt (c.step (.allHeads node header)) header.number := by
    refine ⟨fun hall => hall _, fun hone n => ?_⟩
    by_cases hn : n = header.number
    · rw [hn]; exact hone
    · exact (oneEvent_elsewhere hnew hn).mpr (hP n)
  rw [hsplit]
  unfold TimelyHeader
  by_cases hblock : HasBlockAt c.blockTree header.number
  · rw [oneEvent_of_competitor h (hP _) hnew hblock]
    simp only [hnot, hblock, false_or, true_and, not_true_eq_false, false_and, or_false]
  · rw [oneEvent_of_alone h (hP _) hnew hblock]
    simp only [hnot, hblock, false_or, false_and, not_false_eq_true, true_and]
    exact (or_iff_right_of_imp fun hrec => Or.inl (h.recordedReported _ hrec)).symm

/-! ## The heights that were told -/

/-- A step tells of no more heights than it records. -/
theorem eventHeights_step {c : ChainContext} (hi : TreeInv c.blockTree) (e : Event) :
    ∃ heights, eventHeights (c.step e).history = eventHeights c.history ++ heights ∧
      ∀ n ∈ heights, (c.step e).forkDetector.recordedForks.has n = true := by
  by_cases hheads : ∃ node header, e = .allHeads node header
  · obtain ⟨node, header, rfl⟩ := hheads
    cases hget : c.blockTree.getBlock header.hash with
    | none =>
        obtain ⟨-, hdetects, hquiet⟩ := newHeader_spec node hget
        by_cases hd : Detects (entered c node header) header
        · refine ⟨_, hdetects hd, fun n hn => ?_⟩
          rw [List.mem_singleton.mp hn, step_allHeads_of_new hget, (importNew_of_detects hd).2.2,
            OrdMap.has_add, decide_eq_true rfl, Bool.true_or]
        · exact ⟨[], (hquiet hd).trans (List.append_nil _).symm, by simp⟩
    | some r =>
        rw [step_allHeads_of_known hget]
        obtain ⟨-, hev, -⟩ := seenAgain_spec c node header
        exact ⟨[], hev.trans (List.append_nil _).symm, by simp⟩
  · push Not at hheads
    obtain ⟨hev, -⟩ := quiet_events hheads hi
    exact ⟨[], hev.trans (List.append_nil _).symm, by simp⟩

/-- **A fork event was told of a height exactly if the height has ever been recorded.** -/
theorem mem_eventHeights_iff {L : Lineage Hash} {config : ChainConfig} {opts : TxOptions}
    {evs : List Event} (h : ∀ e ∈ evs, FromLineage L e) (n : Nat) :
    n ∈ eventHeights ((machine config opts).run evs).history
      ↔ EverRecorded (machine config opts) evs n := by
  have hinv : ∀ pre, pre <+: evs → DetectorInv L ((machine config opts).run pre) := fun pre hpre =>
    Machine.run_invariant (A := FromLineage L) (detectorInv_init L config opts)
      (fun _ _ hi he => detectorInv_step hi he) fun e he => h e (hpre.subset he)
  induction evs using List.reverseRecOn with
  | nil =>
      refine iff_of_false (by simp [machine, eventHeights]) ?_
      rintro ⟨pre, hpre, hrec⟩
      rw [List.prefix_nil.mp hpre] at hrec
      exact absurd hrec (by simp [machine])
  | append_singleton evs e ih =>
      have hpre : evs <+: evs ++ [e] := List.prefix_append evs [e]
      have hbefore := ih (fun e he => h e (hpre.subset he)) fun pre hp => hinv pre (hp.trans hpre)
      obtain ⟨heights, hev, hrec⟩ := eventHeights_step (hinv evs hpre).inv e
      refine ⟨?_, ?_⟩
      · intro hn
        rw [Machine.run_snoc] at hn
        rw [show (machine config opts).step = ChainContext.step from rfl, hev] at hn
        rcases List.mem_append.mp hn with hold | hnew
        · obtain ⟨pre, hp, hhas⟩ := hbefore.mp hold
          exact ⟨pre, hp.trans hpre, hhas⟩
        · refine ⟨evs ++ [e], List.prefix_refl _, ?_⟩
          rw [Machine.run_snoc]
          exact hrec n hnew
      · rintro ⟨pre, hp, hhas⟩
        rcases List.prefix_concat_iff.mp hp with rfl | hp
        · exact (hinv _ (List.prefix_refl _)).recordedReported n hhas
        · rw [Machine.run_snoc]
          rw [show (machine config opts).step = ChainContext.step from rfl, hev]
          exact List.mem_append_left _ (hbefore.mpr ⟨pre, hp, hhas⟩)

/--
**Exactly when there is one fork event per fork.**

The count is right in every state of a run exactly if each header that arrives is
stored already, or meets a height the detector can judge: recorded, or with a
block to compete with and never recorded yet, or without a block and rightly so.
-/
theorem oneEventPerFork_iff (L : Lineage Hash) (config : ChainConfig) (opts : TxOptions)
    (evs : List Event) (h : ∀ e ∈ evs, FromLineage L e) :
    (∀ pre, pre <+: evs → OneEventPerFork ((machine config opts).run pre))
      ↔ ∀ pre e, pre ++ [e] <+: evs → TimelyHeader (EverRecorded (machine config opts) pre)
          ((machine config opts).run pre) e := by
  have htold : ∀ pre e, pre ++ [e] <+: evs →
      (TimelyHeader (EverRecorded (machine config opts) pre) ((machine config opts).run pre) e
        ↔ TimelyHeader (· ∈ eventHeights ((machine config opts).run pre).history)
          ((machine config opts).run pre) e) := by
    intro pre e hpre
    have hbefore : ∀ e' ∈ pre, FromLineage L e' := fun e' he' =>
      h e' (hpre.subset (List.mem_append_left _ he'))
    exact timelyHeader_congr (fun n => (mem_eventHeights_iff hbefore n).symm) _ e
  have hsplits : (∀ pre e, pre ++ [e] <+: evs → TimelyHeader (EverRecorded (machine config opts) pre)
      ((machine config opts).run pre) e)
      ↔ (machine config opts).Guarded (fun c => TimelyHeader (· ∈ eventHeights c.history) c)
        (machine config opts).init evs := by
    rw [Machine.guarded_iff]
    exact forall_congr' fun pre => forall_congr' fun e => forall_congr' fun hpre => htold pre e hpre
  rw [hsplits]
  refine Machine.always_iff_guarded (A := fun _ => FromLineage L)
    (I := fun c => DetectorInv L c ∧ ForkBooks c)
    ⟨detectorInv_init L config opts, forkBooks_init config opts⟩
    (fun c e hi he => ⟨detectorInv_step hi.1 he, forkBooks_step hi.2 hi.1.inv e⟩) ?_ ?_
    (Machine.guarded_of_forall h)
  · refine ⟨fun n => ⟨?_, fun _ => rfl⟩, forkBooks_init config opts⟩
    rintro x y - ⟨node, hx⟩ -
    exact absurd hx (by simp [machine])
  · rintro c e ⟨hi, hbooks⟩ he ⟨hP, -⟩
    have hsplit : OneEventPerFork (c.step e) ↔ ∀ n, OneEventAt (c.step e) n :=
      ⟨fun hone => hone.events, fun hall => ⟨hall, forkBooks_step hbooks hi.inv e⟩⟩
    show OneEventPerFork (c.step e) ↔ _
    rw [hsplit]
    by_cases hheads : ∃ node header, e = .allHeads node header
    · obtain ⟨node, header, rfl⟩ := hheads
      cases hget : c.blockTree.getBlock header.hash with
      | none => exact oneEvent_of_new hi hP hget
      | some r =>
          have hnum : header.number = L.number header.hash := he.1
          -- a header that comes again was delivered with this number before
          have hstored : Delivered c header.hash header.number := by
            rw [hnum]
            exact hi.storedDelivered _ ⟨r, hget⟩
          obtain ⟨hdel, hev, -⟩ := seenAgain_spec c node header
          refine ⟨fun _ => Or.inl ⟨r, hget⟩, fun _ n => ?_⟩
          rw [step_allHeads_of_known hget]
          refine (oneEventAt_congr (c := c) (fun x => ?_) (by rw [hev])).mpr (hP n)
          rw [hdel]
          refine ⟨?_, Or.inl⟩
          rintro (hx | ⟨rfl, rfl⟩)
          · exact hx
          · exact hstored
    · push Not at hheads
      obtain ⟨hev, hdel, -, -⟩ := quiet_events hheads hi.inv
      -- without a header, there is nothing to be late
      have htimely : TimelyHeader (· ∈ eventHeights c.history) c e := by
        cases e with
        | allHeads node header => exact absurd rfl (hheads node header)
        | _ => trivial
      refine ⟨fun _ => htimely, fun _ n => ?_⟩
      exact (oneEventAt_congr (fun x => hdel x n) (by rw [hev])).mpr (hP n)

/-- Three competing blocks at one height, from two nodes. -/
def threeBlocksRun : List Event :=
  [reports smallLineage "n" "a1", reports smallLineage "m" "a2", reports smallLineage "m" "a3"]

theorem fromLineage_threeBlocksRun : ∀ e ∈ threeBlocksRun, FromLineage smallLineage e := by
  intro e he
  simp only [threeBlocksRun, List.mem_cons, List.not_mem_nil, or_false] at he
  rcases he with rfl | rfl | rfl <;> exact fromLineage_reports ..

/-- They are one fork event. -/
theorem oneEventPerFork_threeBlocks : OneEventPerFork ((machine {} {}).run threeBlocksRun) := by
  refine (oneEventPerFork_iff smallLineage {} {} threeBlocksRun fromLineage_threeBlocksRun).mpr
    (fun pre e hpre => ?_) _ (List.prefix_refl _)
  have hbefore : ∀ e' ∈ pre, FromLineage smallLineage e' := fun e' he' =>
    fromLineage_threeBlocksRun e' (hpre.subset (List.mem_append_left _ he'))
  have htold : 1 ∈ eventHeights ((machine {} {}).run pre).history
      ↔ EverRecorded (machine {} {}) pre 1 := mem_eventHeights_iff hbefore 1
  obtain ⟨post, hpost⟩ := hpre
  rcases pre with _ | ⟨p, _ | ⟨q, _ | ⟨r, rest⟩⟩⟩
  · obtain ⟨rfl, -⟩ := List.cons.inj hpost
    refine Or.inr (Or.inr (Or.inr ⟨?_, Or.inr ?_⟩))
    · intro hex
      obtain ⟨m, hm⟩ := hex
      exact absurd (hm.symm.trans rfl) (Option.some_ne_none m)
    · rintro y ⟨node, hy⟩
      exact absurd hy (by simp [machine])
  · obtain ⟨rfl, hrest⟩ := List.cons.inj hpost
    obtain ⟨rfl, -⟩ := List.cons.inj hrest
    exact Or.inr (Or.inr (Or.inl ⟨⟨_, rfl⟩, mt htold.mpr (by decide)⟩))
  · obtain ⟨rfl, hrest⟩ := List.cons.inj hpost
    obtain ⟨rfl, hlast⟩ := List.cons.inj hrest
    obtain ⟨rfl, -⟩ := List.cons.inj hlast
    exact Or.inr (Or.inl (by decide))
  · simp [threeBlocksRun] at hpost

/-- A third block that comes after its height was finalized. -/
def lateBlockRun : List Event :=
  [reports smallLineage "n" "a1", reports smallLineage "n" "a2", finalizes smallLineage "n" "a1",
    reports smallLineage "m" "a3"]

/-- It is told as a second fork of the same height. -/
theorem not_oneEventPerFork_lateBlockRun :
    (∀ e ∈ lateBlockRun, FromLineage smallLineage e) ∧
      ¬ OneEventPerFork ((machine {} {}).run lateBlockRun) := by
  refine ⟨?_, fun h => ?_⟩
  · intro e he
    simp only [lateBlockRun, List.mem_cons, List.not_mem_nil, or_false] at he
    rcases he with rfl | rfl | rfl | rfl
    · exact fromLineage_reports ..
    · exact fromLineage_reports ..
    · exact fromLineage_finalizes ..
    · exact fromLineage_reports ..
  · have hone := (h.events 1).forked "a1" "a2" (by decide) ⟨"n", by decide⟩ ⟨"n", by decide⟩
    exact absurd hone (by decide)

end ForkWatch.Proof
