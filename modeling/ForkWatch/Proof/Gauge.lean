import ForkWatch.Proof.Detection
import ForkWatch.Proof.Resolution

/-!
# Does the gauge of active forks drift?

`active_fork_heights` goes up when a height is recorded, and down when a recorded
height is resolved. A prune takes heights off the record as well, without the
gauge going down. As a rule it finds none: the notification that prunes has just
resolved everything up to its own height. But it waits for the database in
between, and a fork told during that wait, far enough down, is lost to the gauge.
`gaugeRight_iff` says that nothing else makes it drift.
-/

namespace ForkWatch.Proof

open Lib ChainContext

/-- What a report does to the gauge. -/
def gaugeChange : Report → Int
  | .forkActive _ => 1
  | .forkInactive _ => -1
  | _ => 0

/-- The value of `active_fork_heights`. -/
def gauge (rs : List Report) : Int := (rs.map gaugeChange).sum

@[simp] theorem gauge_append (rs rs' : List Report) : gauge (rs ++ rs') = gauge rs + gauge rs' := by
  simp [gauge]

theorem gauge_eq_zero {rs : List Report} (h : ∀ r ∈ rs, gaugeChange r = 0) : gauge rs = 0 := by
  refine List.sum_eq_zero fun n hn => ?_
  obtain ⟨r, hr, rfl⟩ := List.mem_map.mp hn
  exact h r hr

/-- The gauge shows how many heights are on record. -/
def GaugeRight (c : ChainContext) : Prop :=
  gauge c.history = c.forkDetector.recordedForks.size

instance (c : ChainContext) : Decidable (GaugeRight c) := inferInstanceAs (Decidable (_ = _))

/-! ## One step -/

theorem gauge_fromTask {rs : List Report} (h : ∀ r ∈ rs, FromTask r) : gauge rs = 0 := by
  refine gauge_eq_zero fun r hr => ?_
  have hfrom := h r hr
  cases r with
  | forkActive => exact absurd hfrom id
  | forkInactive => exact absurd hfrom id
  | _ => rfl

theorem gauge_aboutBlocks {rs : List Report} (h : ∀ r ∈ rs, AboutBlocks r) : gauge rs = 0 := by
  refine gauge_eq_zero fun r hr => ?_
  have habout := h r hr
  cases r with
  | forkActive => exact absurd habout id
  | forkInactive => exact absurd habout id
  | _ => rfl

/-- Each resolved height is counted down once. -/
theorem gauge_resolveHeights (x : Hash) (heights : List Nat) (acc : ForkDetector × List Report) :
    gauge (heights.foldl (ForkDetector.resolveHeight x) acc).2 = gauge acc.2 - heights.length := by
  induction heights generalizing acc with
  | nil => simp
  | cons h heights ih =>
      have hone : gauge (ForkDetector.resolveHeight x acc h).2 = gauge acc.2 - 1 := by
        unfold ForkDetector.resolveHeight
        dsimp only
        rw [gauge_append, gauge_append]
        have hentry : gauge ((acc.1.recentEntry h).map fun f => Report.resolved
            { f with resolved := true, resolvedHash := some x } x).toList = 0 := by
          refine gauge_eq_zero fun r hr => ?_
          obtain ⟨f, -, rfl⟩ := Option.map_eq_some_iff.mp (Option.mem_toList.mp hr)
          rfl
        rw [hentry]
        have hdown : gauge [.forkInactive h] = -1 := rfl
        rw [hdown]
        omega
      rw [List.foldl_cons, ih, hone, List.length_cons]
      omega

theorem gauge_onHeightFinalized (d : ForkDetector) (F : Nat) (x : Hash) :
    gauge (d.onHeightFinalized F x).2 + d.recordedForks.size
      = (d.onHeightFinalized F x).1.recordedForks.size := by
  have hdown := gauge_resolveHeights x (d.recordedForks.keys.filter fun n => n ≤ F) (d, [])
  have hsplit : (d.recordedForks.keys.filter fun n => n ≤ F).length
      + (d.recordedForks.filter fun n _ => F < n).size = d.recordedForks.size := by
    have hkeys : (d.recordedForks.filter fun n _ => F < n).size
        = (d.recordedForks.keys.filter fun n => !decide (n ≤ F)).length := by
      unfold OrdMap.size OrdMap.keys OrdMap.filter
      rw [List.filter_map, List.length_map]
      refine congrArg List.length (List.filter_congr fun e _ => ?_)
      exact decide_eq_decide.mpr Nat.not_le.symm |>.trans (decide_not ..)
    rw [hkeys, OrdMap.size_eq_length_keys]
    exact List.length_eq_length_filter_add _ |>.symm
  rw [recordedForks_onHeightFinalized]
  unfold ForkDetector.onHeightFinalized
  rw [hdown]
  have hnil : gauge [] = 0 := rfl
  dsimp only
  rw [hnil]
  omega

/-- A detection is counted up once. -/
theorem gauge_detectFork (c : ChainContext) (header : Header) (blocks : List BlockRecord) :
    gauge (c.detectFork header blocks).history = gauge c.history + 1 := by
  have hauthors : gauge (blocks.filterMap ForkDetector.authorReport) = 0 := by
    refine gauge_aboutBlocks fun r hr => ?_
    obtain ⟨b, -, hb⟩ := List.mem_filterMap.mp hr
    exact aboutBlocks_authorReport hb
  have hreports : gauge (c.forkDetector.onForkDetected c.blockTree header.number blocks).2 = 1 := by
    unfold ForkDetector.onForkDetected
    dsimp only
    rw [gauge_append, hauthors]
    rfl
  unfold detectFork
  dsimp only
  obtain ⟨rs, hrs, hfrom⟩ := (quiet_insertForkBlocks
    ({ c with forkDetector :=
        (c.forkDetector.onForkDetected c.blockTree header.number blocks).1 }.report
      (c.forkDetector.onForkDetected c.blockTree header.number blocks).2)
    header (c.epochAt header.number) blocks (ForkDetector.forkEventRow c.blockTree header.number blocks)
    c.hooked).history
  rw [hrs, gauge_append, gauge_fromTask hfrom]
  unfold report
  dsimp only
  rw [gauge_append, hreports]
  omega

/-- A new header changes gauge and record by the same. -/
theorem gaugeRight_importNew {c : ChainContext} (h : GaugeRight c) (header : Header) :
    GaugeRight (c.importNew header) := by
  unfold GaugeRight at h ⊢
  by_cases hd : Detects c header
  · have hrecorded := (importNew_of_detects hd).2.2
    rcases importNew_cases c header with ⟨-, heq⟩ | ⟨hn, -⟩
    · have hnew : c.forkDetector.recordedForks.get? header.number = none :=
        OrdMap.has_eq_false_iff.mp hd.2
      have hsize : (c.forkDetector.recordedForks.add header.number).size
          = c.forkDetector.recordedForks.size + 1 := OrdMap.size_set_of_not_mem hnew
      rw [hrecorded, hsize, heq, gauge_detectFork, h]
      push_cast
      rfl
    · exact absurd hd hn
  · rw [(importNew_of_not_detects hd).2.2, ← h]
    unfold importNew
    dsimp only
    split
    · rename_i hlen
      split
      · unfold await report
        dsimp only
        rw [gauge_append, gauge_aboutBlocks fun r hr => aboutBlocks_onForkUpdated hr]
        omega
      · rename_i hrec
        exact absurd ⟨hlen, Bool.eq_false_iff.mpr hrec⟩ hd
    · rfl

/-- The prune finds no height on record that it would take off. -/
def PrunesNoFork (c : ChainContext) : Event → Prop
  | .resume i .done => ∀ F, c.tasks[i]? = some (.resolveForkEvent F) →
      ∀ n, c.forkDetector.recordedForks.has n = true → (F : Int) - c.config.pruneAfter < n
  | _ => True

theorem gaugeRight_report {c c' : ChainContext} (h : GaugeRight c) (rs : List Report)
    (hrs : gauge rs = 0) (hhist : c'.history = c.history ++ rs)
    (hrecorded : c'.forkDetector.recordedForks = c.forkDetector.recordedForks) :
    GaugeRight c' := by
  unfold GaugeRight at h ⊢
  rw [hhist, hrecorded, gauge_append, hrs, h, add_zero]

/-- The prune itself reports nothing. -/
theorem gaugeRight_prune {c : ChainContext} (h : GaugeRight c) (F : Nat) :
    GaugeRight (c.prune F) ↔ ∀ n, c.forkDetector.recordedForks.has n = true →
      (F : Int) - c.config.pruneAfter < n := by
  have hright : GaugeRight (c.prune F) ↔ (c.forkDetector.recordedForks.filter fun n _ =>
      !decide ((n : Int) ≤ F - c.config.pruneAfter)).size = c.forkDetector.recordedForks.size := by
    unfold GaugeRight at h ⊢
    change gauge c.history = ((c.forkDetector.recordedForks.filter fun n _ =>
      !decide ((n : Int) ≤ F - c.config.pruneAfter)).size : Int) ↔ _
    rw [h, Nat.cast_inj]
    exact eq_comm
  rw [hright, OrdMap.size_filter_eq_iff]
  refine ⟨fun hall n hn => ?_, fun hall n v hn => ?_⟩
  · obtain ⟨v, hv⟩ := OrdMap.has_iff.mp hn
    simpa using hall n v hv
  · simpa using hall n (OrdMap.has_iff.mpr ⟨v, hn⟩)

theorem gaugeRight_resume {c : ChainContext} (h : GaugeRight c) (i : Nat) (a : Answer) :
    GaugeRight (c.step (.resume i a)) ↔ PrunesNoFork c (.resume i a) := by
  by_cases hprune : ∃ F, c.tasks[i]? = some (.resolveForkEvent F) ∧ a = .done
  · obtain ⟨F, ht, rfl⟩ := hprune
    have hstep : c.step (.resume i .done) = (taken c i).prune F := by
      simp only [ChainContext.step, ht]
      rfl
    have htaken : GaugeRight (taken c i) := h
    rw [hstep, gaugeRight_prune htaken]
    unfold PrunesNoFork
    refine ⟨fun hall F' ht' => ?_, fun hall => hall F ht⟩
    rw [ht] at ht'
    obtain rfl := Task.resolveForkEvent.inj (Option.some.inj ht')
    exact hall
  · have hguard : PrunesNoFork c (.resume i a) := by
      cases a with
      | done => exact fun F ht => absurd ⟨F, ht, rfl⟩ hprune
      | _ => trivial
    refine iff_of_true ?_ hguard
    rcases resume_cases c i a with ⟨x, n, body, -, -, heq⟩ | ⟨F, ht, ha, -⟩ | hq
    · rw [heq]
      exact h
    · exact absurd ⟨F, ht, ha⟩ hprune
    · obtain ⟨rs, hrs, hfrom⟩ := hq.history
      exact gaugeRight_report h rs (gauge_fromTask hfrom) hrs hq.recordedForks

/-- **One step keeps the gauge right, or is a prune that takes a height off the record.** -/
theorem gaugeRight_step {c : ChainContext} (h : GaugeRight c) (e : Event) :
    GaugeRight (c.step e) ↔ PrunesNoFork c e := by
  cases e with
  | allHeads node header =>
      refine iff_of_true ?_ trivial
      cases hget : c.blockTree.getBlock header.hash with
      | some r =>
          rw [step_allHeads_of_known hget]
          exact gaugeRight_report h [.delivered node header.hash header.number] rfl rfl rfl
      | none =>
          rw [step_allHeads_of_new hget]
          have hentered : GaugeRight (entered c node header) :=
            gaugeRight_report h [.delivered node header.hash header.number, .blocksImported node]
              rfl rfl rfl
          exact gaugeRight_importNew hentered header
  | finalizedHeads node F H =>
      refine iff_of_true ?_ trivial
      have hstep := gauge_onHeightFinalized c.forkDetector F H
      unfold GaugeRight at h ⊢
      have hquery : gauge [.resolveForkEvent F H] = 0 := rfl
      change gauge (c.history ++ ((c.forkDetector.onHeightFinalized F H).2
        ++ [Report.resolveForkEvent F H])) = (c.forkDetector.onHeightFinalized F H).1.recordedForks.size
      rw [gauge_append, gauge_append, hquery]
      omega
  | resume i a => exact gaugeRight_resume h i a
  | poll => exact iff_of_true h trivial
  | retryTick => exact iff_of_true h trivial
  | resubmitSettled => exact iff_of_true h trivial
  | connections => exact iff_of_true h trivial
  | setupCausation => exact iff_of_true h trivial
  | identities => exact iff_of_true h trivial

/-! ## Runs -/

/--
**When the gauge never drifts.** Gauge and record agree in every state of a run
exactly if no prune finds a height on record that it would take off.
-/
theorem gaugeRight_iff (config : ChainConfig) (opts : TxOptions) (evs : List Event) :
    (∀ pre, pre <+: evs → GaugeRight ((machine config opts).run pre)) ↔
      (machine config opts).Guarded PrunesNoFork (machine config opts).init evs :=
  Machine.always_iff_guarded (m := machine config opts) (A := fun _ _ => True)
    (I := fun _ => True) (P := GaugeRight) trivial (fun _ _ _ _ => trivial) rfl
    (fun _ e _ _ h => gaugeRight_step h e) (Machine.guarded_of_forall fun _ _ => trivial)

/-! ## A fork told while the handler waits

`b1` is finalized, and while its handler waits for the database a lagging node
delivers the competitor of `a1`. -/

/-- The handler of `b1` prunes height 1, where the fork has just been told. -/
def forkWhileWaitingRun : List Event :=
  [reports smallLineage "n1" "a1", reports smallLineage "n1" "b1", finalizes smallLineage "n1" "b1",
    reports smallLineage "n2" "a2", .resume 2 .done]

theorem not_gaugeRight_forkWhileWaitingRun :
    ¬ GaugeRight ((machine { pruneAfter := 1 } {}).run forkWhileWaitingRun) := by
  decide

/-- It stays one too high, whatever comes after it up to the next drift. -/
example :
    gauge ((machine { pruneAfter := 1 } {}).run forkWhileWaitingRun).history = 1 ∧
      ((machine { pruneAfter := 1 } {}).run
        forkWhileWaitingRun).forkDetector.recordedForks.size = 0 := by
  decide

end ForkWatch.Proof
