import ForkWatch.Proof.Acts
import ForkWatch.Proof.Resolution

/-!
# Does a repeated notification do anything?

With several nodes on a chain, most finality notifications are repeats or late.
A handler that has run to its end leaves a state that is settled up to its height
(`Settled`), and each component absorbs what is at or below that height, by its
own comparison: the walk by its floor, the review by the processed heights and
the due heights, the detector by the forks it has forgotten, the three prunes by
having dropped everything down there.
-/

namespace ForkWatch.Proof

open Lib ChainContext

/-- The finalized handler runs to its end, with nothing else in between. -/
def handled (c : ChainContext) (node : NodeName) (F : Nat) (H : Hash) : ChainContext :=
  (c.step (.finalizedHeads node F H)).step (.resume c.tasks.length .done)

theorem onFinalizedHeads_eq (c : ChainContext) (F : Nat) (H : Hash) :
    c.onFinalizedHeads F H = ({ c with
      blockTree := noted c.blockTree F
      forkDetector := (c.forkDetector.onHeightFinalized F H).1
      txTracker := c.txTracker.onHeightFinalized F H (noted c.blockTree F) }.report
        ((c.forkDetector.onHeightFinalized F H).2 ++ [Report.resolveForkEvent F H])).await
          (.resolveForkEvent F) := rfl

/-- The handler up to its await, and the prune after it. -/
theorem handled_eq (c : ChainContext) (node : NodeName) (F : Nat) (H : Hash) :
    handled c node F H = { (c.onFinalizedHeads F H).prune F with tasks := c.tasks } := by
  have htask : (c.onFinalizedHeads F H).tasks[c.tasks.length]? = some (.resolveForkEvent F) :=
    List.getElem?_concat_length
  have hrest : (c.onFinalizedHeads F H).tasks.eraseIdx c.tasks.length = c.tasks := by
    refine (List.eraseIdx_append_of_length_le (Nat.le_refl _) _).trans ?_
    rw [Nat.sub_self, List.eraseIdx_zero, List.tail_cons, List.append_nil]
    rfl
  unfold handled
  change (c.onFinalizedHeads F H).step (.resume c.tasks.length .done) = _
  unfold ChainContext.step
  dsimp only
  rw [htask]
  dsimp only
  rw [hrest]
  rfl

/-! ## Settled states -/

/-- All that a notification up to height `F` could do has been done. -/
structure Settled (F : Nat) (c : ChainContext) : Prop where
  finalizedHeight : F ≤ c.blockTree.finalizedHeight
  recorded : ∀ n v, c.forkDetector.recordedForks.get? n = some v → F < n
  unresolved : ∀ n v, c.forkDetector.recordedForks.get? n = some v →
    (F : Int) - c.config.pruneAfter < n
  known : F ≤ c.txTracker.lastKnownHeight
  floor : ∃ w, c.txTracker.lastCanonicalWalkHeight = some w ∧ F ≤ w
  processed : ∀ n ∈ c.blockTree.getForkedHeights, n ≤ F →
    c.txTracker.processedForkHeights.has n = true
  queue : ∀ e ∈ c.txTracker.pendingReorgReview, F < e.dueAtHeight
  heights : ∀ n blocks, c.blockTree.blocksByHeight.get? n = some blocks →
    (F : Int) - c.config.pruneAfter < n
  bodies : ∀ x captured, c.txTracker.blockExtrinsics.get? x = some captured →
    (F : Int) - c.config.pruneAfter < captured.number
  reviewed : ∀ n v, c.txTracker.processedForkHeights.get? n = some v →
    (F : Int) - c.config.pruneAfter < n
  loops : ∀ x loop, c.txTracker.resubmitRetryTimers.get? x = some loop →
    (F : Int) - c.config.pruneAfter < (loop.record.lostAtHeight.getD 0 : Nat)

/-- What a prune keeps lies above its bound. -/
theorem above_of_filter {κ ν : Type} [DecidableEq κ] {m : OrdMap κ ν} {f : κ → ν → Int} {b : Int}
    {k : κ} {v : ν} (h : (m.filter fun k v => !decide (f k v ≤ b)).get? k = some v) : b < f k v := by
  rw [OrdMap.get?_filter, Option.filter_eq_some_iff] at h
  simpa using h.2

/-- What lies above the bound, a prune keeps. -/
theorem filter_above {κ ν : Type} [DecidableEq κ] {m : OrdMap κ ν} {f : κ → ν → Int} {b b' : Int}
    (h : ∀ k v, m.get? k = some v → b < f k v) (hle : b' ≤ b) :
    (m.filter fun k v => !decide (f k v ≤ b')) = m := by
  refine OrdMap.filter_eq_self fun k v hk => ?_
  have := h k v hk
  simp only [Bool.not_eq_true', decide_eq_false_iff_not]
  omega

/-- **A handler leaves a settled state behind.** -/
theorem settled_handled {c : ChainContext} (hs : Sourced (fun _ => True) c.txTracker)
    (node : NodeName) (F : Nat) (H : Hash) : Settled F (handled c node F H) := by
  have hfin := finalized_spec c.txTracker F H (noted c.blockTree F)
  have hknown : F ≤ (c.txTracker.onHeightFinalized F H (noted c.blockTree F)).lastKnownHeight := by
    rw [(acts_onHeightFinalized hs F H (noted c.blockTree F)).sameGround.lastKnownHeight, walked_eq]
    exact Nat.le_max_right ..
  rw [handled_eq]
  refine {
    finalizedHeight := Nat.le_max_right ..
    recorded := ?_
    unresolved := ?_
    known := hknown
    floor := ⟨_, hfin.lastCanonicalWalkHeight, Nat.le_max_right ..⟩
    processed := ?_
    queue := ?_
    heights := ?_
    bodies := ?_
    reviewed := ?_
    loops := ?_ }
  · -- the detector has forgotten the forks it resolved
    intro n v hn
    have hrecorded : ((c.forkDetector.onHeightFinalized F H).1.recordedForks.filter
        fun height _ => !decide ((height : Int) ≤ F - c.config.pruneAfter)).get? n = some v := hn
    rw [recordedForks_onHeightFinalized, OrdMap.get?_filter, OrdMap.get?_filter] at hrecorded
    obtain ⟨hn', -⟩ := Option.filter_eq_some_iff.mp hrecorded
    simpa using (Option.filter_eq_some_iff.mp hn').2
  · intro n v hn
    -- what is left here and below, pruning let through
    exact above_of_filter (f := fun (n : Nat) (_ : Unit) => (n : Int)) hn
  · -- every forked height up to here has been reviewed, and pruned from both or from none
    intro n hn hle
    have hn' : n ∈ ((noted c.blockTree F).prune (F - c.config.pruneAfter)).getForkedHeights := hn
    obtain ⟨blocks, hblocks, hforked⟩ := mem_getForkedHeights.mp hn'
    rw [getBlocksAtHeight_prune] at hblocks
    split at hblocks
    · exact absurd hblocks (by simp)
    · rename_i hkept
      have hdone : (c.txTracker.onHeightFinalized F H
          (noted c.blockTree F)).processedForkHeights.has n = true := by
        refine (hfin.processed n).mpr ?_
        by_cases hold : c.txTracker.processedForkHeights.has n = true
        · exact Or.inl hold
        · refine Or.inr (mem_dueHeights.mpr ⟨mem_getForkedHeights.mpr ⟨blocks, hblocks, hforked⟩,
            hle, Bool.eq_false_iff.mpr hold⟩)
      have hprocessed : ((c.txTracker.onHeightFinalized F H (noted c.blockTree
          F)).processedForkHeights.filter fun height _ =>
            !decide ((height : Int) ≤ F - c.config.pruneAfter)).has n = true := by
        rw [OrdMap.has_filter, hdone]
        simpa using hkept
      exact hprocessed
  · intro e he
    have he' : e ∈ (c.txTracker.onHeightFinalized F H (noted c.blockTree F)).pendingReorgReview := he
    rw [hfin.pending] at he'
    simpa using (List.mem_filter.mp he').2
  · intro n blocks hn
    exact above_of_filter (f := fun (n : Nat) (_ : OrdMap Hash BlockRecord) => (n : Int)) hn
  · intro x captured hx
    exact above_of_filter (f := fun (_ : Hash) (captured : Captured) => (captured.number : Int)) hx
  · intro n v hn
    exact above_of_filter (f := fun (n : Nat) (_ : Unit) => (n : Int)) hn
  · intro x loop hx
    exact above_of_filter
      (f := fun (_ : Hash) (loop : RetryLoop) => ((loop.record.lostAtHeight.getD 0 : Nat) : Int)) hx

section Settled

variable {F F' : Nat} {c : ChainContext}

/-- The prune of a later height drops nothing. -/
theorem Settled.pruned (h : Settled F c) (hle : F' ≤ F) : c.prune F' = c := by
  have hbound : (F' : Int) - c.config.pruneAfter ≤ F - c.config.pruneAfter := by omega
  have hprunable : c.blockTree.prunable (F' - c.config.pruneAfter) = [] := by
    refine List.filter_eq_nil_iff.mpr fun e he => ?_
    have := h.heights e.1 e.2 (OrdMap.mem_of_mem_entries he)
    simp only [decide_eq_true_eq]
    omega
  have htree : c.blockTree.prune (F' - c.config.pruneAfter) = c.blockTree := by
    unfold BlockTree.prune
    rw [hprunable, filter_above h.heights hbound]
    rfl
  have hdetector : c.forkDetector.pruneRecordedForks (F' - c.config.pruneAfter)
      = c.forkDetector := by
    unfold ForkDetector.pruneRecordedForks
    rw [filter_above h.unresolved hbound]
  have htracker : c.txTracker.pruneBlocks (F' - c.config.pruneAfter) = c.txTracker := by
    unfold TxTracker.pruneBlocks
    rw [filter_above h.bodies hbound, filter_above h.reviewed hbound, filter_above h.loops hbound]
  have hmaps : (fun height => c.detached height ++
      if (height : Int) ≤ F' - c.config.pruneAfter then
        (c.blockTree.getBlocksAtHeight height).toList else []) = c.detached := by
    funext height
    split
    · -- no map stands as low as that
      cases hm : c.blockTree.getBlocksAtHeight height with
      | none => exact List.append_nil _
      | some m =>
          have := h.heights height m hm
          omega
    · exact List.append_nil _
  unfold ChainContext.prune
  dsimp only
  rw [htree, hdetector, htracker, hmaps]

/-- The detector has no fork left to resolve. -/
theorem Settled.detector (h : Settled F c) (hle : F' ≤ F) (H' : Hash) :
    c.forkDetector.onHeightFinalized F' H' = (c.forkDetector, []) := by
  have hnone : c.forkDetector.recordedForks.keys.filter (fun height => height ≤ F') = [] := by
    refine List.filter_eq_nil_iff.mpr fun n hn => ?_
    obtain ⟨v, hv⟩ := OrdMap.mem_keys_iff.mp hn
    have := h.recorded n v hv
    simp only [decide_eq_true_eq]
    omega
  unfold ForkDetector.onHeightFinalized
  rw [hnone]
  rfl

/-- The walk ends where it starts, no height is due for a review, and no entry is due. -/
theorem Settled.tracker (h : Settled F c) (hle : F' ≤ F) {H' : Hash}
    (hnumber : ∀ r, c.blockTree.getBlock H' = some r → r.number = F') :
    c.txTracker.onHeightFinalized F' H' c.blockTree = c.txTracker := by
  obtain ⟨w, hfloor, hw⟩ := h.floor
  -- each part of the handler finds its work done: the walk stops at once
  have hwalk : c.txTracker.walkFinalized F' H' c.blockTree = c.txTracker := by
    have hstop : ∀ fuel, TxTracker.canonicalWalk c.blockTree w fuel (c.blockTree.getBlock H')
        c.txTracker = c.txTracker := by
      intro fuel
      cases hH : c.blockTree.getBlock H' with
      | none => cases fuel <;> rfl
      | some r =>
          have hr := hnumber r hH
          cases fuel with
          | zero => rfl
          | succ fuel =>
              unfold TxTracker.canonicalWalk
              rw [if_neg (by omega)]
    have hsame : some (max (c.txTracker.lastCanonicalWalkHeight.getD 0) F')
        = c.txTracker.lastCanonicalWalkHeight := by
      rw [hfloor, Option.getD_some, Nat.max_eq_left (by omega)]
    unfold TxTracker.walkFinalized
    rw [hfloor]
    dsimp only
    rw [hstop, hsame]
  have hreview : c.blockTree.getForkedHeights.foldl
      (TxTracker.reviewHeight F' H' c.blockTree) c.txTracker = c.txTracker := by
    refine List.foldlRecOn (motive := fun u => u = c.txTracker) _ _ rfl fun u hu n hn => ?_
    subst hu
    unfold TxTracker.reviewHeight
    -- every forked height is processed, or above this notification
    rw [if_pos]
    by_cases hlow : n ≤ F
    · rw [h.processed n hn hlow, Bool.or_true]
    · rw [decide_eq_true (by omega), Bool.true_or]
  have hresolve : c.txTracker.resolveDue F' = c.txTracker := by
    -- what is still queued was not even due at `F`
    have hloop : c.txTracker.pendingReorgReview.foldl (fun t entry =>
        if F' < entry.dueAtHeight then t else t.resolveReorgEntry entry) c.txTracker
        = c.txTracker := by
      refine List.foldlRecOn (motive := fun u => u = c.txTracker) _ _ rfl fun u hu e he => ?_
      have := h.queue e he
      rw [if_pos (by omega)]
      exact hu
    have hqueue : c.txTracker.pendingReorgReview.filter (fun e => F' < e.dueAtHeight)
        = c.txTracker.pendingReorgReview := by
      refine List.filter_eq_self.mpr fun e he => ?_
      have := h.queue e he
      rw [decide_eq_true_eq]
      omega
    unfold TxTracker.resolveDue
    dsimp only
    rw [hloop, hqueue]
  have hknown : max c.txTracker.lastKnownHeight F' = c.txTracker.lastKnownHeight :=
    Nat.max_eq_left (hle.trans h.known)
  unfold TxTracker.onHeightFinalized
  dsimp only
  rw [hknown, hwalk, hreview, hresolve]

/-- **A repeated or late notification.** -/
theorem Settled.handled (h : Settled F c) (hle : F' ≤ F) (node : NodeName) {H' : Hash}
    (hnumber : ∀ r, c.blockTree.getBlock H' = some r → r.number = F') :
    handled c node F' H' = c.report [.resolveForkEvent F' H'] := by
  have hnoted : noted c.blockTree F' = c.blockTree := by
    unfold noted
    rw [Nat.max_eq_left (hle.trans h.finalizedHeight)]
  have hfirst : c.onFinalizedHeads F' H'
      = (c.report [.resolveForkEvent F' H']).await (.resolveForkEvent F') := by
    rw [onFinalizedHeads_eq, hnoted, h.tracker hle hnumber, h.detector hle]
    rfl
  have hprune : ((c.report [.resolveForkEvent F' H']).await (.resolveForkEvent F')).prune F'
      = ((c.prune F').report [.resolveForkEvent F' H']).await (.resolveForkEvent F') := rfl
  rw [handled_eq, hfirst, hprune, h.pruned hle]
  rfl

end Settled

/-! ## The notification after another -/

/-- The rows of `fork_events`, each with its `resolved` flag. -/
def forkEvents (rs : List Report) : List (ForkEventRow × Bool) :=
  rs.foldl (fun rows r => match r with
    | .insertForkEvent row => rows ++ [(row, false)]
    | .resolveForkEvent height _ => rows.map fun e => (e.1, e.2 || e.1.blockNumber ≤ height)
    | _ => rows) []

theorem forkEvents_resolve (rs : List Report) (F : Nat) (H : Hash) :
    forkEvents (rs ++ [.resolveForkEvent F H])
      = (forkEvents rs).map fun e => (e.1, e.2 || e.1.blockNumber ≤ F) :=
  List.foldl_concat ..

/-- The query at a lower height finds no row that is not resolved yet. -/
theorem forkEvents_resolve_again (rs : List Report) {F F' : Nat} (hle : F' ≤ F) (H H' : Hash) :
    forkEvents (rs ++ [.resolveForkEvent F H] ++ [.resolveForkEvent F' H'])
      = forkEvents (rs ++ [.resolveForkEvent F H]) := by
  rw [forkEvents_resolve, forkEvents_resolve, List.map_map]
  refine List.map_congr_left fun e _ => ?_
  have hlow : e.1.blockNumber ≤ F' → e.1.blockNumber ≤ F := fun h => h.trans hle
  by_cases h : e.1.blockNumber ≤ F' <;> simp [h, hlow]

/--
**Extra notifications are no-ops.** In every reachable state, once a notification
has been handled, one of the same or a lower height changes nothing: its handler
only sends the query that resolves fork events again, and that finds no row left.
-/
theorem handled_again {L : Lineage Hash} (config : ChainConfig) (opts : TxOptions)
    {evs : List Event} (hevs : ∀ e ∈ evs, FromLineage L e) (node node' : NodeName) {H H' : Hash}
    (hle : L.number H' ≤ L.number H) :
    let first := handled ((machine config opts).run evs) node (L.number H) H
    handled first node' (L.number H') H' = first.report [.resolveForkEvent (L.number H') H'] ∧
      forkEvents (handled first node' (L.number H') H').history = forkEvents first.history := by
  have htrue : TrueTree L ((machine config opts).run evs) := trueTree_run hevs
  have hs := sourced_run config opts evs
  generalize (machine config opts).run evs = c at htrue hs
  have hsettled := settled_handled hs node (L.number H) H
  -- the headers in the tree are still true ones
  have hnumber : ∀ r, (handled c node (L.number H) H).blockTree.getBlock H' = some r →
      r.number = L.number H' := by
    intro r hr
    have hfirst : TrueTree L (c.step (.finalizedHeads node (L.number H) H)) :=
      trueTree_step htrue (e := .finalizedHeads node (L.number H) H) rfl
    have hdone : TrueTree L (handled c node (L.number H) H) :=
      trueTree_step hfirst (e := .resume c.tasks.length .done) trivial
    exact (hdone.authentic H' r hr).2.1
  have hagain := hsettled.handled hle node' hnumber
  have hhist : (handled c node (L.number H) H).history = c.history
      ++ (c.forkDetector.onHeightFinalized (L.number H) H).2
        ++ [.resolveForkEvent (L.number H) H] := by
    rw [handled_eq, onFinalizedHeads_eq]
    exact (List.append_assoc ..).symm
  refine ⟨hagain, ?_⟩
  rw [hagain]
  unfold report
  dsimp only
  rw [hhist]
  exact forkEvents_resolve_again _ hle H H'

/-- Another node reports the finality of `a1` once more, and the fork is not told again. -/
theorem handled_again_repeated :
    let c := (machine {} {}).run [reports smallLineage "n1" "a1", reports smallLineage "n1" "a2"]
    handled (handled c "n1" 1 "a1") "n2" 1 "a1"
      = (handled c "n1" 1 "a1").report [.resolveForkEvent 1 "a1"] := by
  have hevs : ∀ e ∈ [reports smallLineage "n1" "a1", reports smallLineage "n1" "a2"],
      FromLineage smallLineage e := by
    simp [fromLineage_reports]
  have hle : smallLineage.number "a1" ≤ smallLineage.number "a1" := Nat.le_refl _
  exact (handled_again {} {} hevs "n1" "n2" hle).1

end ForkWatch.Proof
