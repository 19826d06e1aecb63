import ForkWatch.Proof.Finality

/-!
# Every losing block is reviewed once

A forked height is reviewed by the first notification that finds it forked and
final, and `processedForkHeights` keeps every later one away from it. So what is
queued for a losing block is settled there and then: all its transactions if its
header and its body had arrived, nothing at all otherwise
(`queued_once_of_reviewed`).

The height of a block is a function of its hash, so a block is looked at by the
review of one height only; what another height adds says nothing about it.
-/

namespace ForkWatch.Proof

open Lib ChainContext TxTracker

variable {L : Lineage Hash}

/-- The entries queued for one block, in order. -/
def queuedFor (x : Hash) (rs : List TxReport) : List ReorgEntry :=
  ((queuedOf rs).map Prod.fst).filter fun e => e.lostAtHash = x

/-- No prune reaches this height. -/
def KeepsHeight (h : Nat) (c : ChainContext) (e : Event) : Prop :=
  ∀ i F, e = .resume i .done → c.tasks[i]? = some (.resolveForkEvent F) →
    (F : Int) - c.config.pruneAfter < h

/-! ## What one notification queues for one block -/

/-- In a list without repetition, one element answers for itself only. -/
theorem flatMap_ite_eq {α β : Type} [DecidableEq α] {l : List α} (hl : l.Nodup) (a : α)
    (f : α → List β) :
    l.flatMap (fun b => if b = a then f b else []) = if a ∈ l then f a else [] := by
  induction l with
  | nil => rfl
  | cons b l ih =>
      obtain ⟨hb, hl⟩ := List.nodup_cons.mp hl
      rw [List.flatMap_cons, ih hl]
      by_cases hba : b = a
      · subst hba
        simp [hb]
      · have hab : a ≠ b := fun h => hba h.symm
        simp [hba, hab]

theorem filter_lossesOf (opts : TxOptions) (bodies : OrdMap Hash Captured) (h : Nat)
    (canonical : Option BlockRecord) (x y : Hash) :
    (lossesOf opts bodies h canonical y).filter (fun e => e.lostAtHash = x)
      = if y = x then lossesOf opts bodies h canonical y else [] := by
  have hhash : ∀ e ∈ lossesOf opts bodies h canonical y, e.lostAtHash = y := by
    intro e he
    unfold lossesOf at he
    split at he
    · exact absurd he (by simp)
    · split at he
      · exact absurd he (by simp)
      · obtain ⟨tx, -, rfl⟩ := List.mem_map.mp he
        rfl
  split
  · rename_i hyx
    refine List.filter_eq_self.mpr fun e he => ?_
    simp [hhash e he, hyx]
  · rename_i hyx
    refine List.filter_eq_nil_iff.mpr fun e he => ?_
    simp [hhash e he, hyx]

/-- What a review of its height gives for one block. -/
def reviewOf (c : ChainContext) (H : Hash) (h : Nat) (x : Hash) : List ReorgEntry :=
  match c.blockTree.getBlock x with
  | none => []
  | some _ => lossesOf c.txTracker.opts c.txTracker.blockExtrinsics h
      (c.blockTree.getCanonicalAncestorAt H h) x

theorem filter_lossesAt {c : ChainContext} (hc : TrueTree L c) (H x : Hash) (h : Nat) :
    (lossesAt c.txTracker H c.blockTree h).filter (fun e => e.lostAtHash = x)
      = if h = L.number x then reviewOf c H h x else [] := by
  -- the block stands at its own height, if it is held
  have hstands : (∃ m, c.blockTree.getBlocksAtHeight h = some m ∧ x ∈ m.keys)
      ↔ Holds c.blockTree x ∧ h = L.number x := by
    rw [hc.inv.mem_keysAt_iff]
    refine ⟨?_, ?_⟩
    · intro hx
      obtain ⟨r, hr, rfl⟩ := hx
      exact ⟨⟨r, hr⟩, (hc.authentic x r hr).2.1⟩
    · intro hx
      obtain ⟨⟨r, hr⟩, rfl⟩ := hx
      exact ⟨r, hr, (hc.authentic x r hr).2.1⟩
  unfold lossesAt reviewOf
  cases hm : c.blockTree.getBlocksAtHeight h with
  | none =>
      rw [hm] at hstands
      cases hx : c.blockTree.getBlock x with
      | none => simp
      | some r =>
          have hh : h ≠ L.number x := fun hh => by
            obtain ⟨m, hm, -⟩ := hstands.mpr ⟨⟨r, hx⟩, hh⟩
            exact absurd hm (by simp)
          simp [hh]
  | some m =>
      rw [hm] at hstands
      have hkey : x ∈ m.keys ↔ Holds c.blockTree x ∧ h = L.number x := by
        rw [← hstands]
        simp
      dsimp only
      rw [List.filter_flatMap]
      simp only [filter_lossesOf]
      -- of the blocks at the height, only this one loses under this name
      rw [flatMap_ite_eq m.keys_nodup]
      cases hx : c.blockTree.getBlock x with
      | none =>
          have hno : x ∉ m.keys := fun hk => by
            obtain ⟨r, hr⟩ := (hkey.mp hk).1
            rw [hx] at hr
            exact absurd hr (by simp)
          simp [hno]
      | some r =>
          have hyes : x ∈ m.keys ↔ h = L.number x := by
            rw [hkey]
            exact ⟨fun hk => hk.2, fun hk => ⟨⟨r, hx⟩, hk⟩⟩
          simp [hyes]

/-- **What one notification queues for one block.** -/
theorem filter_losses {c : ChainContext} (hc : TrueTree L c) (F : Nat) (H x : Hash) :
    (losses c.txTracker F H c.blockTree).filter (fun e => e.lostAtHash = x)
      = if L.number x ∈ dueHeights c.txTracker F c.blockTree then reviewOf c H (L.number x) x
        else [] := by
  unfold losses
  rw [List.filter_flatMap]
  simp only [filter_lossesAt hc]
  exact flatMap_ite_eq ((getForkedHeights_nodup _).filter _) (L.number x) fun h => reviewOf c H h x

/-! ## Before and after the review -/

theorem queuedFor_step (c : ChainContext) (e : Event) (x : Hash) :
    queuedFor x (c.step e).txTracker.history = queuedFor x c.txTracker.history
      ++ ((queuedBy c e).map Prod.fst).filter (fun e => e.lostAtHash = x) := by
  unfold queuedFor
  rw [queuedOf_step, List.map_append, List.filter_append]

/-- What one step queues for a block whose height it does not review. -/
theorem queuedFor_step_of_not_due {c : ChainContext} (hc : TrueTree L c) {e : Event} {x : Hash}
    (h : ∀ node F H, e = .finalizedHeads node F H →
      L.number x ∉ dueHeights c.txTracker F c.blockTree) :
    queuedFor x (c.step e).txTracker.history = queuedFor x c.txTracker.history := by
  rw [queuedFor_step]
  cases e with
  | finalizedHeads node F H =>
      have hnone := filter_losses hc F H x
      rw [if_neg (h node F H rfl)] at hnone
      simp only [queuedBy, List.map_map, Function.comp_def, List.map_id', hnone, List.append_nil]
  | _ => simp [queuedBy]

/-- Which heights count as reviewed after a step. -/
theorem processed_step {c : ChainContext} {e : Event} {h : Nat} (hkeep : KeepsHeight h c e) :
    (c.step e).txTracker.processedForkHeights.has h = true ↔
      c.txTracker.processedForkHeights.has h = true ∨
        ∃ node F H, e = .finalizedHeads node F H ∧ h ∈ dueHeights c.txTracker F c.blockTree := by
  rcases tx_step_cases c e with ⟨node, F, H, rfl, hfin⟩ | ⟨i, x, n, body, rfl, -, hcap⟩ |
    ⟨i, F, rfl, ht, heq⟩ | ⟨hno, hkept⟩
  · rw [hfin.processed]
    refine ⟨?_, ?_⟩
    · intro hp
      exact hp.imp id fun hd => ⟨node, F, H, rfl, hd⟩
    · intro hp
      refine hp.imp id fun hd => ?_
      obtain ⟨node', F', H', he, hd⟩ := hd
      obtain ⟨-, rfl, -⟩ := Event.finalizedHeads.inj he
      exact hd
  · rw [hcap.processedForkHeights]
    simp
  · have hlt := hkeep i F rfl ht
    rw [heq]
    unfold pruneBlocks
    dsimp only
    rw [OrdMap.has_filter]
    simp [show ¬ (h : Int) ≤ F - c.config.pruneAfter by omega]
  · rw [hkept.processedForkHeights]
    simp [hno]

/-- A height with entries for one of its blocks has been reviewed. -/
def ReviewedIfQueued (x : Hash) (h : Nat) (c : ChainContext) : Prop :=
  c.txTracker.processedForkHeights.has h = true ∨ queuedFor x c.txTracker.history = []

theorem reviewedIfQueued_step {c : ChainContext} (hc : TrueTree L c) {e : Event} {x : Hash}
    (h : ReviewedIfQueued x (L.number x) c) (hkeep : KeepsHeight (L.number x) c e) :
    ReviewedIfQueued x (L.number x) (c.step e) := by
  by_cases hdue : ∃ node F H, e = .finalizedHeads node F H ∧
      L.number x ∈ dueHeights c.txTracker F c.blockTree
  · exact Or.inl ((processed_step hkeep).mpr (Or.inr hdue))
  · rcases h with h | h
    · exact Or.inl ((processed_step hkeep).mpr (Or.inl h))
    · refine Or.inr ?_
      rw [queuedFor_step_of_not_due hc, h]
      intro node F H he hd
      exact hdue ⟨node, F, H, he, hd⟩

/-- Once its height has been reviewed, nothing more is queued for a block. -/
theorem queuedFor_runFrom {config : ChainConfig} {opts : TxOptions} {evs : List Event} {x : Hash} :
    ∀ {c : ChainContext}, TrueTree L c → c.txTracker.processedForkHeights.has (L.number x) = true →
      (∀ e ∈ evs, FromLineage L e) →
      (machine config opts).Guarded (KeepsHeight (L.number x)) c evs →
      queuedFor x ((machine config opts).runFrom c evs).txTracker.history
        = queuedFor x c.txTracker.history := by
  induction evs with
  | nil => intro c _ _ _ _; rfl
  | cons e evs ih =>
      intro c hc hdone hL hkeep
      have hdone' := (processed_step hkeep.1).mpr (Or.inl hdone)
      have hrest := ih (trueTree_step hc (hL e (by simp))) hdone'
        (fun e' he' => hL e' (by simp [he'])) hkeep.2
      rw [Machine.runFrom_cons]
      refine hrest.trans (queuedFor_step_of_not_due hc ?_)
      intro node F H _ hd
      rw [mem_dueHeights, hdone] at hd
      exact absurd hd.2.2 (by simp)

/--
**A losing block is queued once and for all by the first review of its height.**

Take the first notification that finds the height of `x` forked and final, with
the winner known and `x` not the winner. In every later state, as long as the
height is not pruned, the entries ever queued for `x` are its transactions, each
once, if header and body of `x` were there at that notification, and none if not.
-/
theorem queued_once_of_reviewed (L : Lineage Hash) (config : ChainConfig) (opts : TxOptions)
    (pre post : List Event) (node : NodeName) (F : Nat) (H x : Hash) (winner : BlockRecord)
    (hL : ∀ e ∈ pre ++ .finalizedHeads node F H :: post, FromLineage L e)
    (hkeep : (machine config opts).Guarded (KeepsHeight (L.number x)) (machine config opts).init
      (pre ++ .finalizedHeads node F H :: post))
    (hdue : L.number x ∈ dueHeights ((machine config opts).run pre).txTracker F
      ((machine config opts).run pre).blockTree)
    (hwinner : ((machine config opts).run pre).blockTree.getCanonicalAncestorAt H (L.number x)
      = some winner)
    (hx : x ≠ winner.hash) :
    queuedFor x ((machine config opts).run
        (pre ++ .finalizedHeads node F H :: post)).txTracker.history
      = match ((machine config opts).run pre).blockTree.getBlock x,
          ((machine config opts).run pre).txTracker.blockExtrinsics.get? x with
        | some _, some captured => captured.extrinsics.map (lostEntry opts (L.number x) x)
        | _, _ => [] := by
  have htree : TrueTree L ((machine config opts).run pre) :=
    trueTree_run fun e he => hL e (List.mem_append_left _ he)
  have hopts := opts_run config opts pre
  obtain ⟨hkeep, hkeepNow, hkeepPost⟩ := Machine.guarded_append.mp hkeep
  have hbefore : TrueTree L ((machine config opts).run pre) ∧
      ReviewedIfQueued x (L.number x) ((machine config opts).run pre) := by
    refine Machine.guarded_invariant
      (G := fun c e => KeepsHeight (L.number x) c e ∧ FromLineage L e)
      (I := fun c => TrueTree L c ∧ ReviewedIfQueued x (L.number x) c)
      ⟨trueTree_init L config opts, Or.inr rfl⟩ ?_
      (Machine.guarded_and hkeep
        (Machine.guarded_of_forall fun e he => hL e (List.mem_append_left _ he)))
    intro c e hI hG
    exact ⟨trueTree_step hI.1 hG.2, reviewedIfQueued_step hI.1 hI.2 hG.1⟩
  rw [Machine.run_append, Machine.runFrom_cons]
  change (machine config opts).Guarded _ ((machine config opts).step
    ((machine config opts).run pre) _) post at hkeepPost
  change KeepsHeight (L.number x) ((machine config opts).run pre) _ at hkeepNow
  generalize (machine config opts).run pre = c at *
  have hnone : queuedFor x c.txTracker.history = [] := by
    rcases hbefore.2 with hdone | hnone
    · rw [mem_dueHeights, hdone] at hdue
      exact absurd hdue.2.2 (by simp)
    · exact hnone
  -- the review itself
  have hreview : queuedFor x (c.step (.finalizedHeads node F H)).txTracker.history
      = reviewOf c H (L.number x) x := by
    have hlosses := filter_losses htree F H x
    rw [if_pos hdue] at hlosses
    rw [queuedFor_step, hnone]
    simp only [queuedBy, List.map_map, Function.comp_def, List.map_id', List.nil_append]
    exact hlosses
  have hdone : (c.step (.finalizedHeads node F H)).txTracker.processedForkHeights.has
      (L.number x) = true := (processed_step hkeepNow).mpr (Or.inr ⟨node, F, H, rfl, hdue⟩)
  have hafter := queuedFor_runFrom (trueTree_step htree (hL _ (by simp))) hdone
    (fun e he => hL e (by simp [he])) hkeepPost
  refine (hafter.trans hreview).trans ?_
  have hloser : (some winner).map BlockRecord.hash ≠ some x := fun h =>
    hx (Option.some.inj h).symm
  unfold reviewOf lossesOf
  rw [hwinner, if_neg hloser, hopts]
  cases c.blockTree.getBlock x with
  | none => rfl
  | some r =>
      cases c.txTracker.blockExtrinsics.get? x with
      | none => rfl
      | some captured => rfl

/-- The transaction of `a1`, captured in time, is queued when `a2` wins, and once only. -/
theorem queued_once_in_time :
    queuedFor "a1" ((machine {} {}).run
        (captures smallLineage "n" "a1" [transfer] ++ [reports smallLineage "n" "a2"]
          ++ finalizes smallLineage "n" "a2" :: [finalizes smallLineage "m" "a2"])).txTracker.history
      = [lostEntry {} 1 "a1"
          ⟨.substrate, some "alice", some 0, "t", "balances", "transfer", none, "0x00"⟩] := by
  refine queued_once_of_reviewed smallLineage {} {} _ _ "n" 1 "a2" "a1"
    (recordOf "n" ⟨"a2", 1, "g", "", ""⟩) ?_ ?_ (by decide) rfl (by decide)
  · intro e he
    simp only [List.append_assoc, List.mem_append, List.mem_cons, List.not_mem_nil, or_false] at he
    rcases he with he | rfl | rfl | rfl
    · exact fromLineage_captures he
    · exact fromLineage_reports ..
    · exact fromLineage_finalizes smallLineage "n" "a2"
    · exact fromLineage_finalizes ..
  · refine ⟨?_, ?_, ?_, ?_, ?_, ?_, trivial⟩
    all_goals
      intro i F he ht
      cases he
    all_goals cases ht

/-- `a2` is final before the body of `a1` arrives; then `a2` is reported final once more. -/
def lateBodyRun : List Event :=
  [reports smallLineage "n" "a1", .resume 0 .done, reports smallLineage "n" "a2",
    finalizes smallLineage "n" "a2", .resume 0 (.body (some [transfer])),
    finalizes smallLineage "m" "a2"]

/-- The late body has been captured, its height is forked and final, and yet nothing is queued. -/
theorem not_queued_lateBodyRun :
    (∀ e ∈ lateBodyRun, FromLineage smallLineage e) ∧
      (1 ∈ ((machine {} {}).run (lateBodyRun.take 5)).blockTree.getForkedHeights ∧
        (((machine {} {}).run (lateBodyRun.take 5)).blockTree.getCanonicalAncestorAt "a2" 1).map
          BlockRecord.hash = some "a2" ∧
        (((machine {} {}).run (lateBodyRun.take 5)).txTracker.blockExtrinsics.get? "a1").map
          (fun captured => captured.extrinsics.map Tx.hash) = some ["t"]) ∧
      queuedFor "a1" ((machine {} {}).run lateBodyRun).txTracker.history = [] := by
  refine ⟨?_, by decide, by decide⟩
  intro e he
  simp only [lateBodyRun, List.mem_cons, List.not_mem_nil, or_false] at he
  rcases he with rfl | rfl | rfl | rfl | rfl | rfl
  · exact fromLineage_reports ..
  · trivial
  · exact fromLineage_reports ..
  · exact fromLineage_finalizes ..
  · trivial
  · exact fromLineage_finalizes ..

end ForkWatch.Proof
