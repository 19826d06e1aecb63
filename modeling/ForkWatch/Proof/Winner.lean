import ForkWatch.Proof.Finality

/-!
# The winning block as a loss

`queueReorgReview` takes the block `getCanonicalAncestorAt` finds for the winner.
When the walk finds nothing — the notified block, or a header between it and the
fork, is not in the tree — *every* captured block at the height is taken for a
loser, the winner included.

`winnersSpared_iff` says that this is the only way a winner is ever queued, over
all runs: whatever else happens, a notification that reviews a height with a
captured winner has to find the headers in between.
-/

namespace ForkWatch.Proof

open Lib ChainContext TxTracker

variable {L : Lineage Hash}

/-- No transaction of a winning block was queued, and no loop started because of one. -/
structure WinnersSpared (L : Lineage Hash) (c : ChainContext) : Prop where
  queued : ∀ e H, .queued e H ∈ c.txTracker.history → ¬ L.IsAncestor e.lostAtHash H
  loops : ∀ record, .loopStarted record ∈ c.txTracker.history → record.trigger = .reorgLoss →
    ∃ e H, .queued e H ∈ c.txTracker.history ∧ record = e.retry ∧ ¬ L.IsAncestor e.lostAtHash H

/--
A notification that reviews the height of a captured winner finds the headers
from the notified block down to that height in the tree.
-/
def ReachesWinners (L : Lineage Hash) (c : ChainContext) : Event → Prop
  | .finalizedHeads _ F H => ∀ x r captured, c.blockTree.getBlock x = some r →
      r.number ∈ dueHeights c.txTracker F c.blockTree →
      c.txTracker.blockExtrinsics.get? x = some captured → captured.extrinsics ≠ [] →
      L.IsAncestor x H → L.HeldDownTo (Holds c.blockTree) H r.number
  | _ => True

/-! ## What one step queues -/

/-- What one step queues; only a notification queues anything. -/
theorem mem_queued_step {c : ChainContext} {ev : Event} {e : ReorgEntry} {H : Hash} :
    .queued e H ∈ (c.step ev).txTracker.history ↔ .queued e H ∈ c.txTracker.history ∨
      ∃ node F, ev = .finalizedHeads node F H ∧ e ∈ losses c.txTracker F H c.blockTree := by
  rw [← mem_queuedOf, queuedOf_step, List.mem_append, mem_queuedOf]
  have hnew : (e, H) ∈ queuedBy c ev ↔
      ∃ node F, ev = .finalizedHeads node F H ∧ e ∈ losses c.txTracker F H c.blockTree := by
    cases ev with
    | finalizedHeads node F H' =>
        unfold queuedBy
        rw [List.mem_map]
        refine ⟨?_, ?_⟩
        · intro h
          obtain ⟨e', he', heq⟩ := h
          obtain ⟨rfl, rfl⟩ := Prod.mk.inj heq
          exact ⟨node, F, rfl, he'⟩
        · intro h
          obtain ⟨node', F', hev, he⟩ := h
          obtain ⟨-, rfl, rfl⟩ := Event.finalizedHeads.inj hev
          exact ⟨e, he, rfl⟩
    | _ => simp [queuedBy]
  rw [hnew]

/-- Every loop about a reorg loss was started for a queued entry. -/
def LoopsFromQueue (c : ChainContext) : Prop :=
  ∀ record, .loopStarted record ∈ c.txTracker.history → record.trigger = .reorgLoss →
    ∃ e H, .queued e H ∈ c.txTracker.history ∧ record = e.retry

theorem loopsFromQueue_step {c : ChainContext} (h : LoopsFromQueue c) (ev : Event) :
    LoopsFromQueue (c.step ev) := by
  -- an entry that was queued stays queued, so only new loops matter
  suffices hnew : ∀ record, .loopStarted record ∈ (c.step ev).txTracker.history →
      .loopStarted record ∈ c.txTracker.history ∨ record.trigger = .mempoolDrop ∨
        ∃ e H, .queued e H ∈ (c.step ev).txTracker.history ∧ record = e.retry by
    intro record hm hloss
    rcases hnew record hm with hold | hdrop | hqueued
    · obtain ⟨e, H, he, hr⟩ := h record hold hloss
      exact ⟨e, H, mem_queued_step.mpr (Or.inl he), hr⟩
    · rw [hdrop] at hloss
      exact absurd hloss (by simp)
    · exact hqueued
  intro record hm
  rcases mem_history_step hm with hold | hdrop | ⟨node, F, H, e, rfl, he, hr⟩
  · exact Or.inl hold
  · exact Or.inr (Or.inl hdrop)
  · exact Or.inr (Or.inr ⟨e, H, mem_queued_step.mpr (Or.inr ⟨node, F, rfl, he⟩), hr⟩)

theorem loopsFromQueue_init (config : ChainConfig) (opts : TxOptions) :
    LoopsFromQueue (machine config opts).init := by
  intro record hm
  exact absurd hm (by simp [machine])

/-- With the loops accounted for, sparing the winners is a matter of the queue. -/
theorem LoopsFromQueue.winnersSpared {c : ChainContext} (h : LoopsFromQueue c)
    (hq : ∀ e H, .queued e H ∈ c.txTracker.history → ¬ L.IsAncestor e.lostAtHash H) :
    WinnersSpared L c where
  queued := hq
  loops := by
    intro record hm hloss
    obtain ⟨e, H, he, hr⟩ := h record hm hloss
    exact ⟨e, H, he, hr, hq e H he⟩

/-! ## The winner and the walk -/

/-- The walk finds a winner that is held exactly if the headers in between are. -/
theorem finds_winner_iff {t : BlockTree} (hi : TreeInv t) (ha : Authentic L t) {x H : Hash}
    {r : BlockRecord} (hx : t.getBlock x = some r) (hwin : L.IsAncestor x H) :
    (t.getCanonicalAncestorAt H r.number).map BlockRecord.hash = some x
      ↔ L.HeldDownTo (Holds t) H r.number := by
  obtain ⟨hhash, hnum, -⟩ := ha x r hx
  have hle : r.number ≤ L.number H := hnum ▸ hwin.1
  have hanc : L.ancestorAt H r.number = x := hnum ▸ hwin.2
  rw [Option.map_eq_some_iff]
  refine ⟨?_, ?_⟩
  · intro h
    obtain ⟨r', hr', -⟩ := h
    exact ((getCanonicalAncestorAt_eq_some_iff hi ha hle).mp hr').1
  · intro h
    refine ⟨r, (getCanonicalAncestorAt_eq_some_iff hi ha hle).mpr ⟨h, ?_⟩, hhash⟩
    rw [hanc]
    exact hx

/--
**Exactly when the winning block is spared.**

No winner is treated as a loss in any state of a run exactly if every
notification that reviews a captured winner's height reaches it in the tree.
-/
theorem winnersSpared_iff (L : Lineage Hash) (config : ChainConfig) (opts : TxOptions)
    (evs : List Event) (h : ∀ e ∈ evs, FromLineage L e) :
    (∀ pre, pre <+: evs → WinnersSpared L ((machine config opts).run pre))
      ↔ (machine config opts).Guarded (ReachesWinners L) (machine config opts).init evs := by
  refine Machine.always_iff_guarded (A := fun _ => FromLineage L)
    (I := fun c => TrueTree L c ∧ LoopsFromQueue c)
    ⟨trueTree_init L config opts, loopsFromQueue_init config opts⟩
    (fun c e hi he => ⟨trueTree_step hi.1 he, loopsFromQueue_step hi.2 e⟩) ?_ ?_
    (Machine.guarded_of_forall h)
  · refine (loopsFromQueue_init config opts).winnersSpared fun e H hm => ?_
    exact absurd hm (by simp [machine])
  · intro c ev hI he hc
    obtain ⟨htree, hloops⟩ := hI
    by_cases hfin : ∃ node F H, ev = .finalizedHeads node F H
    · obtain ⟨node, F, H, rfl⟩ := hfin
      refine ⟨?_, ?_⟩
      · intro hspared x r captured hx hdue hcap hne hwin
        by_contra hgap
        -- the walk finds nothing, so the winner's first transaction is queued
        have hmiss := mt (finds_winner_iff htree.inv htree.authentic hx hwin).mp hgap
        obtain ⟨tx, htx⟩ := List.exists_mem_of_ne_nil captured.extrinsics hne
        have hlost : lostEntry c.txTracker.opts r.number x tx ∈ losses c.txTracker F H c.blockTree :=
          (mem_losses htree.inv).mpr ⟨x, r, captured, tx, hx, hdue, hmiss, hcap, htx, rfl⟩
        exact hspared.queued _ H (mem_queued_step.mpr (Or.inr ⟨node, F, rfl, hlost⟩)) hwin
      · intro hreach
        refine (loopsFromQueue_step hloops (.finalizedHeads node F H)).winnersSpared ?_
        intro e H' hm
        rcases mem_queued_step.mp hm with hm | ⟨node', F', hev, hlost⟩
        · exact hc.queued e H' hm
        · obtain ⟨-, rfl, rfl⟩ := Event.finalizedHeads.inj hev
          obtain ⟨x, r, captured, tx, hx, hdue, hmiss, hcap, htx, rfl⟩ :=
            (mem_losses htree.inv).mp hlost
          intro hwin
          have hheld := hreach x r captured hx hdue hcap (List.ne_nil_of_mem htx) hwin
          exact hmiss ((finds_winner_iff htree.inv htree.authentic hx hwin).mpr hheld)
    · push Not at hfin
      have hguard : ReachesWinners L c ev := by
        cases ev with
        | finalizedHeads node F H => exact absurd rfl (hfin node F H)
        | _ => trivial
      refine ⟨fun _ => hguard, fun _ => (loopsFromQueue_step hloops ev).winnersSpared ?_⟩
      intro e H hm
      rcases mem_queued_step.mp hm with hm | ⟨node, F, hev, -⟩
      · exact hc.queued e H hm
      · exact absurd hev (hfin node F H)

/-- The winner at height 1 carries a transaction, and its child is imported, then finalized. -/
def childSeenRun : List Event :=
  captures smallLineage "n" "a1" [transfer] ++
    [reports smallLineage "n" "a2", reports smallLineage "n" "b1",
      finalizes smallLineage "n" "b1"]

/-- Everything from the child down to the winner is in the tree. -/
theorem winnersSpared_childSeen :
    WinnersSpared smallLineage ((machine {} {}).run childSeenRun) := by
  refine (winnersSpared_iff smallLineage {} {} childSeenRun ?_).mpr
    ⟨trivial, trivial, trivial, trivial, trivial, ?_, trivial⟩ _ (List.prefix_refl _)
  · intro e he
    rcases List.mem_append.mp he with he | he
    · exact fromLineage_captures he
    · simp only [List.mem_cons, List.not_mem_nil, or_false] at he
      rcases he with rfl | rfl | rfl
      · exact fromLineage_reports ..
      · exact fromLineage_reports ..
      · exact fromLineage_finalizes ..
  · intro x r captured _ hdue _ _ _
    have hone : r.number = 1 := List.mem_singleton.mp hdue
    rw [hone]
    intro k hk hk'
    have hle : k ≤ 2 := hk'
    unfold Holds
    rw [← Option.isSome_iff_exists]
    interval_cases k
    · decide
    · decide

/-- The winner's child is finalized before its header has come. -/
def unseenHeadRun : List Event :=
  captures smallLineage "n" "a1" [transfer] ++
    [reports smallLineage "n" "a2", finalizes smallLineage "n" "b1"]

/-- The winner's transaction is taken for lost, and a loop is started for it. -/
theorem not_winnersSpared_unseenHeadRun :
    (∀ e ∈ unseenHeadRun, FromLineage smallLineage e) ∧
      smallLineage.IsAncestor "a1" "b1" ∧
      ¬ WinnersSpared smallLineage ((machine {} {}).run unseenHeadRun) := by
  refine ⟨?_, by decide, fun h => ?_⟩
  · intro e he
    rcases List.mem_append.mp he with he | he
    · exact fromLineage_captures he
    · simp only [List.mem_cons, List.not_mem_nil, or_false] at he
      rcases he with rfl | rfl
      · exact fromLineage_reports ..
      · exact fromLineage_finalizes ..
  · refine h.queued (lostEntry {} 1 "a1" ?_) "b1" ?_ ?_
    · exact ⟨.substrate, some "alice", some 0, "t", "balances", "transfer", none, "0x00"⟩
    · decide
    · decide

end ForkWatch.Proof
