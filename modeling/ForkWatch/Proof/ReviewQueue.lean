import ForkWatch.Lib.CallQueue
import ForkWatch.Proof.Links
import ForkWatch.Proof.Poll

/-!
# No loss is forgotten

A transaction of a losing block waits in `pendingReorgReview` for the end of its grace
window. Notifications come from several nodes and in no order, so an entry can be due
when it is queued, and later notifications can be below it.

The queue is always what was ever queued and has met no notification at or past its
due height (`review_queue`). And an entry that has left it was dealt with: a row
tells of its hash, or its own hash was in a body that had become final
(`no_loss_forgotten`). The guard set does not spoil this, although it forgets: what
it remembers has been told.
-/

namespace ForkWatch.Proof

open Lib ChainContext TxTracker

/-! ## What the queue holds -/

/-- A notification calls the entries whose grace window it ends. -/
def endsGrace : Event → ReorgEntry → Bool
  | .finalizedHeads _ F _, entry => entry.dueAtHeight ≤ F
  | _, _ => false

/-- The entries one step queues. -/
def entriesBy (c : ChainContext) (e : Event) : List ReorgEntry := (queuedBy c e).map Prod.fst

theorem entriesBy_finalizedHeads (c : ChainContext) (node : NodeName) (F : Nat) (H : Hash) :
    entriesBy c (.finalizedHeads node F H) = losses c.txTracker F H c.blockTree := by
  unfold entriesBy queuedBy
  rw [List.map_map]
  exact List.map_id _

/-- Where nothing is final, nothing is queued and nothing called. -/
theorem entriesBy_of_no_notification {c : ChainContext} {e : Event}
    (h : ∀ node F H, e ≠ .finalizedHeads node F H) :
    entriesBy c e = [] ∧ ∀ entry, endsGrace e entry = false := by
  cases e with
  | finalizedHeads node F H => exact absurd rfl (h node F H)
  | _ => exact ⟨rfl, fun _ => rfl⟩

theorem review_callQueue (config : ChainConfig) (opts : TxOptions) :
    Machine.CallQueue (machine config opts) (fun c => c.txTracker.pendingReorgReview) entriesBy
      endsGrace where
  step := by
    intro c e
    have hquiet : (∀ node F H, e ≠ .finalizedHeads node F H) →
        (c.step e).txTracker.pendingReorgReview = c.txTracker.pendingReorgReview →
        (c.step e).txTracker.pendingReorgReview = (c.txTracker.pendingReorgReview
          ++ entriesBy c e).filter fun entry => !endsGrace e entry := by
      intro hno hsame
      obtain ⟨hnone, hnever⟩ := entriesBy_of_no_notification (c := c) hno
      rw [hsame, hnone, List.append_nil]
      exact (List.filter_eq_self.mpr fun entry _ => by rw [hnever entry]; rfl).symm
    rcases tx_step_cases c e with ⟨node, F, H, rfl, hfin⟩ | ⟨i, x, n, body, rfl, -, hcap⟩ |
      ⟨i, F, rfl, -, heq⟩ | ⟨hno, hkept⟩
    · have hlast : (c.step (.finalizedHeads node F H)).txTracker.pendingReorgReview
          = (c.txTracker.pendingReorgReview ++ entriesBy c (.finalizedHeads node F H)).filter
            fun entry => !endsGrace (.finalizedHeads node F H) entry := by
        rw [hfin.pending, entriesBy_finalizedHeads]
        refine List.filter_congr fun entry _ => ?_
        unfold endsGrace
        rw [← decide_not]
        simp
      exact hlast
    · exact hquiet (by simp) hcap.pendingReorgReview
    · exact hquiet (by simp) (by rw [heq]; rfl)
    · exact hquiet hno hkept.pendingReorgReview

/-- Every entry ever queued, in order, with the events from its notification on. -/
def everQueued (config : ChainConfig) (opts : TxOptions) (evs : List Event) :
    List (ReorgEntry × List Event) :=
  (machine config opts).arrivals entriesBy (machine config opts).init evs

/-- What the review queue of a run holds. -/
structure ReviewQueue (config : ChainConfig) (opts : TxOptions) (evs : List Event) : Prop where
  /-- What the tracker reported as queued is what the notifications lost. -/
  reported : (queuedOf ((machine config opts).run evs).txTracker.history).map Prod.fst
    = (everQueued config opts evs).map Prod.fst
  /-- Those wait whose grace window no notification has ended, in the order they came. -/
  waiting : ((machine config opts).run evs).txTracker.pendingReorgReview
    = ((everQueued config opts evs).filter fun p =>
        Machine.uncalled endsGrace p.2 p.1).map Prod.fst

/-- **The queue is what was lost and has not come due since.** -/
theorem review_queue (config : ChainConfig) (opts : TxOptions) (evs : List Event) :
    ReviewQueue config opts evs where
  reported := by
    have hstep : ∀ c e, (queuedOf ((machine config opts).step c e).txTracker.history).map Prod.fst
        = (queuedOf c.txTracker.history).map Prod.fst ++ entriesBy c e := by
      intro c e
      have hqueued : queuedOf ((machine config opts).step c e).txTracker.history
          = queuedOf c.txTracker.history ++ queuedBy c e := queuedOf_step c e
      rw [hqueued, List.map_append]
      rfl
    exact Machine.log_runFrom (fun c : ChainContext => (queuedOf c.txTracker.history).map Prod.fst)
      hstep _ evs
  waiting := (review_callQueue config opts).queue_runFrom _ evs

/-! ## What becomes of an entry -/

/-- Once an entry is resolved its hash has been told, or it is canonical itself. -/
theorem told_resolveReorgEntry {t : TxTracker} (hg : GuardsTold t) (entry : ReorgEntry) :
    entry.hash ∈ told (t.resolveReorgEntry entry).history ∨
      (t.latestFor entry.signer entry.nonce).map Inclusion.hash = some entry.hash := by
  unfold resolveReorgEntry
  split
  · exact Or.inl (mem_told_finalize hg entry.toTx _ _)
  · split
    · rename_i hown
      exact Or.inr hown
    · exact Or.inl (mem_told_finalize hg entry.toTx _ _)

/-- One turn of the loop over the queue. -/
def resolveTurn (F : Nat) (t : TxTracker) (entry : ReorgEntry) : TxTracker :=
  if F < entry.dueAtHeight then t else t.resolveReorgEntry entry

theorem acts_resolveTurn (F : Nat) (t : TxTracker) (entry : ReorgEntry) :
    Acts (fun _ => True) .review t (resolveTurn F t entry) := by
  unfold resolveTurn
  split
  · exact Relation.ReflTransGen.refl
  · exact acts_resolveReorgEntry t trivial

/-- Nothing told is taken back. -/
theorem told_resolveTurn (F : Nat) (t : TxTracker) (entry : ReorgEntry) {x : Hash}
    (h : x ∈ told t.history) : x ∈ told (resolveTurn F t entry).history := by
  unfold resolveTurn
  split
  · exact h
  · obtain ⟨rs, hrs, -⟩ := (kept_resolveReorgEntry t entry).history
    rw [hrs, told_append]
    exact List.mem_append_left _ h

theorem told_resolveTurns (F : Nat) (l : List ReorgEntry) {t : TxTracker} {x : Hash}
    (h : x ∈ told t.history) : x ∈ told (l.foldl (resolveTurn F) t).history :=
  List.foldlRecOn l (resolveTurn F) (motive := fun u => x ∈ told u.history) h
    fun u hu entry _ => told_resolveTurn F u entry hu

/-- **The loop over the queue deals with every entry that is due.** -/
theorem told_resolveDue {t : TxTracker} (hg : GuardsTold t) {F : Nat} {entry : ReorgEntry}
    (hin : entry ∈ t.pendingReorgReview) (hdue : entry.dueAtHeight ≤ F) :
    entry.hash ∈ told (t.resolveDue F).history ∨
      (t.latestFor entry.signer entry.nonce).map Inclusion.hash = some entry.hash := by
  have hloop : (t.resolveDue F).history
      = (t.pendingReorgReview.foldl (resolveTurn F) t).history := rfl
  rw [hloop]
  generalize t.pendingReorgReview = queue at hin
  induction queue generalizing t with
  | nil => exact absurd hin (by simp)
  | cons a queue ih =>
      rw [List.foldl_cons]
      have hacts := acts_resolveTurn F t a
      rcases List.mem_cons.mp hin with rfl | hin
      · have hnow : resolveTurn F t entry = t.resolveReorgEntry entry := if_neg (by omega)
        rw [hnow]
        exact (told_resolveReorgEntry hg entry).imp_left (told_resolveTurns F queue)
      · rw [← hacts.sameGround.latestFor]
        exact ih (hacts.preserves (fun _ _ => guardsTold_act) hg) rfl hin

/-- A notification deals with all entries it calls, those it has just queued included. -/
theorem told_whenCalled {c : ChainContext} (hs : Sourced (fun _ => True) c.txTracker)
    (hg : GuardsTold c.txTracker) (node : NodeName) (F : Nat) (H : Hash) {entry : ReorgEntry}
    (hin : entry ∈ c.txTracker.pendingReorgReview ++ losses c.txTracker F H c.blockTree)
    (hdue : entry.dueAtHeight ≤ F) :
    entry.hash ∈ told (c.step (.finalizedHeads node F H)).txTracker.history ∨
      ((c.step (.finalizedHeads node F H)).txTracker.latestFor entry.signer entry.nonce).map
        Inclusion.hash = some entry.hash := by
  have hs' := sourced_walked hs F H (noted c.blockTree F)
  have hg' : GuardsTold (walked c.txTracker F H (noted c.blockTree F)) := by
    rw [walked_eq]
    exact hg.append rfl _ rfl (fun _ hr => marked_of_mem hr) (by simp)
  -- what is due now was queued before, or is lost at this very notification
  have hqueued : (walked c.txTracker F H (noted c.blockTree F)).pendingReorgReview
      ++ losses (walked c.txTracker F H (noted c.blockTree F)) F H (noted c.blockTree F)
      = c.txTracker.pendingReorgReview ++ losses c.txTracker F H c.blockTree := by
    rw [← losses_noted c.txTracker, walked_eq]
    rfl
  have hpending := (reviewed_heights (walked c.txTracker F H (noted c.blockTree F)) F H
    (noted c.blockTree F)).pending
  have hacts : Acts (fun _ => True) .review (walked c.txTracker F H (noted c.blockTree F))
      ((noted c.blockTree F).getForkedHeights.foldl (reviewHeight F H (noted c.blockTree F))
        (walked c.txTracker F H (noted c.blockTree F))) :=
    acts_foldl fun u hu height _ => acts_reviewHeight (hu.sourced hs') F H _ height
  have hstep : (c.step (.finalizedHeads node F H)).txTracker
      = ((noted c.blockTree F).getForkedHeights.foldl (reviewHeight F H (noted c.blockTree F))
        (walked c.txTracker F H (noted c.blockTree F))).resolveDue F := rfl
  rw [hstep]
  generalize (noted c.blockTree F).getForkedHeights.foldl
    (reviewHeight F H (noted c.blockTree F)) (walked c.txTracker F H (noted c.blockTree F)) = u
    at hpending hacts ⊢
  -- resolving marks nothing, so what was canonical for the nonce still is
  have hlatest := (acts_resolveDue (hacts.sourced hs') F).sameGround.latestFor
  rw [hlatest]
  refine told_resolveDue (hacts.preserves (fun _ _ => guardsTold_act) hg') ?_ hdue
  rw [hpending]
  exact hqueued.symm ▸ hin

/--
What has become of a queued entry: it still waits, or a row was told for its hash,
or its own hash was in a captured block that was final at a notification.
-/
def DealtWith (config : ChainConfig) (opts : TxOptions) (evs : List Event)
    (entry : ReorgEntry) : Prop :=
  entry ∈ ((machine config opts).run evs).txTracker.pendingReorgReview ∨
    entry.hash ∈ told ((machine config opts).run evs).txTracker.history ∨
    ∃ s k incl, entry.signer = some s ∧ entry.nonce = some k ∧ incl.hash = entry.hash ∧
      IncludedFinal config opts evs s k incl

/-- A canonical inclusion under the entry's own hash. -/
theorem exists_inclusion {t : TxTracker} {entry : ReorgEntry}
    (h : (t.latestFor entry.signer entry.nonce).map Inclusion.hash = some entry.hash) :
    ∃ s k incl, entry.signer = some s ∧ entry.nonce = some k ∧ incl.hash = entry.hash ∧
      t.latestBySignerNonce.get? (s, k) = some incl := by
  obtain ⟨incl, hlatest, hhash⟩ := Option.map_eq_some_iff.mp h
  unfold latestFor at hlatest
  split at hlatest
  · rename_i s k hs hk
    exact ⟨s, k, incl, hs, hk, hhash, hlatest⟩
  · exact absurd hlatest (by simp)

/-- A waiting entry goes on waiting, or the event that calls it deals with it. -/
theorem dealtWith_of_waiting {config : ChainConfig} {opts : TxOptions} {evs : List Event}
    {e : Event} {entry : ReorgEntry}
    (h : entry ∈ ((machine config opts).run evs).txTracker.pendingReorgReview
      ++ entriesBy ((machine config opts).run evs) e) :
    DealtWith config opts (evs ++ [e]) entry := by
  have hqueue := (review_callQueue config opts).step ((machine config opts).run evs) e
  have hlatest := latest_includedFinal config opts (evs ++ [e])
  have hs := sourced_run config opts evs
  have hg := guardsTold_run config opts evs
  unfold DealtWith
  rw [Machine.run_snoc] at hlatest ⊢
  generalize (machine config opts).run evs = c at h hqueue hlatest hs hg ⊢
  cases hcall : endsGrace e entry with
  | false =>
      refine Or.inl ?_
      rw [hqueue, List.mem_filter, hcall]
      exact ⟨h, rfl⟩
  | true =>
      cases e with
      | finalizedHeads node F H =>
          rw [entriesBy_finalizedHeads] at h
          refine Or.inr ((told_whenCalled hs hg node F H h (of_decide_eq_true hcall)).imp_right ?_)
          intro hown
          obtain ⟨s, k, incl, hsig, hnon, hhash, hget⟩ := exists_inclusion hown
          exact ⟨s, k, incl, hsig, hnon, hhash, hlatest s k incl hget⟩
      | _ => exact absurd hcall Bool.false_ne_true

theorem DealtWith.snoc {config : ChainConfig} {opts : TxOptions} {evs : List Event}
    {entry : ReorgEntry} (h : DealtWith config opts evs entry) (e : Event) :
    DealtWith config opts (evs ++ [e]) entry := by
  rcases h with hwaits | htold | ⟨s, k, incl, hsig, hnon, hhash, hincl⟩
  · exact dealtWith_of_waiting (List.mem_append_left _ hwaits)
  · refine Or.inr (Or.inl ?_)
    obtain ⟨rs, hrs, -⟩ := history_step ((machine config opts).run evs) e
    have hgrow : ((machine config opts).run (evs ++ [e])).txTracker.history
        = ((machine config opts).run evs).txTracker.history ++ rs := by
      rw [Machine.run_snoc]
      exact hrs
    rw [hgrow, told_append]
    exact List.mem_append_left _ htold
  · exact Or.inr (Or.inr ⟨s, k, incl, hsig, hnon, hhash, hincl.snoc e⟩)

/-- **No loss is forgotten.** -/
theorem no_loss_forgotten (config : ChainConfig) (opts : TxOptions) (evs : List Event) :
    ∀ entry H, .queued entry H ∈ ((machine config opts).run evs).txTracker.history →
      DealtWith config opts evs entry := by
  induction evs using List.reverseRecOn with
  | nil => intro entry H h; exact absurd h (by simp [machine])
  | append_singleton evs e ih =>
      intro entry H h
      have hstep : queuedOf ((machine config opts).run (evs ++ [e])).txTracker.history
          = queuedOf ((machine config opts).run evs).txTracker.history
            ++ queuedBy ((machine config opts).run evs) e := by
        rw [Machine.run_snoc]
        exact queuedOf_step _ e
      rw [← mem_queuedOf, hstep, List.mem_append, mem_queuedOf] at h
      rcases h with hold | hnew
      · exact (ih entry H hold).snoc e
      · have hentry : entry ∈ entriesBy ((machine config opts).run evs) e :=
          List.mem_map_of_mem (f := Prod.fst) hnew
        exact dealtWith_of_waiting (List.mem_append_right _ hentry)

/-- The transaction of `a1`, lost when `a2` wins and still within its grace window. -/
theorem no_loss_forgotten_transfer :
    DealtWith {} {} (captures smallLineage "n" "a1" [transfer]
        ++ [reports smallLineage "n" "a2", finalizes smallLineage "n" "a2"])
      (lostEntry {} 1 "a1"
        ⟨.substrate, some "alice", some 0, "t", "balances", "transfer", none, "0x00"⟩) :=
  no_loss_forgotten {} {} _ _ "a2" (by decide)

end ForkWatch.Proof
