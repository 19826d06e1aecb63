import ForkWatch.Proof.Finality

/-!
# A transaction that is back is not lost

`resolveReorgEntry` asks whether the canonical chain has an inclusion for the
*signer and nonce* of the entry. That answers the question whether the *hash* is
back for every transaction whose signer and nonce are known, because marking a
body writes an inclusion for each of them and nothing ever removes one. A wrapped
Ethereum transaction whose sender could not be recovered has neither, leaves no
inclusion, and is reported lost however often it has been included again.
-/

namespace ForkWatch.Proof

open Lib ChainContext TxTracker

/--
Whenever `resolveReorgEntry` has reported this hash lost or expired, no block
marked canonical by then contained it. Only rows about losing blocks carry a
`lostAtHeight`.
-/
def LostMeansGone (h : Hash) (c : ChainContext) : Prop :=
  ∀ before row after, c.txTracker.history = before ++ .submitted row :: after →
    row.firstHash = h → row.lostAtHeight ≠ none →
    (row.status = .reorgedLost ∨ row.status = .expired) →
    ∀ b txs, .marked b txs ∈ before → ∀ tx ∈ txs, tx.hash ≠ h

/-- In every body that is fetched, this hash comes with this signer and nonce. -/
def RecoveredAs (h : Hash) (s : Address) (k : Nat) : Event → Prop
  | .resume _ (.body (some body)) => ∀ n, ∀ tx ∈ extractTrackedExtrinsics body n,
      tx.hash = h → tx.signer = some s ∧ tx.nonce = some k
  | _ => True

/-- What is known of a hash that always comes with its signer and nonce. -/
structure Recovered (h : Hash) (s : Address) (k : Nat) (c : ChainContext) : Prop where
  /-- Every captured body names them. -/
  bodies : ∀ x captured, c.txTracker.blockExtrinsics.get? x = some captured →
    ∀ tx ∈ captured.extrinsics, tx.hash = h → tx.signer = some s ∧ tx.nonce = some k
  /-- Every entry of the queue names them. -/
  queue : ∀ e ∈ c.txTracker.pendingReorgReview, e.hash = h → e.signer = some s ∧ e.nonce = some k
  /-- Once a block with the hash has been marked, there is an inclusion for them. -/
  marked : ∀ b txs, .marked b txs ∈ c.txTracker.history → ∀ tx ∈ txs, tx.hash = h →
    c.txTracker.latestBySignerNonce.has (s, k) = true

theorem recovered_init (config : ChainConfig) (opts : TxOptions) (h : Hash) (s : Address)
    (k : Nat) : Recovered h s k (machine config opts).init where
  bodies := by intro x captured hx; exact absurd hx (by simp [machine])
  queue := by intro e he; exact absurd he (by simp [machine])
  marked := by intro b txs hm; exact absurd hm (by simp [machine])

/-- The entries a notification adds come from captured bodies. -/
theorem Recovered.losses {h : Hash} {s : Address} {k : Nat} {c : ChainContext}
    (hr : Recovered h s k c) (hi : TreeInv c.blockTree) {F : Nat} {H : Hash} {e : ReorgEntry}
    (he : e ∈ losses c.txTracker F H c.blockTree) (hh : e.hash = h) :
    e.signer = some s ∧ e.nonce = some k := by
  obtain ⟨x, r, captured, tx, -, -, -, hcap, htx, rfl⟩ := (mem_losses hi).mp he
  exact hr.bodies x captured hcap tx htx hh

theorem recovered_step {h : Hash} {s : Address} {k : Nat} {c : ChainContext}
    (hr : Recovered h s k c) (hi : TreeInv c.blockTree) {e : Event} (he : RecoveredAs h s k e) :
    Recovered h s k (c.step e) where
  bodies := by
    intro y captured hy tx htx hh
    rcases tx_step_cases c e with ⟨node, F, H, rfl, hfin⟩ | ⟨i, x, n, body, rfl, -, hcap⟩ |
      ⟨i, F, rfl, -, heq⟩ | ⟨-, hkept⟩
    · rw [hfin.blockExtrinsics] at hy
      exact hr.bodies y captured hy tx htx hh
    · rw [hcap.blockExtrinsics, OrdMap.get?_set] at hy
      split at hy
      · obtain rfl := Option.some.inj hy
        exact he n tx htx hh
      · exact hr.bodies y captured hy tx htx hh
    · rw [heq] at hy
      exact hr.bodies y captured (body_pruneBlocks hy).1 tx htx hh
    · rw [hkept.blockExtrinsics] at hy
      exact hr.bodies y captured hy tx htx hh
  queue := by
    intro entry hentry hh
    rcases tx_step_cases c e with ⟨node, F, H, rfl, hfin⟩ | ⟨i, x, n, body, rfl, -, hcap⟩ |
      ⟨i, F, rfl, -, heq⟩ | ⟨-, hkept⟩
    -- what finality queues anew was lost from a body
    · rw [hfin.pending] at hentry
      rcases List.mem_append.mp (List.mem_of_mem_filter hentry) with hentry | hentry
      · exact hr.queue entry hentry hh
      · exact hr.losses hi hentry hh
    · rw [hcap.pendingReorgReview] at hentry
      exact hr.queue entry hentry hh
    · rw [heq] at hentry
      exact hr.queue entry hentry hh
    · rw [hkept.pendingReorgReview] at hentry
      exact hr.queue entry hentry hh
  marked := by
    intro b txs hm tx htx hh
    rcases mem_history_step hm with hold | ⟨node, F, H, r, captured, rfl, hpath, rfl, hcap, rfl⟩
    · exact latest_step_mono c e (hr.marked b txs hold tx htx hh)
    · -- the walk has just marked it
      rw [(finalized_step c node F H).latestBySignerNonce, has_foldl_markInto]
      exact Or.inr ⟨r, hpath, captured, hcap, tx, htx, hr.bodies _ captured hcap tx htx hh⟩

/-! ## New rows -/

/-- An element of a list that grew was there before, with the same things before it, or is new. -/
theorem split_append {α : Type} {xs ys before after : List α} {a : α}
    (h : xs ++ ys = before ++ a :: after) : (∃ rest, xs = before ++ a :: rest) ∨ a ∈ ys := by
  rcases List.append_eq_append_iff.mp h with ⟨mid, -, hys⟩ | ⟨mid, hxs, hmid⟩
  · exact Or.inr (by rw [hys]; simp)
  · cases mid with
    | nil => exact Or.inr (by rw [← List.nil_append ys, ← hmid]; simp)
    | cons b mid =>
        obtain ⟨rfl, -⟩ := List.cons.inj hmid
        exact Or.inl ⟨mid, hxs⟩

theorem lostMeansGone_step {h : Hash} {s : Address} {k : Nat} {c : ChainContext} {e : Event}
    (hgone : LostMeansGone h c) (hr : Recovered h s k c) (hi : TreeInv c.blockTree)
    (he : RecoveredAs h s k e) : LostMeansGone h (c.step e) := by
  intro before row after hhist hfirst hlost hstatus b txs hm tx htx hh
  obtain ⟨rs, hrs, hnew⟩ := history_step c e
  rcases split_append (hrs.symm.trans hhist) with ⟨rest, hold⟩ | hrow
  · -- what was told before was told with the same marks before it
    exact hgone before row rest hold hfirst hlost hstatus b txs hm tx htx hh
  · rcases hnew _ hrow with hnone | ⟨node, F, H, entry, rfl, hentry, hentryHash, -, hlatest⟩
    · exact hlost hnone
    · have hname : entry.signer = some s ∧ entry.nonce = some k := by
        have hhash : entry.hash = h := hentryHash.symm.trans hfirst
        rcases List.mem_append.mp (List.mem_of_mem_filter hentry) with hentry | hentry
        · exact hr.queue entry hentry hhash
        · exact hr.losses hi hentry hhash
      -- the mark has left an inclusion for the very signer and nonce that were asked for
      have hmark : .marked b txs ∈ (c.step (.finalizedHeads node F H)).txTracker.history := by
        rw [hhist]
        exact List.mem_append_left _ hm
      have hhas := (recovered_step hr hi he).marked b txs hmark tx htx hh
      have hmiss := hlatest hstatus
      rw [hname.1, hname.2] at hmiss
      rw [OrdMap.has_iff] at hhas
      obtain ⟨latest, hget⟩ := hhas
      exact absurd (hget.symm.trans hmiss) (by simp)

/--
**When a re-included transaction is never reported lost.**

If a hash comes with one known signer and nonce in every body that contains it,
then no state of any run has a row that reports it lost or expired after a block
with it was marked canonical.
-/
theorem lostMeansGone_of_recovered (config : ChainConfig) (opts : TxOptions) (evs : List Event)
    {h : Hash} {s : Address} {k : Nat} (he : ∀ e ∈ evs, RecoveredAs h s k e) :
    ∀ pre, pre <+: evs → LostMeansGone h ((machine config opts).run pre) := by
  intro pre hpre
  have key : TreeInv ((machine config opts).run pre).blockTree ∧
      Recovered h s k ((machine config opts).run pre) ∧
      LostMeansGone h ((machine config opts).run pre) := by
    refine Machine.run_invariant (A := RecoveredAs h s k)
      (I := fun c => TreeInv c.blockTree ∧ Recovered h s k c ∧ LostMeansGone h c) ?_ ?_
      fun e hm => he e (hpre.subset hm)
    · refine ⟨treeInv_init, recovered_init config opts h s k, ?_⟩
      intro before row after hhist
      exact absurd hhist (by simp [machine])
    · intro c e hI he
      obtain ⟨hi, hr, hgone⟩ := hI
      exact ⟨treeInv_step hi e, recovered_step hr hi he, lostMeansGone_step hgone hr hi he⟩
  exact key.2.2

/-- `a2` and `b1` carry the same extrinsic; `a1` wins over `a2`, and then its child `b1` is final. -/
def backAgainRun (ext : Extrinsic) : List Event :=
  captures smallLineage "n" "a2" [ext] ++ captures smallLineage "n" "b1" [ext] ++
    [reports smallLineage "n" "a1", finalizes smallLineage "n" "a1", finalizes smallLineage "n" "b1"]

/-- A signed transfer that is included again is not reported. -/
theorem lostMeansGone_transfer :
    LostMeansGone "t" ((machine {} { reorgGracePeriodBlocks := 1 }).run
      (backAgainRun transfer)) := by
  refine lostMeansGone_of_recovered {} { reorgGracePeriodBlocks := 1 } (backAgainRun transfer)
    (s := "alice") (k := 0) ?_ _ (List.prefix_refl _)
  intro e he
  simp only [backAgainRun, captures, List.cons_append, List.nil_append, List.mem_cons,
    List.not_mem_nil, or_false] at he
  rcases he with rfl | rfl | rfl | rfl | rfl | rfl | rfl | rfl | rfl
  · trivial
  · trivial
  · intro n tx htx _
    obtain rfl := List.mem_singleton.mp htx
    exact ⟨rfl, rfl⟩
  · trivial
  · trivial
  · intro n tx htx _
    obtain rfl := List.mem_singleton.mp htx
    exact ⟨rfl, rfl⟩
  · trivial
  · trivial
  · trivial

/-- The row the tracker writes about a wrapped transaction whose sender is not recovered. -/
def wrappedRow : SubmittedTx where
  signer := none
  nonce := none
  kind := .evm
  pallet := "ethereum"
  method := "transact"
  status := .reorgedLost
  firstHash := "w"
  lastHash := "w"
  attempts := [⟨"w", none, none, .orphanedByReorg⟩]
  lostAtHeight := some 1
  lostAtHash := some "a2"
  resolvedHash := none
  resolvedHeight := none

/-- It is reported lost, although the canonical `b1` has just been marked and contains it. -/
theorem not_lostMeansGone_wrapped :
    (∀ e ∈ backAgainRun (.transact "w" "0x00" none), FromLineage smallLineage e) ∧
      ¬ LostMeansGone "w" ((machine {} { reorgGracePeriodBlocks := 1 }).run
        (backAgainRun (.transact "w" "0x00" none))) := by
  refine ⟨?_, ?_⟩
  · intro e he
    simp only [backAgainRun, List.append_assoc, List.mem_append, List.mem_cons, List.not_mem_nil,
      or_false] at he
    rcases he with he | he | rfl | rfl | rfl
    · exact fromLineage_captures he
    · exact fromLineage_captures he
    · exact fromLineage_reports ..
    · exact fromLineage_finalizes ..
    · exact fromLineage_finalizes ..
  · intro h
    have hsplit : ((machine {} { reorgGracePeriodBlocks := 1 }).run
        (backAgainRun (.transact "w" "0x00" none))).txTracker.history
        = ((machine {} { reorgGracePeriodBlocks := 1 }).run
            (backAgainRun (.transact "w" "0x00" none))).txTracker.history.dropLast
          ++ .submitted wrappedRow :: [] := by decide
    refine h _ wrappedRow [] hsplit rfl (by decide) (Or.inl rfl) "b1" _ ?_
      (extractEvmExtrinsic "w" "0x00" none) (List.mem_singleton_self _) rfl
    decide

end ForkWatch.Proof
