import ForkWatch.Proof.Acts

/-!
# Where a resubmission is linked to

A row that calls a transaction resubmitted names the hash that took its place. It
was read off `latestBySignerNonce`, twice: by the classification, and again by
`finalize` for the list of attempts. Nothing happens to the inclusions in
between, so the two agree (`links_tell`). And what stands in the map was put there
by the walk of some notification, out of a body it met on its way down from the
finalized hash (`get?_markWalk`), so a body off that path never supplies a link.
-/

namespace ForkWatch.Proof

open Lib ChainContext TxTracker

/-! ## Where inclusions come from -/

/-- The record is reached from the block of `H` by parent links of the tree. -/
inductive ReachedFrom (tree : BlockTree) (H : Hash) : BlockRecord → Prop where
  | self {r : BlockRecord} (h : tree.getBlock H = some r) : ReachedFrom tree H r
  | parent {r p : BlockRecord} (h : ReachedFrom tree H r)
      (hp : tree.getBlock r.parentHash = some p) : ReachedFrom tree H p

/-- The walk meets ancestors of its start only. -/
theorem reachedFrom_walkPath {tree : BlockTree} {H : Hash} (floor : Int) (fuel : Nat) :
    ∀ cursor, (∀ r, cursor = some r → ReachedFrom tree H r) →
      ∀ b ∈ walkPath tree floor fuel cursor, ReachedFrom tree H b := by
  induction fuel with
  | zero =>
      intro cursor _ b hb
      cases cursor with
      | none => exact absurd hb (by simp [walkPath])
      | some r => exact absurd hb (by simp [walkPath])
  | succ fuel ih =>
      intro cursor hcursor b hb
      cases cursor with
      | none => exact absurd hb (by simp [walkPath])
      | some r =>
          have hr := hcursor r rfl
          unfold walkPath at hb
          split at hb
          · rcases List.mem_cons.mp hb with rfl | hb
            · exact hr
            · exact ih _ (fun p hp => hr.parent hp) b hb
          · exact absurd hb (by simp)

/-- The inclusion of this transaction in this block. -/
def inclusionOf (blockHash : Hash) (blockNumber : Nat) (tx : Tx) : Inclusion where
  hash := tx.hash
  blockHash := blockHash
  blockNumber := blockNumber
  pallet := tx.pallet
  method := tx.method
  era := tx.era

theorem get?_foldl_recordInclusion {x : Hash} {n : Nat} {txs : List Tx}
    {latest : OrdMap (Address × Nat) Inclusion} {s : Address} {k : Nat} {incl : Inclusion}
    (h : (txs.foldl (recordInclusion x n) latest).get? (s, k) = some incl) :
    latest.get? (s, k) = some incl ∨
      ∃ tx ∈ txs, tx.signer = some s ∧ tx.nonce = some k ∧ incl = inclusionOf x n tx := by
  induction txs generalizing latest with
  | nil => exact Or.inl h
  | cons tx txs ih =>
      rcases ih h with hone | ⟨tx', htx', hof⟩
      · unfold recordInclusion at hone
        split at hone
        · rename_i s' k' hs hk
          rw [OrdMap.get?_set] at hone
          split at hone
          · rename_i hkey
            obtain ⟨rfl, rfl⟩ := Prod.mk.inj hkey
            exact Or.inr ⟨tx, by simp, hs, hk, (Option.some.inj hone).symm⟩
          · exact Or.inl hone
        · exact Or.inl hone
      · exact Or.inr ⟨tx', List.mem_cons_of_mem tx htx', hof⟩

/-- **An inclusion is an old one, or stands in a body the walk has met.** -/
theorem get?_markWalk {bodies : OrdMap Hash Captured} {path : List BlockRecord}
    {latest : OrdMap (Address × Nat) Inclusion} {s : Address} {k : Nat} {incl : Inclusion}
    (h : (path.foldl (markInto bodies) latest).get? (s, k) = some incl) :
    latest.get? (s, k) = some incl ∨ ∃ r ∈ path, ∃ captured, bodies.get? r.hash = some captured ∧
      ∃ tx ∈ captured.extrinsics, tx.signer = some s ∧ tx.nonce = some k ∧
        incl = inclusionOf r.hash r.number tx := by
  induction path generalizing latest with
  | nil => exact Or.inl h
  | cons r path ih =>
      rcases ih h with hone | ⟨r', hr', hof⟩
      · unfold markInto at hone
        cases hcap : bodies.get? r.hash with
        | none =>
            rw [hcap] at hone
            exact Or.inl hone
        | some captured =>
            rw [hcap] at hone
            rcases get?_foldl_recordInclusion hone with hold | hnew
            · exact Or.inl hold
            · exact Or.inr ⟨r, by simp, captured, hcap, hnew⟩
      · exact Or.inr ⟨r', List.mem_cons_of_mem r hr', hof⟩

/--
The inclusion is one of a captured block that was final at some notification of
the run: the block of the notified hash, or one of its ancestors in the tree as
it stood then.
-/
def IncludedFinal (config : ChainConfig) (opts : TxOptions) (evs : List Event) (s : Address)
    (k : Nat) (incl : Inclusion) : Prop :=
  ∃ before node F H r captured tx, before ++ [.finalizedHeads node F H] <+: evs ∧
    ReachedFrom ((machine config opts).run before).blockTree H r ∧
    ((machine config opts).run before).txTracker.blockExtrinsics.get? r.hash = some captured ∧
    tx ∈ captured.extrinsics ∧ tx.signer = some s ∧ tx.nonce = some k ∧
    incl = inclusionOf r.hash r.number tx

theorem IncludedFinal.snoc {config : ChainConfig} {opts : TxOptions} {evs : List Event}
    {s : Address} {k : Nat} {incl : Inclusion} (h : IncludedFinal config opts evs s k incl)
    (e : Event) : IncludedFinal config opts (evs ++ [e]) s k incl := by
  obtain ⟨before, node, F, H, r, captured, tx, hpre, hof⟩ := h
  exact ⟨before, node, F, H, r, captured, tx, hpre.trans (List.prefix_append ..), hof⟩

/-- **Every entry of `latestBySignerNonce` comes from a captured final block.** -/
theorem latest_includedFinal (config : ChainConfig) (opts : TxOptions) (evs : List Event) :
    ∀ s k incl, ((machine config opts).run evs).txTracker.latestBySignerNonce.get? (s, k)
      = some incl → IncludedFinal config opts evs s k incl := by
  induction evs using List.reverseRecOn with
  | nil => intro s k incl h; exact absurd h (by simp [machine])
  | append_singleton evs e ih =>
      intro s k incl h
      rw [Machine.run_snoc] at h
      have hsame : (((machine config opts).run evs).step e).txTracker.latestBySignerNonce
          = ((machine config opts).run evs).txTracker.latestBySignerNonce →
          IncludedFinal config opts (evs ++ [e]) s k incl := by
        intro heq
        refine (ih s k incl ?_).snoc e
        rw [← heq]
        exact h
      rcases tx_step_cases ((machine config opts).run evs) e with ⟨node, F, H, rfl, hfin⟩ |
        ⟨i, x, n, body, rfl, -, hcap⟩ | ⟨i, F, rfl, -, heq⟩ | ⟨-, hkept⟩
      · have hwalk : ((machine config opts).run evs).step (.finalizedHeads node F H)
            = (machine config opts).step ((machine config opts).run evs)
              (.finalizedHeads node F H) := rfl
        rw [← hwalk, hfin.latestBySignerNonce] at h
        rcases get?_markWalk h with hold | ⟨r, hr, captured, hcap, tx, htx, hs, hk, hincl⟩
        · exact (ih s k incl hold).snoc _
        · refine ⟨evs, node, F, H, r, captured, tx, List.prefix_refl _, ?_, hcap, htx, hs, hk,
            hincl⟩
          exact reachedFrom_walkPath _ _ _ (fun r hr => .self hr) r hr
      · exact hsame hcap.latestBySignerNonce
      · exact hsame (by rw [heq]; rfl)
      · exact hsame hkept.latestBySignerNonce

/-! ## What a row says -/

/-- The row calls its transaction resubmitted. -/
def CallsResubmitted (row : SubmittedTx) : Prop :=
  row.status = .resubmitted ∨ row.status = .reorgedResubmitted

/-- The row names this inclusion as what took the place of its transaction. -/
structure LinksTo (row : SubmittedTx) (incl : Inclusion) : Prop where
  differs : incl.hash ≠ row.firstHash
  lastHash : row.lastHash = incl.hash
  resolvedHash : row.resolvedHash = some incl.hash
  resolvedHeight : row.resolvedHeight = some incl.blockNumber
  attempts : row.attempts.map TxAttempt.hash = [row.firstHash, incl.hash]

/-- Every row that calls its transaction resubmitted is linked to an inclusion with `P`. -/
def Linked (P : Address → Nat → Inclusion → Prop) (t : TxTracker) : Prop :=
  ∀ row, .submitted row ∈ t.history → CallsResubmitted row →
    ∃ s k incl, row.signer = some s ∧ row.nonce = some k ∧ LinksTo row incl ∧ P s k incl

variable {P Q : Address → Nat → Inclusion → Prop} {N : Tx → Prop} {side : Side}

theorem Linked.mono {t : TxTracker} (h : Linked P t) (hpq : ∀ s k incl, P s k incl → Q s k incl) :
    Linked Q t := by
  intro row hrow hcalls
  obtain ⟨s, k, incl, hs, hk, hlinks, hp⟩ := h row hrow hcalls
  exact ⟨s, k, incl, hs, hk, hlinks, hpq s k incl hp⟩

/-- Reports that tell no incident add no link. -/
theorem Linked.append {p : TxReport → Prop} {t t' : TxTracker} (h : Linked P t)
    (rs : List TxReport) (hhist : t'.history = t.history ++ rs) (hof : ∀ r ∈ rs, p r)
    (hp : ∀ row, ¬ p (.submitted row)) : Linked P t' := by
  intro row hrow hcalls
  rw [hhist] at hrow
  rcases List.mem_append.mp hrow with hrow | hrow
  · exact h row hrow hcalls
  · exact absurd (hof _ hrow) (hp row)

/-- **The row of a resubmission names the inclusion that is the latest one now.** -/
theorem links_tell {t : TxTracker} {tx : Tx} {status : TxStatus} {extra : FinalizeExtra}
    (hi : Incident side t tx status extra) (hcalls : CallsResubmitted (incidentRow t tx status extra)) :
    ∃ s k incl, tx.signer = some s ∧ tx.nonce = some k ∧
      t.latestBySignerNonce.get? (s, k) = some incl ∧
      LinksTo (incidentRow t tx status extra) incl := by
  obtain ⟨incl, hfind, hreplaced, hheight⟩ := hi.linked hcalls
  unfold findResubmission at hfind
  obtain ⟨hlatest, hne⟩ := Option.filter_eq_some_iff.mp hfind
  cases hs : tx.signer with
  | none =>
      rw [hs] at hlatest
      exact absurd hlatest (by simp [latestFor])
  | some s =>
      cases hk : tx.nonce with
      | none =>
          rw [hs, hk] at hlatest
          exact absurd hlatest (by simp [latestFor])
      | some k =>
          refine ⟨s, k, incl, rfl, rfl, ?_, ?_⟩
          · rw [hs, hk] at hlatest
            exact hlatest
          · refine ⟨by simpa [incidentRow] using hne, by simp [incidentRow, hreplaced], hreplaced,
              hheight, ?_⟩
            -- `finalize` looks the inclusion up again
            simp [incidentRow, finalAttempts, hreplaced, hlatest, toAttempt]

theorem linked_act {t t' : TxTracker}
    (hP : ∀ s k incl, t.latestBySignerNonce.get? (s, k) = some incl → P s k incl)
    (h : Linked P t) (hact : Act N side t t') : Linked P t' := by
  cases hact with
  | writePool => exact h
  | writeQueue => exact h
  | queued _ entry H =>
      exact h.append [.queued entry H] rfl (fun _ hr => List.mem_singleton.mp hr) (by simp)
  | start _ _ record =>
      obtain ⟨timers, ever, calls, rs, heq, hof⟩ := startResubmitRetry_eq t record
      rw [heq]
      exact h.append rs rfl hof fun _ hr => hr
  | stop => exact h
  | tell _ _ tx status extra hN hi =>
      rcases finalize_cases t tx status extra with ⟨-, heq⟩ | ⟨-, heq⟩
      · rw [heq]
        exact h
      · rw [heq]
        intro row hrow hcalls
        rcases List.mem_append.mp hrow with hrow | hrow
        · exact h row hrow hcalls
        · obtain rfl := TxReport.submitted.inj (List.mem_singleton.mp hrow)
          obtain ⟨s, k, incl, hs, hk, hlatest, hlinks⟩ := links_tell hi hcalls
          exact ⟨s, k, incl, hs, hk, hlinks, hP s k incl hlatest⟩

theorem linked_acts {t t' : TxTracker}
    (hP : ∀ s k incl, t.latestBySignerNonce.get? (s, k) = some incl → P s k incl)
    (h : Linked P t) (hacts : Acts N side t t') : Linked P t' := by
  refine (hacts.preserves (I := fun u => SameGround t u ∧ Linked P u) ?_ ⟨SameGround.refl t, h⟩).2
  intro u u' hu hact
  refine ⟨hu.1.trans hact.sameGround, linked_act ?_ hu.2 hact⟩
  rw [hu.1.latestBySignerNonce]
  exact hP

theorem linked_step {c : ChainContext} {e : Event} (hs : Sourced N c.txTracker)
    (he : Supplies N c e)
    (hP : ∀ s k incl, (c.step e).txTracker.latestBySignerNonce.get? (s, k) = some incl →
      P s k incl) (h : Linked P c.txTracker) : Linked P (c.step e).txTracker := by
  obtain ⟨u, side, hu, hacts⟩ := step_acts hs he
  obtain ⟨rs, hhist, hnews⟩ := hu.history
  rw [hacts.sameGround.latestBySignerNonce] at hP
  exact linked_acts hP (h.append rs hhist hnews fun _ hr => hr) hacts

/--
**Resubmission links are sound.** In every run, a row that calls a transaction
resubmitted names, in `lastHash`, `resolvedHash` and the second attempt, one hash
other than the transaction's own; it has the same signer and nonce and is in a
captured block, of number `resolvedHeight`, that was final at a notification of
the run.
-/
theorem resubmissions_linked (config : ChainConfig) (opts : TxOptions) (evs : List Event) :
    Linked (IncludedFinal config opts evs) ((machine config opts).run evs).txTracker := by
  induction evs using List.reverseRecOn with
  | nil => intro row hrow; exact absurd hrow (by simp [machine])
  | append_singleton evs e ih =>
      have hlatest := latest_includedFinal config opts (evs ++ [e])
      rw [Machine.run_snoc] at hlatest ⊢
      exact linked_step (sourced_run config opts evs) (supplies_true _ e) hlatest
        (ih.mono fun s k incl hincl => hincl.snoc e)

/-- The transfer leaves the pool because another one with its nonce has become final. -/
def replacedRun : List Event :=
  [.poll "n1" (some [transfer])] ++
    captures smallLineage "n1" "a1" [.signed "alice" 0 "r" "balances" "transfer" none "0x01"] ++
    [finalizes smallLineage "n1" "a1", .poll "n1" (some [])]

example : ((machine {} { dropGracePolls := 1 }).run replacedRun).txTracker.history.filterMap
    (fun r => match r with
      | .submitted row => some (row.firstHash, row.lastHash, row.resolvedHeight)
      | _ => none) = [("t", "r", some 1)] := by decide

end ForkWatch.Proof
