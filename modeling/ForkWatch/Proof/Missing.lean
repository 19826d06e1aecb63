import ForkWatch.Proof.Poll

/-!
# Does the tracker miss what is missing?

For a hash that no captured body contains and whose signer and nonce have no
canonical inclusion, only the snapshots decide: what the tracker holds of it is
what a `Watch` over its presence in one snapshot after another says (`Follows`).
Between two snapshots nothing happens to it, and a snapshot is one observation
(`Follows.poll`), whatever else is in the pool.
-/

namespace ForkWatch.Proof

open Lib ChainContext TxTracker

variable {N : Tx → Prop} {h : Hash}

/-! ## Included hashes -/

/-- The hashes of captured bodies, and of what was queued from them, are included. -/
structure Included (t : TxTracker) : Prop where
  bodies : ∀ x captured, t.blockExtrinsics.get? x = some captured →
    ∀ tx ∈ captured.extrinsics, t.includedHashes.has tx.hash = true
  queue : ∀ e ∈ t.pendingReorgReview, t.includedHashes.has e.hash = true

theorem Included.losses {t : TxTracker} (hi : Included t) {tree : BlockTree}
    (htree : TreeInv tree) {F : Nat} {H : Hash} {e : ReorgEntry}
    (he : e ∈ t.pendingReorgReview ++ losses t F H tree) : t.includedHashes.has e.hash = true := by
  rcases List.mem_append.mp he with he | he
  · exact hi.queue e he
  · obtain ⟨x, r, captured, tx, -, -, -, hcap, htx, rfl⟩ := (mem_losses htree).mp he
    exact hi.bodies x captured hcap tx htx

theorem has_foldl_add (txs : List Tx) (s : OrdSet Hash) (x : Hash) :
    (txs.foldl (fun s tx => s.add tx.hash) s).has x = true
      ↔ s.has x = true ∨ ∃ tx ∈ txs, tx.hash = x := by
  induction txs generalizing s with
  | nil => simp
  | cons tx txs ih =>
      rw [List.foldl_cons, ih, OrdMap.has_add]
      simp only [List.mem_cons, exists_eq_or_imp, Bool.or_eq_true, decide_eq_true_eq]
      grind

/-- A hash once included stays included. -/
theorem included_step_mono (c : ChainContext) (e : Event) {x : Hash}
    (hx : c.txTracker.includedHashes.has x = true) :
    (c.step e).txTracker.includedHashes.has x = true := by
  have hstep := trackerStep c e
  generalize (c.step e).txTracker = t' at hstep ⊢
  cases hstep with
  | captured i y n body =>
      obtain ⟨rs, heq, -⟩ := captureBody_eq c.txTracker y n body
      rw [heq]
      exact (has_foldl_add _ _ x).mpr (Or.inl hx)
  | finalized node F H =>
      rw [(finalized_spec c.txTracker F H _).includedHashes]
      exact hx
  | poll node answer =>
      rw [(kept_pollPendingPool c.txTracker node answer).includedHashes]
      exact hx
  | retryTick y =>
      rw [(kept_retryTick c.txTracker y).includedHashes]
      exact hx
  | settled call results =>
      rw [(kept_resubmitSettled c.txTracker call results).includedHashes]
      exact hx
  | idle => exact hx
  | pruned => exact hx
  | connections => exact hx

theorem included_step {c : ChainContext} (htree : TreeInv c.blockTree)
    (hi : Included c.txTracker) (e : Event) : Included (c.step e).txTracker := by
  have hmono := fun x => included_step_mono (x := x) c e
  have hstep := trackerStep c e
  generalize (c.step e).txTracker = t' at hstep hmono ⊢
  -- bodies and queue come from what was there
  have hkept : t'.blockExtrinsics = c.txTracker.blockExtrinsics →
      t'.pendingReorgReview = c.txTracker.pendingReorgReview → Included t' := by
    intro hbodies hqueue
    refine ⟨?_, ?_⟩
    · rw [hbodies]
      exact fun x captured hx tx htx => hmono _ (hi.bodies x captured hx tx htx)
    · rw [hqueue]
      exact fun e he => hmono _ (hi.queue e he)
  cases hstep with
  | idle => exact hkept rfl rfl
  | captured i x n body =>
      obtain ⟨rs, heq, -⟩ := captureBody_eq c.txTracker x n body
      rw [heq] at hmono ⊢
      refine ⟨?_, fun e he => hmono _ (hi.queue e he)⟩
      intro y captured hy tx htx
      rw [OrdMap.get?_set] at hy
      split at hy
      · obtain rfl := Option.some.inj hy
        exact (has_foldl_add _ _ _).mpr (Or.inr ⟨tx, htx, rfl⟩)
      · exact hmono _ (hi.bodies y captured hy tx htx)
  | pruned i F =>
      exact ⟨fun x captured hx tx htx => hi.bodies x captured (body_pruneBlocks hx).1 tx htx,
        hi.queue⟩
  | finalized node F H =>
      have hfin : Finalized F H c.blockTree c.txTracker
        (c.txTracker.onHeightFinalized F H (noted c.blockTree F)) := finalized_step c node F H
      refine ⟨?_, ?_⟩
      · intro x captured hx tx htx
        rw [hfin.blockExtrinsics] at hx
        exact hmono _ (hi.bodies x captured hx tx htx)
      · intro e he
        rw [hfin.pending] at he
        exact hmono _ (hi.losses htree (List.mem_filter.mp he).1)
  | poll node answer =>
      have hk := kept_pollPendingPool c.txTracker node answer
      exact hkept hk.blockExtrinsics hk.pendingReorgReview
  | retryTick x =>
      have hk := kept_retryTick c.txTracker x
      exact hkept hk.blockExtrinsics hk.pendingReorgReview
  | settled call results =>
      have hk := kept_resubmitSettled c.txTracker call results
      exact hkept hk.blockExtrinsics hk.pendingReorgReview
  | connections => exact hkept rfl rfl

/-! ## Between the polls -/

theorem mem_told {rs : List TxReport} {x : Hash} :
    x ∈ told rs ↔ ∃ row, .submitted row ∈ rs ∧ row.firstHash = x := by
  unfold told
  rw [List.mem_filterMap]
  refine ⟨?_, ?_⟩
  · intro hx
    obtain ⟨r, hr, heq⟩ := hx
    cases r with
    | submitted row => exact ⟨row, hr, Option.some.inj heq⟩
    | _ => exact absurd heq (by simp)
  · intro hx
    obtain ⟨row, hrow, rfl⟩ := hx
    exact ⟨_, hrow, rfl⟩

/-- The event is no snapshot. -/
def NoSnapshot (e : Event) : Prop := ∀ node raw, e ≠ .poll node (some raw)

/-- Outside the polls, only hashes are told that some body contained. -/
theorem submitted_of_noSnapshot {c : ChainContext} {e : Event} (htree : TreeInv c.blockTree)
    (hi : Included c.txTracker) (he : NoSnapshot e) {row : SubmittedTx}
    (hrow : .submitted row ∈ (c.step e).txTracker.history) :
    .submitted row ∈ c.txTracker.history ∨ c.txTracker.includedHashes.has row.firstHash = true := by
  have hstep := trackerStep c e
  generalize (c.step e).txTracker = t' at hstep hrow
  cases hstep with
  | idle => exact Or.inl hrow
  | captured i x n body =>
      obtain ⟨rs, heq, htracked⟩ := captureBody_eq c.txTracker x n body
      rw [heq, List.mem_append, List.mem_cons] at hrow
      rcases hrow with hrow | hrow | hrow
      · exact Or.inl hrow
      · exact absurd hrow (by simp)
      · obtain ⟨k, heq⟩ := htracked _ hrow
        exact absurd heq (by simp)
  | pruned => exact Or.inl hrow
  | finalized node F H =>
      have hfin : Finalized F H c.blockTree c.txTracker
        (c.txTracker.onHeightFinalized F H (noted c.blockTree F)) := finalized_step c node F H
      obtain ⟨review, resolution, hhist, -, hreview, hresolution⟩ := hfin.history
      rw [hhist] at hrow
      simp only [List.mem_append] at hrow
      rcases hrow with ((hrow | hrow) | hrow) | hrow
      · exact Or.inl hrow
      · obtain ⟨x, txs, heq⟩ := marked_of_mem hrow
        exact absurd heq (by simp)
      · exact absurd (hreview _ hrow) id
      -- the row of a loss is of a hash that a body had included
      · obtain ⟨entry, hdue, hfirst, -⟩ := hresolution _ hrow
        rw [hfirst]
        exact Or.inr (hi.losses htree (List.mem_filter.mp hdue).1)
  | poll node answer =>
      cases answer with
      | none => exact Or.inl hrow
      | some raw => exact absurd rfl (he node raw)
  | retryTick x =>
      obtain ⟨timers, calls, rs, heq, hof⟩ := retryTick_eq c.txTracker x
      rw [heq, List.mem_append] at hrow
      rcases hrow with hrow | hrow
      · exact Or.inl hrow
      · obtain ⟨loop, -, hr⟩ := hof _ hrow
        exact absurd hr id
  | settled call results =>
      obtain ⟨calls, rs, heq, hof⟩ := resubmitSettled_eq c.txTracker call results
      rw [heq, List.mem_append] at hrow
      rcases hrow with hrow | hrow
      · exact Or.inl hrow
      · obtain ⟨row', heq', -⟩ := hof _ hrow
        exact absurd heq' (by simp)
  | connections => exact Or.inl hrow

/-- Outside the polls, the pool and the candidates stay as they are. -/
theorem pool_of_noSnapshot {c : ChainContext} {e : Event} (hs : Sourced N c.txTracker)
    (he : NoSnapshot e) : (c.step e).txTracker.pendingPool = c.txTracker.pendingPool ∧
      (c.step e).txTracker.missingCandidates = c.txTracker.missingCandidates := by
  have hstep := trackerStep c e
  generalize (c.step e).txTracker = t' at hstep ⊢
  cases hstep with
  | captured i x n body =>
      obtain ⟨rs, heq, -⟩ := captureBody_eq c.txTracker x n body
      rw [heq]
      exact ⟨rfl, rfl⟩
  | finalized node F H =>
      have hacts := (acts_onHeightFinalized hs F H (noted c.blockTree F)).pool_eq
      rw [walked_eq] at hacts
      exact hacts
  | poll node answer =>
      cases answer with
      | none => exact ⟨rfl, rfl⟩
      | some raw => exact absurd rfl (he node raw)
  | retryTick x =>
      obtain ⟨timers, calls, rs, heq, -⟩ := retryTick_eq c.txTracker x
      rw [heq]
      exact ⟨rfl, rfl⟩
  | settled call results =>
      obtain ⟨calls, rs, heq, -⟩ := resubmitSettled_eq c.txTracker call results
      rw [heq]
      exact ⟨rfl, rfl⟩
  | idle => exact ⟨rfl, rfl⟩
  | pruned => exact ⟨rfl, rfl⟩
  | connections => exact ⟨rfl, rfl⟩

/-! ## Snapshots -/

/-- The hash an extrinsic is tracked under, if it is tracked. -/
def trackedHash (ext : Extrinsic) : Option Hash := (extractTracked 0 ext).map Tx.hash

/-- The reference height concerns the era only. -/
theorem map_hash_extractTracked (n : Nat) (ext : Extrinsic) :
    (extractTracked n ext).map Tx.hash = trackedHash ext := by
  cases ext with
  | unreadable => rfl
  | signed => rfl
  | transact => rfl
  | other => rfl

/-- What is extracted of a body was encoded in it, under the same hash. -/
theorem exists_of_extracted {raw : List Extrinsic} {n : Nat} {tx : Tx}
    (h : tx ∈ extractTrackedExtrinsics raw n) :
    ∃ ext ∈ raw, extractTracked n ext = some tx ∧ trackedHash ext = some tx.hash := by
  obtain ⟨ext, hext, heq⟩ := List.mem_filterMap.mp h
  refine ⟨ext, hext, heq, ?_⟩
  rw [← map_hash_extractTracked n, heq]
  rfl

/-- The snapshot has an extrinsic of this hash. -/
def inSnapshot (raw : List Extrinsic) (h : Hash) : Bool := raw.any fun ext => trackedHash ext = some h

theorem has_snapshot (raw : List Extrinsic) (n : Nat) (h : Hash) :
    (snapshot raw n).has h = inSnapshot raw h := by
  unfold snapshot inSnapshot extractTrackedExtrinsics
  rw [OrdMap.has_ofList, List.any_map, List.any_filterMap]
  refine congrArg _ (funext fun ext => ?_)
  rw [← map_hash_extractTracked n ext]
  cases extractTracked n ext with
  | none => simp
  | some tx => simp

/-- In which snapshots the hash was, the oldest first; a failed poll brings none. -/
def sightings (h : Hash) (evs : List Event) : List Bool :=
  evs.filterMap fun e => match e with
    | .poll _ (some raw) => some (inSnapshot raw h)
    | _ => none

theorem sightings_snoc (h : Hash) (evs : List Event) (e : Event) :
    sightings h (evs ++ [e]) = sightings h evs ++ sightings h [e] := List.filterMap_append

theorem sightings_of_noSnapshot {e : Event} (he : NoSnapshot e) (h : Hash) :
    sightings h [e] = [] := by
  cases e with
  | poll node answer =>
      cases answer with
      | none => rfl
      | some raw => exact absurd rfl (he node raw)
  | _ => rfl

/-- An event is a snapshot or none. -/
theorem snapshot_or_not (e : Event) : (∃ node raw, e = .poll node (some raw)) ∨ NoSnapshot e := by
  by_cases h : ∃ node raw, e = .poll node (some raw)
  · exact Or.inl h
  · exact Or.inr fun node raw heq => h ⟨node, raw, heq⟩

/-! ## One hash and its watch -/

/-- This many snapshots in a row have to have a candidate before it counts as recovered. -/
def debouncePolls (opts : TxOptions) : Nat := max 1 opts.reappearDebouncePolls

/-- This many snapshots have to lack a candidate before it is given up. -/
def limitPolls (opts : TxOptions) : Nat := max 1 (max opts.dropGracePolls opts.dropMaxWaitPolls)

/-- The tracker holds of the hash what the watch over its snapshots says. -/
structure Follows (h : Hash) (t : TxTracker) (w : Watch) : Prop where
  pool : t.pendingPool.has h = w.present
  candidate : (t.missingCandidates.get? h).map
      (fun c => (c.missingSincePollCount, c.reappearedStreak))
    = w.since.map fun s => (s.count false, trailing s)
  told : h ∈ told t.history ↔ 0 < w.drops

/-- Without a candidate, nothing is missing. -/
theorem Follows.since_of_none {t : TxTracker} {w : Watch} (hf : Follows h t w)
    (hc : t.missingCandidates.get? h = none) : w.since = none := by
  have hcand := hf.candidate
  rw [hc] at hcand
  exact Option.map_eq_none_iff.mp hcand.symm

/-- A candidate counts what has been seen since. -/
theorem Follows.since_of_some {t : TxTracker} {w : Watch} (hf : Follows h t w) {c : Candidate}
    (hc : t.missingCandidates.get? h = some c) : ∃ s, w.since = some s ∧
      s.count false = c.missingSincePollCount ∧ trailing s = c.reappearedStreak := by
  have hcand := hf.candidate
  rw [hc] at hcand
  obtain ⟨s, hsince, hs⟩ := Option.map_eq_some_iff.mp hcand.symm
  exact ⟨s, hsince, Prod.mk.inj hs⟩

/-- A transaction of this hash has no canonical inclusion for its signer and nonce. -/
def Unplaced (h : Hash) (t : TxTracker) (tx : Tx) : Prop :=
  tx.hash = h → t.latestFor tx.signer tx.nonce = none

/-- A snapshot without the hash: its candidate is new, or has been missing once more. -/
theorem Follows.absent {t : TxTracker} {w : Watch} {current : OrdMap Hash Tx}
    (hf : Follows h t w) (hs : Sourced N t)
    (ho : ∀ s, w.since = some s → Watch.Open (debouncePolls t.opts) (limitPolls t.opts) w s)
    (hout : t.includedHashes.has h = false) (habsent : current.has h = false) :
    ((beforeReview t current h).map fun c => (c.missingSincePollCount + 1, c.reappearedStreak))
        = (w.extended false).map (fun s => (s.count false, trailing s)) ∧
      ∀ c, beforeReview t current h = some c → c.hash = h ∧ N c.toTx := by
  have hcurrent : current.get? h = none := OrdMap.has_eq_false_iff.mp habsent
  have hpool := hf.pool
  unfold beforeReview
  dsimp only
  rw [hcurrent]
  dsimp only [Option.elim_none]
  -- not in the pool before: a candidate misses once more; in the pool: a watch begins or
  -- its debounce is broken off
  cases hp : t.pendingPool.get? h with
  | none =>
      have hpresent : w.present = false := by rw [← hpool, OrdMap.has, hp]; rfl
      dsimp only [Option.elim_none]
      refine ⟨?_, fun c hc => hs.candidates h c hc⟩
      unfold Watch.extended
      cases hc : t.missingCandidates.get? h with
      | none =>
          rw [hf.since_of_none hc, hpresent]
          rfl
      | some c =>
          obtain ⟨s, hsince, hcount, hstreak⟩ := hf.since_of_some hc
          have htrail := (ho s hsince).absent hpresent
          rw [hsince]
          simp only [Option.map_some, Option.some.injEq, Prod.mk.injEq, trailing_snoc_false,
            List.count_append, List.count_singleton]
          exact ⟨by simp [hcount], by omega⟩
  | some tx =>
      have hpresent : w.present = true := by rw [← hpool, OrdMap.has, hp]; rfl
      have hleft : leftPool t current h tx (t.missingCandidates.get? h)
          = some ((t.missingCandidates.get? h).elim ⟨tx, 0, 0, t.lastKnownHeight⟩
              fun c => { c with reappearedStreak := 0 }) := by
        unfold leftPool
        rw [habsent, hout]
        rfl
      dsimp only [Option.elim_some]
      rw [hleft]
      unfold Watch.extended
      cases hc : t.missingCandidates.get? h with
      | none =>
          rw [hf.since_of_none hc, hpresent]
          refine ⟨rfl, ?_⟩
          intro c hnew
          obtain rfl := Option.some.inj hnew
          exact hs.pool h tx hp
      | some c =>
          obtain ⟨s, hsince, hcount, -⟩ := hf.since_of_some hc
          rw [hsince]
          refine ⟨?_, ?_⟩
          · simp [hcount]
          · intro c' hc'
            obtain rfl := Option.some.inj hc'
            exact hs.candidates h c hc

/-- A snapshot with the hash: the debounce of its candidate goes on, or ends. -/
theorem Follows.present {t : TxTracker} {w : Watch} {current : OrdMap Hash Tx}
    (hf : Follows h t w)
    (ho : ∀ s, w.since = some s → Watch.Open (debouncePolls t.opts) (limitPolls t.opts) w s)
    (hpresent : current.has h = true) :
    ((beforeReview t current h).map fun c => (c.missingSincePollCount, c.reappearedStreak))
        = ((w.see (debouncePolls t.opts) (limitPolls t.opts) true).since).map
            (fun s => (s.count false, trailing s)) ∧
      (w.see (debouncePolls t.opts) (limitPolls t.opts) true).drops = w.drops := by
  have hbefore : beforeReview t current h = reappeared t.opts (t.missingCandidates.get? h) := by
    obtain ⟨tx, htx⟩ := OrdMap.has_iff.mp hpresent
    unfold beforeReview leftPool
    dsimp only
    rw [htx, hpresent, Bool.true_or]
    cases t.pendingPool.get? h with
    | none => rfl
    | some tx' => rfl
  rw [hbefore]
  unfold reappeared
  cases hc : t.missingCandidates.get? h with
  | none =>
      have hsee : (w.see (debouncePolls t.opts) (limitPolls t.opts) true).since = none ∧
        (w.see (debouncePolls t.opts) (limitPolls t.opts) true).drops = w.drops :=
        Watch.see_true_of_not_missing (hf.since_of_none hc)
      rw [hsee.1]
      exact ⟨rfl, hsee.2⟩
  | some c =>
      obtain ⟨s, hsince, hcount, hstreak⟩ := hf.since_of_some hc
      obtain ⟨hsee, hdrops⟩ := Watch.see_true_of_missing hsince (ho s hsince)
      refine ⟨?_, hdrops⟩
      -- a debounce of zero polls is one of one poll
      have hends : debouncePolls t.opts ≤ trailing s + 1
          ↔ t.opts.reappearDebouncePolls ≤ c.reappearedStreak + 1 := by
        unfold debouncePolls
        omega
      rw [hsee, Option.bind_some]
      by_cases hend : t.opts.reappearDebouncePolls ≤ c.reappearedStreak + 1
      · rw [if_pos hend, if_pos (hends.mpr hend)]
        rfl
      · rw [if_neg hend, if_neg fun hend' => hend (hends.mp hend')]
        simp [hcount, hstreak]

/-- As long as no other hash is canonical, only the number of polls decides. -/
theorem givenUp_iff_of_unplaced {t : TxTracker} {c : Candidate}
    (hlatest : t.latestFor c.signer c.nonce = none) :
    GivenUp t c ↔ limitPolls t.opts ≤ c.missingSincePollCount + 1 := by
  have hres : t.findResubmission c.toTx c.hash = none := by
    unfold findResubmission
    rw [hlatest]
    rfl
  unfold GivenUp limitPolls missed
  rw [hres]
  simp only [Option.isSome_none, Bool.false_eq_true, false_or]
  omega

/-- **A snapshot is one observation.** -/
theorem Follows.poll {t : TxTracker} {w : Watch} (hf : Follows h t w) (hs : Sourced N t)
    (hg : GuardsTold t)
    (ho : ∀ s, w.since = some s → Watch.Open (debouncePolls t.opts) (limitPolls t.opts) w s)
    (hout : t.includedHashes.has h = false) (hclear : ∀ tx, N tx → Unplaced h t tx)
    (node : NodeName) {raw : List Extrinsic}
    (hN : ∀ tx ∈ extractTrackedExtrinsics raw t.lastKnownHeight, N tx) :
    Follows h (t.pollPendingPool node (some raw))
      (w.see (debouncePolls t.opts) (limitPolls t.opts) (inSnapshot raw h)) := by
  have hstanding := standing_pollPendingPool hs hg node hN h
  have hpool : (t.pollPendingPool node (some raw)).pendingPool.has h = inSnapshot raw h := by
    rw [pool_pollPendingPool, has_snapshot]
  rw [hout, has_snapshot] at hstanding
  obtain ⟨hcandidate, htold⟩ := Prod.mk.inj hstanding
  -- in the snapshot: only the debounce of a candidate may go on; not in it: one more miss
  cases hin : inSnapshot raw h with
  | true =>
      obtain ⟨hbefore, hdrops⟩ := hf.present ho ((has_snapshot raw t.lastKnownHeight h).trans hin)
      rw [hin] at hpool hcandidate htold
      refine ⟨hpool, ?_, ?_⟩
      · rw [hcandidate, ← hbefore]
        cases beforeReview t (snapshot raw t.lastKnownHeight) h with
        | none => rfl
        | some c => rfl
      · rw [hdrops, ← hf.told]
        refine iff_of_eq (htold.trans ?_)
        cases beforeReview t (snapshot raw t.lastKnownHeight) h with
        | none => rfl
        | some c => rfl
  | false =>
      obtain ⟨hbefore, hnamed⟩ :=
        hf.absent hs ho hout ((has_snapshot raw t.lastKnownHeight h).trans hin)
      rw [hin] at hpool hcandidate htold
      cases hc : beforeReview t (snapshot raw t.lastKnownHeight) h with
      | none =>
          rw [hc] at hbefore hcandidate htold
          have hext : w.extended false = none := Option.map_eq_none_iff.mp hbefore.symm
          refine ⟨hpool, ?_, ?_⟩
          · rw [hcandidate]
            unfold Watch.see
            dsimp only
            rw [hext]
            rfl
          · unfold Watch.see
            dsimp only
            rw [hext]
            exact (iff_of_eq htold).trans hf.told
      | some c =>
          rw [hc] at hbefore hcandidate htold
          obtain ⟨s, hext, hcounts⟩ := Option.map_eq_some_iff.mp hbefore.symm
          rw [Prod.mk.injEq] at hcounts
          obtain ⟨hhash, hNc⟩ := hnamed c hc
          have hgiven := givenUp_iff_of_unplaced (c := c) (hclear c.toTx hNc hhash)
          have hpositive : 0 < debouncePolls t.opts := by
            unfold debouncePolls
            omega
          have hcount : (w.extended false).map (List.count false)
              = some (c.missingSincePollCount + 1) := by
            rw [hext, Option.map_some, hcounts.1]
          obtain ⟨hsince, hdrops⟩ : (w.see (debouncePolls t.opts) (limitPolls t.opts) false).since
                = (if limitPolls t.opts ≤ c.missingSincePollCount + 1 then none
                    else w.extended false) ∧ _ := Watch.see_false hpositive hcount
          dsimp only [Option.elim_some] at hcandidate htold
          simp only [Bool.false_eq_true, if_false] at hcandidate htold
          -- nothing placed the hash, so the limit alone decides whether it is given up
          by_cases hup : GivenUp t c
          · have hlimit := hgiven.mp hup
            rw [if_pos hup] at hcandidate htold
            rw [if_pos hlimit] at hsince hdrops
            refine ⟨hpool, ?_, ?_⟩
            · rw [hcandidate, hsince]
              rfl
            · rw [hdrops]
              exact (iff_of_eq htold).trans (by simp)
          · have hlimit : ¬ limitPolls t.opts ≤ c.missingSincePollCount + 1 :=
              fun hl => hup (hgiven.mpr hl)
            rw [if_neg hup] at hcandidate htold
            rw [if_neg hlimit] at hsince hdrops
            refine ⟨hpool, ?_, ?_⟩
            · rw [hcandidate, hsince, hext, Option.map_some, Option.map_some, hcounts.1, hcounts.2]
              rfl
            · rw [hdrops, ← hf.told]
              exact iff_of_eq htold

/-- All incidents told of the hash are drops. -/
def OnlyDropped (h : Hash) (rs : List TxReport) : Prop :=
  ∀ row, .submitted row ∈ rs → row.firstHash = h → row.status = .dropped ∨ row.status = .expired

theorem onlyDropped_poll {t : TxTracker} (hd : OnlyDropped h t.history) (hs : Sourced N t)
    (hclear : ∀ tx, N tx → Unplaced h t tx) (node : NodeName) {answer : Option (List Extrinsic)}
    (hN : ∀ raw, answer = some raw → ∀ tx ∈ extractTrackedExtrinsics raw t.lastKnownHeight, N tx) :
    OnlyDropped h (t.pollPendingPool node answer).history := by
  have hall : SameGround t (t.pollPendingPool node answer) ∧
      OnlyDropped h (t.pollPendingPool node answer).history := by
    refine (acts_pollPendingPool hs node hN).preserves
      (I := fun u => SameGround t u ∧ OnlyDropped h u.history) ?_ ⟨SameGround.refl t, hd⟩
    intro u u' hu hact
    obtain ⟨hground, hu⟩ := hu
    refine ⟨hground.trans hact.sameGround, ?_⟩
    cases hact with
    | writePool => exact hu
    | start _ _ record =>
        obtain ⟨timers, ever, calls, rs, heq, hof⟩ := startResubmitRetry_eq u record
        rw [heq]
        intro row hrow
        rcases List.mem_append.mp hrow with hrow | hrow
        · exact hu row hrow
        · exact absurd (hof _ hrow) id
    | stop => exact hu
    | tell _ _ tx status extra hNtx hi =>
        rcases finalize_cases u tx status extra with ⟨-, heq⟩ | ⟨-, heq⟩
        · rw [heq]
          exact hu
        · rw [heq]
          intro row hrow hfirst
          rcases List.mem_append.mp hrow with hrow | hrow
          · exact hu row hrow hfirst
          · obtain rfl := TxReport.submitted.inj (List.mem_singleton.mp hrow)
            rcases hi.kind rfl with hstatus | hstatus | hstatus
            · exact Or.inl hstatus
            · exact Or.inr hstatus
            · -- nothing is canonical that it could have been resubmitted as
              obtain ⟨latest, hfind, -⟩ := hi.linked (Or.inl hstatus)
              unfold findResubmission at hfind
              rw [hground.latestFor, hclear tx hNtx hfirst] at hfind
              exact absurd hfind (by simp)
  exact hall.2

/-! ## Runs -/

/-- An inclusion found later is not there yet. -/
theorem unplaced_of_step {c : ChainContext} {e : Event} {tx : Tx}
    (hu : Unplaced h (c.step e).txTracker tx) : Unplaced h c.txTracker tx := by
  intro hh
  have hlater := hu hh
  unfold latestFor at hlater ⊢
  split at hlater
  · rename_i s k _ _
    cases hnow : c.txTracker.latestBySignerNonce.get? (s, k) with
    | none => rfl
    | some latest =>
        have hhas := latest_step_mono c e (OrdMap.has_iff.mpr ⟨latest, hnow⟩)
        rw [OrdMap.has, hlater] at hhas
        exact absurd hhas (by simp)
  · rfl

/-- What is known after these sightings of a hash that only the pool knows. -/
structure Watched (N : Tx → Prop) (h : Hash) (opts : TxOptions) (seen : List Bool)
    (c : ChainContext) : Prop where
  tree : TreeInv c.blockTree
  settings : c.txTracker.opts = opts
  sourced : Sourced N c.txTracker
  included : Included c.txTracker
  guards : GuardsTold c.txTracker
  follows : Follows h c.txTracker (Watch.watch (debouncePolls opts) (limitPolls opts) seen)
  dropped : OnlyDropped h c.txTracker.history

theorem watched_init (N : Tx → Prop) (h : Hash) (config : ChainConfig) (opts : TxOptions) :
    Watched N h opts [] (machine config opts).init where
  tree := treeInv_init
  settings := rfl
  sourced := sourced_init N opts
  included := ⟨fun _ _ hx => absurd hx (by simp [machine]), fun _ he => absurd he (by simp [machine])⟩
  guards := Guards.empty MAX_FINALIZED_HASHES
  follows := ⟨rfl, rfl, by simp [machine, told, Watch.watch, Watch.init]⟩
  dropped := fun _ hrow => absurd hrow (by simp [machine])

theorem watched_step {opts : TxOptions} {seen : List Bool} {c : ChainContext} {e : Event}
    (hw : Watched N h opts seen c) (he : Supplies N c e)
    (hout : c.txTracker.includedHashes.has h = false)
    (hclear : ∀ tx, N tx → Unplaced h c.txTracker tx) :
    Watched N h opts (seen ++ sightings h [e]) (c.step e) := by
  refine {
    tree := treeInv_step hw.tree e
    settings := (opts_step c e).trans hw.settings
    sourced := sourced_step hw.sourced he
    included := included_step hw.tree hw.included e
    guards := guardsTold_step hw.sourced he hw.guards
    follows := ?_
    dropped := ?_ }
  · rcases snapshot_or_not e with ⟨node, raw, rfl⟩ | hno
    · have hopen : ∀ s, (Watch.watch (debouncePolls opts) (limitPolls opts) seen).since = some s →
          Watch.Open (debouncePolls c.txTracker.opts) (limitPolls c.txTracker.opts)
            (Watch.watch (debouncePolls opts) (limitPolls opts) seen) s := by
        intro s hs
        rw [hw.settings]
        exact Watch.open_watch hs
      -- a snapshot is one look of the watch
      have hlook := hw.follows.poll hw.sourced hw.guards hopen hout hclear node he
      rw [hw.settings, ← Watch.watch_snoc] at hlook
      exact hlook
    · obtain ⟨hpool, hcand⟩ := pool_of_noSnapshot hw.sourced hno
      obtain ⟨hp, hc, ht⟩ := hw.follows
      rw [sightings_of_noSnapshot hno, List.append_nil]
      -- between snapshots nothing the watch is about changes
      refine ⟨by rw [hpool]; exact hp, by rw [hcand]; exact hc, Iff.trans ⟨?_, ?_⟩ ht⟩
      · intro hmem
        obtain ⟨row, hrow, hfirst⟩ := mem_told.mp hmem
        rcases submitted_of_noSnapshot hw.tree hw.included hno hrow with hold | hin
        · exact mem_told.mpr ⟨row, hold, hfirst⟩
        · rw [hfirst, hout] at hin
          exact absurd hin (by simp)
      · intro hmem
        obtain ⟨rs, hrs, -⟩ := history_step c e
        rw [hrs, told_append]
        exact List.mem_append_left _ hmem
  · rcases snapshot_or_not e with ⟨node, raw, rfl⟩ | hno
    · refine onlyDropped_poll hw.dropped hw.sourced hclear node fun raw' hraw => ?_
      obtain rfl := Option.some.inj hraw
      exact he
    · intro row hrow hfirst
      rcases submitted_of_noSnapshot hw.tree hw.included hno hrow with hold | hin
      · exact hw.dropped row hold hfirst
      · rw [hfirst, hout] at hin
        exact absurd hin (by simp)

theorem watched_run (config : ChainConfig) (opts : TxOptions) (evs : List Event)
    (hsupplies : (machine config opts).Guarded (Supplies N) (machine config opts).init evs)
    (hout : ((machine config opts).run evs).txTracker.includedHashes.has h = false)
    (hclear : ∀ tx, N tx → Unplaced h ((machine config opts).run evs).txTracker tx) :
    Watched N h opts (sightings h evs) ((machine config opts).run evs) := by
  induction evs using List.reverseRecOn with
  | nil => exact watched_init N h config opts
  | append_singleton evs e ih =>
      obtain ⟨hsupplies, he⟩ := Machine.guarded_snoc.mp hsupplies
      rw [Machine.run_snoc] at hout hclear ⊢
      -- what is not there after the step was not there before it
      have hout' : ((machine config opts).run evs).txTracker.includedHashes.has h = false := by
        refine Bool.eq_false_iff.mpr fun hin => ?_
        exact absurd ((included_step_mono _ e hin).symm.trans hout) (by simp)
      have hclear' : ∀ tx, N tx → Unplaced h ((machine config opts).run evs).txTracker tx :=
        fun tx htx => unplaced_of_step (hclear tx htx)
      rw [sightings_snoc]
      exact watched_step (ih hsupplies hout' hclear') he hout' hclear'

/-- The pool is the last snapshot. -/
theorem pool_run (config : ChainConfig) (opts : TxOptions) (evs : List Event) (x : Hash) :
    ((machine config opts).run evs).txTracker.pendingPool.has x
      = (sightings x evs).getLastD false := by
  induction evs using List.reverseRecOn with
  | nil => rfl
  | append_singleton evs e ih =>
      rw [Machine.run_snoc, sightings_snoc]
      rcases snapshot_or_not e with ⟨node, raw, rfl⟩ | hno
      · refine Eq.trans ?_ (List.getLastD_concat ..).symm
        exact (pool_pollPendingPool _ node raw x).trans (has_snapshot ..)
      · have hpool := (pool_of_noSnapshot (sourced_run config opts evs) hno).1
        rw [sightings_of_noSnapshot hno, List.append_nil, ← ih, ← hpool]
        rfl

/--
**Drop detection follows the presence history.** Of a hash that is in no captured
body and whose signer and nonce have no canonical inclusion, the candidate, its
counts and its one row are what the watch over the snapshots says: a candidate
counts the snapshots without it since it vanished. The pool is the last snapshot.
-/
theorem candidate_watched (config : ChainConfig) (opts : TxOptions) (evs : List Event) (h : Hash)
    (hunplaced : (machine config opts).Guarded
      (Supplies (Unplaced h ((machine config opts).run evs).txTracker))
      (machine config opts).init evs)
    (hout : ((machine config opts).run evs).txTracker.includedHashes.has h = false)
    (hcap : (told ((machine config opts).run evs).txTracker.history).length
      ≤ MAX_FINALIZED_HASHES) :
    let t := ((machine config opts).run evs).txTracker
    let w := Watch.watch (debouncePolls opts) (limitPolls opts) (sightings h evs)
    (t.missingCandidates.get? h).map (fun c => (c.missingSincePollCount, c.reappearedStreak))
        = w.since.map (fun s => (s.count false, trailing s)) ∧
      (∀ c, t.missingCandidates.get? h = some c → ∃ before rest,
        sightings h evs = before ++ true :: false :: rest ∧
        c.missingSincePollCount = (false :: rest).count false) ∧
      (told t.history).count h = min 1 w.drops ∧
      OnlyDropped h t.history ∧
      ∀ x, t.pendingPool.has x = (sightings x evs).getLastD false := by
  have hw := watched_run config opts evs hunplaced hout fun _ hN => hN
  have hcandidate := hw.follows.candidate
  refine ⟨hcandidate, ?_, ?_, hw.dropped, pool_run config opts evs⟩
  · intro c hc
    rw [hc] at hcandidate
    obtain ⟨s, hsince, hcounts⟩ := Option.map_eq_some_iff.mp hcandidate.symm
    obtain ⟨before, rest, hseen, rfl⟩ := Watch.since_watch hsince
    exact ⟨before, rest, hseen, (congrArg Prod.fst hcounts).symm⟩
  have hnodup := hw.guards.nodup hcap
  have htold := hw.follows.told
  generalize (Watch.watch (debouncePolls opts) (limitPolls opts) (sightings h evs)).drops = drops
    at htold ⊢
  -- under the cap, the guard set has a hash told at most once
  by_cases hmem : h ∈ told ((machine config opts).run evs).txTracker.history
  · rw [List.count_eq_one_of_mem hnodup hmem]
    have := htold.mp hmem
    omega
  · rw [List.count_eq_zero.mpr hmem]
    have : ¬ 0 < drops := fun hd => hmem (htold.mpr hd)
    omega

/-- The transfer flickers once, and is given up at the second snapshot without it. -/
def flickerRun : List Event :=
  [.poll "n" (some [transfer]), .poll "n" (some []), .poll "n" (some [transfer]),
    .poll "n" (some [])]

theorem candidate_watched_flickerRun :
    let opts : TxOptions := { dropGracePolls := 1, dropMaxWaitPolls := 2 }
    (told ((machine {} opts).run flickerRun).txTracker.history).count "t"
      = min 1 (Watch.watch 2 2 [true, false, true, false]).drops := by
  have hunplaced : ∀ tx, Unplaced "t" ((machine {} { dropGracePolls := 1, dropMaxWaitPolls := 2
      }).run flickerRun).txTracker tx := by
    intro tx _
    have hnone : ((machine {} { dropGracePolls := 1, dropMaxWaitPolls := 2 }).run
      flickerRun).txTracker.latestBySignerNonce = ∅ := rfl
    unfold latestFor
    split
    · rw [hnone]
      rfl
    · rfl
  have hall := candidate_watched {} { dropGracePolls := 1, dropMaxWaitPolls := 2 } flickerRun "t"
    ⟨supplies_of_forall hunplaced .., supplies_of_forall hunplaced ..,
      supplies_of_forall hunplaced .., supplies_of_forall hunplaced .., trivial⟩
    (by decide) (by decide)
  exact hall.2.2.1

example : (Watch.watch 2 2 [true, false, true, false]).drops = 1 := by decide

end ForkWatch.Proof
