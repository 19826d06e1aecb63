import ForkWatch.Proof.Missing

/-!
# Mortal transactions and the height they were seen at

An extrinsic encodes its era as a phase within a period. Absolute heights are
reckoned from the height the tracker knows of when it records the extrinsic, and
kept in the record. Reckoned from below its birth, the era is an earlier one
(`le_death_iff`), and everything that compares it with the tracker's height later
on takes a valid transaction for a lapsed one.

Bodies are reckoned from their own height, where the extrinsic is valid; only a poll
is not. `neverEarly_iff` says which polls are harmless.
-/

namespace ForkWatch.Proof

open Lib ChainContext TxTracker

/-! ## Eras -/

/-- The absolute heights of an era, reckoned from a reference height. -/
def seenAt (e : MortalEra) (refHeight : Nat) : Era := ⟨e.birth refHeight, e.death refHeight⟩

/-- How the era that begins at `B` is encoded. -/
def eraFrom (period B : Nat) : MortalEra := ⟨period, B % period⟩

/-- Eras reckoned from higher up end no earlier. -/
theorem death_mono (e : MortalEra) {n m : Nat} (h : n ≤ m) : e.death n ≤ e.death m := by
  unfold MortalEra.death MortalEra.birth
  have hle : (max n e.phase - e.phase) / e.period ≤ (max m e.phase - e.phase) / e.period :=
    Nat.div_le_div_right (by omega)
  have hmul := Nat.mul_le_mul_right e.period hle
  omega

/-- The era begins as many periods after its phase as fit below the reference height. -/
theorem birth_eraFrom {period : Nat} (hp : 0 < period) (B n : Nat) :
    ∃ k, (eraFrom period B).birth n = k * period + B % period ∧
      (B / period ≤ k ↔ B ≤ n ∨ B < period) := by
  refine ⟨(max n (B % period) - B % period) / period, rfl, ?_⟩
  have hB := Nat.div_add_mod' B period
  have hlt : B < period ↔ B ≤ B % period := by
    refine ⟨fun h => (Nat.mod_eq_of_lt h).ge, fun h => ?_⟩
    have hmod := Nat.mod_lt B hp
    omega
  rw [Nat.le_div_iff_mul_le hp, hlt]
  omega

/-- **When the recorded era is not an earlier one.** -/
theorem le_death_iff {period : Nat} (hp : 0 < period) (B n : Nat) :
    B + period ≤ (eraFrom period B).death n ↔ B ≤ n ∨ B < period := by
  obtain ⟨k, hk, hiff⟩ := birth_eraFrom hp B n
  have hB := Nat.div_add_mod' B period
  have hdeath : (eraFrom period B).death n = k * period + B % period + period := by
    unfold MortalEra.death
    rw [hk]
    rfl
  rw [hdeath, ← hiff]
  have hmul := Nat.mul_le_mul_right_iff (n := B / period) (m := k) hp
  omega

/-- An earlier era has passed by the birth of the true one. -/
theorem death_le {period : Nat} (hp : 0 < period) {B n : Nat} (hn : n < B) (hB : period ≤ B) :
    (eraFrom period B).death n ≤ B := by
  obtain ⟨k, hk, hiff⟩ := birth_eraFrom hp B n
  have hdiv := Nat.div_add_mod' B period
  have hlt : k + 1 ≤ B / period := by omega
  have hmul := Nat.mul_le_mul_right period hlt
  unfold MortalEra.death
  rw [hk]
  change k * period + B % period + period ≤ B
  rw [Nat.succ_mul] at hmul
  omega

/-! ## Records -/

/-- The era an extrinsic encodes. -/
def mortality : Extrinsic → Option MortalEra
  | .signed _ _ _ _ _ era _ => era
  | _ => none

theorem era_of_extracted {n : Nat} {ext : Extrinsic} {tx : Tx}
    (h : extractTracked n ext = some tx) : tx.era = (mortality ext).map fun e => seenAt e n := by
  cases ext with
  | unreadable => exact absurd h (by simp [extractTracked])
  | signed => rw [← Option.some.inj h]; rfl
  | transact => rw [← Option.some.inj h]; rfl
  | other => exact absurd h (by simp [extractTracked])

/-- Every extrinsic of this hash encodes this era. -/
def Encodes (x : Hash) (e : MortalEra) (raw : List Extrinsic) : Prop :=
  ∀ ext ∈ raw, trackedHash ext = some x → mortality ext = some e

theorem Encodes.era {x : Hash} {e : MortalEra} {raw : List Extrinsic} (h : Encodes x e raw)
    {n : Nat} {tx : Tx} (htx : tx ∈ extractTrackedExtrinsics raw n) (hx : tx.hash = x) :
    tx.era = some (seenAt e n) := by
  obtain ⟨ext, hext, heq, hhash⟩ := exists_of_extracted htx
  rw [hx] at hhash
  rw [era_of_extracted heq, h ext hext hhash]
  rfl

/-- The tracker holds a record of the transaction. -/
inductive Stored (t : TxTracker) : Tx → Prop where
  | body (block : Hash) (captured : Captured) (hx : t.blockExtrinsics.get? block = some captured)
      (tx : Tx) (htx : tx ∈ captured.extrinsics) : Stored t tx
  | queue (entry : ReorgEntry) (he : entry ∈ t.pendingReorgReview) : Stored t entry.toTx
  | pool (x : Hash) (tx : Tx) (hx : t.pendingPool.get? x = some tx) : Stored t tx
  | candidate (x : Hash) (cand : Candidate) (hx : t.missingCandidates.get? x = some cand) :
      Stored t cand.toTx
  | loop (x : Hash) (loop : RetryLoop) (hx : t.resubmitRetryTimers.get? x = some loop) :
      Stored t loop.record.toTx

variable {N : Tx → Prop}

theorem Sourced.of_stored {t : TxTracker} (hs : Sourced N t) {tx : Tx} (h : Stored t tx) :
    N tx := by
  cases h with
  | body block captured hx tx htx => exact hs.bodies block captured hx tx htx
  | queue entry he => exact hs.queue entry he
  | pool x tx hx => exact (hs.pool x tx hx).2
  | candidate x cand hx => exact (hs.candidates x cand hx).2
  | loop x loop hx => exact (hs.loops x loop hx).2

theorem sourced_of_stored {M : Tx → Prop} {t : TxTracker} (hs : Sourced M t)
    (h : ∀ tx, Stored t tx → N tx) : Sourced N t where
  bodies := fun block captured hx tx htx => h tx (Stored.body block captured hx tx htx)
  queue := fun entry he => h _ (Stored.queue entry he)
  pool := fun x tx hx => ⟨(hs.pool x tx hx).1, h tx (Stored.pool x tx hx)⟩
  candidates := fun x cand hx => ⟨(hs.candidates x cand hx).1, h _ (Stored.candidate x cand hx)⟩
  loops := fun x loop hx => ⟨(hs.loops x loop hx).1, h _ (Stored.loop x loop hx)⟩

/-! ## The property -/

/-- Nothing takes the transaction `x` for lapsed before height `last`. -/
structure NeverEarly (x : Hash) (last : Nat) (t : TxTracker) : Prop where
  /-- No record of it is expired before, at the height the tracker knows or a later one. -/
  expired : ∀ tx k, Stored t tx → tx.hash = x → t.lastKnownHeight ≤ k →
    ({ t with lastKnownHeight := k } : TxTracker).isExpired tx = true → last ≤ k
  /-- It has not been told expired before. -/
  told : ∀ row, .submitted row ∈ t.history → row.firstHash = x → row.status = .expired →
    last ≤ t.lastKnownHeight
  /-- Its loop does not stop before, while nothing is canonical and attempts are left. -/
  kept : ∀ loop, t.resubmitRetryTimers.get? x = some loop →
    t.latestFor loop.record.signer loop.record.nonce = none →
    loop.attempts < t.opts.maxResubmitRetries → t.lastKnownHeight < last →
    (t.retryTick x).resubmitRetryTimers.has x = true

/-- The recorded era, if there is one, ends at `last` or has been outlived by then. -/
def Outlasts (x : Hash) (last k : Nat) (tx : Tx) : Prop :=
  tx.hash = x → ∀ era, tx.era = some era → last ≤ max k era.death

theorem isExpired_iff {t : TxTracker} {tx : Tx} :
    t.isExpired tx = true ↔ ∃ era, tx.era = some era ∧ era.death ≤ t.lastKnownHeight := by
  unfold isExpired
  cases tx.era with
  | none => simp
  | some era => simp

theorem Outlasts.mono {x : Hash} {last k k' : Nat} {tx : Tx} (h : Outlasts x last k tx)
    (hk : k ≤ k') : Outlasts x last k' tx := by
  intro hx era hera
  have hlast := h hx era hera
  omega

/-- A record that outlasts is not expired early. -/
theorem Outlasts.le_of_isExpired {x : Hash} {last : Nat} {t : TxTracker} {tx : Tx}
    (h : Outlasts x last t.lastKnownHeight tx) (hx : tx.hash = x)
    (hexp : t.isExpired tx = true) : last ≤ t.lastKnownHeight := by
  obtain ⟨era, hera, hle⟩ := isExpired_iff.mp hexp
  have hlast := h hx era hera
  omega

theorem NeverEarly.outlasts {x : Hash} {last : Nat} {t : TxTracker} (h : NeverEarly x last t)
    {tx : Tx} (htx : Stored t tx) : Outlasts x last t.lastKnownHeight tx := by
  intro hx era hera
  exact h.expired tx _ htx hx (Nat.le_max_left ..)
    (isExpired_iff.mpr ⟨era, hera, Nat.le_max_right ..⟩)

/-- A tick keeps its loop while nothing is canonical, the era is open and attempts are left. -/
theorem timers_tick {t : TxTracker} {record : RetryRecord} {n : Nat}
    (hlatest : t.latestFor record.signer record.nonce = none)
    (hopen : t.isExpired record.toTx = false) (hn : n < t.opts.maxResubmitRetries) :
    (t.tick record n).1.resubmitRetryTimers = t.resubmitRetryTimers := by
  unfold tick
  rw [hlatest]
  dsimp only
  rw [hopen, if_neg (by simp), if_neg (by omega)]
  split
  · rfl
  · exact (resubmitOnce_spec t record).1

/-- **Records that outlast, and rows that do, are all there is to it.** -/
theorem neverEarly_of_sourced {x : Hash} {last : Nat} {t : TxTracker}
    (hs : Sourced (Outlasts x last t.lastKnownHeight) t)
    (htold : ∀ row, .submitted row ∈ t.history → row.firstHash = x → row.status = .expired →
      last ≤ t.lastKnownHeight) : NeverEarly x last t where
  expired := by
    intro tx k htx hx hk hexp
    exact ((hs.of_stored htx).mono hk).le_of_isExpired
      (t := { t with lastKnownHeight := k }) hx hexp
  told := htold
  kept := by
    intro loop hloop hlatest hn hlt
    obtain ⟨hx, hout⟩ := hs.loops x loop hloop
    have hopen : t.isExpired loop.record.toTx = false := by
      by_contra hexp
      have hle := hout.le_of_isExpired hx (by simpa using hexp)
      omega
    unfold retryTick
    rw [hloop]
    dsimp only
    unfold OrdMap.has
    rw [OrdMap.get?_modify, if_pos rfl, timers_tick hlatest hopen hn, hloop]
    rfl

/-! ## Steps -/

/-- The tracker's height only grows. -/
theorem lastKnownHeight_step (c : ChainContext) (e : Event) (hs : Sourced N c.txTracker)
    (he : Supplies N c e) : c.txTracker.lastKnownHeight ≤ (c.step e).txTracker.lastKnownHeight := by
  have hstep := trackerStep c e
  generalize (c.step e).txTracker = t' at hstep ⊢
  cases hstep with
  | idle _ k hk => exact hk
  | captured i x n body =>
      obtain ⟨rs, heq, -⟩ := captureBody_eq c.txTracker x n body
      rw [heq]
  | pruned => exact Nat.le_refl _
  | finalized node F H =>
      rw [(acts_onHeightFinalized hs F H _).sameGround.lastKnownHeight, walked_eq]
      exact Nat.le_max_left ..
  | poll node answer =>
      refine (acts_pollPendingPool hs node fun raw hraw => ?_).sameGround.lastKnownHeight.ge
      subst hraw
      exact he
  | retryTick x =>
      obtain ⟨timers, calls, rs, heq, -⟩ := retryTick_eq c.txTracker x
      rw [heq]
  | settled call results =>
      obtain ⟨calls, rs, heq, -⟩ := resubmitSettled_eq c.txTracker call results
      rw [heq]
  | connections => exact Nat.le_refl _

/--
What the chain and the nodes guarantee: wherever the transaction is shown, it
encodes the era from `B` on, and blocks contain it only where it is valid.
-/
def Genuine (x : Hash) (period B : Nat) (c : ChainContext) : Event → Prop
  | .resume i (.body (some body)) => ∀ y n, c.tasks[i]? = some (.getBlock y n) →
      Encodes x (eraFrom period B) body ∧
        ((∃ ext ∈ body, trackedHash ext = some x) → B ≤ n ∧ n < B + period)
  | .poll _ (some raw) => Encodes x (eraFrom period B) raw
  | _ => True

/-- A poll that enters the transaction into the pool finds the tracker at its birth or above. -/
def PooledInEra (x : Hash) (period B : Nat) (c : ChainContext) : Event → Prop
  | .poll _ (some raw) => inSnapshot raw x = true → c.txTracker.pendingPool.has x = false →
      B ≤ c.txTracker.lastKnownHeight ∨ B < period
  | _ => True

/-- What the pool holds of the transaction was reckoned from a height known by then. -/
structure Anchored (x : Hash) (period B : Nat) (c : ChainContext) : Prop where
  sourced : Sourced (fun _ => True) c.txTracker
  pool : ∀ tx, c.txTracker.pendingPool.get? x = some tx →
    ∃ n ≤ c.txTracker.lastKnownHeight, tx.era = some (seenAt (eraFrom period B) n)

theorem anchored_init (x : Hash) (period B : Nat) (config : ChainConfig) (opts : TxOptions) :
    Anchored x period B (machine config opts).init where
  sourced := sourced_init _ opts
  pool := fun _ hx => absurd hx (by simp [machine])

/-- What a snapshot has of a hash is in the snapshot. -/
theorem mem_of_get?_snapshot {raw : List Extrinsic} {n : Nat} {x : Hash} {tx : Tx}
    (h : (snapshot raw n).get? x = some tx) :
    tx ∈ extractTrackedExtrinsics raw n ∧ tx.hash = x := by
  have hfiled := filed_snapshot (N := fun tx => tx ∈ extractTrackedExtrinsics raw n)
    fun _ htx => htx
  exact ⟨(hfiled x tx h).2, (hfiled x tx h).1⟩

variable {x : Hash} {period B : Nat} {c : ChainContext} {e : Event}

theorem anchored_step (hi : Anchored x period B c) (hg : Genuine x period B c e) :
    Anchored x period B (c.step e) := by
  have hmono := lastKnownHeight_step c e hi.sourced (supplies_true c e)
  refine ⟨sourced_step hi.sourced (supplies_true c e), ?_⟩
  rcases snapshot_or_not e with hsnap | hno
  · obtain ⟨node, raw, rfl⟩ := hsnap
    intro tx htx
    change (c.txTracker.pollPendingPool node (some raw)).pendingPool.get? x = some tx at htx
    rw [pool_get?_pollPendingPool] at htx
    obtain ⟨shown, hshown, rfl⟩ := Option.map_eq_some_iff.mp htx
    cases hpool : c.txTracker.pendingPool.get? x with
    | some pooled =>
        -- the pool keeps the record it has
        obtain ⟨n, hn, hera⟩ := hi.pool pooled hpool
        exact ⟨n, hn.trans hmono, hera⟩
    | none =>
        obtain ⟨hmem, hx⟩ := mem_of_get?_snapshot hshown
        exact ⟨c.txTracker.lastKnownHeight, hmono, Encodes.era hg hmem hx⟩
  · intro tx htx
    rw [(pool_of_noSnapshot hi.sourced hno).1] at htx
    obtain ⟨n, hn, hera⟩ := hi.pool tx htx
    exact ⟨n, hn.trans hmono, hera⟩

/-- **A guarded event brings in records that outlast only.** -/
theorem supplies_outlasts (hp : 0 < period) (hi : Anchored x period B c)
    (hg : Genuine x period B c e) (h : NeverEarly x (B + period) c.txTracker)
    (hguard : PooledInEra x period B c e) {k : Nat} (hk : c.txTracker.lastKnownHeight ≤ k) :
    Supplies (Outlasts x (B + period) k) c e := by
  cases e with
  | resume i a =>
      cases a with
      | body body =>
          cases body with
          | none => trivial
          | some body =>
              intro y n hy tx htx hx era hera
              obtain ⟨hencodes, hvalid⟩ := hg y n hy
              obtain ⟨ext, hext, -, hhash⟩ := exists_of_extracted htx
              rw [hx] at hhash
              -- a body is reckoned from its own height, where the extrinsic is valid
              obtain ⟨hB, -⟩ := hvalid ⟨ext, hext, hhash⟩
              rw [hencodes.era htx hx] at hera
              rw [← Option.some.inj hera]
              exact ((le_death_iff hp B n).mpr (Or.inl hB)).trans (Nat.le_max_right ..)
      | _ => trivial
  | poll node answer =>
      cases answer with
      | none => trivial
      | some raw =>
          intro tx htx hx era hera
          rw [Encodes.era hg htx hx] at hera
          rw [← Option.some.inj hera]
          change B + period ≤ max k ((eraFrom period B).death c.txTracker.lastKnownHeight)
          cases hpool : c.txTracker.pendingPool.get? x with
          | some pooled =>
              -- not entered again, and reckoned from here the era ends no earlier than recorded
              obtain ⟨n, hn, hpooled⟩ := hi.pool pooled hpool
              have hhash := (hi.sourced.pool x pooled hpool).1
              have hlast := h.outlasts (Stored.pool x pooled hpool) hhash _ hpooled
              have hdeath := death_mono (eraFrom period B) hn
              change B + period ≤ max _ ((eraFrom period B).death n) at hlast
              omega
          | none =>
              have hin : inSnapshot raw x = true := by
                obtain ⟨ext, hext, -, hhash⟩ := exists_of_extracted htx
                rw [hx] at hhash
                exact List.any_eq_true.mpr ⟨ext, hext, decide_eq_true hhash⟩
              have hout : c.txTracker.pendingPool.has x = false := by
                unfold OrdMap.has
                rw [hpool]
                rfl
              exact ((le_death_iff hp B _).mpr (hguard hin hout)).trans (Nat.le_max_right ..)
  | _ => trivial

/-- An act tells nothing expired that is not. -/
theorem toldExpired_act {last k : Nat} {side : Side} {t t' : TxTracker} (hk : t.lastKnownHeight = k)
    (h : ∀ row, .submitted row ∈ t.history → row.firstHash = x → row.status = .expired → last ≤ k)
    (hact : Act (Outlasts x last k) side t t') :
    ∀ row, .submitted row ∈ t'.history → row.firstHash = x → row.status = .expired →
      last ≤ k := by
  intro row hrow hx hexp
  cases hact with
  | writePool => exact h row hrow hx hexp
  | writeQueue => exact h row hrow hx hexp
  | queued =>
      rcases List.mem_append.mp hrow with hold | hnew
      · exact h row hold hx hexp
      · exact absurd (List.mem_singleton.mp hnew) (by simp)
  | start _ _ record =>
      obtain ⟨timers, ever, calls, rs, heq, hof⟩ := startResubmitRetry_eq t record
      rw [heq] at hrow
      rcases List.mem_append.mp hrow with hold | hnew
      · exact h row hold hx hexp
      · exact absurd (hof _ hnew) id
  | stop => exact h row hrow hx hexp
  | tell _ _ tx status extra hN hi =>
      rcases finalize_cases t tx status extra with ⟨-, heq⟩ | ⟨-, heq⟩
      · rw [heq] at hrow
        exact h row hrow hx hexp
      · rw [heq] at hrow
        rcases List.mem_append.mp hrow with hold | hnew
        · exact h row hold hx hexp
        · have hsame := TxReport.submitted.inj (List.mem_singleton.mp hnew)
          subst hsame
          subst hk
          exact Outlasts.le_of_isExpired hN hx (hi.expired hexp)

theorem toldExpired_step {last : Nat} (htold : ∀ row, .submitted row ∈ c.txTracker.history →
      row.firstHash = x → row.status = .expired → last ≤ c.txTracker.lastKnownHeight)
    (hs : Sourced (Outlasts x last (c.step e).txTracker.lastKnownHeight) c.txTracker)
    (he : Supplies (Outlasts x last (c.step e).txTracker.lastKnownHeight) c e) :
    ∀ row, .submitted row ∈ (c.step e).txTracker.history → row.firstHash = x →
      row.status = .expired → last ≤ (c.step e).txTracker.lastKnownHeight := by
  have hmono := lastKnownHeight_step c e hs he
  obtain ⟨u, side, hquiet, hacts⟩ := step_acts hs he
  have hheight := hacts.sameGround.lastKnownHeight
  have hall := hacts.preserves (I := fun v =>
    v.lastKnownHeight = (c.step e).txTracker.lastKnownHeight ∧
      ∀ row, .submitted row ∈ v.history → row.firstHash = x → row.status = .expired →
        last ≤ (c.step e).txTracker.lastKnownHeight) ?_ ⟨hheight.symm, ?_⟩
  · exact hall.2
  · intro v v' hv hact
    exact ⟨hact.sameGround.lastKnownHeight.trans hv.1, toldExpired_act hv.1 hv.2 hact⟩
  · -- what the event does before the acts tells nothing
    intro row hrow hx hexp
    obtain ⟨rs, hrs, hnews⟩ := hquiet.history
    rw [hrs] at hrow
    rcases List.mem_append.mp hrow with hold | hnew
    · exact (htold row hold hx hexp).trans hmono
    · exact absurd (hnews _ hnew) id

theorem neverEarly_of_pooledInEra (hp : 0 < period) (hi : Anchored x period B c)
    (hg : Genuine x period B c e) (h : NeverEarly x (B + period) c.txTracker)
    (hguard : PooledInEra x period B c e) : NeverEarly x (B + period) (c.step e).txTracker := by
  have hmono := lastKnownHeight_step c e hi.sourced (supplies_true c e)
  have hs : Sourced (Outlasts x (B + period) (c.step e).txTracker.lastKnownHeight)
      c.txTracker := sourced_of_stored hi.sourced fun _ htx => (h.outlasts htx).mono hmono
  have he := supplies_outlasts hp hi hg h hguard hmono
  exact neverEarly_of_sourced (sourced_step hs he) (toldExpired_step h.told hs he)

/-- The record of a poll below the birth lapses early. -/
theorem pooledInEra_of_neverEarly (hp : 0 < period) (hi : Anchored x period B c)
    (hg : Genuine x period B c e) (h : NeverEarly x (B + period) (c.step e).txTracker) :
    PooledInEra x period B c e := by
  rcases snapshot_or_not e with hsnap | hno
  · obtain ⟨node, raw, rfl⟩ := hsnap
    intro hin hout
    have hheight : (c.step (.poll node (some raw))).txTracker.lastKnownHeight
        = c.txTracker.lastKnownHeight :=
      (acts_pollPendingPool hi.sourced node fun _ _ _ _ => trivial).sameGround.lastKnownHeight
    obtain ⟨shown, hshown⟩ := OrdMap.has_iff.mp ((has_snapshot raw
      c.txTracker.lastKnownHeight x).trans hin)
    obtain ⟨hmem, hx⟩ := mem_of_get?_snapshot hshown
    have hpool : (c.step (.poll node (some raw))).txTracker.pendingPool.get? x = some shown := by
      change (c.txTracker.pollPendingPool node (some raw)).pendingPool.get? x = some shown
      have hnone : c.txTracker.pendingPool.get? x = none := by
        simpa [OrdMap.has] using hout
      rw [pool_get?_pollPendingPool, hshown, hnone]
      rfl
    have hlast := h.outlasts (Stored.pool x shown hpool) hx _ (Encodes.era hg hmem hx)
    rw [hheight] at hlast
    change B + period ≤ max _ ((eraFrom period B).death c.txTracker.lastKnownHeight) at hlast
    -- reckoned from below `B`, the era is over by `B`
    by_contra hlow
    have hdeath := death_le hp (B := B) (n := c.txTracker.lastKnownHeight) (by omega) (by omega)
    omega
  · cases e with
    | poll node answer =>
        cases answer with
        | none => trivial
        | some raw => exact absurd rfl (hno node raw)
    | _ => trivial

/-! ## Runs -/

/--
**When a valid transaction is never taken for lapsed.** Let the transaction `x` be
valid for the blocks from `B` on, `period` of them, and be shown as such. No record
of it is expired, no row tells it expired and no loop gives up on it below height
`B + period`, in any state of the run, exactly if every poll that enters it into the
pool finds the tracker at `B` or above, or `B` lies in the first period of the chain.
-/
theorem neverEarly_iff (config : ChainConfig) (opts : TxOptions) (evs : List Event) (x : Hash)
    (period B : Nat) (hp : 0 < period)
    (hgenuine : (machine config opts).Guarded (Genuine x period B) (machine config opts).init evs) :
    (∀ pre, pre <+: evs → NeverEarly x (B + period) ((machine config opts).run pre).txTracker) ↔
      (machine config opts).Guarded (PooledInEra x period B) (machine config opts).init evs := by
  refine Machine.always_iff_guarded (I := Anchored x period B)
    (P := fun c => NeverEarly x (B + period) c.txTracker) (anchored_init x period B config opts)
    (fun _ _ hi hg => anchored_step hi hg) ?_ ?_ hgenuine
  · exact neverEarly_of_sourced (sourced_init _ opts) fun _ hrow => absurd hrow (by simp [machine])
  · intro c e hi hg h
    exact ⟨pooledInEra_of_neverEarly hp hi hg, neverEarly_of_pooledInEra hp hi hg h⟩

/-! ## A transfer for the blocks from 128 to 191 -/

def mortalTransfer : Extrinsic :=
  .signed "alice" 0 "t" "balances" "transfer" (some (eraFrom 64 128)) "0x00"

theorem encodes_mortalTransfer {raw : List Extrinsic} (hraw : ∀ ext ∈ raw, ext = mortalTransfer) :
    Encodes "t" (eraFrom 64 128) raw := by
  intro ext hext _
  rw [hraw ext hext]
  rfl

/-- The tracker knows of block 129 when the transfer enters the pool. -/
def inEraRun : List Event :=
  [.finalizedHeads "n" 129 "h129", .poll "n" (some [mortalTransfer]), .poll "n" (some [])]

theorem genuine_inEraRun : (machine {} {}).Guarded (Genuine "t" 64 128) (machine {} {}).init
    inEraRun :=
  ⟨trivial, encodes_mortalTransfer (by simp), encodes_mortalTransfer (by simp), trivial⟩

theorem neverEarly_inEraRun :
    NeverEarly "t" (128 + 64) ((machine {} {}).run inEraRun).txTracker := by
  refine (neverEarly_iff {} {} inEraRun "t" 64 128 (by decide) genuine_inEraRun).mpr ?_
    inEraRun (List.prefix_refl _)
  exact ⟨trivial, fun _ _ => Or.inl (by decide), fun hin => absurd hin (by decide), trivial⟩

/--
The first poll comes before the first head: reckoned from 0, the era ends at 64. The
transfer leaves the pool for twenty polls while block 129 is the latest one known.
-/
def beforeFirstHeadRun : List Event :=
  [.poll "n" (some [mortalTransfer]), .finalizedHeads "n" 129 "h129"] ++
    List.replicate 20 (.poll "n" (some []))

/-- The row it gets. -/
def earlyRow : SubmittedTx where
  signer := some "alice"
  nonce := some 0
  kind := .substrate
  pallet := "balances"
  method := "transfer"
  status := .expired
  firstHash := "t"
  lastHash := "t"
  attempts := [⟨"t", some 0, some 64, .expired⟩]
  lostAtHeight := none
  lostAtHash := none
  resolvedHash := none
  resolvedHeight := none

/-- It is told expired, sixty-three blocks too early. -/
theorem not_neverEarly_beforeFirstHeadRun :
    (machine {} {}).Guarded (Genuine "t" 64 128) (machine {} {}).init beforeFirstHeadRun ∧
      ¬ NeverEarly "t" (128 + 64) ((machine {} {}).run beforeFirstHeadRun).txTracker := by
  refine ⟨?_, fun h => ?_⟩
  · have hempty : ∀ c n, (machine {} {}).Guarded (Genuine "t" 64 128) c
        (List.replicate n (.poll "n" (some []))) := by
      intro c n
      induction n generalizing c with
      | zero => trivial
      | succ n ih => exact ⟨encodes_mortalTransfer (by simp), ih _⟩
    exact ⟨encodes_mortalTransfer (by simp), trivial, hempty _ 20⟩
  · have hrow : .submitted earlyRow ∈
        ((machine {} {}).run beforeFirstHeadRun).txTracker.history := by decide
    exact absurd (h.told earlyRow hrow rfl rfl) (by decide)

end ForkWatch.Proof
