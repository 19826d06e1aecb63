import ForkWatch.Proof.Acts
import ForkWatch.Proof.Retry

/-!
# How long a hash is retried

`everRetried` lets a hash start one loop, on whichever path it is found and found
again, as long as fewer than `MAX_FINALIZED_HASHES` hashes ever start one. So the
attempts of that one loop are all the attempts there are for the hash, and a loop
that is gone stays gone. `Ready` is the loop between two ticks; `ready_tick` says
that a tick leaves it ready, or confirms the inclusion and drops it.

The conditions on an attempt are checked by the tick that makes it. Once a hash is
canonical for signer and nonce there always is one, and the known height only
rises, so a condition that has failed fails from then on.
-/

namespace ForkWatch.Proof

open Lib ChainContext TxTracker

/-! ## What a run has done for one hash -/

/-- How often `resubmitOnce` was called for `h`. -/
def attempts (h : Hash) (rs : List TxReport) : Nat := rs.count (.attempted h)

/-- The hashes a retry loop was started for, in order. -/
def loopHashes (rs : List TxReport) : List Hash :=
  rs.filterMap fun r => match r with
    | .loopStarted record => some record.hash
    | _ => none

@[simp] theorem attempts_append (h : Hash) (rs rs' : List TxReport) :
    attempts h (rs ++ rs') = attempts h rs + attempts h rs' := List.count_append

@[simp] theorem loopHashes_append (rs rs' : List TxReport) :
    loopHashes (rs ++ rs') = loopHashes rs ++ loopHashes rs' := List.filterMap_append

/-- Reports that start no loop. -/
theorem loopHashes_eq_nil {p : TxReport → Prop} {rs : List TxReport} (h : ∀ r ∈ rs, p r)
    (hp : ∀ record, ¬ p (.loopStarted record)) : loopHashes rs = [] := by
  refine List.filterMap_eq_nil_iff.mpr fun r hr => ?_
  cases r with
  | loopStarted record => exact absurd (h _ hr) (hp record)
  | _ => rfl

theorem attempts_eq_zero {h : Hash} {rs : List TxReport} (hs : ∀ r ∈ rs, Silent h r) :
    attempts h rs = 0 :=
  List.count_eq_zero.mpr fun hr => (hs _ hr).1 rfl

theorem confirmations_eq_zero {h : Hash} {rs : List TxReport} (hs : ∀ r ∈ rs, Silent h r) :
    confirmations h rs = 0 :=
  List.countP_eq_zero.mpr fun r hr => by rw [(hs r hr).2]; simp

/-- Fewer hashes were given a loop than the guard set can hold. -/
def Few (rs : List TxReport) : Prop := (loopHashes rs).dedup.length < MAX_FINALIZED_HASHES

instance (rs : List TxReport) : Decidable (Few rs) := inferInstanceAs (Decidable (_ < _))

theorem Few.of_append {rs rs' : List TxReport} (h : Few (rs ++ rs')) : Few rs := by
  unfold Few at h ⊢
  have hsub : (loopHashes rs).dedup ⊆ (loopHashes (rs ++ rs')).dedup := by
    intro x hx
    rw [loopHashes_append]
    exact List.mem_dedup.mpr (List.mem_append_left _ (List.mem_dedup.mp hx))
  have hle := (List.subperm_of_subset (List.nodup_dedup _) hsub).length_le
  omega

/-- Every transaction with this hash has this signer, nonce and era. -/
def Uniform (h : Hash) (signer : Option Address) (nonce : Option Nat) (era : Option Era) (tx : Tx) :
    Prop :=
  tx.hash = h → tx.signer = signer ∧ tx.nonce = nonce ∧ tx.era = era

/-! ## The loop between two ticks -/

/-- The loop of `h` has made `n` attempts, which are all there are, and may go on. -/
structure Ready (h : Hash) (n : Nat) (t : TxTracker) : Prop where
  attempts : attempts h t.history = n
  confirmed : confirmations h t.history = 0
  started : h ∈ loopHashes t.history
  bound : n ≤ t.opts.maxResubmitRetries
  enabled : t.opts.resubmitEnabled = true

variable {h : Hash} {n : Nat} {t : TxTracker} {record : RetryRecord}

theorem Ready.congr {t' : TxTracker} (hr : Ready h n t) (hopts : t'.opts = t.opts)
    (hhist : t'.history = t.history) : Ready h n t' :=
  ⟨by rw [hhist]; exact hr.attempts, by rw [hhist]; exact hr.confirmed,
    by rw [hhist]; exact hr.started, by rw [hopts]; exact hr.bound, by rw [hopts]; exact hr.enabled⟩

/-- The inclusion of `h` was confirmed after `n` attempts, and the loop is gone. -/
structure Ended (h : Hash) (n : Nat) (t : TxTracker) : Prop where
  attempts : attempts h t.history = n
  confirmed : confirmations h t.history = 1
  started : h ∈ loopHashes t.history
  bound : n ≤ t.opts.maxResubmitRetries
  gone : t.resubmitRetryTimers.get? h = none

theorem ended_confirmed (hr : Ready h n t) (hh : record.hash = h) :
    Ended h n ((t.recordConfirmedInclusion record).stopResubmitRetry h) where
  attempts := by
    have hnone : attempts h [.resubmitAttempt (resubmitRow record .confirmed none)] = 0 := by
      simp [attempts]
    unfold recordConfirmedInclusion stopResubmitRetry emit
    dsimp only
    rw [attempts_append, hnone, hr.attempts, Nat.add_zero]
  confirmed := by
    have hone := congrArg Life.confirmed (lifeOf_confirmed (t := t) hh)
    simp only [lifeOf, hr.confirmed] at hone
    exact hone
  started := by
    unfold recordConfirmedInclusion stopResubmitRetry emit
    dsimp only
    rw [loopHashes_append]
    exact List.mem_append_left _ hr.started
  bound := hr.bound
  gone := by
    unfold stopResubmitRetry
    dsimp only
    rw [OrdMap.get?_erase, if_pos rfl]

/-- **A tick** leaves the loop ready, or confirms the inclusion and drops the loop. -/
theorem ready_tick (hr : Ready h n t) (hh : record.hash = h) :
    (Ready h (t.tick record n).2 (t.tick record n).1 ∧
      (n < (t.tick record n).2 →
        t.latestFor record.signer record.nonce = none ∧ t.isExpired record.toTx = false)) ∨
    (Ended h n (t.tick record n).1 ∧ 0 < n ∧
      (t.latestFor record.signer record.nonce).map Inclusion.hash = some h) := by
  rcases tick_cases t record n with ⟨heq, -⟩ | ⟨heq, hpos, hl⟩ | ⟨heq, -⟩ | ⟨heq, hl, hera, hlt⟩
  · rw [heq]
    exact Or.inl ⟨hr.congr rfl rfl, fun hn => absurd hn (by simp)⟩
  · rw [hh] at heq hl
    rw [heq]
    exact Or.inr ⟨ended_confirmed hr hh, hpos, hl⟩
  · rw [heq]
    exact Or.inl ⟨hr, fun hn => absurd hn (by simp)⟩
  · rw [heq]
    refine Or.inl ⟨?_, fun _ => ⟨hl, hera⟩⟩
    obtain ⟨-, -, -, rs, hrs, hfailed⟩ := resubmitOnce_spec t record
    have hquiet : ∀ r ∈ rs, Silent h r ∧ ∀ record, r ≠ .loopStarted record := by
      intro r hr
      obtain ⟨row, rfl, hres⟩ := hfailed r hr
      exact ⟨⟨by simp, by simp [Confirms, hres]⟩, by simp⟩
    have hrest : attempts h rs = 0 := attempts_eq_zero fun r hr => (hquiet r hr).1
    have hconf : confirmations h rs = 0 := confirmations_eq_zero fun r hr => (hquiet r hr).1
    have hkept := kept_resubmitOnce t record
    refine ⟨?_, ?_, ?_, ?_, ?_⟩
    · rw [hrs, ← List.singleton_append, attempts_append, attempts_append, hrest, hr.attempts, hh]
      simp [attempts]
    · rw [hrs, ← List.singleton_append, confirmations_append, confirmations_append, hconf,
        hr.confirmed]
      simp [confirmations, Confirms]
    · rw [hrs, loopHashes_append]
      exact List.mem_append_left _ hr.started
    · rw [hkept.opts]
      exact hlt
    · rw [hkept.opts]
      exact hr.enabled

/-! ## The loop over a run -/

/-- The guard set has let through the loops that were started. -/
def GuardsLoops (t : TxTracker) : Prop :=
  Guards MAX_FINALIZED_HASHES t.everRetried (loopHashes t.history)

/-- What is known of the loop of `h`, and of what was done for it. -/
structure Bounded (h : Hash) (t : TxTracker) : Prop where
  ready : ∀ loop, t.resubmitRetryTimers.get? h = some loop → Ready h loop.attempts t
  fresh : h ∉ loopHashes t.history → attempts h t.history = 0 ∧ confirmations h t.history = 0
  bound : attempts h t.history ≤ t.opts.maxResubmitRetries
  once : confirmations h t.history ≤ 1

/-- The report is no attempt, no confirmation and no loop for `h`. -/
def Aside (h : Hash) (r : TxReport) : Prop :=
  Silent h r ∧ ∀ record, r = .loopStarted record → record.hash ≠ h

/-- The same was done for `h`. -/
structure SameDone (h : Hash) (t t' : TxTracker) : Prop where
  attempts : attempts h t'.history = attempts h t.history
  confirmed : confirmations h t'.history = confirmations h t.history
  started : h ∈ loopHashes t'.history ↔ h ∈ loopHashes t.history

theorem SameDone.append {t' : TxTracker} (rs : List TxReport)
    (hhist : t'.history = t.history ++ rs) (hof : ∀ r ∈ rs, Aside h r) : SameDone h t t' where
  attempts := by
    rw [hhist, attempts_append, attempts_eq_zero fun r hr => (hof r hr).1, Nat.add_zero]
  confirmed := by
    rw [hhist, confirmations_append, confirmations_eq_zero fun r hr => (hof r hr).1, Nat.add_zero]
  started := by
    have hnot : h ∉ loopHashes rs := by
      intro hin
      obtain ⟨r, hr, heq⟩ := List.mem_filterMap.mp hin
      cases r with
      | loopStarted record => exact (hof _ hr).2 record rfl (Option.some.inj heq)
      | _ => exact absurd heq (by simp)
    rw [hhist, loopHashes_append, List.mem_append]
    simp [hnot]

theorem SameDone.of_history {t' : TxTracker} (hhist : t'.history = t.history) :
    SameDone h t t' := ⟨by rw [hhist], by rw [hhist], by rw [hhist]⟩

/-- Loops may end at any time, as long as nothing is done for `h`. -/
theorem Bounded.same {t' : TxTracker} (hb : Bounded h t) (hd : SameDone h t t')
    (hopts : t'.opts = t.opts)
    (hloops : ∀ loop, t'.resubmitRetryTimers.get? h = some loop →
      t.resubmitRetryTimers.get? h = some loop) : Bounded h t' where
  ready := by
    intro loop hloop
    have hr := hb.ready loop (hloops loop hloop)
    exact ⟨hd.attempts.trans hr.attempts, hd.confirmed.trans hr.confirmed,
      hd.started.mpr hr.started, by rw [hopts]; exact hr.bound, by rw [hopts]; exact hr.enabled⟩
  fresh := by
    rw [hd.started, hd.attempts, hd.confirmed]
    exact hb.fresh
  bound := by
    rw [hd.attempts, hopts]
    exact hb.bound
  once := by
    rw [hd.confirmed]
    exact hb.once

theorem aside_of_ofTick (hne : record.hash ≠ h) {r : TxReport} (hr : OfTick record r) :
    Aside h r := by
  refine ⟨silent_of_ofTick hne hr, ?_⟩
  intro record' heq
  subst heq
  exact absurd hr id

variable {signer : Option Address} {nonce : Option Nat} {era : Option Era}

/-- What the code has checked when it makes an attempt. -/
structure MayAttempt (signer : Option Address) (nonce : Option Nat) (era : Option Era)
    (t : TxTracker) : Prop where
  enabled : t.opts.resubmitEnabled = true
  latest : t.latestFor signer nonce = none
  alive : ∀ e, era = some e → t.lastKnownHeight < e.death

theorem alive_of_isExpired {tx : Tx} (hera : tx.era = era) (hx : t.isExpired tx = false) :
    ∀ e, era = some e → t.lastKnownHeight < e.death := by
  intro e he
  unfold isExpired at hx
  rw [hera, he] at hx
  simpa using hx

theorem MayAttempt.ground {t' : TxTracker} (hm : MayAttempt signer nonce era t)
    (hg : SameGround t t') : MayAttempt signer nonce era t' where
  enabled := by rw [hg.opts]; exact hm.enabled
  latest := by rw [hg.latestFor]; exact hm.latest
  alive := by rw [hg.lastKnownHeight]; exact hm.alive

/-- What acts come to for `h`: nothing but attempts, each of them allowed. -/
structure ActsFor (h : Hash) (signer : Option Address) (nonce : Option Nat) (era : Option Era)
    (t t' : TxTracker) : Prop where
  bounded : Bounded h t'
  attempt : attempts h t.history < attempts h t'.history → MayAttempt signer nonce era t'
  confirmed : confirmations h t'.history = confirmations h t.history

theorem Bounded.actsFor {t' : TxTracker} (hb : Bounded h t) (hd : SameDone h t t')
    (hopts : t'.opts = t.opts)
    (hloops : ∀ loop, t'.resubmitRetryTimers.get? h = some loop →
      t.resubmitRetryTimers.get? h = some loop) : ActsFor h signer nonce era t t' where
  bounded := hb.same hd hopts hloops
  attempt := fun hlt => absurd hlt (by rw [hd.attempts]; exact Nat.lt_irrefl _)
  confirmed := hd.confirmed

/-- The guard set has not seen `h`: nothing has been done for it when its loop opens. -/
theorem ready_opened (hg : GuardsLoops t) (hb : Bounded h t) (hfew : Few t.history)
    (hmay : t.mayRetry record = true) (hh : record.hash = h) :
    Ready h 0 (opened t record) ∧ attempts h t.history = 0 ∧
      confirmations h t.history = 0 := by
  unfold mayRetry at hmay
  simp only [Bool.and_eq_true, Bool.not_eq_true'] at hmay
  obtain ⟨⟨⟨⟨henabled, -⟩, -⟩, -⟩, hnew⟩ := hmay
  have hfirst : h ∉ loopHashes t.history := by
    intro hin
    have hhas := (hg.has_iff_mem (hg.length_lt hfew).le).mpr hin
    rw [← hh, hnew] at hhas
    exact absurd hhas (by simp)
  obtain ⟨hnone, hunconf⟩ := hb.fresh hfirst
  refine ⟨⟨?_, ?_, ?_, Nat.zero_le _, henabled⟩, hnone, hunconf⟩
  · simpa [opened, attempts] using hnone
  · simpa [opened, confirmations, Confirms] using hunconf
  · simp [opened, loopHashes, hh]

/-- **A loop is started.** The guard set has not seen `h`, so it is the first one for it. -/
theorem actsFor_start (hg : GuardsLoops t) (hb : Bounded h t)
    (hN : Uniform h signer nonce era record.toTx) (hfew : Few t.history) :
    ActsFor h signer nonce era t (t.startResubmitRetry record) := by
  rcases startResubmitRetry_cases t record with ⟨-, heq⟩ | ⟨hmay, heq⟩
  · rw [heq]
    exact hb.actsFor (SameDone.of_history rfl) rfl fun _ hloop => hloop
  · obtain ⟨rs, hrs, hof⟩ := (kept_tick (opened t record) record 0).history
    have hhist : (t.startResubmitRetry record).history
        = t.history ++ ([.loopStarted record] ++ rs) := by
      rw [heq]
      dsimp only
      rw [hrs]
      exact List.append_assoc ..
    have hopts : (t.startResubmitRetry record).opts = t.opts :=
      (kept_startResubmitRetry t record).opts
    by_cases hh : record.hash = h
    -- the loop of the hash: it starts ready, and the tick comes before it is registered
    · obtain ⟨hopened, hnone, hunconf⟩ := ready_opened hg hb hfew hmay hh
      rcases ready_tick hopened hh with ⟨hready, hallowed⟩ | ⟨-, hpos, -⟩
      · have hready' : Ready h ((opened t record).tick record 0).2 (t.startResubmitRetry record) := by
          rw [heq]
          exact hready.congr rfl rfl
        refine ⟨⟨?_, ?_, ?_, ?_⟩, ?_, ?_⟩
        · intro loop hloop
          rw [heq] at hloop
          dsimp only at hloop
          rw [hh, OrdMap.get?_set_self] at hloop
          obtain rfl := Option.some.inj hloop
          exact hready'
        · intro hnot
          exact absurd hready'.started hnot
        · rw [hready'.attempts]
          exact hready'.bound
        · rw [hready'.confirmed]
          exact Nat.zero_le 1
        · intro hlt
          rw [hnone, hready'.attempts] at hlt
          obtain ⟨hl, hera⟩ := hallowed hlt
          obtain ⟨hs, hk, he⟩ := hN hh
          rw [hs, hk] at hl
          have hattempt : MayAttempt signer nonce era t :=
            ⟨hopened.enabled, hl, alive_of_isExpired he hera⟩
          refine hattempt.ground ?_
          obtain ⟨timers, ever, calls, rs', heq', -⟩ := startResubmitRetry_eq t record
          rw [heq']
          exact ⟨rfl, rfl, rfl, rfl, rfl, rfl, rfl⟩
        · rw [hready'.confirmed, hunconf]
      -- a first tick has attempted nothing to confirm
      · exact absurd hpos (Nat.lt_irrefl 0)
    -- the loop of another hash does nothing to this one
    · refine hb.actsFor (SameDone.append _ hhist ?_) hopts ?_
      · intro r hr
        rcases List.mem_append.mp hr with hr | hr
        · obtain rfl := List.mem_singleton.mp hr
          refine ⟨⟨by simp, by simp [Confirms]⟩, ?_⟩
          intro record' heq'
          rw [← TxReport.loopStarted.inj heq']
          exact hh
        · exact aside_of_ofTick hh (hof r hr)
      · intro loop hloop
        rw [heq] at hloop
        dsimp only at hloop
        rw [OrdMap.get?_set_ne _ _ fun e => hh e.symm, get?_tick_ne _ record 0 hh] at hloop
        exact hloop

theorem GuardsLoops.append {p : TxReport → Prop} {t' : TxTracker} (hg : GuardsLoops t)
    (hever : t'.everRetried = t.everRetried) (rs : List TxReport)
    (hhist : t'.history = t.history ++ rs) (hof : ∀ r ∈ rs, p r)
    (hp : ∀ record, ¬ p (.loopStarted record)) : GuardsLoops t' := by
  unfold GuardsLoops
  rw [hever, hhist, loopHashes_append, loopHashes_eq_nil hof hp, List.append_nil]
  exact hg

variable {N : Tx → Prop} {side : Side}

theorem guardsLoops_act {t' : TxTracker} (hg : GuardsLoops t) (hact : Act N side t t') :
    GuardsLoops t' := by
  cases hact with
  | writePool => exact hg
  | writeQueue => exact hg
  | queued _ entry H =>
      exact hg.append rfl [.queued entry H] rfl (fun _ hr => List.mem_singleton.mp hr) (by simp)
  | start _ _ record =>
      rcases startResubmitRetry_cases t record with ⟨-, heq⟩ | ⟨hmay, heq⟩
      · rw [heq]
        exact hg
      · have hnew : t.everRetried.has record.hash = false := by
          unfold mayRetry at hmay
          simp only [Bool.and_eq_true, Bool.not_eq_true'] at hmay
          exact hmay.2
        have hopened : GuardsLoops (opened t record) := by
          unfold GuardsLoops opened
          dsimp only
          rw [loopHashes_append]
          exact Guards.remember hg (by decide) hnew
        obtain ⟨timers, calls, rs, htick, hof⟩ := tick_eq (opened t record) record 0
        rw [heq, htick]
        exact hopened.append rfl rs rfl hof fun _ hr => hr
  | stop => exact hg
  | tell _ _ tx status extra =>
      rcases finalize_cases t tx status extra with ⟨-, heq⟩ | ⟨-, heq⟩
      · rw [heq]
        exact hg
      · rw [heq]
        exact hg.append rfl [_] rfl (fun _ hr => List.mem_singleton.mp hr) (by simp)

theorem Act.history {t' : TxTracker} (hact : Act N side t t') : ∃ rs, t'.history = t.history ++ rs := by
  cases hact with
  | writePool => exact ⟨[], by simp⟩
  | writeQueue => exact ⟨[], by simp⟩
  | queued _ entry H => exact ⟨[_], rfl⟩
  | start _ _ record =>
      obtain ⟨rs, hrs, -⟩ := (kept_startResubmitRetry t record).history
      exact ⟨rs, hrs⟩
  | stop => exact ⟨[], by simp [stopResubmitRetry]⟩
  | tell _ _ tx status extra =>
      obtain ⟨rs, hrs, -⟩ := (kept_finalize t tx tx.hash status extra).history
      exact ⟨rs, hrs⟩

theorem actsFor_act {t' : TxTracker} (hg : GuardsLoops t) (hb : Bounded h t)
    (hfew : Few t.history) (hact : Act (Uniform h signer nonce era) side t t') :
    ActsFor h signer nonce era t t' := by
  cases hact with
  | writePool => exact hb.actsFor (SameDone.of_history rfl) rfl fun _ hloop => hloop
  | writeQueue => exact hb.actsFor (SameDone.of_history rfl) rfl fun _ hloop => hloop
  | queued _ entry H =>
      refine hb.actsFor (SameDone.append [.queued entry H] rfl ?_) rfl fun _ hloop => hloop
      intro r hr
      obtain rfl := List.mem_singleton.mp hr
      exact ⟨⟨by simp, rfl⟩, by simp⟩
  | start _ _ record hN => exact actsFor_start hg hb hN hfew
  | stop _ x =>
      refine hb.actsFor (SameDone.of_history rfl) rfl fun loop hloop => ?_
      unfold stopResubmitRetry at hloop
      dsimp only at hloop
      rw [OrdMap.get?_erase] at hloop
      split at hloop
      · exact absurd hloop (by simp)
      · exact hloop
  | tell _ _ tx status extra =>
      rcases finalize_cases t tx status extra with ⟨-, heq⟩ | ⟨-, heq⟩
      · rw [heq]
        exact hb.actsFor (SameDone.of_history rfl) rfl fun _ hloop => hloop
      · rw [heq]
        refine hb.actsFor (SameDone.append [_] rfl ?_) rfl fun _ hloop => hloop
        intro r hr
        obtain rfl := List.mem_singleton.mp hr
        exact ⟨⟨by simp, rfl⟩, by simp⟩

theorem actsFor_acts {t' : TxTracker} (hg : GuardsLoops t) (hb : Bounded h t)
    (hacts : Acts (Uniform h signer nonce era) side t t') (hfew : Few t'.history) :
    ActsFor h signer nonce era t t' := by
  induction hacts with
  | refl => exact hb.actsFor (SameDone.of_history rfl) rfl fun _ hloop => hloop
  | @tail u u' hacts hact ih =>
      obtain ⟨rs, hrs⟩ := hact.history
      have hfew' : Few u.history := Few.of_append (hrs ▸ hfew)
      have hu := ih hfew'
      have hone := actsFor_act (Acts.preserves (fun _ _ => guardsLoops_act) hacts hg) hu.bounded
        hfew' hact
      refine ⟨hone.bounded, ?_, hone.confirmed.trans hu.confirmed⟩
      intro hlt
      -- the attempt was made by the last act, or before it
      rcases Nat.lt_or_ge (attempts h u.history) (attempts h u'.history) with hlast | hsame
      · exact hone.attempt hlast
      · exact (hu.attempt (by omega)).ground hact.sameGround

/-- **What one step does for `h`.** -/
structure FairStep (h : Hash) (signer : Option Address) (nonce : Option Nat) (era : Option Era)
    (t t' : TxTracker) : Prop where
  /-- An attempt is made with resubmission enabled, nothing canonical, and the era open. -/
  attempt : attempts h t.history < attempts h t'.history → MayAttempt signer nonce era t'
  /-- A confirmation comes after an attempt, and with `h` canonical. -/
  confirm : confirmations h t.history < confirmations h t'.history →
    0 < attempts h t.history ∧ (t'.latestFor signer nonce).map Inclusion.hash = some h

theorem SameDone.fairStep {t' : TxTracker} (hd : SameDone h t t') :
    FairStep h signer nonce era t t' where
  attempt := fun hlt => absurd hlt (by rw [hd.attempts]; exact Nat.lt_irrefl _)
  confirm := fun hlt => absurd hlt (by rw [hd.confirmed]; exact Nat.lt_irrefl _)

/-- Acts that begin where nothing has been done for `h` yet in this step. -/
theorem ActsFor.fairStep {t u t' : TxTracker} (hu : SameDone h t u)
    (ha : ActsFor h signer nonce era u t') : FairStep h signer nonce era t t' where
  attempt := by
    rw [← hu.attempts]
    exact ha.attempt
  confirm := fun hlt => absurd hlt (by rw [ha.confirmed, hu.confirmed]; exact Nat.lt_irrefl _)

theorem Ready.bounded (hr : Ready h n t)
    (hloops : ∀ loop, t.resubmitRetryTimers.get? h = some loop → loop.attempts = n) :
    Bounded h t where
  ready := by
    intro loop hloop
    rw [hloops loop hloop]
    exact hr
  fresh := fun hnot => absurd hr.started hnot
  bound := by
    rw [hr.attempts]
    exact hr.bound
  once := by
    rw [hr.confirmed]
    exact Nat.zero_le 1

theorem Ended.bounded (he : Ended h n t) : Bounded h t where
  ready := fun loop hloop => absurd hloop (by rw [he.gone]; simp)
  fresh := fun hnot => absurd he.started hnot
  bound := by
    rw [he.attempts]
    exact he.bound
  once := by rw [he.confirmed]

theorem retryTick_of_loop {x : Hash} {loop : RetryLoop}
    (hx : t.resubmitRetryTimers.get? x = some loop) :
    t.retryTick x = { (t.tick loop.record loop.attempts).1 with
      resubmitRetryTimers := (t.tick loop.record loop.attempts).1.resubmitRetryTimers.modify x
        (fun l => { l with attempts := (t.tick loop.record loop.attempts).2 }) } := by
  unfold retryTick
  rw [hx]

/-- **The timer of `h` fires.** -/
theorem bounded_retryTick_self (hs : Sourced (Uniform h signer nonce era) t) (hb : Bounded h t)
    {loop : RetryLoop} (hx : t.resubmitRetryTimers.get? h = some loop) :
    Bounded h (t.retryTick h) ∧ FairStep h signer nonce era t (t.retryTick h) := by
  obtain ⟨hhash, hN⟩ := hs.loops h loop hx
  dsimp only at hhash hN
  obtain ⟨hsig, hnon, hera⟩ := hN hhash
  have hground : SameGround t (t.retryTick h) := by
    obtain ⟨timers, calls, rs, heq, -⟩ := retryTick_eq t h
    rw [heq]
    exact ⟨rfl, rfl, rfl, rfl, rfl, rfl, rfl⟩
  have hready := hb.ready loop hx
  have heq := retryTick_of_loop hx
  -- the tick goes on, with another attempt at most, or it confirms and the loop ends
  rcases ready_tick hready hhash with ⟨hgo, hallowed⟩ | ⟨hend, hpos, hcanonical⟩
  · have hgo' : Ready h (t.tick loop.record loop.attempts).2 (t.retryTick h) := by
      rw [heq]
      exact hgo.congr rfl rfl
    refine ⟨hgo'.bounded ?_, ?_, ?_⟩
    · intro l hl
      rw [heq] at hl
      dsimp only at hl
      rw [OrdMap.get?_modify, if_pos rfl] at hl
      obtain ⟨l', -, rfl⟩ := Option.map_eq_some_iff.mp hl
      rfl
    · intro hlt
      rw [hready.attempts, hgo'.attempts] at hlt
      obtain ⟨hl, hexp⟩ := hallowed hlt
      rw [hsig, hnon] at hl
      have hmay : MayAttempt signer nonce era t :=
        ⟨hready.enabled, hl, alive_of_isExpired hera hexp⟩
      exact hmay.ground hground
    · intro hlt
      rw [hready.confirmed, hgo'.confirmed] at hlt
      exact absurd hlt (Nat.lt_irrefl 0)
  · have hend' : Ended h loop.attempts (t.retryTick h) := by
      rw [heq]
      refine ⟨hend.attempts, hend.confirmed, hend.started, hend.bound, ?_⟩
      dsimp only
      rw [OrdMap.get?_modify, if_pos rfl, hend.gone]
      rfl
    refine ⟨hend'.bounded, ?_, ?_⟩
    · intro hlt
      rw [hready.attempts, hend'.attempts] at hlt
      exact absurd hlt (Nat.lt_irrefl _)
    · intro _
      rw [hready.attempts, hground.latestFor, ← hsig, ← hnon]
      exact ⟨hpos, hcanonical⟩

/-- **A timer fires.** -/
theorem bounded_retryTick (hs : Sourced (Uniform h signer nonce era) t) (hb : Bounded h t)
    (x : Hash) : Bounded h (t.retryTick x) ∧ FairStep h signer nonce era t (t.retryTick x) := by
  have hkept := kept_retryTick t x
  cases hx : t.resubmitRetryTimers.get? x with
  | none =>
      have heq : t.retryTick x = t := by
        unfold retryTick
        rw [hx]
      rw [heq]
      exact ⟨hb, (SameDone.of_history rfl).fairStep⟩
  | some loop =>
      by_cases hxh : x = h
      · subst hxh
        exact bounded_retryTick_self hs hb hx
      · have heq := retryTick_of_loop hx
        have hne : loop.record.hash ≠ h := fun e => hxh ((hs.loops x loop hx).1.symm.trans e)
        obtain ⟨rs, hrs, hof⟩ := (kept_tick t loop.record loop.attempts).history
        have hd : SameDone h t (t.retryTick x) := by
          refine SameDone.append rs ?_ fun r hr => aside_of_ofTick hne (hof r hr)
          rw [heq]
          exact hrs
        refine ⟨hb.same hd hkept.opts fun l hl => ?_, hd.fairStep⟩
        rw [heq] at hl
        dsimp only at hl
        rw [OrdMap.get?_modify, if_neg fun e => hxh e.symm, get?_tick_ne t loop.record _ hne] at hl
        exact hl

/-! ## Every step -/

theorem guardsLoops_step {c : ChainContext} {e : Event} (hs : Sourced N c.txTracker)
    (he : Supplies N c e) (hg : GuardsLoops c.txTracker) :
    GuardsLoops (c.step e).txTracker := by
  obtain ⟨u, side, hu, hacts⟩ := step_acts hs he
  obtain ⟨rs, hhist, hnews⟩ := hu.history
  exact hacts.preserves (fun _ _ => guardsLoops_act)
    (hg.append hu.everRetried rs hhist hnews fun _ hr => hr)

theorem bounded_step {c : ChainContext} {e : Event}
    (hs : Sourced (Uniform h signer nonce era) c.txTracker)
    (he : Supplies (Uniform h signer nonce era) c e) (hg : GuardsLoops c.txTracker)
    (hb : Bounded h c.txTracker) (hfew : Few (c.step e).txTracker.history) :
    Bounded h (c.step e).txTracker ∧
      FairStep h signer nonce era c.txTracker (c.step e).txTracker := by
  have hstep := trackerStep c e
  generalize (c.step e).txTracker = t' at hfew hstep ⊢
  -- most steps do nothing for the hash
  have hquiet : SameDone h c.txTracker t' → t'.opts = c.txTracker.opts →
      (∀ loop, t'.resubmitRetryTimers.get? h = some loop →
        c.txTracker.resubmitRetryTimers.get? h = some loop) →
      Bounded h t' ∧ FairStep h signer nonce era c.txTracker t' :=
    fun hd hopts hloops => ⟨hb.same hd hopts hloops, hd.fairStep⟩
  cases hstep with
  | idle => exact hquiet (SameDone.of_history rfl) rfl fun _ hl => hl
  | captured i x n body =>
      obtain ⟨rs, heq, htracked⟩ := captureBody_eq c.txTracker x n body
      rw [heq] at hquiet ⊢
      refine hquiet (SameDone.append _ rfl fun r hr => ?_) rfl fun _ hl => hl
      rcases List.mem_cons.mp hr with rfl | hr
      · exact ⟨⟨by simp, rfl⟩, by simp⟩
      · obtain ⟨k, rfl⟩ := htracked r hr
        exact ⟨⟨by simp, rfl⟩, by simp⟩
  | pruned =>
      refine hquiet (SameDone.of_history rfl) rfl fun loop hl => ?_
      unfold pruneBlocks at hl
      dsimp only at hl
      rw [OrdMap.get?_filter, Option.filter_eq_some_iff] at hl
      exact hl.1
  | finalized node F H =>
      -- the walk marks what is canonical before the review acts on the rest
      have hacts := acts_onHeightFinalized hs F H (noted c.blockTree F)
      have hd : SameDone h c.txTracker (walked c.txTracker F H (noted c.blockTree F)) := by
        rw [walked_eq]
        refine SameDone.append _ rfl fun r hr => ?_
        obtain ⟨x, txs, rfl⟩ := marked_of_mem hr
        exact ⟨⟨by simp, rfl⟩, by simp⟩
      have hloops : (walked c.txTracker F H (noted c.blockTree F)).resubmitRetryTimers
          = c.txTracker.resubmitRetryTimers := by rw [walked_eq]
      have hguards : GuardsLoops (walked c.txTracker F H (noted c.blockTree F)) := by
        rw [walked_eq]
        exact hg.append rfl _ rfl (fun _ hr => marked_of_mem hr) (by simp)
      have hwalked := hb.same hd (by rw [walked_eq]) fun loop hl => hloops ▸ hl
      have hfor := actsFor_acts hguards hwalked hacts hfew
      exact ⟨hfor.bounded, hfor.fairStep hd⟩
  | poll node answer =>
      have hacts : Acts (Uniform h signer nonce era) .pool c.txTracker
          (c.txTracker.pollPendingPool node answer) :=
        acts_pollPendingPool hs node fun raw hraw => by subst hraw; exact he
      have hfor := actsFor_acts hg hb hacts hfew
      exact ⟨hfor.bounded, hfor.fairStep (SameDone.of_history rfl)⟩
  | retryTick x => exact bounded_retryTick hs hb x
  | settled call results =>
      obtain ⟨calls, rs, heq, hof⟩ := resubmitSettled_eq c.txTracker call results
      rw [heq] at hquiet ⊢
      refine hquiet (SameDone.append _ rfl fun r hr => ?_) rfl fun _ hl => hl
      obtain ⟨row, rfl, hres⟩ := hof r hr
      exact ⟨⟨by simp, by simp [Confirms, hres]⟩, by simp⟩
  | connections => exact hquiet (SameDone.of_history rfl) rfl fun _ hl => hl

/-- What is known of the loop of `h` in every state of a run. -/
structure LoopInv (h : Hash) (signer : Option Address) (nonce : Option Nat) (era : Option Era)
    (c : ChainContext) : Prop where
  sourced : Sourced (Uniform h signer nonce era) c.txTracker
  guards : GuardsLoops c.txTracker
  bounded : Few c.txTracker.history → Bounded h c.txTracker

theorem loopInv_init (config : ChainConfig) (opts : TxOptions) :
    LoopInv h signer nonce era (machine config opts).init where
  sourced := sourced_init _ opts
  guards := Guards.empty MAX_FINALIZED_HASHES
  bounded := fun _ => ⟨fun _ hloop => absurd hloop (by simp [machine]), fun _ => ⟨rfl, rfl⟩,
    Nat.zero_le _, Nat.zero_le 1⟩

theorem few_of_step {c : ChainContext} {e : Event} (hfew : Few (c.step e).txTracker.history) :
    Few c.txTracker.history := by
  obtain ⟨rs, hrs, -⟩ := history_step c e
  rw [hrs] at hfew
  exact hfew.of_append

theorem loopInv_step {c : ChainContext} {e : Event} (hi : LoopInv h signer nonce era c)
    (he : Supplies (Uniform h signer nonce era) c e) :
    LoopInv h signer nonce era (c.step e) where
  sourced := sourced_step hi.sourced he
  guards := guardsLoops_step hi.sourced he hi.guards
  bounded := fun hfew =>
    (bounded_step hi.sourced he hi.guards (hi.bounded (few_of_step hfew)) hfew).1

theorem few_of_prefix {config : ChainConfig} {opts : TxOptions} {pre evs : List Event}
    (hpre : pre <+: evs) (hfew : Few ((machine config opts).run evs).txTracker.history) :
    Few ((machine config opts).run pre).txTracker.history := by
  obtain ⟨post, rfl⟩ := hpre
  induction post using List.reverseRecOn with
  | nil => rwa [List.append_nil] at hfew
  | append_singleton post e ih =>
      rw [← List.append_assoc, Machine.run_snoc] at hfew
      exact ih (few_of_step hfew)

/--
**The retry lifecycle is bounded and final.**

Let a hash always come with the same signer, nonce and era, and let fewer than
`MAX_FINALIZED_HASHES` hashes be given a loop. In every run, the hash is submitted
again at most `maxResubmitRetries` times and confirmed at most once; every step
that makes an attempt does so with resubmission enabled, no hash canonical for the
signer and nonce, and the era still open; every step that confirms comes after an
attempt and finds the hash itself canonical.
-/
theorem retry_lifecycle (config : ChainConfig) (opts : TxOptions) (evs : List Event)
    (hsame : (machine config opts).Guarded (Supplies (Uniform h signer nonce era))
      (machine config opts).init evs)
    (hfew : Few ((machine config opts).run evs).txTracker.history) :
    attempts h ((machine config opts).run evs).txTracker.history ≤ opts.maxResubmitRetries ∧
      confirmations h ((machine config opts).run evs).txTracker.history ≤ 1 ∧
      ∀ pre e, pre ++ [e] <+: evs → FairStep h signer nonce era
        ((machine config opts).run pre).txTracker
        ((machine config opts).run (pre ++ [e])).txTracker := by
  have hinv : ∀ pre, (machine config opts).Guarded (Supplies (Uniform h signer nonce era))
      (machine config opts).init pre → LoopInv h signer nonce era ((machine config opts).run pre) :=
    fun pre hpre => Machine.guarded_invariant (loopInv_init config opts)
      (fun c e hc he => loopInv_step hc he) hpre
  have hall := (hinv evs hsame).bounded hfew
  have hbound := hall.bound
  rw [opts_run] at hbound
  refine ⟨hbound, hall.once, ?_⟩
  intro pre e hpre
  have hfew' := few_of_prefix hpre hfew
  obtain ⟨post, rfl⟩ := hpre
  obtain ⟨hpre, he⟩ := Machine.guarded_snoc.mp (Machine.guarded_append.mp hsame).1
  have hc := hinv pre hpre
  rw [Machine.run_snoc] at hfew' ⊢
  exact (bounded_step hc.sourced he hc.guards (hc.bounded (few_of_step hfew')) hfew').2

/-- Alice's transfer, as any body or snapshot shows it. -/
theorem uniform_transfers {n : Nat} {raw : List Extrinsic} (hraw : ∀ ext ∈ raw, ext = transfer) :
    ∀ tx ∈ extractTrackedExtrinsics raw n, Uniform "t" (some "alice") (some 0) none tx := by
  intro tx htx _
  obtain ⟨ext, hext, htx⟩ := List.mem_filterMap.mp htx
  obtain rfl := hraw ext hext
  obtain rfl := Option.some.inj htx
  exact ⟨rfl, rfl, rfl⟩

/--
The transfer leaves the pool, the third poll without it starts the loop, and the
tick after its inclusion confirms it; the next tick finds no loop.
-/
def retriedRun : List Event :=
  [.connections ["n"], .poll "n" (some [transfer]), .poll "n" (some []), .poll "n" (some []),
    .poll "n" (some [])] ++ captures smallLineage "n" "a1" [transfer] ++
    [finalizes smallLineage "n" "a1", .retryTick "t", .retryTick "t"]

theorem retry_lifecycle_retriedRun :
    attempts "t" ((machine {} { resubmitEnabled := true }).run retriedRun).txTracker.history ≤ 30 ∧
      confirmations "t"
        ((machine {} { resubmitEnabled := true }).run retriedRun).txTracker.history ≤ 1 := by
  have hsame : (machine {} { resubmitEnabled := true }).Guarded
      (Supplies (Uniform "t" (some "alice") (some 0) none))
      (machine {} { resubmitEnabled := true }).init retriedRun := by
    refine ⟨trivial, uniform_transfers (by simp), uniform_transfers (by simp),
      uniform_transfers (by simp), uniform_transfers (by simp), trivial, trivial, ?_, trivial,
      trivial, trivial, trivial⟩
    intro x n _
    exact uniform_transfers (by simp)
  have hall := retry_lifecycle {} { resubmitEnabled := true } retriedRun hsame (by decide)
  exact ⟨hall.1, hall.2.1⟩

example : attempts "t"
      ((machine {} { resubmitEnabled := true }).run retriedRun).txTracker.history = 1 ∧
    confirmations "t"
      ((machine {} { resubmitEnabled := true }).run retriedRun).txTracker.history = 1 := by
  decide

end ForkWatch.Proof
