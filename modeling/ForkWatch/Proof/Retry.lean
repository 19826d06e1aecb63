import ForkWatch.Proof.Finality

/-!
# The retry loop of one hash

Of all the tracker does, little concerns the retry loop of a given hash `h`. It is
started, it makes an attempt, it confirms the inclusion, it is dropped: `Life` is
what can be seen of it, `Move` these four moves. `Life.Sound` collects what the
moves cannot break — above all, that an attempted hash which has become canonical
is confirmed once, or will be.

The rest of the file shows that everything the tracker does is a sequence of such
moves (`Goes`), and which of its operations drop a loop.
-/

namespace ForkWatch.Proof

open Lib ChainContext TxTracker

/-! ## The lifecycle -/

/-- What can be seen of the loop of one hash. -/
structure Life where
  /-- The attempts of the running loop. -/
  loop : Option Nat
  /-- An attempt was made, by this loop or an earlier one. -/
  attempted : Bool
  /-- How often the inclusion was confirmed. -/
  confirmed : Nat

/--
One move, while `latest` is the canonical hash for signer and nonce. Under `keep`,
a loop that has made an attempt is not dropped.
-/
inductive Move (h : Hash) (latest : Option Hash) (keep : Prop) : Life → Life → Prop where
  | start (v : Life) (hv : v.loop = none) : Move h latest keep v { v with loop := some 0 }
  | attempt (v : Life) (n : Nat) (hv : v.loop = some n) (hl : latest = none) :
      Move h latest keep v { v with loop := some (n + 1), attempted := true }
  | confirm (v : Life) (n : Nat) (hv : v.loop = some n) (hn : 0 < n) (hl : latest = some h) :
      Move h latest keep v { v with loop := none, confirmed := v.confirmed + 1 }
  | drop (v : Life) (hv : keep → ∀ n, v.loop = some n → n = 0) :
      Move h latest keep v { v with loop := none }

/-- Any number of moves. -/
abbrev Moves (h : Hash) (latest : Option Hash) (keep : Prop) : Life → Life → Prop :=
  Relation.ReflTransGen (Move h latest keep)

/-- What the moves cannot break; `canonical` says that the hash has become canonical. -/
structure Life.Sound (latest : Option Hash) (canonical : Prop) (v : Life) : Prop where
  /-- The attempts of the running loop are attempts. -/
  attempted : ∀ n, v.loop = some n → 0 < n → v.attempted = true
  /-- There is one confirmation at most, and the loop that made it is gone. -/
  once : 0 < v.confirmed → latest ≠ none ∧ v.confirmed = 1 ∧ ∀ n, v.loop = some n → n = 0
  /-- A canonical hash that was attempted is confirmed, or the loop is there to do it. -/
  told : canonical → v.attempted = true → v.confirmed = 1 ∨ ∃ n, v.loop = some n ∧ 0 < n

theorem sound_move {h : Hash} {latest : Option Hash} {canonical : Prop}
    (hc : canonical → latest ≠ none) {v v' : Life} (hv : v.Sound latest canonical)
    (hm : Move h latest canonical v v') : v'.Sound latest canonical := by
  cases hm with
  | start hloop =>
      refine ⟨?_, ?_, ?_⟩
      · intro n hn hpos
        obtain rfl := Option.some.inj hn
        exact absurd hpos (by omega)
      · intro hconf
        obtain ⟨hl, hone, -⟩ := hv.once hconf
        exact ⟨hl, hone, fun n hn => (Option.some.inj hn).symm⟩
      · intro hcan hatt
        rcases hv.told hcan hatt with hone | ⟨n, hn, -⟩
        · exact Or.inl hone
        · rw [hloop] at hn
          exact absurd hn (by simp)
  | attempt n hloop hl =>
      refine ⟨fun _ _ _ => rfl, ?_, ?_⟩
      · intro hconf
        exact absurd hl (hv.once hconf).1
      · intro hcan _
        exact absurd hl (hc hcan)
  | confirm n hloop hpos hl =>
      -- an earlier confirmation would have left a loop without attempts
      have hfirst : v.confirmed = 0 := by
        by_contra hne
        have hzero := (hv.once (by omega)).2.2 n hloop
        omega
      refine ⟨?_, ?_, ?_⟩
      · intro m hm
        exact absurd hm (by simp)
      · intro _
        exact ⟨by rw [hl]; simp, by dsimp only; omega, fun m hm => absurd hm (by simp)⟩
      · intro _ _
        exact Or.inl (by dsimp only; omega)
  | drop hkeep =>
      refine ⟨?_, ?_, ?_⟩
      · intro n hn
        exact absurd hn (by simp)
      · intro hconf
        obtain ⟨hl, hone, -⟩ := hv.once hconf
        exact ⟨hl, hone, fun n hn => absurd hn (by simp)⟩
      · intro hcan hatt
        rcases hv.told hcan hatt with hone | ⟨n, hn, hpos⟩
        · exact Or.inl hone
        · have hzero := hkeep hcan n hn
          omega

theorem sound_moves {h : Hash} {latest : Option Hash} {canonical : Prop}
    (hc : canonical → latest ≠ none) {v v' : Life} (hv : v.Sound latest canonical)
    (hm : Moves h latest canonical v v') : v'.Sound latest canonical := by
  induction hm with
  | refl => exact hv
  | tail _ hm ih => exact sound_move hc ih hm

/-! ## What can be seen in the tracker -/

/-- The report is a confirmed resubmission of `h`. -/
def Confirms (h : Hash) : TxReport → Bool
  | .resubmitAttempt row => row.hash = h && row.result = .confirmed
  | _ => false

/-- How often the inclusion of `h` was confirmed. -/
def confirmations (h : Hash) (rs : List TxReport) : Nat := rs.countP (Confirms h)

/-- The loop of `h` in the tracker. -/
def lifeOf (h : Hash) (t : TxTracker) : Life where
  loop := (t.resubmitRetryTimers.get? h).map RetryLoop.attempts
  attempted := decide (.attempted h ∈ t.history)
  confirmed := confirmations h t.history

/-- Neither an attempt for `h` nor a confirmation of it. -/
def Silent (h : Hash) (r : TxReport) : Prop := r ≠ .attempted h ∧ Confirms h r = false

theorem confirmations_append (h : Hash) (rs rs' : List TxReport) :
    confirmations h (rs ++ rs') = confirmations h rs + confirmations h rs' :=
  List.countP_append

theorem lifeOf_eq {h : Hash} {t t' : TxTracker} (rs : List TxReport)
    (htimers : t'.resubmitRetryTimers.get? h = t.resubmitRetryTimers.get? h)
    (hrs : t'.history = t.history ++ rs) (hsilent : ∀ r ∈ rs, Silent h r) :
    lifeOf h t' = lifeOf h t := by
  have hnone : confirmations h rs = 0 :=
    List.countP_eq_zero.mpr fun r hr => by rw [(hsilent r hr).2]; simp
  have hatt : .attempted h ∉ rs := fun hm => (hsilent _ hm).1 rfl
  unfold lifeOf
  rw [htimers, hrs, confirmations_append, hnone]
  simp [hatt]

theorem silent_of_ofTick {h : Hash} {record : RetryRecord} (hne : record.hash ≠ h) {r : TxReport}
    (hr : OfTick record r) : Silent h r := by
  cases r with
  | attempted h' =>
      have hh : h' = record.hash := hr
      exact ⟨by rw [hh]; simpa using hne, rfl⟩
  | resubmitAttempt row =>
      have hh : row.hash = record.hash := hr
      exact ⟨by simp, by simp [Confirms, hh, hne]⟩
  | _ => exact absurd hr id

/-- In every record of this hash, signer and nonce are these. -/
def NamesHash (h : Hash) (s : Address) (k : Nat) (tx : Tx) : Prop :=
  tx.hash = h → tx.signer = some s ∧ tx.nonce = some k

/-- Loops, pool and candidates are filed under their own hashes, and `h` names `s` and `k`. -/
structure Keyed (h : Hash) (s : Address) (k : Nat) (t : TxTracker) : Prop where
  timers : ∀ x loop, t.resubmitRetryTimers.get? x = some loop →
    loop.record.hash = x ∧ NamesHash h s k loop.record.toTx
  pool : ∀ x tx, t.pendingPool.get? x = some tx → tx.hash = x ∧ NamesHash h s k tx
  candidates : ∀ x cand, t.missingCandidates.get? x = some cand →
    cand.hash = x ∧ NamesHash h s k cand.toTx

/-- The canonical hash for a signer and a nonce. -/
def latestHash (s : Address) (k : Nat) (t : TxTracker) : Option Hash :=
  (t.latestBySignerNonce.get? (s, k)).map Inclusion.hash

/-- Bodies and inclusions are kept, and for the loop of `h` there were moves only. -/
structure Goes (h : Hash) (s : Address) (k : Nat) (keep : Prop) (t t' : TxTracker) : Prop where
  blockExtrinsics : t'.blockExtrinsics = t.blockExtrinsics
  latest : t'.latestBySignerNonce = t.latestBySignerNonce
  keyed : Keyed h s k t → Keyed h s k t'
  moves : Keyed h s k t → Moves h (latestHash s k t) keep (lifeOf h t) (lifeOf h t')

variable {h : Hash} {s : Address} {k : Nat} {keep : Prop}

theorem Goes.refl (t : TxTracker) : Goes h s k keep t t where
  blockExtrinsics := rfl
  latest := rfl
  keyed := id
  moves := fun _ => Relation.ReflTransGen.refl

theorem Goes.trans {t t' t'' : TxTracker} (h₁ : Goes h s k keep t t')
    (h₂ : Goes h s k keep t' t'') : Goes h s k keep t t'' where
  blockExtrinsics := h₂.blockExtrinsics.trans h₁.blockExtrinsics
  latest := h₂.latest.trans h₁.latest
  keyed := fun hk => h₂.keyed (h₁.keyed hk)
  moves := by
    intro hk
    have hsame : latestHash s k t' = latestHash s k t := by
      unfold latestHash
      rw [h₁.latest]
    have hsecond := h₂.moves (h₁.keyed hk)
    rw [hsame] at hsecond
    exact (h₁.moves hk).trans hsecond

theorem goes_foldl {α : Type} {f : TxTracker → α → TxTracker} {l : List α} {t : TxTracker}
    (hf : ∀ u, Goes h s k keep t u → ∀ a ∈ l, Goes h s k keep u (f u a)) :
    Goes h s k keep t (l.foldl f t) :=
  List.foldlRecOn l f (Goes.refl t) fun u hu a ha => hu.trans (hf u hu a ha)

theorem moves_of_still {latest : Option Hash} {t t' : TxTracker} (rs : List TxReport)
    (htimers : t'.resubmitRetryTimers.get? h = t.resubmitRetryTimers.get? h)
    (hrs : t'.history = t.history ++ rs) (hsilent : ∀ r ∈ rs, Silent h r) :
    Moves h latest keep (lifeOf h t) (lifeOf h t') := by
  rw [lifeOf_eq rs htimers hrs hsilent]

/-- What leaves the loop of `h` alone. -/
theorem goes_of_still {t t' : TxTracker} (rs : List TxReport)
    (hbodies : t'.blockExtrinsics = t.blockExtrinsics)
    (hlatest : t'.latestBySignerNonce = t.latestBySignerNonce)
    (hkeyed : Keyed h s k t → Keyed h s k t')
    (htimers : t'.resubmitRetryTimers.get? h = t.resubmitRetryTimers.get? h)
    (hrs : t'.history = t.history ++ rs) (hsilent : ∀ r ∈ rs, Silent h r) :
    Goes h s k keep t t' where
  blockExtrinsics := hbodies
  latest := hlatest
  keyed := hkeyed
  moves := fun _ => moves_of_still rs htimers hrs hsilent

/-! ## Ticks -/

theorem keyed_tick {t : TxTracker} (hk : Keyed h s k t) (record : RetryRecord) (n : Nat) :
    Keyed h s k (t.tick record n).1 := by
  obtain ⟨hpool, hcand, htimers⟩ := tick_frame t record n
  refine ⟨?_, by rw [hpool]; exact hk.pool, by rw [hcand]; exact hk.candidates⟩
  intro x loop hx
  rcases htimers with heq | heq
  · rw [heq] at hx
    exact hk.timers x loop hx
  · rw [heq, OrdMap.get?_erase] at hx
    split at hx
    · exact absurd hx (by simp)
    · exact hk.timers x loop hx

/-- The signer and nonce of a record of `h` are looked up under `s` and `k`. -/
theorem latestFor_of_names {t : TxTracker} {record : Tx} (hn : NamesHash h s k record)
    (hh : record.hash = h) :
    (t.latestFor record.signer record.nonce).map Inclusion.hash = latestHash s k t := by
  obtain ⟨hs, hk⟩ := hn hh
  rw [hs, hk]
  rfl

/-! ## What each write does to the loop of `h` -/

theorem lifeOf_resubmitOnce {t : TxTracker} {record : RetryRecord} (hh : record.hash = h) :
    lifeOf h (t.resubmitOnce record) = { lifeOf h t with attempted := true } := by
  obtain ⟨htimers, -, -, rs, hrs, hfailed⟩ := resubmitOnce_spec t record
  have hnone : confirmations h (.attempted record.hash :: rs) = 0 := by
    refine List.countP_eq_zero.mpr fun r hr => ?_
    rcases List.mem_cons.mp hr with rfl | hr
    · simp [Confirms]
    · obtain ⟨row, rfl, hres⟩ := hfailed r hr
      simp [Confirms, hres]
  unfold lifeOf
  rw [htimers, hrs, confirmations_append, hnone]
  simp [hh]

theorem lifeOf_confirmed {t : TxTracker} {record : RetryRecord} (hh : record.hash = h) :
    lifeOf h (t.recordConfirmedInclusion record)
      = { lifeOf h t with confirmed := (lifeOf h t).confirmed + 1 } := by
  unfold lifeOf recordConfirmedInclusion emit
  dsimp only
  rw [confirmations_append]
  simp [confirmations, Confirms, resubmitRow, hh]

theorem lifeOf_stop (t : TxTracker) (h : Hash) :
    lifeOf h (t.stopResubmitRetry h) = { lifeOf h t with loop := none } := by
  unfold lifeOf stopResubmitRetry
  dsimp only
  rw [OrdMap.get?_erase, if_pos rfl]
  rfl

theorem lifeOf_set (t : TxTracker) (h : Hash) (loop : RetryLoop) :
    lifeOf h { t with resubmitRetryTimers := t.resubmitRetryTimers.set h loop }
      = { lifeOf h t with loop := some loop.attempts } := by
  unfold lifeOf
  dsimp only
  rw [OrdMap.get?_set_self]
  rfl

/-- The attempt counter of a loop is written back, if the loop is still there. -/
theorem lifeOf_modify (t : TxTracker) (h : Hash) (n : Nat) :
    lifeOf h { t with
        resubmitRetryTimers := t.resubmitRetryTimers.modify h (fun l => { l with attempts := n }) }
      = { lifeOf h t with loop := (lifeOf h t).loop.map fun _ => n } := by
  unfold lifeOf
  dsimp only
  rw [OrdMap.get?_modify, if_pos rfl, Option.map_map, Option.map_map]
  rfl

/-! ## Loops start and tick -/

/-- **Starting a loop.** -/
theorem goes_startResubmitRetry {t : TxTracker} {record : RetryRecord}
    (hn : NamesHash h s k record.toTx) : Goes h s k keep t (t.startResubmitRetry record) := by
  unfold startResubmitRetry
  split
  · rename_i hmay
    have hfree : t.resubmitRetryTimers.get? record.hash = none := by
      unfold mayRetry at hmay
      simp only [Bool.and_eq_true, Bool.not_eq_true'] at hmay
      exact OrdMap.has_eq_false_iff.mp hmay.1.2
    dsimp only
    -- the guard set plays no part in the life of a loop
    generalize (if MAX_FINALIZED_HASHES ≤ t.everRetried.size then ∅ else t.everRetried).add
      record.hash = ever
    have hopen : Goes h s k keep t
        (TxTracker.emit { t with everRetried := ever } (.loopStarted record)) :=
      goes_of_still [.loopStarted record] rfl rfl (fun hk => ⟨hk.timers, hk.pool,
        hk.candidates⟩) rfl rfl (by simp [Silent, Confirms])
    refine hopen.trans ?_
    have hfree' : (TxTracker.emit { t with everRetried := ever }
        (.loopStarted record)).resubmitRetryTimers.get? record.hash = none := hfree
    generalize TxTracker.emit { t with everRetried := ever } (.loopStarted record) = u at hfree' ⊢
    have hkept := kept_tick u record 0
    refine ⟨hkept.blockExtrinsics, hkept.latestBySignerNonce, ?_, ?_⟩
    · intro hk
      have hk' := keyed_tick hk record 0
      refine ⟨?_, hk'.pool, hk'.candidates⟩
      intro x loop hx
      rw [OrdMap.get?_set] at hx
      split at hx
      · rename_i hxr
        obtain rfl := Option.some.inj hx
        exact ⟨hxr.symm, hn⟩
      · exact hk'.timers x loop hx
    · intro hk
      by_cases hh : record.hash = h
      -- the timer is registered after the tick, so the move starts from no loop
      · have hloop : (lifeOf h u).loop = none := by
          unfold lifeOf
          rw [← hh, hfree']
          rfl
        have hstart : Moves h (latestHash s k u) keep (lifeOf h u)
            { lifeOf h u with loop := some 0 } :=
          Relation.ReflTransGen.single (Move.start _ hloop)
        rw [hh, lifeOf_set]
        rcases tick_cases u record 0 with ⟨heq, -⟩ | ⟨-, hpos, -⟩ | ⟨heq, -⟩ | ⟨heq, hl, -⟩
        · -- the tick wanted to stop, but the timer is registered all the same
          rw [heq, hh, lifeOf_stop]
          exact hstart
        · exact absurd hpos (by omega)
        · rw [heq]
          exact hstart
        · have hnone : latestHash s k u = none := by
            rw [← latestFor_of_names hn hh, hl]
            rfl
          rw [heq, lifeOf_resubmitOnce hh]
          exact hstart.tail (Move.attempt _ 0 rfl hnone)
      -- a loop of another hash
      · obtain ⟨rs, hrs, hof⟩ := hkept.history
        refine moves_of_still rs ?_ hrs fun r hr => silent_of_ofTick hh (hof r hr)
        dsimp only
        rw [OrdMap.get?_set_ne _ _ fun e => hh e.symm]
        exact get?_tick_ne u record 0 hh
  · exact Goes.refl t

/-- **A timer fires.** An attempted loop may only end on its own, with its hash canonical. -/
theorem goes_retryTick {t : TxTracker} {x : Hash}
    (hg : x = h → keep → ∀ loop, t.resubmitRetryTimers.get? h = some loop → 0 < loop.attempts →
      latestHash s k t = some h) : Goes h s k keep t (t.retryTick x) := by
  unfold retryTick
  cases hx : t.resubmitRetryTimers.get? x with
  | none => exact Goes.refl t
  | some loop =>
      dsimp only
      have hkept := kept_tick t loop.record loop.attempts
      refine ⟨hkept.blockExtrinsics, hkept.latestBySignerNonce, ?_, ?_⟩
      · intro hk
        have hk' := keyed_tick hk loop.record loop.attempts
        refine ⟨?_, hk'.pool, hk'.candidates⟩
        intro y l hy
        rw [OrdMap.get?_modify] at hy
        split at hy
        · obtain ⟨l₀, hl₀, rfl⟩ := Option.map_eq_some_iff.mp hy
          exact hk'.timers y l₀ hl₀
        · exact hk'.timers y l hy
      · intro hk
        obtain ⟨hhash, hnames⟩ := hk.timers x loop hx
        by_cases hxh : x = h
        · subst hxh
          have hloop : (lifeOf x t).loop = some loop.attempts := by
            unfold lifeOf
            rw [hx]
            rfl
          have hlatest := latestFor_of_names (t := t) hnames hhash
          rw [lifeOf_modify]
          rcases tick_cases t loop.record loop.attempts with ⟨heq, hstop⟩ | ⟨heq, hpos, hl⟩ |
            ⟨heq, -⟩ | ⟨heq, hl, -⟩
          · rw [heq, hhash, lifeOf_stop]
            refine Relation.ReflTransGen.single (Move.drop _ fun hkeep n hn => ?_)
            rw [hloop] at hn
            obtain rfl := Option.some.inj hn
            rcases hstop with hzero | hother
            · exact hzero
            · -- an attempted loop goes on until its hash is canonical
              by_contra hne
              rw [hlatest, hhash] at hother
              exact hother (hg rfl hkeep loop hx (by omega))
          · rw [heq, hhash, lifeOf_stop, lifeOf_confirmed hhash]
            rw [hlatest, hhash] at hl
            exact Relation.ReflTransGen.single (Move.confirm _ loop.attempts hloop hpos hl)
          · rw [heq, hloop, Option.map_some, ← hloop]
          · have hnone : latestHash s k t = none := by
              rw [← hlatest, hl]
              rfl
            rw [heq, lifeOf_resubmitOnce hhash]
            dsimp only
            rw [hloop]
            exact Relation.ReflTransGen.single (Move.attempt _ loop.attempts hloop hnone)
        · obtain ⟨rs, hrs, hof⟩ := hkept.history
          have hne : loop.record.hash ≠ h := fun e => hxh (hhash.symm.trans e)
          refine moves_of_still rs ?_ hrs fun r hr => silent_of_ofTick hne (hof r hr)
          dsimp only
          rw [OrdMap.get?_modify, if_neg fun e => hxh e.symm]
          exact get?_tick_ne t loop.record loop.attempts hne

/-- **A loop is torn down.** -/
theorem goes_stopResubmitRetry {t : TxTracker} {x : Hash}
    (hg : x = h → keep → ∀ loop, t.resubmitRetryTimers.get? h = some loop → loop.attempts = 0) :
    Goes h s k keep t (t.stopResubmitRetry x) where
  blockExtrinsics := rfl
  latest := rfl
  keyed := by
    intro hk
    refine ⟨?_, hk.pool, hk.candidates⟩
    intro y loop hy
    unfold stopResubmitRetry at hy
    dsimp only at hy
    rw [OrdMap.get?_erase] at hy
    split at hy
    · exact absurd hy (by simp)
    · exact hk.timers y loop hy
  moves := by
    intro _
    by_cases hxh : x = h
    · subst hxh
      rw [lifeOf_stop]
      refine Relation.ReflTransGen.single (Move.drop _ fun hkeep n hn => ?_)
      obtain ⟨loop, hloop, rfl⟩ := Option.map_eq_some_iff.mp hn
      exact hg rfl hkeep loop hloop
    · refine moves_of_still [] ?_ (by simp [stopResubmitRetry]) (by simp)
      unfold stopResubmitRetry
      dsimp only
      rw [OrdMap.get?_erase, if_neg fun e => hxh e.symm]

end ForkWatch.Proof
