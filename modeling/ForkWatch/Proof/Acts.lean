import ForkWatch.Lib.GuardSet
import ForkWatch.Proof.Finality

/-!
# The acts of the transaction tracker

A poll and the review of a finality notification are long, but all they do is a
sequence of a few acts: the pool and the candidates are written, or the review
queue; a retry loop is started or stopped; an incident is told. `Act` lists them,
each with the side it belongs to and what the code has checked by then, and
`TrackerStep` says what an event comes to. What every act preserves, a poll and a
review preserve.

`N` is what is known of every transaction that comes in with a body or a pool
snapshot; `Sourced` says that the tracker knows no other ones.
-/

namespace ForkWatch.Proof

open Lib ChainContext TxTracker

/-! ## What the tracker knows of -/

/-- Every record is filed under its own hash, and satisfies `N`. -/
def Filed {α : Type} (N : Tx → Prop) (tx : α → Tx) (m : OrdMap Hash α) : Prop :=
  ∀ x v, m.get? x = some v → (tx v).hash = x ∧ N (tx v)

section Filed

variable {α : Type} {N : Tx → Prop} {tx : α → Tx} {m : OrdMap Hash α}

theorem filed_empty : Filed N tx (∅ : OrdMap Hash α) := fun _ _ hv => absurd hv (by simp)

theorem Filed.set (h : Filed N tx m) {x : Hash} {v : α} (hx : (tx v).hash = x) (hN : N (tx v)) :
    Filed N tx (m.set x v) := by
  intro y w hw
  rw [OrdMap.get?_set] at hw
  split at hw
  · rename_i hyx
    obtain rfl := Option.some.inj hw
    exact ⟨hx.trans hyx.symm, hN⟩
  · exact h y w hw

theorem Filed.erase (h : Filed N tx m) (x : Hash) : Filed N tx (m.erase x) := by
  intro y w hw
  rw [OrdMap.get?_erase] at hw
  split at hw
  · exact absurd hw (by simp)
  · exact h y w hw

theorem Filed.filter (h : Filed N tx m) (p : Hash → α → Bool) : Filed N tx (m.filter p) := by
  intro y w hw
  rw [OrdMap.get?_filter, Option.filter_eq_some_iff] at hw
  exact h y w hw.1

/-- A change that leaves the transaction itself alone. -/
theorem Filed.modify (h : Filed N tx m) (x : Hash) {f : α → α}
    (hf : ∀ v, m.get? x = some v → tx (f v) = tx v) : Filed N tx (m.modify x f) := by
  intro y w hw
  rw [OrdMap.get?_modify] at hw
  split at hw
  · rename_i hyx
    obtain ⟨v, hv, rfl⟩ := Option.map_eq_some_iff.mp hw
    rw [hf v (hyx ▸ hv)]
    exact h y v hv
  · exact h y w hw

end Filed

/-- Bodies, queue, pool, candidates and loops hold transactions with `N` only. -/
structure Sourced (N : Tx → Prop) (t : TxTracker) : Prop where
  bodies : ∀ x captured, t.blockExtrinsics.get? x = some captured →
    ∀ tx ∈ captured.extrinsics, N tx
  queue : ∀ e ∈ t.pendingReorgReview, N e.toTx
  pool : Filed N id t.pendingPool
  candidates : Filed N Candidate.toTx t.missingCandidates
  loops : Filed N (fun loop => loop.record.toTx) t.resubmitRetryTimers

theorem sourced_init (N : Tx → Prop) (opts : TxOptions) : Sourced N { opts } where
  bodies := fun _ _ hx => absurd hx (by simp)
  queue := fun _ he => absurd he (by simp)
  pool := filed_empty
  candidates := filed_empty
  loops := filed_empty

/-! ## Acts -/

/-- The two sources of the tracker. -/
inductive Side where
  | pool
  | review

/-- What the code has checked when it tells an incident. -/
structure Incident (side : Side) (t : TxTracker) (tx : Tx) (status : TxStatus)
    (extra : FinalizeExtra) : Prop where
  /-- The pool's incidents have no height, and concern hashes that no captured body contains. -/
  unseen : side = .pool → extra.lostAtHeight = none ∧ t.includedHashes.has tx.hash = false
  kind : side = .pool → status = .dropped ∨ status = .expired ∨ status = .resubmitted
  lost : side = .review → extra.lostAtHeight ≠ none
  expired : status = .expired → t.isExpired tx = true
  /-- A resubmission is linked to the hash that is canonical now. -/
  linked : status = .resubmitted ∨ status = .reorgedResubmitted →
    ∃ latest, t.findResubmission tx tx.hash = some latest ∧
      extra.replacedBy = some latest.hash ∧ extra.resolvedHeight = some latest.blockNumber

/-- An incident is told expired only where the record is. -/
theorem expired_of_status {expired : Bool} {other : TxStatus} (hother : other ≠ .expired)
    (h : (if expired then TxStatus.expired else other) = .expired) : expired = true := by
  cases expired with
  | true => rfl
  | false => exact absurd h hother

/-- One act. -/
inductive Act (N : Tx → Prop) : Side → TxTracker → TxTracker → Prop where
  | writePool (t : TxTracker) (pool : OrdMap Hash Tx) (candidates : OrdMap Hash Candidate)
      (unsupported : OrdSet NodeName)
      (hs : Sourced N { t with pendingPool := pool, missingCandidates := candidates }) :
      Act N .pool t { t with
        pendingPool := pool, missingCandidates := candidates, unsupportedNodes := unsupported }
  | writeQueue (t : TxTracker) (queue : List ReorgEntry) (processed : OrdSet Nat)
      (hs : Sourced N { t with pendingReorgReview := queue }) :
      Act N .review t { t with pendingReorgReview := queue, processedForkHeights := processed }
  | queued (t : TxTracker) (entry : ReorgEntry) (H : Hash) :
      Act N .review t (t.emit (.queued entry H))
  | start (side : Side) (t : TxTracker) (record : RetryRecord) (hN : N record.toTx)
      (hdrop : record.trigger = .mempoolDrop → t.includedHashes.has record.hash = false) :
      Act N side t (t.startResubmitRetry record)
  | stop (t : TxTracker) (x : Hash) : Act N .pool t (t.stopResubmitRetry x)
  | tell (side : Side) (t : TxTracker) (tx : Tx) (status : TxStatus) (extra : FinalizeExtra)
      (hN : N tx) (hi : Incident side t tx status extra) :
      Act N side t (t.finalize tx tx.hash status extra)

/-- Any number of acts of one side. -/
abbrev Acts (N : Tx → Prop) (side : Side) : TxTracker → TxTracker → Prop :=
  Relation.ReflTransGen (Act N side)

variable {N : Tx → Prop} {side : Side}

/-- **What every act preserves, any number of them preserves.** -/
theorem Acts.preserves {I : TxTracker → Prop} (hI : ∀ t t', I t → Act N side t t' → I t')
    {t t' : TxTracker} (h : Acts N side t t') (ht : I t) : I t' := by
  induction h with
  | refl => exact ht
  | tail _ hact ih => exact hI _ _ ih hact

theorem acts_foldl {α : Type} {f : TxTracker → α → TxTracker} {l : List α} {t : TxTracker}
    (hf : ∀ u, Acts N side t u → ∀ a ∈ l, Acts N side u (f u a)) : Acts N side t (l.foldl f t) :=
  List.foldlRecOn l f Relation.ReflTransGen.refl fun u hu a ha => hu.trans (hf u hu a ha)

/-! ## What each act is made of -/

/-- A tick touches the loops and the open calls, and speaks of its record only. -/
theorem tick_eq (t : TxTracker) (record : RetryRecord) (n : Nat) :
    ∃ timers calls rs, (t.tick record n).1 = { t with
      resubmitRetryTimers := timers, resubmitting := calls, history := t.history ++ rs } ∧
      ∀ r ∈ rs, OfTick record r := by
  obtain ⟨rs, hrs, hof⟩ := (kept_tick t record n).history
  have hsame : ∃ timers calls history, (t.tick record n).1 = { t with
      resubmitRetryTimers := timers, resubmitting := calls, history } := by
    rcases tick_cases t record n with ⟨heq, -⟩ | ⟨heq, -⟩ | ⟨heq, -⟩ | ⟨heq, -⟩
    · rw [heq]
      exact ⟨_, _, _, rfl⟩
    · rw [heq]
      exact ⟨_, _, _, rfl⟩
    · rw [heq]
      exact ⟨_, _, _, rfl⟩
    · rw [heq]
      unfold resubmitOnce
      dsimp only
      split
      · exact ⟨_, _, _, rfl⟩
      · exact ⟨_, _, _, rfl⟩
  obtain ⟨timers, calls, history, heq⟩ := hsame
  refine ⟨timers, calls, rs, ?_, hof⟩
  rw [heq] at hrs ⊢
  rw [← hrs]

/-- The tracker when a loop has just been opened, before its first tick. -/
def opened (t : TxTracker) (record : RetryRecord) : TxTracker :=
  { t with
    everRetried := remember MAX_FINALIZED_HASHES t.everRetried record.hash
    history := t.history ++ [.loopStarted record] }

/-- **Starting a loop**: it is opened, ticks once, and its timer is registered. -/
theorem startResubmitRetry_cases (t : TxTracker) (record : RetryRecord) :
    (t.mayRetry record = false ∧ t.startResubmitRetry record = t) ∨
    (t.mayRetry record = true ∧ t.startResubmitRetry record
      = { ((opened t record).tick record 0).1 with
          resubmitRetryTimers := ((opened t record).tick record 0).1.resubmitRetryTimers.set
            record.hash ⟨record, ((opened t record).tick record 0).2⟩ }) := by
  unfold startResubmitRetry
  split
  · rename_i hmay
    exact Or.inr ⟨hmay, rfl⟩
  · rename_i hmay
    exact Or.inl ⟨Bool.eq_false_iff.mpr hmay, rfl⟩

theorem startResubmitRetry_eq (t : TxTracker) (record : RetryRecord) :
    ∃ timers ever calls rs, t.startResubmitRetry record = { t with
      resubmitRetryTimers := timers, everRetried := ever, resubmitting := calls,
      history := t.history ++ rs } ∧ ∀ r ∈ rs, ForRecord record r := by
  rcases startResubmitRetry_cases t record with ⟨-, heq⟩ | ⟨-, heq⟩
  · exact ⟨t.resubmitRetryTimers, t.everRetried, t.resubmitting, [],
      by rw [heq, List.append_nil], by simp⟩
  · obtain ⟨timers, calls, rs, htick, hof⟩ := tick_eq (opened t record) record 0
    have hrs : ∀ r ∈ .loopStarted record :: rs, ForRecord record r := by
      intro r hr
      rcases List.mem_cons.mp hr with rfl | hr
      · rfl
      · exact (hof r hr).forRecord
    have hhist : (opened t record).history ++ rs = t.history ++ .loopStarted record :: rs :=
      List.append_assoc ..
    rw [heq, htick]
    dsimp only
    rw [hhist]
    exact ⟨_, _, calls, .loopStarted record :: rs, rfl, hrs⟩

/-- The row of an incident. -/
def incidentRow (t : TxTracker) (tx : Tx) (status : TxStatus) (extra : FinalizeExtra) :
    SubmittedTx where
  signer := tx.signer
  nonce := tx.nonce
  kind := tx.kind
  pallet := tx.pallet
  method := tx.method
  status := status
  firstHash := tx.hash
  lastHash := extra.replacedBy.getD tx.hash
  attempts := t.finalAttempts tx tx.hash status extra
  lostAtHeight := extra.lostAtHeight
  lostAtHash := extra.lostAtHash
  resolvedHash := extra.replacedBy
  resolvedHeight := extra.resolvedHeight

/-- **Telling an incident**: nothing happens to a hash the guard set remembers. -/
theorem finalize_cases (t : TxTracker) (tx : Tx) (status : TxStatus) (extra : FinalizeExtra) :
    (t.finalizedHashes.has tx.hash = true ∧ t.finalize tx tx.hash status extra = t) ∨
    (t.finalizedHashes.has tx.hash = false ∧ t.finalize tx tx.hash status extra = { t with
      finalizedHashes := remember MAX_FINALIZED_HASHES t.finalizedHashes tx.hash
      history := t.history ++ [.submitted (incidentRow t tx status extra)] }) := by
  unfold finalize
  split
  · rename_i hin
    exact Or.inl ⟨hin, rfl⟩
  · rename_i hout
    exact Or.inr ⟨by simpa using hout, rfl⟩

/-- What no act changes. -/
structure SameGround (t t' : TxTracker) : Prop where
  opts : t'.opts = t.opts
  connected : t'.connected = t.connected
  blockExtrinsics : t'.blockExtrinsics = t.blockExtrinsics
  lastCanonicalWalkHeight : t'.lastCanonicalWalkHeight = t.lastCanonicalWalkHeight
  lastKnownHeight : t'.lastKnownHeight = t.lastKnownHeight
  latestBySignerNonce : t'.latestBySignerNonce = t.latestBySignerNonce
  includedHashes : t'.includedHashes = t.includedHashes

theorem SameGround.refl (t : TxTracker) : SameGround t t := ⟨rfl, rfl, rfl, rfl, rfl, rfl, rfl⟩

theorem SameGround.trans {t t' t'' : TxTracker} (h : SameGround t t') (h' : SameGround t' t'') :
    SameGround t t'' where
  opts := h'.opts.trans h.opts
  connected := h'.connected.trans h.connected
  blockExtrinsics := h'.blockExtrinsics.trans h.blockExtrinsics
  lastCanonicalWalkHeight := h'.lastCanonicalWalkHeight.trans h.lastCanonicalWalkHeight
  lastKnownHeight := h'.lastKnownHeight.trans h.lastKnownHeight
  latestBySignerNonce := h'.latestBySignerNonce.trans h.latestBySignerNonce
  includedHashes := h'.includedHashes.trans h.includedHashes

theorem Act.sameGround {t t' : TxTracker} (h : Act N side t t') : SameGround t t' := by
  cases h with
  | writePool => exact ⟨rfl, rfl, rfl, rfl, rfl, rfl, rfl⟩
  | writeQueue => exact ⟨rfl, rfl, rfl, rfl, rfl, rfl, rfl⟩
  | queued => exact ⟨rfl, rfl, rfl, rfl, rfl, rfl, rfl⟩
  | start _ _ record =>
      obtain ⟨timers, ever, calls, rs, heq, -⟩ := startResubmitRetry_eq t record
      rw [heq]
      exact ⟨rfl, rfl, rfl, rfl, rfl, rfl, rfl⟩
  | stop => exact ⟨rfl, rfl, rfl, rfl, rfl, rfl, rfl⟩
  | tell _ _ tx status extra =>
      rcases finalize_cases t tx status extra with ⟨-, heq⟩ | ⟨-, heq⟩
      · rw [heq]
        exact SameGround.refl t
      · rw [heq]
        exact ⟨rfl, rfl, rfl, rfl, rfl, rfl, rfl⟩

theorem Acts.sameGround {t t' : TxTracker} (h : Acts N side t t') : SameGround t t' :=
  h.preserves (fun _ _ hu hact => hu.trans hact.sameGround) (SameGround.refl t)

theorem SameGround.latestFor {t t' : TxTracker} (h : SameGround t t') :
    t'.latestFor = t.latestFor := by
  funext signer nonce
  unfold TxTracker.latestFor
  rw [h.latestBySignerNonce]

/-- The loops after a tick hold no record they did not hold before. -/
theorem loops_tick {t : TxTracker} (h : Filed N (fun loop => loop.record.toTx)
    t.resubmitRetryTimers) (record : RetryRecord) (n : Nat) :
    Filed N (fun loop => loop.record.toTx) (t.tick record n).1.resubmitRetryTimers := by
  rcases (tick_frame t record n).2.2 with heq | heq
  · rw [heq]
    exact h
  · rw [heq]
    exact h.erase record.hash

theorem sourced_start {t : TxTracker} (h : Sourced N t) {record : RetryRecord}
    (hN : N record.toTx) : Sourced N (t.startResubmitRetry record) := by
  have hloops : Filed N (fun loop => loop.record.toTx)
      (t.startResubmitRetry record).resubmitRetryTimers := by
    rcases startResubmitRetry_cases t record with ⟨-, heq⟩ | ⟨-, heq⟩
    · rw [heq]
      exact h.loops
    · have hopened : Filed N (fun loop => loop.record.toTx)
          (opened t record).resubmitRetryTimers := h.loops
      rw [heq]
      exact (loops_tick hopened record 0).set rfl hN
  obtain ⟨timers, ever, calls, rs, heq, -⟩ := startResubmitRetry_eq t record
  rw [heq] at hloops ⊢
  exact ⟨h.bodies, h.queue, h.pool, h.candidates, hloops⟩

theorem Act.sourced {t t' : TxTracker} (h : Sourced N t) (hact : Act N side t t') :
    Sourced N t' := by
  cases hact with
  | writePool _ _ _ _ hs => exact ⟨hs.bodies, hs.queue, hs.pool, hs.candidates, hs.loops⟩
  | writeQueue _ _ _ hs => exact ⟨hs.bodies, hs.queue, hs.pool, hs.candidates, hs.loops⟩
  | queued => exact ⟨h.bodies, h.queue, h.pool, h.candidates, h.loops⟩
  | start _ _ record hN => exact sourced_start h hN
  | stop _ x => exact ⟨h.bodies, h.queue, h.pool, h.candidates, h.loops.erase x⟩
  | tell _ _ tx status extra =>
      rcases finalize_cases t tx status extra with ⟨-, heq⟩ | ⟨-, heq⟩
      · rw [heq]
        exact h
      · rw [heq]
        exact ⟨h.bodies, h.queue, h.pool, h.candidates, h.loops⟩

/-- The review leaves the pool's books alone. -/
theorem Acts.pool_eq {t t' : TxTracker} (h : Acts N .review t t') :
    t'.pendingPool = t.pendingPool ∧ t'.missingCandidates = t.missingCandidates := by
  refine h.preserves (I := fun u => u.pendingPool = t.pendingPool ∧
    u.missingCandidates = t.missingCandidates) ?_ ⟨rfl, rfl⟩
  intro u u' hu hact
  cases hact with
  | writeQueue => exact hu
  | queued => exact hu
  | start _ _ record =>
      obtain ⟨timers, ever, calls, rs, heq, -⟩ := startResubmitRetry_eq u record
      rw [heq]
      exact hu
  | tell _ _ tx status extra =>
      rcases finalize_cases u tx status extra with ⟨-, heq⟩ | ⟨-, heq⟩
      · rw [heq]
        exact hu
      · rw [heq]
        exact hu

theorem Acts.sourced {t t' : TxTracker} (h : Acts N side t t') (ht : Sourced N t) : Sourced N t' :=
  h.preserves (fun _ _ hu hact => hact.sourced hu) ht

/-! ## A poll is a sequence of acts -/

theorem acts_pool {t : TxTracker} (hs : Sourced N t) {pool : OrdMap Hash Tx}
    (hpool : Filed N id pool) : Acts N .pool t { t with pendingPool := pool } :=
  Relation.ReflTransGen.single (Act.writePool t pool t.missingCandidates t.unsupportedNodes
    ⟨hs.bodies, hs.queue, hpool, hs.candidates, hs.loops⟩)

theorem acts_candidates {t : TxTracker} (hs : Sourced N t) {m : OrdMap Hash Candidate}
    (hm : Filed N Candidate.toTx m) : Acts N .pool t { t with missingCandidates := m } :=
  Relation.ReflTransGen.single (Act.writePool t t.pendingPool m t.unsupportedNodes
    ⟨hs.bodies, hs.queue, hs.pool, hm, hs.loops⟩)

/-- A candidate is dropped. -/
theorem acts_eraseCandidate {t : TxTracker} (hs : Sourced N t) (x : Hash) :
    Acts N .pool t { t with missingCandidates := t.missingCandidates.erase x } :=
  acts_candidates hs (hs.candidates.erase x)

theorem acts_pollVanished {t : TxTracker} (hs : Sourced N t) {current : OrdMap Hash Tx}
    {e : Hash × Tx} (he : e.2.hash = e.1 ∧ N e.2) : Acts N .pool t (pollVanished current t e) := by
  unfold pollVanished onTxLeftPool
  split
  · exact Relation.ReflTransGen.refl
  · split
    · exact Relation.ReflTransGen.refl
    · split
      · exact acts_candidates hs (hs.candidates.modify e.1 fun _ _ => rfl)
      · exact acts_candidates hs (hs.candidates.set he.1 he.2)

theorem acts_debounceReappeared {t : TxTracker} (hs : Sourced N t) (x : Hash) :
    Acts N .pool t (t.debounceReappeared x) := by
  unfold debounceReappeared
  split
  · exact Relation.ReflTransGen.refl
  · split
    · exact (acts_eraseCandidate hs x).tail (Act.stop _ x)
    · exact acts_candidates hs (hs.candidates.modify x fun _ _ => rfl)

theorem acts_pollPresent {t : TxTracker} (hs : Sourced N t) {e : Hash × Tx}
    (he : e.2.hash = e.1 ∧ N e.2) : Acts N .pool t (t.pollPresent e) := by
  have hdebounce := acts_debounceReappeared hs e.1
  unfold pollPresent
  dsimp only
  split
  · exact hdebounce
  · have hs' := hdebounce.sourced hs
    exact hdebounce.trans (acts_pool hs' (hs'.pool.set he.1 he.2))

theorem acts_classifyMissing {t : TxTracker} (hs : Sourced N t) {cand : Candidate}
    (hN : N cand.toTx) (hout : t.includedHashes.has cand.hash = false) :
    Acts N .pool t (t.classifyMissing cand.hash cand) := by
  unfold classifyMissing
  split
  · rename_i resubmission hfind
    have htell := Relation.ReflTransGen.single (Act.tell .pool t cand.toTx .resubmitted
      { replacedBy := some resubmission.hash, resolvedHeight := some resubmission.blockNumber }
      hN ⟨fun _ => ⟨rfl, hout⟩, by simp, by simp, by simp,
        fun _ => ⟨resubmission, hfind, rfl, rfl⟩⟩)
    exact Relation.ReflTransGen.trans htell (acts_eraseCandidate (Acts.sourced htell hs) cand.hash)
  · split
    · exact Relation.ReflTransGen.refl
    · have htell := Relation.ReflTransGen.single (Act.tell .pool t cand.toTx
        (if t.isExpired cand.toTx then .expired else .dropped) {} hN
        ⟨fun _ => ⟨rfl, hout⟩, fun _ => by split <;> simp, by simp, expired_of_status (by simp),
          fun h => absurd h (by split <;> simp)⟩)
      exact Relation.ReflTransGen.trans htell
        (acts_eraseCandidate (Acts.sourced htell hs) cand.hash)

theorem acts_reviewCandidate {t : TxTracker} (hs : Sourced N t) (current : OrdMap Hash Tx)
    {e : Hash × Candidate} (he : e.2.hash = e.1 ∧ N e.2.toTx) :
    Acts N .pool t (reviewCandidate current t e) := by
  obtain ⟨x, cand⟩ := e
  obtain ⟨hx, hN⟩ := he
  dsimp only at hx hN
  subst hx
  unfold reviewCandidate
  split
  · exact acts_eraseCandidate hs _
  · rename_i hin
    have hout : t.includedHashes.has cand.hash = false := Bool.eq_false_iff.mpr hin
    split
    · exact Relation.ReflTransGen.refl
    · have hcount := acts_candidates hs (m := t.missingCandidates.modify cand.hash fun _ =>
        { cand with missingSincePollCount := cand.missingSincePollCount + 1 }) (by
          intro y w hw
          rw [OrdMap.get?_modify] at hw
          split at hw
          · rename_i hy
            obtain ⟨-, -, rfl⟩ := Option.map_eq_some_iff.mp hw
            exact ⟨hy.symm, hN⟩
          · exact hs.candidates y w hw)
      dsimp only
      split
      · exact hcount
      · have hstart := hcount.tail (Act.start .pool _
          (Candidate.retry { cand with missingSincePollCount := cand.missingSincePollCount + 1 })
          hN fun _ => hout)
        refine hstart.trans (acts_classifyMissing (Acts.sourced hstart hs) hN ?_)
        rw [(Acts.sameGround hstart).includedHashes]
        exact hout

/-- The tracked transactions of a pool snapshot, by hash. -/
def snapshot (raw : List Extrinsic) (refHeight : Nat) : OrdMap Hash Tx :=
  OrdMap.ofList ((extractTrackedExtrinsics raw refHeight).map fun tx => (tx.hash, tx))

theorem filed_snapshot {raw : List Extrinsic} {refHeight : Nat}
    (hN : ∀ tx ∈ extractTrackedExtrinsics raw refHeight, N tx) :
    Filed N id (snapshot raw refHeight) := by
  intro x tx hx
  obtain ⟨tx', htx, heq⟩ := List.mem_map.mp (OrdMap.mem_of_get?_ofList hx)
  obtain ⟨rfl, rfl⟩ := Prod.mk.inj heq
  exact ⟨rfl, hN tx' htx⟩

/-- The tracker before the review of the candidates. -/
def polled (t : TxTracker) (current : OrdMap Hash Tx) : TxTracker :=
  let u := current.entries.foldl pollPresent (t.pendingPool.entries.foldl (pollVanished current) t)
  { u with pendingPool := u.pendingPool.filter (fun hash _ => current.has hash) }

theorem pollPendingPool_eq (t : TxTracker) (node : NodeName) (raw : List Extrinsic) :
    t.pollPendingPool node (some raw) = (polled t (snapshot raw
      t.lastKnownHeight)).reviewMissingCandidates (snapshot raw t.lastKnownHeight) := rfl

theorem acts_polled {t : TxTracker} (hs : Sourced N t) {current : OrdMap Hash Tx}
    (hcurrent : Filed N id current) : Acts N .pool t (polled t current) := by
  have h₁ : Acts N .pool t (t.pendingPool.entries.foldl (pollVanished current) t) :=
    acts_foldl fun u hu e he =>
      acts_pollVanished (hu.sourced hs) (hs.pool e.1 e.2 (OrdMap.mem_of_mem_entries he))
  have h₂ := h₁.trans (acts_foldl (l := current.entries) fun u hu e he =>
    acts_pollPresent (hu.sourced (h₁.sourced hs))
      (hcurrent e.1 e.2 (OrdMap.mem_of_mem_entries he)))
  have hs₂ := Acts.sourced h₂ hs
  exact h₂.trans (acts_pool hs₂ (hs₂.pool.filter fun hash _ => current.has hash))

theorem acts_reviewMissingCandidates {t : TxTracker} (hs : Sourced N t)
    (current : OrdMap Hash Tx) : Acts N .pool t (t.reviewMissingCandidates current) :=
  acts_foldl fun _ hu e he => acts_reviewCandidate (hu.sourced hs) current
    (hs.candidates e.1 e.2 (OrdMap.mem_of_mem_entries he))

/-- **A poll is a sequence of acts.** -/
theorem acts_pollPendingPool {t : TxTracker} (hs : Sourced N t) (node : NodeName)
    {answer : Option (List Extrinsic)}
    (hN : ∀ raw, answer = some raw → ∀ tx ∈ extractTrackedExtrinsics raw t.lastKnownHeight, N tx) :
    Acts N .pool t (t.pollPendingPool node answer) := by
  cases answer with
  | none =>
      exact Relation.ReflTransGen.single (Act.writePool t t.pendingPool t.missingCandidates
        (t.unsupportedNodes.add node) hs)
  | some raw =>
      rw [pollPendingPool_eq]
      have hpolled := acts_polled hs (filed_snapshot (hN raw rfl))
      exact hpolled.trans (acts_reviewMissingCandidates (Acts.sourced hpolled hs) _)

/-! ## The review of a notification is a sequence of acts -/

theorem acts_queueEntry {t : TxTracker} (hs : Sourced N t) (H : Hash) {e : ReorgEntry}
    (hN : N e.toTx) : Acts N .review t (t.queueEntry H e) := by
  have hs' : Sourced N { t with pendingReorgReview := t.pendingReorgReview ++ [e] } := by
    refine ⟨hs.bodies, ?_, hs.pool, hs.candidates, hs.loops⟩
    intro e' he'
    rcases List.mem_append.mp he' with he' | he'
    · exact hs.queue e' he'
    · rw [List.mem_singleton.mp he']
      exact hN
  have hwrite := Relation.ReflTransGen.single (Act.writeQueue t (t.pendingReorgReview ++ [e])
    t.processedForkHeights hs')
  exact (hwrite.tail (Act.queued _ e H)).tail
    (Act.start .review _ e.retry hN fun hdrop => absurd hdrop (by simp [ReorgEntry.retry]))

theorem acts_queueLosing {t : TxTracker} (hs : Sourced N t) (height : Nat) (H : Hash)
    (canonical : Option BlockRecord) (x : Hash) :
    Acts N .review t (queueLosing height H canonical t x) := by
  unfold queueLosing
  split
  · exact Relation.ReflTransGen.refl
  · cases hx : t.blockExtrinsics.get? x with
    | none => exact Relation.ReflTransGen.refl
    | some losing =>
        refine acts_foldl fun u hu tx htx => acts_queueEntry (hu.sourced hs) H ?_
        exact hs.bodies x losing hx tx htx

theorem acts_reviewHeight {t : TxTracker} (hs : Sourced N t) (F : Nat) (H : Hash)
    (tree : BlockTree) (height : Nat) : Acts N .review t (reviewHeight F H tree t height) := by
  unfold reviewHeight
  split
  · exact Relation.ReflTransGen.refl
  · have hwrite := Relation.ReflTransGen.single (Act.writeQueue t t.pendingReorgReview
      (t.processedForkHeights.add height) hs)
    refine Relation.ReflTransGen.trans hwrite ?_
    unfold queueReorgReview
    split
    · exact Relation.ReflTransGen.refl
    · exact acts_foldl fun u hu x _ =>
        acts_queueLosing (hu.sourced (Acts.sourced hwrite hs)) height H _ x

theorem acts_resolveReorgEntry (t : TxTracker) {e : ReorgEntry} (hN : N e.toTx) :
    Acts N .review t (t.resolveReorgEntry e) := by
  unfold resolveReorgEntry
  split
  · rename_i resubmission hfind
    exact Relation.ReflTransGen.single (Act.tell .review t e.toTx .reorgedResubmitted _ hN
      ⟨by simp, by simp, by simp, by simp, fun _ => ⟨resubmission, hfind, rfl, rfl⟩⟩)
  · split
    · exact Relation.ReflTransGen.refl
    · exact Relation.ReflTransGen.single (Act.tell .review t e.toTx _ _ hN
        ⟨by simp, by simp, by simp, expired_of_status (by simp),
          fun h => absurd h (by split <;> simp)⟩)

theorem acts_resolveDue {t : TxTracker} (hs : Sourced N t) (F : Nat) :
    Acts N .review t (t.resolveDue F) := by
  unfold resolveDue
  have hloop : Acts N .review t (t.pendingReorgReview.foldl (fun t entry =>
      if F < entry.dueAtHeight then t else t.resolveReorgEntry entry) t) := by
    refine acts_foldl fun u _ e he => ?_
    split
    · exact Relation.ReflTransGen.refl
    · exact acts_resolveReorgEntry u (hs.queue e he)
  dsimp only
  generalize t.pendingReorgReview.foldl (fun t entry =>
    if F < entry.dueAtHeight then t else t.resolveReorgEntry entry) t = resolved at hloop ⊢
  have hs' := Acts.sourced hloop hs
  refine hloop.tail (Act.writeQueue resolved
    (t.pendingReorgReview.filter fun entry => F < entry.dueAtHeight)
    resolved.processedForkHeights ⟨hs'.bodies, ?_, hs'.pool, hs'.candidates, hs'.loops⟩)
  intro e he
  exact hs.queue e (List.mem_filter.mp he).1

/-- The tracker after the canonical walk of a notification, before the review. -/
def walked (t : TxTracker) (F : Nat) (H : Hash) (tree : BlockTree) : TxTracker :=
  ({ t with lastKnownHeight := max t.lastKnownHeight F } : TxTracker).walkFinalized F H tree

theorem walked_eq (t : TxTracker) (F : Nat) (H : Hash) (tree : BlockTree) :
    walked t F H tree = { t with
      lastKnownHeight := max t.lastKnownHeight F
      lastCanonicalWalkHeight := some (max (t.lastCanonicalWalkHeight.getD 0) F)
      latestBySignerNonce := (newlyFinal t F H tree).foldl (markInto t.blockExtrinsics)
        t.latestBySignerNonce
      history := t.history
        ++ (newlyFinal t F H tree).flatMap (markReports t.blockExtrinsics) } := by
  unfold walked
  rw [walkFinalized_eq]
  rfl

theorem sourced_walked {t : TxTracker} (hs : Sourced N t) (F : Nat) (H : Hash)
    (tree : BlockTree) : Sourced N (walked t F H tree) := by
  rw [walked_eq]
  exact ⟨hs.bodies, hs.queue, hs.pool, hs.candidates, hs.loops⟩

/-- **After its walk, a notification is a sequence of acts.** -/
theorem acts_onHeightFinalized {t : TxTracker} (hs : Sourced N t) (F : Nat) (H : Hash)
    (tree : BlockTree) : Acts N .review (walked t F H tree) (t.onHeightFinalized F H tree) := by
  have hs' := sourced_walked hs F H tree
  have hheights : Acts N .review (walked t F H tree)
      (tree.getForkedHeights.foldl (reviewHeight F H tree) (walked t F H tree)) :=
    acts_foldl fun u hu height _ => acts_reviewHeight (hu.sourced hs') F H tree height
  exact hheights.trans (acts_resolveDue (hheights.sourced hs') F)

/-! ## What an event comes to -/

/-- What an event makes of the tracker. -/
inductive TrackerStep (c : ChainContext) : Event → TxTracker → Prop where
  | idle (e : Event) (k : Nat) (hk : c.txTracker.lastKnownHeight ≤ k) :
      TrackerStep c e { c.txTracker with lastKnownHeight := k }
  | captured (i : Nat) (x : Hash) (n : Nat) (body : List Extrinsic)
      (ht : c.tasks[i]? = some (.getBlock x n)) :
      TrackerStep c (.resume i (.body (some body))) (c.txTracker.captureBody x n body)
  | pruned (i F : Nat) (ht : c.tasks[i]? = some (.resolveForkEvent F)) :
      TrackerStep c (.resume i .done) (c.txTracker.pruneBlocks (F - c.config.pruneAfter))
  | finalized (node : NodeName) (F : Nat) (H : Hash) :
      TrackerStep c (.finalizedHeads node F H)
        (c.txTracker.onHeightFinalized F H (noted c.blockTree F))
  | poll (node : NodeName) (answer : Option (List Extrinsic)) :
      TrackerStep c (.poll node answer) (c.txTracker.pollPendingPool node answer)
  | retryTick (x : Hash) : TrackerStep c (.retryTick x) (c.txTracker.retryTick x)
  | settled (call : Nat) (results : List (Option String)) :
      TrackerStep c (.resubmitSettled call results) (c.txTracker.resubmitSettled call results)
  | connections (connected : List NodeName) :
      TrackerStep c (.connections connected) { c.txTracker with connected }

theorem trackerStep (c : ChainContext) (e : Event) : TrackerStep c e (c.step e).txTracker := by
  have hidle : TrackerStep c e c.txTracker := TrackerStep.idle e _ (Nat.le_refl _)
  cases e with
  | allHeads node header =>
      rw [(allHeads_frame c node header).2]
      exact hidle
  | finalizedHeads node F H => exact TrackerStep.finalized node F H
  | resume i a =>
      rcases resume_cases c i a with ⟨x, n, body, ht, rfl, heq⟩ | ⟨F, ht, rfl, heq⟩ | hq
      · rw [heq]
        exact TrackerStep.captured i x n body ht
      · rw [heq]
        exact TrackerStep.pruned i F ht
      · obtain ⟨k, hk, heq⟩ := hq.txTracker
        rw [heq]
        exact TrackerStep.idle _ k hk
  | poll node answer => exact TrackerStep.poll node answer
  | retryTick x => exact TrackerStep.retryTick x
  | resubmitSettled call results => exact TrackerStep.settled call results
  | connections connected => exact TrackerStep.connections connected
  | setupCausation => exact hidle
  | identities => exact hidle

/-- All transactions an event brings in satisfy `N`. -/
def Supplies (N : Tx → Prop) (c : ChainContext) : Event → Prop
  | .resume i (.body (some body)) => ∀ x n, c.tasks[i]? = some (.getBlock x n) →
      ∀ tx ∈ extractTrackedExtrinsics body n, N tx
  | .poll _ (some raw) => ∀ tx ∈ extractTrackedExtrinsics raw c.txTracker.lastKnownHeight, N tx
  | _ => True

theorem captureBody_eq (t : TxTracker) (x : Hash) (n : Nat) (body : List Extrinsic) :
    ∃ rs, t.captureBody x n body = { t with
      blockExtrinsics := t.blockExtrinsics.set x ⟨n, extractTrackedExtrinsics body n⟩
      includedHashes := (extractTrackedExtrinsics body n).foldl (fun s tx => s.add tx.hash)
        t.includedHashes
      history := t.history ++ .captured x n (extractTrackedExtrinsics body n) :: rs } ∧
      ∀ r ∈ rs, ∃ k, r = .tracked k := by
  unfold TxTracker.captureBody
  dsimp only
  split
  · exact ⟨[], rfl, by simp⟩
  · refine ⟨[.tracked (extractTrackedExtrinsics body n).length], by simp [emit], ?_⟩
    intro r hr
    exact ⟨_, List.mem_singleton.mp hr⟩

/-- The answers to a resubmission confirm nothing. -/
theorem resubmitSettled_eq (t : TxTracker) (call : Nat) (results : List (Option String)) :
    ∃ calls rs, t.resubmitSettled call results = { t with
      resubmitting := calls, history := t.history ++ rs } ∧
      ∀ r ∈ rs, ∃ row, r = .resubmitAttempt row ∧ row.result ≠ .confirmed := by
  unfold resubmitSettled
  split
  · exact ⟨_, [], by rw [List.append_nil], by simp⟩
  · dsimp only
    split
    · refine ⟨_, [_], rfl, fun r hr => ⟨_, List.mem_singleton.mp hr, ?_⟩⟩
      simp [resubmitRow]
    · refine ⟨_, [_], rfl, fun r hr => ⟨_, List.mem_singleton.mp hr, ?_⟩⟩
      simp [resubmitRow]

theorem filed_retryTick {t : TxTracker} (h : Filed N (fun loop => loop.record.toTx)
    t.resubmitRetryTimers) (x : Hash) :
    Filed N (fun loop => loop.record.toTx) (t.retryTick x).resubmitRetryTimers := by
  unfold retryTick
  cases t.resubmitRetryTimers.get? x with
  | none => exact h
  | some loop => exact (loops_tick h loop.record loop.attempts).modify x fun _ _ => rfl

theorem retryTick_eq (t : TxTracker) (x : Hash) :
    ∃ timers calls rs, t.retryTick x = { t with
      resubmitRetryTimers := timers, resubmitting := calls, history := t.history ++ rs } ∧
      ∀ r ∈ rs, ∃ loop, t.resubmitRetryTimers.get? x = some loop ∧ OfTick loop.record r := by
  unfold retryTick
  cases t.resubmitRetryTimers.get? x with
  | none => exact ⟨_, _, [], by rw [List.append_nil], by simp⟩
  | some loop =>
      obtain ⟨timers, calls, rs, heq, hof⟩ := tick_eq t loop.record loop.attempts
      dsimp only
      rw [heq]
      exact ⟨_, _, rs, rfl, fun r hr => ⟨loop, rfl, hof r hr⟩⟩

/-- **The tracker goes on knowing of such transactions only.** -/
theorem sourced_step {c : ChainContext} {e : Event} (hs : Sourced N c.txTracker)
    (he : Supplies N c e) : Sourced N (c.step e).txTracker := by
  have hstep := trackerStep c e
  generalize (c.step e).txTracker = t' at hstep ⊢
  cases hstep with
  | idle => exact ⟨hs.bodies, hs.queue, hs.pool, hs.candidates, hs.loops⟩
  | captured i x n body ht =>
      obtain ⟨rs, heq, -⟩ := captureBody_eq c.txTracker x n body
      rw [heq]
      refine ⟨?_, hs.queue, hs.pool, hs.candidates, hs.loops⟩
      intro y captured hy
      rw [OrdMap.get?_set] at hy
      split at hy
      · obtain rfl := Option.some.inj hy
        exact he x n ht
      · exact hs.bodies y captured hy
  | pruned i F =>
      refine ⟨?_, hs.queue, hs.pool, hs.candidates, hs.loops.filter _⟩
      intro y captured hy
      exact hs.bodies y captured (body_pruneBlocks hy).1
  | finalized node F H =>
      exact (acts_onHeightFinalized hs F H _).sourced (sourced_walked hs F H _)
  | poll node answer =>
      refine (acts_pollPendingPool hs node fun raw hraw => ?_).sourced hs
      subst hraw
      exact he
  | retryTick x =>
      have hloops := filed_retryTick hs.loops x
      obtain ⟨timers, calls, rs, heq, -⟩ := retryTick_eq c.txTracker x
      rw [heq] at hloops ⊢
      exact ⟨hs.bodies, hs.queue, hs.pool, hs.candidates, hloops⟩
  | settled call results =>
      obtain ⟨calls, rs, heq, -⟩ := resubmitSettled_eq c.txTracker call results
      rw [heq]
      exact ⟨hs.bodies, hs.queue, hs.pool, hs.candidates, hs.loops⟩
  | connections => exact ⟨hs.bodies, hs.queue, hs.pool, hs.candidates, hs.loops⟩

/-- The report queues nothing, starts no loop and tells no incident. -/
def NoNews : TxReport → Prop
  | .queued .. | .loopStarted _ | .submitted _ => False
  | _ => True

theorem noNews_of_ofTick {record : RetryRecord} {r : TxReport} (hr : OfTick record r) :
    NoNews r := by
  cases r with
  | attempted _ => trivial
  | resubmitAttempt _ => trivial
  | _ => exact absurd hr id

/-- No loop was started and no incident told. -/
structure Uneventful (t t' : TxTracker) : Prop where
  everRetried : t'.everRetried = t.everRetried
  finalizedHashes : t'.finalizedHashes = t.finalizedHashes
  history : ∃ rs, t'.history = t.history ++ rs ∧ ∀ r ∈ rs, NoNews r

theorem Uneventful.of_history {t t' : TxTracker} (hever : t'.everRetried = t.everRetried)
    (hguard : t'.finalizedHashes = t.finalizedHashes) (hhist : t'.history = t.history) :
    Uneventful t t' := ⟨hever, hguard, [], by rw [hhist, List.append_nil], by simp⟩

/-- **Whatever news there is comes from acts.** -/
theorem step_acts {c : ChainContext} {e : Event} (hs : Sourced N c.txTracker)
    (he : Supplies N c e) :
    ∃ u side, Uneventful c.txTracker u ∧ Acts N side u (c.step e).txTracker := by
  have hstep := trackerStep c e
  generalize (c.step e).txTracker = t' at hstep ⊢
  have hsame : Uneventful c.txTracker t' →
      ∃ u side, Uneventful c.txTracker u ∧ Acts N side u t' :=
    fun h => ⟨t', .pool, h, Relation.ReflTransGen.refl⟩
  cases hstep with
  | idle => exact hsame (Uneventful.of_history rfl rfl rfl)
  | captured i x n body =>
      obtain ⟨rs, heq, htracked⟩ := captureBody_eq c.txTracker x n body
      rw [heq] at hsame ⊢
      refine hsame ⟨rfl, rfl, _, rfl, fun r hr => ?_⟩
      rcases List.mem_cons.mp hr with rfl | hr
      · trivial
      · obtain ⟨k, rfl⟩ := htracked r hr
        trivial
  | pruned => exact hsame (Uneventful.of_history rfl rfl rfl)
  | finalized node F H =>
      refine ⟨walked c.txTracker F H (noted c.blockTree F), .review, ?_,
        acts_onHeightFinalized hs F H _⟩
      rw [walked_eq]
      refine ⟨rfl, rfl, _, rfl, fun r hr => ?_⟩
      obtain ⟨x, txs, rfl⟩ := marked_of_mem hr
      trivial
  | poll node answer =>
      refine ⟨c.txTracker, .pool, Uneventful.of_history rfl rfl rfl,
        acts_pollPendingPool hs node fun raw hraw => ?_⟩
      subst hraw
      exact he
  | retryTick x =>
      obtain ⟨timers, calls, rs, heq, hof⟩ := retryTick_eq c.txTracker x
      rw [heq] at hsame ⊢
      refine hsame ⟨rfl, rfl, rs, rfl, fun r hr => ?_⟩
      obtain ⟨loop, -, hr⟩ := hof r hr
      exact noNews_of_ofTick hr
  | settled call results =>
      obtain ⟨calls, rs, heq, hof⟩ := resubmitSettled_eq c.txTracker call results
      rw [heq] at hsame ⊢
      refine hsame ⟨rfl, rfl, rs, rfl, fun r hr => ?_⟩
      obtain ⟨row, rfl, -⟩ := hof r hr
      trivial
  | connections => exact hsame (Uneventful.of_history rfl rfl rfl)

/-- Where all transactions satisfy `N`, every event will do. -/
theorem supplies_of_forall (hN : ∀ tx, N tx) (c : ChainContext) (e : Event) : Supplies N c e := by
  unfold Supplies
  split <;> simp [hN]

theorem supplies_true (c : ChainContext) (e : Event) : Supplies (fun _ => True) c e :=
  supplies_of_forall (fun _ => trivial) c e

theorem sourced_run (config : ChainConfig) (opts : TxOptions) (evs : List Event) :
    Sourced (fun _ => True) ((machine config opts).run evs).txTracker := by
  refine Machine.run_invariant (m := machine config opts) (A := fun _ => True)
    (I := fun c => Sourced (fun _ => True) c.txTracker) (sourced_init _ opts) ?_ (by simp)
  intro c e hc _
  exact sourced_step hc (supplies_true c e)

end ForkWatch.Proof
