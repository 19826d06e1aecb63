import ForkWatch.Proof.Acts

/-!
# Is an incident ever told twice?

`finalizedHashes` guards against telling the same hash twice, with a safety cap:
a full set is emptied before the next hash goes in. Every row passes the guard,
on whichever of the two paths it comes, so the guard set has let through what was
told, in that order (`GuardsTold`). A hash is told at most once among each
`MAX_FINALIZED_HASHES` rows (`told_nodup`), and can be told again after them.
-/

namespace ForkWatch.Proof

open Lib ChainContext TxTracker

/-- The original hashes of the rows, in the order they were told. -/
def told (rs : List TxReport) : List Hash :=
  rs.filterMap fun r => match r with
    | .submitted row => some row.firstHash
    | _ => none

@[simp] theorem told_append (rs rs' : List TxReport) : told (rs ++ rs') = told rs ++ told rs' :=
  List.filterMap_append

/-- Reports that tell no incident. -/
theorem told_eq_nil {p : TxReport → Prop} {rs : List TxReport} (h : ∀ r ∈ rs, p r)
    (hp : ∀ row, ¬ p (.submitted row)) : told rs = [] := by
  refine List.filterMap_eq_nil_iff.mpr fun r hr => ?_
  cases r with
  | submitted row => exact absurd (h _ hr) (hp row)
  | _ => rfl

/-! ## The guard set -/

/-- The guard set has let through what was told. -/
def GuardsTold (t : TxTracker) : Prop :=
  Guards MAX_FINALIZED_HASHES t.finalizedHashes (told t.history)

/-- Reports that tell no incident are nothing to the guard set. -/
theorem GuardsTold.append {p : TxReport → Prop} {t t' : TxTracker} (h : GuardsTold t)
    (hguard : t'.finalizedHashes = t.finalizedHashes) (rs : List TxReport)
    (hhist : t'.history = t.history ++ rs) (hof : ∀ r ∈ rs, p r)
    (hp : ∀ row, ¬ p (.submitted row)) : GuardsTold t' := by
  unfold GuardsTold
  rw [hguard, hhist, told_append, told_eq_nil hof hp, List.append_nil]
  exact h

variable {N : Tx → Prop} {side : Side}

theorem guardsTold_act {t t' : TxTracker} (h : GuardsTold t) (hact : Act N side t t') :
    GuardsTold t' := by
  cases hact with
  | writePool => exact h
  | writeQueue => exact h
  | queued _ entry H =>
      exact h.append rfl [.queued entry H] rfl (fun _ hr => List.mem_singleton.mp hr) (by simp)
  | start _ _ record =>
      obtain ⟨timers, ever, calls, rs, heq, hof⟩ := startResubmitRetry_eq t record
      rw [heq]
      exact h.append rfl rs rfl hof fun _ hr => hr
  | stop => exact h
  | tell _ _ tx status extra =>
      rcases finalize_cases t tx status extra with ⟨-, heq⟩ | ⟨hnew, heq⟩
      · rw [heq]
        exact h
      · rw [heq]
        unfold GuardsTold
        rw [told_append]
        exact h.remember (by decide) hnew

theorem guardsTold_step {c : ChainContext} {e : Event} (hs : Sourced N c.txTracker)
    (he : Supplies N c e) (h : GuardsTold c.txTracker) : GuardsTold (c.step e).txTracker := by
  obtain ⟨u, side, hu, hacts⟩ := step_acts hs he
  obtain ⟨rs, hhist, hnews⟩ := hu.history
  exact hacts.preserves (fun _ _ => guardsTold_act)
    (h.append hu.finalizedHashes rs hhist hnews fun _ hr => hr)

theorem guardsTold_run (config : ChainConfig) (opts : TxOptions) (evs : List Event) :
    GuardsTold ((machine config opts).run evs).txTracker := by
  induction evs using List.reverseRecOn with
  | nil => exact Guards.empty MAX_FINALIZED_HASHES
  | append_singleton evs e ih =>
      rw [Machine.run_snoc]
      exact guardsTold_step (sourced_run config opts evs) (supplies_true _ e) ih

/--
**No stretch of rows tells a hash twice.** Cut into stretches of
`MAX_FINALIZED_HASHES` rows, no stretch has two rows of one original hash; each
row comes with one increment of its status metric.
-/
theorem told_nodup (config : ChainConfig) (opts : TxOptions) (evs : List Event) (n : Nat) :
    (((told ((machine config opts).run evs).txTracker.history).drop
      (MAX_FINALIZED_HASHES * n)).take MAX_FINALIZED_HASHES).Nodup :=
  (guardsTold_run config opts evs).nodup_stretch n

/-! ## Across the cap

A pool of one transaction, replaced at every poll, and a tracker that reports a
drop at once: each poll tells the hash before. -/

/-- A transaction with this hash. -/
def pooled (x : Hash) : Extrinsic := .signed "alice" 0 x "balances" "transfer" none "0x00"

def pooledTx (x : Hash) : Tx where
  kind := .substrate
  signer := some "alice"
  nonce := some 0
  hash := x
  pallet := "balances"
  method := "transfer"
  era := none
  raw := "0x00"

/-- A drop is reported by the first poll that misses the hash. -/
def hastyOptions : TxOptions := { dropGracePolls := 1, dropMaxWaitPolls := 1 }

/-- A map with one entry. -/
def single {α : Type} (x : Hash) (v : α) : OrdMap Hash α := ⟨[(x, v)], List.nodup_singleton x⟩

theorem entries_single {α : Type} (x : Hash) (v : α) : (single x v).entries = [(x, v)] := rfl

theorem get?_single {α : Type} (x y : Hash) (v : α) :
    (single x v).get? y = if x = y then some v else none := by
  unfold single OrdMap.get?
  by_cases h : x = y
  · simp [h]
  · simp [h]

theorem modify_single {α : Type} (x : Hash) (v w : α) :
    (single x v).modify x (fun _ => w) = single x w := by
  simp [single, OrdMap.modify]

theorem erase_single {α : Type} (x : Hash) (v : α) : (single x v).erase x = ∅ := by
  simp only [single, OrdMap.erase, OrdMap.filter, List.filter_cons, List.filter_nil, ne_eq,
    not_true_eq_false, decide_false, Bool.false_eq_true, if_false]
  rfl

/-- The pool is cut down to the current snapshot. -/
theorem filter_set_single {α : Type} {x y : Hash} (v w : α) (hxy : x ≠ y) :
    ((single x v).set y w).filter (fun z _ => (single y w).has z) = single y w := by
  have hnew : (single x v).get? y = none := by rw [get?_single, if_neg hxy]
  have hentries := OrdMap.entries_set_of_not_mem (v := w) hnew
  unfold OrdMap.filter
  simp only [hentries]
  simp [single, OrdMap.has, OrdMap.get?, hxy.symm]

/-- Only this hash is in the pool, and nothing was ever included. -/
structure OnlyPooled (x : Hash) (t : TxTracker) : Prop where
  opts : t.opts = hastyOptions
  pool : t.pendingPool = single x (pooledTx x)
  candidates : t.missingCandidates = ∅
  included : t.includedHashes = ∅
  latest : t.latestBySignerNonce = ∅

/-- The next poll drops the hash, and tells it unless the guard set remembers it. -/
theorem poll_onlyPooled {x y : Hash} {t : TxTracker} (h : OnlyPooled x t) (hxy : x ≠ y)
    (hnew : t.finalizedHashes.has x = false) (node : NodeName) :
    OnlyPooled y (t.pollPendingPool node (some [pooled y])) ∧
      told (t.pollPendingPool node (some [pooled y])).history = told t.history ++ [x] := by
  obtain ⟨hopts, hpool, hcand, hinc, hlatest⟩ := h
  have hyx : y ≠ x := fun heq => hxy heq.symm
  have hcurrent : OrdMap.ofList ((extractTrackedExtrinsics [pooled y] t.lastKnownHeight).map
      fun tx => (tx.hash, tx)) = single y (pooledTx y) := rfl
  have hnotIn : (single y (pooledTx y)).has x = false := by
    simp [OrdMap.has, get?_single, hyx]
  -- the vanished loop makes `x` a candidate
  generalize hc : (⟨pooledTx x, 0, 0, t.lastKnownHeight⟩ : Candidate) = cand
  have hvanished : pollVanished (single y (pooledTx y)) t (x, pooledTx x)
      = { t with missingCandidates := single x cand } := by
    unfold pollVanished onTxLeftPool
    dsimp only
    rw [hnotIn, hinc, hcand, ← hc]
    rfl
  -- the present loop enters `y` into the pool
  have hpresent : pollPresent { t with missingCandidates := single x cand } (y, pooledTx y)
      = { t with missingCandidates := single x cand,
                 pendingPool := (single x (pooledTx x)).set y (pooledTx y) } := by
    simp [pollPresent, debounceReappeared, OrdMap.has, get?_single, hxy, hpool]
  -- the review gives `x` up
  obtain ⟨row, hrow, hreview⟩ : ∃ row : SubmittedTx, row.firstHash = x ∧
      reviewCandidate (single y (pooledTx y)) { t with
        missingCandidates := single x cand, pendingPool := single y (pooledTx y) } (x, cand)
      = { t with
          missingCandidates := ∅, pendingPool := single y (pooledTx y),
          finalizedHashes := remember MAX_FINALIZED_HASHES t.finalizedHashes x,
          history := t.history ++ [.submitted row] } := by
    unfold reviewCandidate
    dsimp only
    rw [hinc, hnotIn, modify_single, hopts, ← hc]
    simp only [OrdMap.has_empty, Bool.false_eq_true, if_false, Nat.zero_add, hastyOptions,
      Nat.lt_irrefl]
    have hoff : ∀ (u : TxTracker) (record : RetryRecord), u.opts = hastyOptions →
        u.startResubmitRetry record = u := by
      intro u record hu
      simp [startResubmitRetry, mayRetry, hu, hastyOptions]
    rw [hoff _ _ rfl]
    unfold classifyMissing
    simp only [findResubmission, latestFor, pooledTx, hlatest, OrdMap.get?_empty,
      Option.filter_none, Nat.lt_irrefl, if_false, isExpired, Bool.false_eq_true]
    unfold finalize
    simp only [hnew, Bool.false_eq_true, if_false, erase_single, emit]
    exact ⟨_, rfl, rfl⟩
  have hpoll : t.pollPendingPool node (some [pooled y]) = { t with
      missingCandidates := ∅, pendingPool := single y (pooledTx y),
      finalizedHashes := remember MAX_FINALIZED_HASHES t.finalizedHashes x,
      history := t.history ++ [.submitted row] } := by
    unfold pollPendingPool
    dsimp only
    rw [hcurrent, hpool, entries_single, entries_single]
    simp only [List.foldl_cons, List.foldl_nil]
    rw [hvanished, hpresent]
    dsimp only
    rw [filter_set_single _ _ hxy]
    exact hreview
  rw [hpoll]
  refine ⟨⟨hopts, rfl, rfl, hinc, hlatest⟩, ?_⟩
  rw [told_append, ← hrow]
  rfl

/-- Different hashes for different numbers. -/
def hashNo (n : Nat) : Hash := String.ofList (List.replicate n 'x')

theorem hashNo_inj {m n : Nat} (h : hashNo m = hashNo n) : m = n := by
  have hlist := congrArg (fun s : String => s.toList.length) h
  simpa [hashNo] using hlist

/-- The guard set holds the hashes of the current stretch, and no others. -/
theorem not_has_hashNo {cap m n : Nat} {s : OrdSet Hash}
    (h : Guards cap s ((List.range m).map hashNo)) (hn : n < stretchStart cap m ∨ m ≤ n) :
    s.has (hashNo n) = false := by
  refine Bool.eq_false_iff.mpr fun hin => ?_
  have hmem := h.has_iff.mp hin
  obtain ⟨i, hi, heq⟩ := List.mem_drop_iff_getElem.mp hmem
  rw [List.getElem_map, List.getElem_range] at heq
  have := hashNo_inj heq
  rw [List.length_map, List.length_range] at hi this
  omega

/-- A snapshot of a pool that holds this hash only. -/
def pollsOnly (n : Nat) : Event := .poll "n1" (some [pooled (hashNo n)])

/-- The hashes so far were told one after another, and the next one waits in the pool. -/
structure ToldUpTo (n m : Nat) (t : TxTracker) : Prop where
  only : OnlyPooled (hashNo m) t
  told : told t.history = (List.range n).map hashNo
  guards : GuardsTold t
  sourced : Sourced (fun _ => True) t

theorem ToldUpTo.poll {n m : Nat} {c : ChainContext} (h : ToldUpTo n n c.txTracker) (hm : n ≠ m) :
    ToldUpTo (n + 1) m (c.step (pollsOnly m)).txTracker := by
  have hguards := h.guards
  unfold GuardsTold at hguards
  rw [h.told] at hguards
  have hne : hashNo n ≠ hashNo m := fun heq => hm (hashNo_inj heq)
  obtain ⟨honly, htold⟩ :=
    poll_onlyPooled h.only hne (not_has_hashNo hguards (Or.inr (Nat.le_refl n))) "n1"
  rw [h.told] at htold
  refine ⟨honly, ?_, guardsTold_step h.sourced (supplies_true c _) h.guards,
    sourced_step h.sourced (supplies_true c _)⟩
  rw [List.range_succ, List.map_append]
  exact htold

theorem toldUpTo_run (n : Nat) :
    ToldUpTo n n ((machine {} hastyOptions).run ((List.range (n + 1)).map pollsOnly)).txTracker := by
  induction n with
  | zero => exact ⟨⟨rfl, rfl, rfl, rfl, rfl⟩, rfl, guardsTold_run .., sourced_run ..⟩
  | succ n ih =>
      rw [List.range_succ, List.map_append, List.map_singleton, Machine.run_snoc]
      exact ih.poll (by omega)

/-- The set is full when hash number `MAX_FINALIZED_HASHES` is told; then the first one is back. -/
def onceMoreRun : List Event :=
  (List.range (MAX_FINALIZED_HASHES + 2)).map pollsOnly ++ [pollsOnly 0] ++ [pollsOnly 1]

/-- A hash is told twice. -/
theorem not_told_nodup_onceMoreRun :
    ¬ (told ((machine {} hastyOptions).run onceMoreRun).txTracker.history).Nodup := by
  have hcap : 0 < MAX_FINALIZED_HASHES := by decide
  have hall := toldUpTo_run (MAX_FINALIZED_HASHES + 1)
  unfold onceMoreRun
  rw [Machine.run_snoc, Machine.run_snoc]
  generalize (machine {} hastyOptions).run
    ((List.range (MAX_FINALIZED_HASHES + 2)).map pollsOnly) = c at hall ⊢
  have hback : ToldUpTo (MAX_FINALIZED_HASHES + 2) 0 (c.step (pollsOnly 0)).txTracker :=
    hall.poll (by omega)
  have hguards := hback.guards
  unfold GuardsTold at hguards
  rw [hback.told] at hguards
  have hstart : stretchStart MAX_FINALIZED_HASHES (MAX_FINALIZED_HASHES + 2)
      = MAX_FINALIZED_HASHES := by decide
  have hforgotten := not_has_hashNo hguards (Or.inl (by rw [hstart]; exact hcap))
  have hne : hashNo 0 ≠ hashNo 1 := fun heq => absurd (hashNo_inj heq) (by omega)
  obtain ⟨-, htold⟩ := poll_onlyPooled hback.only hne hforgotten "n1"
  rw [hback.told] at htold
  have hagain : told ((machine {} hastyOptions).step ((machine {} hastyOptions).step c
      (pollsOnly 0)) (pollsOnly 1)).txTracker.history
      = (List.range (MAX_FINALIZED_HASHES + 2)).map hashNo ++ [hashNo 0] := htold
  rw [hagain]
  intro hnodup
  have hfirst : hashNo 0 ∈ (List.range (MAX_FINALIZED_HASHES + 2)).map hashNo :=
    List.mem_map.mpr ⟨0, List.mem_range.mpr (by omega), rfl⟩
  exact (List.disjoint_of_nodup_append hnodup) hfirst (List.mem_singleton_self _)

end ForkWatch.Proof
