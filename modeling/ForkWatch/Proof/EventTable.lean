import ForkWatch.Lib.Table
import ForkWatch.Db.Queries

/-!
# The rows of `fork_events`

Whatever order the statements of all chains take effect in, the table is exactly the
insertions, in order, less what a later cleanup found outdated; a row is resolved if a
later `resolveForkEvent` of its chain reached its height, at the time of the first such,
and its `resolved_hash` stays null (`fork_event_table`).

The verdicts come from `updateCause` (`cause_latched`): a row gets its columns from one
statement, for its own chain and height, and keeps them; and one statement writes one
row, so there are never more verdicts than analyses.
-/

namespace ForkWatch.Proof

open Lib Database

/-! ## What neither a verdict nor an author list touches -/

structure ForkEventCore where
  chain : ChainName
  blockNumber : Nat
  competingCount : Nat
  depth : Nat
  resolved : Bool
  resolvedHash : Option Hash
  detectedAt : Int
  resolvedAt : Option Int
  deriving DecidableEq

def core (r : ForkEvent) : ForkEventCore where
  chain := r.chain
  blockNumber := r.blockNumber
  competingCount := r.competingCount
  depth := r.depth
  resolved := r.resolved
  resolvedHash := r.resolvedHash
  detectedAt := r.detectedAt
  resolvedAt := r.resolvedAt

/-- The row an insertion brings. -/
def newEvent (s : Statement) : List ForkEventCore :=
  match s.query with
  | .insertForkEvent chain row =>
      [{ chain, blockNumber := row.blockNumber, competingCount := row.competingCount
         depth := row.depth, resolved := false, resolvedHash := none, detectedAt := s.now
         resolvedAt := none }]
  | _ => []

/-- When a statement resolves the forks of a height. -/
def resolves (chain : ChainName) (height : Nat) (s : Statement) : Option Int :=
  match s.query with
  | .resolveForkEvent c blockNumber _ =>
      if c = chain ∧ height ≤ blockNumber then some s.now else none
  | _ => none

/-- A cleanup finds the row outdated. -/
def dropsEvent (s : Statement) (r : ForkEventCore) : Bool :=
  match s.query with
  | .deleteForkEvents days => outdated s.now days r.detectedAt
  | _ => false

/-- A row that is not resolved may become so. -/
def resolveCore (s : Statement) (r : ForkEventCore) : ForkEventCore :=
  if r.resolved then r
  else match resolves r.chain r.blockNumber s with
    | none => r
    | some now => { r with resolved := true, resolvedAt := some now }

def turnEvent (s : Statement) (r : ForkEventCore) : Option ForkEventCore :=
  if dropsEvent s r then none else some (resolveCore s r)

theorem rewrites_turnEvent : Rewrites turnEvent dropsEvent resolveCore where
  turn := fun _ _ => rfl
  drops := by
    intro s s' r
    have hdetected : (resolveCore s' r).detectedAt = r.detectedAt := by
      unfold resolveCore
      split
      · rfl
      · split
        · rfl
        · rfl
    unfold dropsEvent
    rw [hdetected]

/-- A statement that neither drops nor resolves leaves the rows as they are. -/
theorem filterMap_turnEvent {s : Statement} (hdrops : ∀ r, dropsEvent s r = false)
    (hresolves : ∀ chain height, resolves chain height s = none) (l : List ForkEventCore) :
    l.filterMap (turnEvent s) = l := by
  have hturn : turnEvent s = some := by
    funext r
    unfold turnEvent resolveCore
    rw [hdrops, hresolves]
    simp
  rw [hturn]
  exact List.filterMap_some

/-- An update of the latest row that leaves its core alone. -/
theorem core_updateLatest {f : ForkEvent → ForkEvent} (hf : ∀ r, core (f r) = core r)
    (db : Database) (test : ForkEvent → Bool) (pick : Nat) :
    (db.updateLatest test pick f).forkEvents.map core = db.forkEvents.map core := by
  unfold updateLatest
  cases (db.latestForkEvents test)[pick]? with
  | none => rfl
  | some latest =>
      rw [List.map_map]
      refine List.map_congr_left fun r _ => ?_
      rw [Function.comp_apply]
      split
      · exact hf r
      · rfl

theorem core_resolveForkEvent (db : Database) (now : Int) (chain : ChainName) (blockNumber : Nat)
    (hash : Hash) : (db.resolveForkEvent now chain blockNumber).forkEvents.map core
      = (db.forkEvents.map core).filterMap
        (turnEvent ⟨now, .resolveForkEvent chain blockNumber hash⟩) := by
  unfold resolveForkEvent
  rw [List.map_map, List.filterMap_map, ← List.filterMap_eq_map]
  refine List.filterMap_congr fun r _ => ?_
  have hturn : turnEvent ⟨now, .resolveForkEvent chain blockNumber hash⟩ (core r)
      = some (resolveCore ⟨now, .resolveForkEvent chain blockNumber hash⟩ (core r)) := rfl
  rw [Function.comp_apply, Function.comp_apply, Function.comp_apply, hturn]
  congr 1
  unfold resolveCore resolves
  by_cases hmatch : r.chain = chain ∧ r.blockNumber ≤ blockNumber
  · obtain ⟨hchain, hheight⟩ := hmatch
    cases hresolved : r.resolved with
    | true => simp [core, hresolved]
    | false => simp [core, hresolved, hchain, hheight]
  · have hmatch' : ¬ (chain = r.chain ∧ r.blockNumber ≤ blockNumber) :=
      fun h => hmatch ⟨h.1.symm, h.2⟩
    rw [if_neg fun h => hmatch ⟨h.1, h.2.1⟩]
    simp [core, hmatch']

/-- **What a statement does to the rows.** -/
theorem core_execute (db : Database) (s : Statement) :
    (db.execute s).forkEvents.map core
      = (db.forkEvents.map core).filterMap (turnEvent s) ++ newEvent s := by
  obtain ⟨now, query⟩ := s
  cases query with
  | resolveForkEvent chain blockNumber hash =>
      exact (core_resolveForkEvent db now chain blockNumber hash).trans (List.append_nil _).symm
  | deleteForkEvents days =>
      have hturn : turnEvent ⟨now, .deleteForkEvents days⟩
          = fun r => if outdated now days r.detectedAt then none else some r := by
        funext r
        unfold turnEvent resolveCore
        simp [dropsEvent, resolves]
      have hfilter : ((db.forkEvents.filter fun r => !outdated now days r.detectedAt).map core)
          = (db.forkEvents.map core).filterMap (turnEvent ⟨now, .deleteForkEvents days⟩) := by
        rw [hturn, List.filterMap_map, ← List.filterMap_eq_filter, ← List.filterMap_eq_map,
          List.filterMap_filterMap]
        refine List.filterMap_congr fun r _ => ?_
        cases hout : outdated now days r.detectedAt with
        | true => simp [core, hout]
        | false => simp [core, hout]
      exact hfilter.trans (List.append_nil _).symm
  | insertForkEvent chain row =>
      rw [filterMap_turnEvent (fun _ => rfl) fun _ _ => rfl]
      exact List.map_append
  | updateCause chain height verdict pick =>
      rw [filterMap_turnEvent (fun _ => rfl) fun _ _ => rfl]
      exact (core_updateLatest (f := writeCause verdict) (fun _ => rfl) db _ pick).trans
        (List.append_nil _).symm
  | updateForkAuthors chain height authors pick =>
      rw [filterMap_turnEvent (fun _ => rfl) fun _ _ => rfl]
      exact (core_updateLatest (f := fun r => { r with authors }) (fun _ => rfl) db _ pick).trans
        (List.append_nil _).symm
  | insertForkBlock | insertFinalityLog | insertSubmittedTx | insertResubmitAttempt
  | updateRelayParent | updateBlockAuthor | deleteForkBlocks | deleteFinalityLog
  | deleteSubmittedTxs | deleteResubmitAttempts =>
      rw [filterMap_turnEvent (fun _ => rfl) fun _ _ => rfl]
      exact (List.append_nil _).symm

/-- The first statement that reaches a row resolves it. -/
theorem foldl_resolveCore (evs : List Statement) (r : ForkEventCore)
    (hr : r.resolved = r.resolvedAt.isSome) :
    evs.foldl (fun r s => resolveCore s r) r =
      { r with
        resolved := (r.resolvedAt.or (evs.findSome? (resolves r.chain r.blockNumber))).isSome
        resolvedAt := r.resolvedAt.or (evs.findSome? (resolves r.chain r.blockNumber)) } := by
  induction evs generalizing r with
  | nil => simp [← hr]
  | cons s evs ih =>
      rw [List.foldl_cons, List.findSome?_cons]
      cases hat : r.resolvedAt with
      | some t =>
          have hsame : resolveCore s r = r := by simp [resolveCore, hr, hat]
          rw [hsame, ih r hr, hat]
          rfl
      | none =>
          have hopen : r.resolved = false := by rw [hr, hat]; rfl
          cases hres : resolves r.chain r.blockNumber s with
          | none =>
              have hsame : resolveCore s r = r := by simp [resolveCore, hopen, hres]
              rw [hsame, ih r hr, hat]
          | some now =>
              have hset : resolveCore s r = { r with resolved := true, resolvedAt := some now } := by
                simp [resolveCore, hopen, hres]
              rw [hset, ih _ rfl]
              rfl

/-- What a run leaves of a row, given the statements after its insertion. -/
def eventNow (later : List Statement) (r : ForkEventCore) : Option ForkEventCore :=
  if later.any (dropsEvent · r) then none
  else some
    { r with
      resolved := (later.findSome? (resolves r.chain r.blockNumber)).isSome
      resolvedAt := later.findSome? (resolves r.chain r.blockNumber) }

theorem life_of_mem_births {evs : List Statement} {b : ForkEventCore × List Statement}
    (hb : b ∈ births newEvent evs) : life turnEvent b.2 b.1 = eventNow b.2 b.1 := by
  have hfresh : b.1.resolved = false ∧ b.1.resolvedAt = none := by
    induction evs with
    | nil => exact absurd hb (by simp [births])
    | cons s evs ih =>
        rcases List.mem_append.mp hb with hb | hb
        · obtain ⟨r, hr, rfl⟩ := List.mem_map.mp hb
          unfold newEvent at hr
          split at hr
          · rw [List.mem_singleton.mp hr]
            exact ⟨rfl, rfl⟩
          · exact absurd hr (by simp)
        · exact ih hb
  obtain ⟨hopen, hat⟩ := hfresh
  rw [rewrites_turnEvent.life_eq, foldl_resolveCore _ _ (by rw [hopen, hat]; rfl), hat]
  rfl

/-- **The rows of `fork_events`.** -/
theorem fork_event_table (evs : List Statement) :
    (machine.run evs).forkEvents.map core
      = (births newEvent evs).filterMap fun b => eventNow b.2 b.1 := by
  have hrun := table_runFrom (m := machine) (fun db => db.forkEvents.map core) core_execute
    machine.init evs
  refine hrun.trans ((List.nil_append _).trans ?_)
  exact List.filterMap_congr fun b hb => life_of_mem_births hb

/-! ## The verdicts -/

/-- What `analyzeForkCause` writes. -/
structure VerdictColumns where
  cause : Option Cause
  relayHeight : Option Nat
  sameAuthor : Option Bool
  sameRelay : Option Bool
  sameParent : Option Bool
  deriving DecidableEq

def columns (r : ForkEvent) : VerdictColumns where
  cause := r.cause
  relayHeight := r.relayHeight
  sameAuthor := r.sameAuthor
  sameRelay := r.sameRelay
  sameParent := r.sameParent

/-- The columns of a row without a verdict. -/
def unwritten : VerdictColumns := ⟨none, none, none, none, none⟩

/-- The columns a verdict fills in. -/
def written (v : CauseVerdict) : VerdictColumns where
  cause := some v.cause
  relayHeight := v.relayHeight
  sameAuthor := some v.sameAuthor
  sameRelay := some (v.sameRelayNumber && v.sameRelayHash)
  sameParent := some v.sameParent

/-- The serial numbers are given out once, in order. -/
structure Numbered (db : Database) : Prop where
  increasing : db.forkEvents.Pairwise fun r r' => r.id < r'.id
  below : ∀ r ∈ db.forkEvents, r.id < db.nextForkEvent

theorem Numbered.eq_of_id {db : Database} (h : Numbered db) {r r' : ForkEvent}
    (hr : r ∈ db.forkEvents) (hr' : r' ∈ db.forkEvents) (hid : r.id = r'.id) : r = r' := by
  have hnodup : (db.forkEvents.map ForkEvent.id).Nodup :=
    List.pairwise_map.mpr (h.increasing.imp fun hlt => Nat.ne_of_lt hlt)
  exact List.inj_on_of_nodup_map hnodup hr hr' hid

/-- Rewriting rows does not renumber them. -/
theorem Numbered.map {db db' : Database} (h : Numbered db) {f : ForkEvent → ForkEvent}
    (hf : ∀ r, (f r).id = r.id) (hrows : db'.forkEvents = db.forkEvents.map f)
    (hnext : db'.nextForkEvent = db.nextForkEvent) : Numbered db' where
  increasing := by
    rw [hrows, List.pairwise_map]
    refine h.increasing.imp fun hlt => ?_
    rw [hf, hf]
    exact hlt
  below := by
    rw [hrows, hnext]
    intro r' hr'
    obtain ⟨r, hr, rfl⟩ := List.mem_map.mp hr'
    rw [hf]
    exact h.below r hr

theorem numbered_updateLatest {db : Database} (h : Numbered db) {f : ForkEvent → ForkEvent}
    (hf : ∀ r, (f r).id = r.id) (test : ForkEvent → Bool) (pick : Nat) :
    Numbered (db.updateLatest test pick f) := by
  unfold updateLatest
  cases (db.latestForkEvents test)[pick]? with
  | none => exact h
  | some latest =>
      refine h.map (f := fun r => if r.id = latest.id then f r else r) (fun r => ?_) rfl rfl
      split
      · exact hf r
      · rfl

theorem numbered_execute {db : Database} (h : Numbered db) (s : Statement) :
    Numbered (db.execute s) := by
  obtain ⟨now, query⟩ := s
  cases query with
  | insertForkEvent chain row =>
      refine ⟨List.pairwise_append.mpr ⟨h.increasing, List.pairwise_singleton .., ?_⟩, ?_⟩
      · intro r hr r' hr'
        rw [List.mem_singleton.mp hr']
        exact h.below r hr
      · intro r hr
        rcases List.mem_append.mp hr with hr | hr
        · exact Nat.lt_succ_of_lt (h.below r hr)
        · rw [List.mem_singleton.mp hr]
          exact Nat.lt_succ_self _
  | deleteForkEvents days =>
      exact ⟨h.increasing.filter _, fun r hr => h.below r (List.mem_filter.mp hr).1⟩
  | resolveForkEvent chain blockNumber hash =>
      refine h.map (fun r => ?_) rfl rfl
      split
      · rfl
      · rfl
  | updateCause chain height verdict pick =>
      exact numbered_updateLatest h (f := writeCause verdict) (fun _ => rfl) _ pick
  | updateForkAuthors chain height authors pick =>
      exact numbered_updateLatest h (f := fun r => { r with authors }) (fun _ => rfl) _ pick
  | insertForkBlock | insertFinalityLog | insertSubmittedTx | insertResubmitAttempt
  | updateRelayParent | updateBlockAuthor | deleteForkBlocks | deleteFinalityLog
  | deleteSubmittedTxs | deleteResubmitAttempts => exact ⟨h.increasing, h.below⟩

theorem numbered_run (evs : List Statement) : Numbered (machine.run evs) :=
  Machine.run_invariant (A := fun _ => True) (I := Numbered)
    ⟨List.Pairwise.nil, fun _ hr => absurd hr List.not_mem_nil⟩
    (fun _ s h _ => numbered_execute h s) fun _ _ => trivial

/-- A statement that fills in the verdict of a fork at this height. -/
def writesVerdict (chain : ChainName) (height : Nat) (s : Statement) : Bool :=
  match s.query with
  | .updateCause c h _ _ => c = chain ∧ h = height
  | _ => false

/-- How a row came out of a step: with the same verdict, or with its first one. -/
structure Stays (s : Statement) (r r' : ForkEvent) : Prop where
  id : r'.id = r.id
  chain : r'.chain = r.chain
  blockNumber : r'.blockNumber = r.blockNumber
  verdict : columns r' = columns r ∨ r.cause = none ∧
    ∃ v pick, s.query = .updateCause r.chain r.blockNumber v pick ∧ columns r' = written v

theorem Stays.same {s : Statement} (r : ForkEvent) : Stays s r r := ⟨rfl, rfl, rfl, Or.inl rfl⟩

/-- The rows that an update of the latest row may change. -/
theorem mem_updateLatest {db : Database} (h : Numbered db) {test : ForkEvent → Bool} {pick : Nat}
    {f : ForkEvent → ForkEvent} {r' : ForkEvent}
    (hr' : r' ∈ (db.updateLatest test pick f).forkEvents) :
    r' ∈ db.forkEvents ∨ ∃ r ∈ db.forkEvents, test r = true ∧ r' = f r := by
  unfold updateLatest at hr'
  cases hlatest : (db.latestForkEvents test)[pick]? with
  | none =>
      rw [hlatest] at hr'
      exact Or.inl hr'
  | some latest =>
      rw [hlatest] at hr'
      obtain ⟨hmem, htest⟩ := List.mem_filter.mp (List.mem_of_getElem? hlatest)
      obtain ⟨r, hr, rfl⟩ := List.mem_map.mp hr'
      split
      · rename_i hid
        rw [h.eq_of_id hr hmem hid]
        exact Or.inr ⟨latest, hmem, ((Bool.and_eq_true ..).mp htest).1, rfl⟩
      · exact Or.inl hr

/-- **What a statement does to the verdicts.** -/
theorem stays_execute {db : Database} (h : Numbered db) (s : Statement) {r' : ForkEvent}
    (hr' : r' ∈ (db.execute s).forkEvents) :
    (r'.id = db.nextForkEvent ∧ columns r' = unwritten) ∨
      ∃ r ∈ db.forkEvents, Stays s r r' := by
  obtain ⟨now, query⟩ := s
  cases query with
  | insertForkEvent chain row =>
      rcases List.mem_append.mp hr' with hr' | hr'
      · exact Or.inr ⟨r', hr', Stays.same r'⟩
      · rw [List.mem_singleton.mp hr']
        exact Or.inl ⟨rfl, rfl⟩
  | deleteForkEvents days => exact Or.inr ⟨r', (List.mem_filter.mp hr').1, Stays.same r'⟩
  | resolveForkEvent chain blockNumber hash =>
      obtain ⟨r, hr, rfl⟩ := List.mem_map.mp hr'
      refine Or.inr ⟨r, hr, ?_⟩
      split
      · exact ⟨rfl, rfl, rfl, Or.inl rfl⟩
      · exact Stays.same r
  | updateCause chain height verdict pick =>
      rcases mem_updateLatest h hr' with hr' | ⟨r, hr, htest, rfl⟩
      · exact Or.inr ⟨r', hr', Stays.same r'⟩
      · obtain ⟨hchain, hheight, hnone⟩ := of_decide_eq_true htest
        refine Or.inr ⟨r, hr, rfl, rfl, rfl, Or.inr ⟨hnone, verdict, pick, ?_, rfl⟩⟩
        rw [hchain, hheight]
  | updateForkAuthors chain height authors pick =>
      rcases mem_updateLatest h hr' with hr' | ⟨r, hr, -, rfl⟩
      · exact Or.inr ⟨r', hr', Stays.same r'⟩
      · exact Or.inr ⟨r, hr, rfl, rfl, rfl, Or.inl rfl⟩
  | insertForkBlock | insertFinalityLog | insertSubmittedTx | insertResubmitAttempt
  | updateRelayParent | updateBlockAuthor | deleteForkBlocks | deleteFinalityLog
  | deleteSubmittedTxs | deleteResubmitAttempts => exact Or.inr ⟨r', hr', Stays.same r'⟩

theorem nextForkEvent_execute (db : Database) (s : Statement) :
    db.nextForkEvent ≤ (db.execute s).nextForkEvent := by
  have hlatest : ∀ test pick f, (db.updateLatest test pick f).nextForkEvent = db.nextForkEvent := by
    intro test pick f
    unfold updateLatest
    split
    · rfl
    · rfl
  obtain ⟨now, query⟩ := s
  cases query with
  | insertForkEvent chain row => exact Nat.le_succ _
  | updateCause chain height verdict pick => exact Nat.le_of_eq (hlatest ..).symm
  | updateForkAuthors chain height authors pick => exact Nat.le_of_eq (hlatest ..).symm
  | resolveForkEvent | deleteForkEvents | insertForkBlock | insertFinalityLog
  | insertSubmittedTx | insertResubmitAttempt | updateRelayParent | updateBlockAuthor
  | deleteForkBlocks | deleteFinalityLog | deleteSubmittedTxs | deleteResubmitAttempts =>
      exact Nat.le_refl _

theorem nextForkEvent_runFrom (db : Database) (evs : List Statement) :
    db.nextForkEvent ≤ (machine.runFrom db evs).nextForkEvent := by
  induction evs generalizing db with
  | nil => exact Nat.le_refl _
  | cons s evs ih => exact Nat.le_trans (nextForkEvent_execute db s) (ih _)

/-- A verdict, once written, is not written again while its row is there. -/
theorem latched_runFrom {db : Database} (h : Numbered db) {r : ForkEvent}
    (hr : r ∈ db.forkEvents) (hcause : r.cause ≠ none) (evs : List Statement) :
    ∀ r' ∈ (machine.runFrom db evs).forkEvents, r'.id = r.id → columns r' = columns r := by
  induction evs using List.reverseRecOn with
  | nil =>
      intro r' hr' hid
      rw [h.eq_of_id hr' hr hid]
  | append_singleton evs s ih =>
      have hnumbered : Numbered (machine.runFrom db evs) :=
        Machine.guarded_invariant_from (G := fun _ _ => True) (I := Numbered)
          (fun _ s h _ => numbered_execute h s) h
          (Machine.guarded_of_forall (A := fun _ => True) fun _ _ => trivial)
      intro r' hr' hid
      rw [Machine.runFrom_append] at hr'
      rcases stays_execute hnumbered s hr' with ⟨hnew, -⟩ | ⟨r₁, hr₁, hstays⟩
      · -- a new row has a number of its own
        have hlt := Nat.lt_of_lt_of_le (h.below r hr) (nextForkEvent_runFrom db evs)
        omega
      · have hsame := ih r₁ hr₁ (hstays.id.symm.trans hid)
        rcases hstays.verdict with hverdict | ⟨hnone, -⟩
        · exact hverdict.trans hsame
        · have hcause₁ : r₁.cause = r.cause := congrArg VerdictColumns.cause hsame
          exact absurd (hcause₁.symm.trans hnone) hcause

theorem sourced_verdict (evs : List Statement) : ∀ r ∈ (machine.run evs).forkEvents,
    columns r = unwritten ∨ ∃ now v pick,
      ⟨now, .updateCause r.chain r.blockNumber v pick⟩ ∈ evs ∧ columns r = written v := by
  induction evs using List.reverseRecOn with
  | nil => exact fun r hr => absurd hr List.not_mem_nil
  | append_singleton evs s ih =>
      intro r' hr'
      rw [Machine.run_snoc] at hr'
      rcases stays_execute (numbered_run evs) s hr' with ⟨-, hnew⟩ | ⟨r, hr, hstays⟩
      · exact Or.inl hnew
      · rw [hstays.chain, hstays.blockNumber]
        rcases hstays.verdict with hsame | ⟨-, v, pick, hquery, hwritten⟩
        · rcases ih r hr with hnone | ⟨now, v, pick, hmem, hwritten⟩
          · exact Or.inl (hsame.trans hnone)
          · exact Or.inr ⟨now, v, pick, List.mem_append_left _ hmem, hsame.trans hwritten⟩
        · refine Or.inr ⟨s.now, v, pick, List.mem_append_right _ ?_, hwritten⟩
          rw [← hquery]
          exact List.mem_singleton_self s

/-- The row is one of this height, and its verdict is there. -/
def hasVerdict (chain : ChainName) (height : Nat) (r : ForkEvent) : Bool :=
  r.chain = chain ∧ r.blockNumber = height ∧ r.cause ≠ none

theorem countP_updateLatest {db : Database} (h : Numbered db) (test : ForkEvent → Bool)
    (pick : Nat) (f : ForkEvent → ForkEvent) (p : ForkEvent → Bool) :
    (db.updateLatest test pick f).forkEvents.countP p ≤ db.forkEvents.countP p + 1 := by
  unfold updateLatest
  split
  · exact Nat.le_succ _
  · have hnodup : (db.forkEvents.map ForkEvent.id).Nodup :=
      List.pairwise_map.mpr (h.increasing.imp fun hlt => Nat.ne_of_lt hlt)
    exact countP_rewrite_le hnodup _ f p

/-- Rows that an update leaves as they are, as far as a test can tell. -/
theorem countP_updateLatest_eq {db : Database} (h : Numbered db) {test : ForkEvent → Bool}
    {pick : Nat} {f : ForkEvent → ForkEvent} {p : ForkEvent → Bool}
    (hp : ∀ r, test r = true → p (f r) = p r) :
    (db.updateLatest test pick f).forkEvents.countP p = db.forkEvents.countP p := by
  unfold updateLatest
  cases hlatest : (db.latestForkEvents test)[pick]? with
  | none => rfl
  | some latest =>
      obtain ⟨hmem, htest⟩ := List.mem_filter.mp (List.mem_of_getElem? hlatest)
      rw [List.countP_map]
      refine List.countP_congr fun r hr => ?_
      rw [Function.comp_apply]
      split
      · rename_i hid
        rw [h.eq_of_id hr hmem hid, hp latest ((Bool.and_eq_true ..).mp htest).1]
      · rfl

/-- **One statement, one verdict at most.** -/
theorem verdicts_execute {db : Database} (h : Numbered db) (s : Statement) (chain : ChainName)
    (height : Nat) : (db.execute s).forkEvents.countP (hasVerdict chain height)
      ≤ db.forkEvents.countP (hasVerdict chain height) + (writesVerdict chain height s).toNat := by
  obtain ⟨now, query⟩ := s
  cases query with
  | insertForkEvent c row =>
      -- a row comes without a verdict
      have hcount : ((db.execute ⟨now, .insertForkEvent c row⟩).forkEvents).countP
          (hasVerdict chain height) = db.forkEvents.countP (hasVerdict chain height) := by
        refine List.countP_append.trans ?_
        simp [hasVerdict]
      exact Nat.le_of_eq hcount
  | deleteForkEvents days => exact List.Sublist.countP_le List.filter_sublist
  | resolveForkEvent c blockNumber hash =>
      refine Nat.le_of_eq (List.countP_map.trans (List.countP_congr fun r _ => ?_))
      rw [Function.comp_apply]
      split
      · rfl
      · rfl
  | updateCause c n verdict pick =>
      by_cases hsame : c = chain ∧ n = height
      · have hwrites : writesVerdict chain height ⟨now, .updateCause c n verdict pick⟩ = true :=
          decide_eq_true hsame
        rw [hwrites]
        exact countP_updateLatest h _ _ _ _
      · refine Nat.le_add_right_of_le (Nat.le_of_eq (countP_updateLatest_eq h fun r htest => ?_))
        obtain ⟨hchain, hheight, -⟩ := of_decide_eq_true htest
        -- the verdict goes to a row of another chain or height
        have hother : ¬ (r.chain = chain ∧ r.blockNumber = height) := by
          rw [hchain, hheight]
          exact hsame
        unfold hasVerdict
        rw [decide_eq_false fun hall => hother ⟨hall.1, hall.2.1⟩,
          decide_eq_false fun hall => hother ⟨hall.1, hall.2.1⟩]
  | updateForkAuthors c n authors pick =>
      exact Nat.le_of_eq (countP_updateLatest_eq h fun _ _ => rfl)
  | insertForkBlock | insertFinalityLog | insertSubmittedTx | insertResubmitAttempt
  | updateRelayParent | updateBlockAuthor | deleteForkBlocks | deleteFinalityLog
  | deleteSubmittedTxs | deleteResubmitAttempts => exact Nat.le_add_right ..

theorem verdicts_run (evs : List Statement) (chain : ChainName) (height : Nat) :
    (machine.run evs).forkEvents.countP (hasVerdict chain height)
      ≤ evs.countP (writesVerdict chain height) := by
  induction evs using List.reverseRecOn with
  | nil => exact Nat.zero_le _
  | append_singleton evs s ih =>
      have hstep := verdicts_execute (numbered_run evs) s chain height
      rw [Machine.run_snoc, List.countP_append, List.countP_singleton]
      cases hs : writesVerdict chain height s with
      | true =>
          rw [hs] at hstep
          exact Nat.le_trans hstep (Nat.add_le_add_right ih 1)
      | false =>
          rw [hs] at hstep
          exact Nat.le_trans hstep ih

/-- What the verdict columns of the table hold after a run. -/
structure Verdicts (evs : List Statement) : Prop where
  /-- A row keeps its verdict for as long as it is there. -/
  latched : ∀ pre post, evs = pre ++ post → ∀ r ∈ (machine.run pre).forkEvents, r.cause ≠ none →
    ∀ r' ∈ (machine.run evs).forkEvents, r'.id = r.id → columns r' = columns r
  /-- All columns of a verdict come from one analysis of the row's own height. -/
  sourced : ∀ r ∈ (machine.run evs).forkEvents, columns r = unwritten ∨ ∃ now v pick,
    ⟨now, .updateCause r.chain r.blockNumber v pick⟩ ∈ evs ∧ columns r = written v
  /-- There are no more verdicts than analyses. -/
  single : ∀ chain height, (machine.run evs).forkEvents.countP (hasVerdict chain height)
    ≤ evs.countP (writesVerdict chain height)

/-- **A verdict is written once**, whatever order the statements take effect in. -/
theorem cause_latched (evs : List Statement) : Verdicts evs where
  latched := by
    intro pre post hevs r hr hcause r' hr' hid
    rw [hevs, Machine.run_append] at hr'
    exact latched_runFrom (numbered_run pre) hr hcause post r' hr' hid
  sourced := sourced_verdict evs
  single := verdicts_run evs

end ForkWatch.Proof
