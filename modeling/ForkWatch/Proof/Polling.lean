import ForkWatch.Lib.LastWriter
import ForkWatch.Lib.Throttle
import ForkWatch.Chain.Polling
import ForkWatch.Proof.Acts

/-!
# Which node is asked for its pending pool

Rejections are forgotten together, at the first poll after a recheck is due. So at every
poll the node asked is the first connected one that has not rejected a call since the
last recheck, that recheck is at most `UNSUPPORTED_RECHECK_MS` old, and two of them are
more than that apart (`polling_exact`); calls that are answered late, after a recheck,
count for the time in which they are answered.

Nothing else the tracker does touches the set of rejecting nodes (`unsupported_step`).
-/

namespace ForkWatch.Proof

open Lib TxTracker PolledChain

/-! ## What leaves the rejecting nodes alone -/

theorem unsupported_foldl {α : Type} {f : TxTracker → α → TxTracker}
    (hf : ∀ t a, (f t a).unsupportedNodes = t.unsupportedNodes) (l : List α) (t : TxTracker) :
    (l.foldl f t).unsupportedNodes = t.unsupportedNodes :=
  List.foldlRecOn (motive := fun u => u.unsupportedNodes = t.unsupportedNodes) l f rfl
    fun u hu a _ => (hf u a).trans hu

theorem unsupported_startResubmitRetry (t : TxTracker) (record : RetryRecord) :
    (t.startResubmitRetry record).unsupportedNodes = t.unsupportedNodes := by
  obtain ⟨timers, ever, calls, rs, heq, -⟩ := startResubmitRetry_eq t record
  rw [heq]

theorem unsupported_finalize (t : TxTracker) (tx : Tx) (hash : Hash) (status : TxStatus)
    (extra : FinalizeExtra) :
    (t.finalize tx hash status extra).unsupportedNodes = t.unsupportedNodes := by
  unfold finalize
  split
  · rfl
  · rfl

theorem unsupported_resolveReorgEntry (t : TxTracker) (entry : ReorgEntry) :
    (t.resolveReorgEntry entry).unsupportedNodes = t.unsupportedNodes := by
  unfold resolveReorgEntry
  split
  · exact unsupported_finalize ..
  · split
    · rfl
    · exact unsupported_finalize ..

theorem unsupported_reviewHeight (F : Nat) (H : Hash) (tree : BlockTree) (t : TxTracker)
    (height : Nat) : (reviewHeight F H tree t height).unsupportedNodes = t.unsupportedNodes := by
  have hlosing : ∀ canonical (t : TxTracker) hash,
      (queueLosing height H canonical t hash).unsupportedNodes = t.unsupportedNodes := by
    intro canonical t hash
    unfold queueLosing
    split
    · rfl
    · split
      · rfl
      · refine unsupported_foldl (fun t tx => ?_) _ _
        exact unsupported_startResubmitRetry ..
  unfold reviewHeight
  split
  · rfl
  · unfold queueReorgReview
    split
    · rfl
    · exact unsupported_foldl (hlosing _) ..

theorem unsupported_onHeightFinalized (t : TxTracker) (F : Nat) (H : Hash) (tree : BlockTree) :
    (t.onHeightFinalized F H tree).unsupportedNodes = t.unsupportedNodes := by
  have hwalk : (walked t F H tree).unsupportedNodes = t.unsupportedNodes := by rw [walked_eq]
  have hheights := unsupported_foldl (unsupported_reviewHeight F H tree) tree.getForkedHeights
    (walked t F H tree)
  refine Eq.trans ?_ (hheights.trans hwalk)
  refine unsupported_foldl (fun u entry => ?_) _ _
  split
  · rfl
  · exact unsupported_resolveReorgEntry u entry

theorem unsupported_classifyMissing (t : TxTracker) (hash : Hash) (cand : Candidate) :
    (t.classifyMissing hash cand).unsupportedNodes = t.unsupportedNodes := by
  unfold classifyMissing
  split
  · exact unsupported_finalize ..
  · split
    · rfl
    · exact unsupported_finalize ..

theorem unsupported_pollPresent (t : TxTracker) (e : Hash × Tx) :
    (t.pollPresent e).unsupportedNodes = t.unsupportedNodes := by
  have hdebounce : (t.debounceReappeared e.1).unsupportedNodes = t.unsupportedNodes := by
    unfold debounceReappeared
    split
    · rfl
    · split
      · rfl
      · rfl
  unfold pollPresent
  dsimp only
  split
  · exact hdebounce
  · exact hdebounce

theorem unsupported_pollVanished (current : OrdMap Hash Tx) (t : TxTracker) (e : Hash × Tx) :
    (pollVanished current t e).unsupportedNodes = t.unsupportedNodes := by
  unfold pollVanished onTxLeftPool
  split
  · rfl
  · split
    · rfl
    · split
      · rfl
      · rfl

theorem unsupported_reviewCandidate (current : OrdMap Hash Tx) (t : TxTracker)
    (e : Hash × Candidate) :
    (reviewCandidate current t e).unsupportedNodes = t.unsupportedNodes := by
  unfold reviewCandidate
  split
  · rfl
  · split
    · rfl
    · dsimp only
      split
      · rfl
      · exact (unsupported_classifyMissing ..).trans (unsupported_startResubmitRetry ..)

/-- A pool that was answered rejects nobody. -/
theorem unsupported_pollPendingPool (t : TxTracker) (node : NodeName) (raw : List Extrinsic) :
    (t.pollPendingPool node (some raw)).unsupportedNodes = t.unsupportedNodes := by
  unfold pollPendingPool reviewMissingCandidates
  dsimp only
  rw [unsupported_foldl (unsupported_reviewCandidate _), unsupported_foldl unsupported_pollPresent,
    unsupported_foldl (unsupported_pollVanished _)]

/-- **Only a rejected poll adds to the rejecting nodes.** -/
theorem unsupported_step (c : ChainContext) {e : Event} (he : ∀ node, e ≠ .poll node none) :
    (c.step e).txTracker.unsupportedNodes = c.txTracker.unsupportedNodes := by
  have hstep := trackerStep c e
  generalize (c.step e).txTracker = t' at hstep ⊢
  cases hstep with
  | idle => rfl
  | captured i x n body =>
      obtain ⟨rs, heq, -⟩ := captureBody_eq c.txTracker x n body
      rw [heq]
  | pruned => rfl
  | finalized node F H => exact unsupported_onHeightFinalized ..
  | poll node answer =>
      cases answer with
      | none => exact absurd rfl (he node)
      | some raw => exact unsupported_pollPendingPool ..
  | retryTick x =>
      obtain ⟨timers, calls, rs, heq, -⟩ := retryTick_eq c.txTracker x
      rw [heq]
  | settled call results =>
      obtain ⟨calls, rs, heq, -⟩ := resubmitSettled_eq c.txTracker call results
      rw [heq]
  | connections => rfl

/-! ## What the polls say -/

/-- A node rejects, or its rejections are forgotten. -/
def rejection (node : NodeName) : PollReport → Option Bool
  | .rejected n => if n = node then some true else none
  | .recheck _ => some false
  | .asked .. | .noUnsafeRpc => none

/-- The node has rejected a call since the last recheck. -/
def rejects (node : NodeName) (polls : List PollReport) : Bool :=
  (latestOf (rejection node) polls).getD false

def recheckOf : PollReport → Option Int
  | .recheck now => some now
  | .asked .. | .noUnsafeRpc | .rejected _ => none

/-- When rejections were last forgotten. -/
def lastRecheck (polls : List PollReport) : Option Int := latestOf recheckOf polls

def warningOf : PollReport → Option Bool
  | .noUnsafeRpc => some true
  | .asked .. => some false
  | .recheck _ | .rejected _ => none

/-- The last poll found nobody to ask. -/
def warned (polls : List PollReport) : Bool := (latestOf warningOf polls).getD false

/-- When the poll timer fired. -/
def ticks (evs : List PollEvent) : List Int :=
  evs.filterMap fun e => match e with
    | .tick now _ => some now
    | .chain _ | .answered .. => none

/-- What a poll does first. -/
def opening (polls : List PollReport) (now : Int) : List PollReport :=
  if passes (UNSUPPORTED_RECHECK_MS + 1) (lastRecheck polls) now then [.recheck now] else []

/-- What a poll does then. -/
def asks (polls : List PollReport) (now : Int) (connections : List PollConnection) :
    List PollReport :=
  match connections.find? fun c => c.connected && !rejects c.nodeName polls with
  | some conn => [.asked now conn.nodeName]
  | none => if warned polls then [] else [.noUnsafeRpc]

/-- The state is what the polls say. -/
structure PollBooks (p : PolledChain) : Prop where
  unsupported : ∀ node, p.unsupportedNodes.has node = rejects node p.polls
  recheck : p.lastUnsupportedResetAt = lastRecheck p.polls
  warned : p.warnedNoUnsafeRpc = warned p.polls
  /-- Before the first poll there are no answers. -/
  start : p.lastUnsupportedResetAt = none → p.calls = [] ∧ ∀ node, rejects node p.polls = false

/-- The books after some more reports, none of them a recheck. -/
theorem PollBooks.more {p q : PolledChain} (h : PollBooks p) (rs : List PollReport)
    (hpolls : q.polls = p.polls ++ rs) (hno : lastRecheck rs = none)
    (hunsupported : ∀ node, q.unsupportedNodes.has node
      = (latestOf (rejection node) rs).getD (p.unsupportedNodes.has node))
    (hlast : q.lastUnsupportedResetAt = p.lastUnsupportedResetAt)
    (hwarned : q.warnedNoUnsafeRpc = (latestOf warningOf rs).getD p.warnedNoUnsafeRpc)
    (hstarted : p.lastUnsupportedResetAt ≠ none) : PollBooks q where
  unsupported := by
    intro node
    rw [hunsupported, h.unsupported, hpolls]
    unfold rejects
    rw [latestOf_append]
    cases latestOf (rejection node) rs <;> rfl
  recheck := by
    unfold lastRecheck at hno ⊢
    rw [hlast, h.recheck, hpolls, latestOf_append, hno, Option.none_or]
    rfl
  warned := by
    rw [hwarned, h.warned, hpolls]
    unfold Proof.warned
    rw [latestOf_append]
    cases latestOf warningOf rs <;> rfl
  start := fun hstart => absurd (hlast.symm.trans hstart) hstarted

/-- The books of a state that has started afresh. -/
theorem pollBooks_afresh {p q : PolledChain} (h : PollBooks p) {now : Int}
    (hpolls : q.polls = p.polls ++ [.recheck now]) (hlast : q.lastUnsupportedResetAt = some now)
    (hwarned : q.warnedNoUnsafeRpc = p.warnedNoUnsafeRpc)
    (hnone : ∀ node, q.unsupportedNodes.has node = false) : PollBooks q where
  unsupported := by
    intro node
    rw [hnone, hpolls]
    unfold rejects
    rw [latestOf_snoc]
    rfl
  recheck := by
    rw [hlast, hpolls]
    unfold lastRecheck
    rw [latestOf_snoc]
    rfl
  warned := by
    rw [hwarned, h.warned, hpolls]
    unfold Proof.warned
    rw [latestOf_snoc]
    rfl
  start := fun hstart => absurd (hlast.symm.trans hstart) (by simp)

theorem pollBooks_recheck {p : PolledChain} (h : PollBooks p) (now : Int) :
    PollBooks (p.recheck now) ∧ (p.recheck now).polls = p.polls ++ opening p.polls now := by
  unfold PolledChain.recheck opening
  rw [← h.recheck]
  cases hlast : p.lastUnsupportedResetAt with
  | none =>
      refine ⟨pollBooks_afresh h rfl rfl rfl fun node => ?_, rfl⟩
      exact (h.unsupported node).trans ((h.start hlast).2 node)
  | some last =>
      dsimp only
      split
      · rename_i hlate
        have hpasses : passes (UNSUPPORTED_RECHECK_MS + 1) (some last) now = true := by
          simp only [passes, Option.all_some, Bool.not_eq_true', decide_eq_false_iff_not]
          omega
        rw [hpasses]
        exact ⟨pollBooks_afresh h rfl rfl rfl fun _ => rfl, rfl⟩
      · rename_i hearly
        have hpasses : passes (UNSUPPORTED_RECHECK_MS + 1) (some last) now = false := by
          simp only [passes, Option.all_some, Bool.not_eq_false', decide_eq_true_eq]
          omega
        rw [hpasses]
        exact ⟨h, (List.append_nil _).symm⟩

/-- **After a poll, the last recheck is recent.** -/
theorem recent_opening (polls : List PollReport) (now : Int) :
    ∃ last, lastRecheck (polls ++ opening polls now) = some last ∧
      now - last ≤ UNSUPPORTED_RECHECK_MS := by
  unfold opening
  cases hpasses : passes (UNSUPPORTED_RECHECK_MS + 1) (lastRecheck polls) now with
  | true =>
      refine ⟨now, ?_, by unfold UNSUPPORTED_RECHECK_MS; omega⟩
      rw [if_pos rfl]
      unfold lastRecheck
      rw [latestOf_snoc]
      rfl
  | false =>
      rw [if_neg Bool.false_ne_true, List.append_nil]
      cases hlast : lastRecheck polls with
      | none => rw [hlast] at hpasses; exact absurd hpasses (by simp [passes])
      | some last =>
          rw [hlast] at hpasses
          simp only [passes, Option.all_some, Bool.not_eq_false', decide_eq_true_eq] at hpasses
          exact ⟨last, rfl, by omega⟩

/-- **One poll.** -/
theorem pollBooks_tick {p : PolledChain} (h : PollBooks p) (now : Int)
    (connections : List PollConnection) : PollBooks (p.tick now connections) ∧
      (p.tick now connections).polls = p.polls ++ opening p.polls now
        ++ asks (p.polls ++ opening p.polls now) now connections := by
  obtain ⟨hbooks, hpolls⟩ := pollBooks_recheck h now
  have hlast : (p.recheck now).lastUnsupportedResetAt ≠ none := by
    obtain ⟨last, hlast, -⟩ := recent_opening p.polls now
    rw [hbooks.recheck, hpolls, hlast]
    simp
  have hpick : (p.recheck now).pick connections
      = connections.find? fun c => c.connected && !rejects c.nodeName (p.recheck now).polls := by
    unfold PolledChain.pick
    congr 1
    funext c
    rw [hbooks.unsupported]
  unfold PolledChain.tick asks
  rw [← hpolls]
  dsimp only
  rw [hpick]
  cases hfound : connections.find? fun c =>
      c.connected && !rejects c.nodeName (p.recheck now).polls with
  | none =>
      dsimp only
      rw [← hbooks.warned]
      split
      · exact ⟨hbooks, (List.append_nil _).symm⟩
      · exact ⟨hbooks.more [.noUnsafeRpc] rfl rfl (fun _ => rfl) rfl rfl hlast, rfl⟩
  | some conn =>
      exact ⟨hbooks.more [.asked now conn.nodeName] rfl rfl (fun _ => rfl) rfl rfl hlast, rfl⟩

/-- An answer: only a rejection is remembered. -/
theorem pollBooks_answer {p : PolledChain} (h : PollBooks p) (call : Nat)
    (answer : Option (List Extrinsic)) : PollBooks (p.answer call answer) ∧
      ∃ rs, (p.answer call answer).polls = p.polls ++ rs ∧ rs.filterMap recheckOf = [] := by
  unfold PolledChain.answer
  cases hcall : p.calls[call]? with
  | none => exact ⟨h, [], (List.append_nil _).symm, rfl⟩
  | some node =>
      have hstarted : p.lastUnsupportedResetAt ≠ none := by
        intro hnone
        rw [(h.start hnone).1] at hcall
        exact absurd hcall (by simp)
      cases answer with
      | some raw =>
          have hsame := unsupported_step p.ctx (e := .poll node (some raw)) (by simp)
          refine ⟨h.more [] rfl rfl (fun n => ?_) rfl rfl hstarted, [], rfl, rfl⟩
          exact congrArg (fun s => OrdMap.has s n) hsame
      | none =>
          refine ⟨h.more [.rejected node] rfl rfl (fun n => ?_) rfl rfl hstarted,
            [.rejected node], rfl, rfl⟩
          refine (OrdMap.has_add p.unsupportedNodes node n).trans ?_
          by_cases hn : n = node
          · subst hn
            simp [latestOf, rejection]
          · have hn' : ¬ node = n := fun heq => hn heq.symm
            simp [latestOf, rejection, hn, hn']

/-- Of all that happens, only polls and their answers report. -/
theorem pollBooks_chain {p : PolledChain} (h : PollBooks p) (e : Event) :
    PollBooks (p.step (.chain e)) ∧ (p.step (.chain e)).polls = p.polls := by
  have hother : (∀ node answer, e ≠ .poll node answer) →
      PollBooks { p with ctx := p.ctx.step e } := by
    intro he
    have hsame := unsupported_step p.ctx fun node => he node none
    refine ⟨fun node => ?_, h.recheck, h.warned, h.start⟩
    exact (congrArg (fun s => OrdMap.has s node) hsame).trans (h.unsupported node)
  cases e with
  | poll node answer => exact ⟨h, rfl⟩
  | allHeads | finalizedHeads | resume | retryTick | resubmitSettled | connections
  | setupCausation | identities => exact ⟨hother (by simp), rfl⟩

/-! ## Over a run -/

variable {config : ChainConfig} {opts : TxOptions}

theorem pollBooks_run (evs : List PollEvent) : PollBooks ((machine config opts).run evs) := by
  refine Machine.run_invariant (A := fun _ => True) (I := PollBooks) ?_ ?_ fun _ _ => trivial
  · exact ⟨fun _ => rfl, rfl, rfl, fun _ => ⟨rfl, fun _ => rfl⟩⟩
  · intro p e h _
    cases e with
    | chain e => exact (pollBooks_chain h e).1
    | tick now connections => exact (pollBooks_tick h now connections).1
    | answered call answer => exact (pollBooks_answer h call answer).1

/-- The rechecks of a run. -/
def rechecks (polls : List PollReport) : List Int := polls.filterMap recheckOf

theorem rechecks_asks (polls : List PollReport) (now : Int) (connections : List PollConnection) :
    rechecks (asks polls now connections) = [] := by
  unfold asks
  split
  · rfl
  · split
    · rfl
    · rfl

/-- **The rechecks are the polls, throttled.** -/
theorem rechecks_run (evs : List PollEvent) :
    rechecks ((machine config opts).run evs).polls
        = throttled id (UNSUPPORTED_RECHECK_MS + 1) (ticks evs) ∧
      lastRecheck ((machine config opts).run evs).polls
        = lastThrottled id (UNSUPPORTED_RECHECK_MS + 1) (ticks evs) := by
  induction evs using List.reverseRecOn with
  | nil => exact ⟨rfl, rfl⟩
  | append_singleton evs e ih =>
      -- what is no tick reports no recheck
      have hquiet : ticks (evs ++ [e]) = ticks evs → ∀ rs,
          ((machine config opts).run (evs ++ [e])).polls
            = ((machine config opts).run evs).polls ++ rs → rechecks rs = [] →
          rechecks ((machine config opts).run (evs ++ [e])).polls
              = throttled id (UNSUPPORTED_RECHECK_MS + 1) (ticks (evs ++ [e])) ∧
            lastRecheck ((machine config opts).run (evs ++ [e])).polls
              = lastThrottled id (UNSUPPORTED_RECHECK_MS + 1) (ticks (evs ++ [e])) := by
        intro hticks rs hpolls hrs
        have hnone : latestOf recheckOf rs = none :=
          latestOf_eq_none (List.filterMap_eq_nil_iff.mp hrs)
        rw [hticks, hpolls, ← ih.1, ← ih.2]
        refine ⟨?_, ?_⟩
        · exact (List.filterMap_append ..).trans ((congrArg _ hrs).trans (List.append_nil _))
        · unfold lastRecheck
          rw [latestOf_append, hnone, Option.none_or]
      have hbooks : PollBooks ((machine config opts).run evs) := pollBooks_run evs
      cases e with
      | chain e =>
          refine hquiet (by simp [ticks]) [] ?_ rfl
          rw [Machine.run_snoc]
          exact (pollBooks_chain hbooks e).2.trans (List.append_nil _).symm
      | answered call answer =>
          obtain ⟨rs, hpolls, hrs⟩ := (pollBooks_answer hbooks call answer).2
          refine hquiet (by simp [ticks]) rs ?_ hrs
          rw [Machine.run_snoc]
          exact hpolls
      | tick now connections =>
          have hticks : ticks (evs ++ [.tick now connections]) = ticks evs ++ [now] := by
            simp [ticks]
          have hpolls := (pollBooks_tick hbooks now connections).2
          rw [Machine.run_snoc, hticks, throttled_snoc, lastThrottled_snoc]
          have hstep : ((machine config opts).step ((machine config opts).run evs)
              (.tick now connections)).polls = _ := hpolls
          -- the asking that follows the recheck reports none of its own
          have hasks := rechecks_asks (((machine config opts).run evs).polls
            ++ opening ((machine config opts).run evs).polls now) now connections
          have hnone : latestOf recheckOf (asks (((machine config opts).run evs).polls
              ++ opening ((machine config opts).run evs).polls now) now connections) = none :=
            latestOf_eq_none (List.filterMap_eq_nil_iff.mp hasks)
          rw [hstep, ← ih.1, ← ih.2]
          unfold rechecks at hasks ⊢
          unfold lastRecheck at hnone ⊢
          rw [List.filterMap_append, List.filterMap_append, hasks, List.append_nil,
            latestOf_append, hnone, Option.none_or, latestOf_append]
          unfold opening lastRecheck
          rw [id_eq]
          cases passes (UNSUPPORTED_RECHECK_MS + 1)
              (latestOf recheckOf ((machine config opts).run evs).polls) now with
          | true => exact ⟨rfl, rfl⟩
          | false => exact ⟨rfl, rfl⟩

/-- The reports when a poll picks its node. -/
def atPoll (config : ChainConfig) (opts : TxOptions) (pre : List PollEvent) (now : Int) :
    List PollReport :=
  ((machine config opts).run pre).polls ++ opening ((machine config opts).run pre).polls now

/-- How a run polls. -/
structure PollingExact (config : ChainConfig) (opts : TxOptions) (evs : List PollEvent) :
    Prop where
  /-- The rejecting nodes are those that rejected a call since the last recheck. -/
  unsupported : ∀ node, ((machine config opts).run evs).unsupportedNodes.has node
    = rejects node ((machine config opts).run evs).polls
  /-- Two rechecks are more than `UNSUPPORTED_RECHECK_MS` apart. -/
  apart : (rechecks ((machine config opts).run evs).polls).Pairwise
    fun t t' => t + UNSUPPORTED_RECHECK_MS < t'
  /-- At a poll, the last recheck is recent. -/
  recent : ∀ pre now connections post, evs = pre ++ .tick now connections :: post →
    ∃ last, lastRecheck (atPoll config opts pre now) = some last ∧
      now - last ≤ UNSUPPORTED_RECHECK_MS
  /-- The node asked is the first connected one that has not rejected a call since. -/
  asked : ∀ pre now connections post, evs = pre ++ .tick now connections :: post →
    ((machine config opts).run (pre ++ [.tick now connections])).polls
      = atPoll config opts pre now ++ asks (atPoll config opts pre now) now connections

/-- **Who is asked for its pending pool.** -/
theorem polling_exact (config : ChainConfig) (opts : TxOptions) (evs : List PollEvent) :
    PollingExact config opts evs where
  unsupported := (pollBooks_run evs).unsupported
  apart := by
    rw [(rechecks_run evs).1]
    have hspaced : Spaced id (UNSUPPORTED_RECHECK_MS + 1)
        (throttled id (UNSUPPORTED_RECHECK_MS + 1) (ticks evs)) :=
      throttled_spaced (by unfold UNSUPPORTED_RECHECK_MS; omega) _
    refine hspaced.imp fun hgap => ?_
    simp only [id] at hgap
    omega
  recent := fun pre now _ _ _ => recent_opening ((machine config opts).run pre).polls now
  asked := by
    intro pre now connections post _
    rw [Machine.run_snoc]
    exact (pollBooks_tick (pollBooks_run pre) now connections).2

end ForkWatch.Proof
