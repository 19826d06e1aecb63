import ForkWatch.Lib.LastWriter
import ForkWatch.Lib.Throttle
import ForkWatch.Monitor.FinalityTracker

/-!
# What the finality gauges and the finality log say

The heads of many nodes come in in any order. After every run, the gauges of a node
show its latest heads, and their distance as soon as it has both (`gauges_mirror`).

The finality log of a node is its finalized heads, throttled (`finality_log`): two rows
are an interval apart, so no stretch of time holds more than its share of them; and
as long as the clock does not go back, no finalized head is more than an interval away
from a sample. A sample taken before the node has shown a best head writes no row, but
uses up its interval.
-/

namespace ForkWatch.Proof

open Lib FinalityTracker

/-! ## What a step does -/

/-- What `updateLag` reports. -/
def lagReports (node : NodeName) : Option Nat → Option Nat → List FinalityReport
  | some best, some finalized => [.finalityLag node (best - finalized)]
  | _, _ => []

theorem updateLag_eq (t : FinalityTracker) (node : NodeName) :
    t.updateLag node = { t with
      history := t.history ++ lagReports node (t.bestHeads.get? node)
        (t.finalizedHeads.get? node) } := by
  unfold updateLag
  cases t.bestHeads.get? node with
  | none => simp [lagReports]
  | some best =>
      cases t.finalizedHeads.get? node with
      | none => simp [lagReports]
      | some finalized => rfl

/-- The row of a sample, once both heads are known. -/
def logRow (node : NodeName) : Option Nat → Option Nat → Option FinalityLogRow
  | some best, some finalized =>
      some { node, bestHeight := best, finalizedHeight := finalized, lag := best - finalized }
  | _, _ => none

theorem node_of_logRow {node : NodeName} {best finalized : Option Nat} {row : FinalityLogRow}
    (h : logRow node best finalized = some row) : row.node = node := by
  unfold logRow at h
  split at h
  · rw [← Option.some.inj h]
  · exact absurd h (by simp)

/-- When the node was last sampled. -/
def lastSample (t : FinalityTracker) (node : NodeName) : Int := (t.lastLogTime.get? node).getD 0

theorem maybeSampleFinalityLog_eq (t : FinalityTracker) (node : NodeName) (now : Int) :
    t.maybeSampleFinalityLog node now =
      if now - lastSample t node < t.interval then t
      else { t with
        lastLogTime := t.lastLogTime.set node now
        history := t.history ++ ((logRow node (t.bestHeads.get? node)
          (t.finalizedHeads.get? node)).map (.insertFinalityLog now)).toList } := by
  unfold maybeSampleFinalityLog lastSample
  split
  · rfl
  · dsimp only
    cases t.bestHeads.get? node with
    | none => simp [logRow]
    | some best =>
        cases t.finalizedHeads.get? node with
        | none => simp [logRow]
        | some finalized => rfl

/-! ## What the handlers brought -/

/-- The best head an event brings for a node. -/
def bestOf (node : NodeName) : HeadEvent → Option Nat
  | .newHead n height => if n = node then some height else none
  | .finalizedHead .. => none

/-- The finalized head an event brings for a node. -/
def finalizedOf (node : NodeName) : HeadEvent → Option Nat
  | .newHead .. => none
  | .finalizedHead n height _ => if n = node then some height else none

/-- What the best gauge of a node is set to. -/
def showsBest (node : NodeName) : FinalityReport → Option Nat
  | .bestBlockHeight n height => if n = node then some height else none
  | _ => none

/-- What the finalized gauge of a node is set to. -/
def showsFinalized (node : NodeName) : FinalityReport → Option Nat
  | .finalizedBlockHeight n height => if n = node then some height else none
  | _ => none

/-- What the lag gauge of a node is set to. -/
def showsLag (node : NodeName) : FinalityReport → Option Int
  | .finalityLag n lag => if n = node then some lag else none
  | _ => none

/-- How far finality is behind, when both heads are known. -/
def lagOf (best finalized : Option Nat) : Option Int :=
  best.bind fun b => finalized.map fun f => (b : Int) - f

theorem showsLag_lagReports (node n : NodeName) (best finalized : Option Nat) :
    latestOf (showsLag node) (lagReports n best finalized)
      = if n = node then lagOf best finalized else none := by
  cases best with
  | none => simp [lagReports, lagOf]
  | some b =>
      cases finalized with
      | none => simp [lagReports, lagOf]
      | some f => exact latestOf_singleton ..

/-- The lag reports set no other gauge. -/
theorem mem_lagReports {n : NodeName} {best finalized : Option Nat} {r : FinalityReport}
    (h : r ∈ lagReports n best finalized) : ∃ lag, r = .finalityLag n lag := by
  unfold lagReports at h
  split at h
  · exact ⟨_, List.mem_singleton.mp h⟩
  · exact absurd h (by simp)

/-- The maps and the gauges of a node hold these heads. -/
structure ShowsHeads (node : NodeName) (best finalized : Option Nat) (t : FinalityTracker) :
    Prop where
  bestHeads : t.bestHeads.get? node = best
  finalizedHeads : t.finalizedHeads.get? node = finalized
  bestGauge : latestOf (showsBest node) t.history = best
  finalizedGauge : latestOf (showsFinalized node) t.history = finalized
  lagGauge : latestOf (showsLag node) t.history = lagOf best finalized

section Shows

variable {node n : NodeName} {best finalized : Option Nat} {t : FinalityTracker}

/-- Of another node, nothing is shown. -/
theorem ShowsHeads.aside (h : ShowsHeads node best finalized t) {t' : FinalityTracker}
    (hbest : t'.bestHeads.get? node = t.bestHeads.get? node)
    (hfin : t'.finalizedHeads.get? node = t.finalizedHeads.get? node)
    (rs : List FinalityReport) (hhist : t'.history = t.history ++ rs)
    (hno : ∀ r ∈ rs, showsBest node r = none ∧ showsFinalized node r = none ∧
      showsLag node r = none) : ShowsHeads node best finalized t' where
  bestHeads := hbest.trans h.bestHeads
  finalizedHeads := hfin.trans h.finalizedHeads
  bestGauge := by
    rw [hhist, latestOf_append, latestOf_eq_none fun r hr => (hno r hr).1]
    exact h.bestGauge
  finalizedGauge := by
    rw [hhist, latestOf_append, latestOf_eq_none fun r hr => (hno r hr).2.1]
    exact h.finalizedGauge
  lagGauge := by
    rw [hhist, latestOf_append, latestOf_eq_none fun r hr => (hno r hr).2.2]
    exact h.lagGauge

/-- A head of the node is shown, and its lag with it. -/
theorem ShowsHeads.update (h : ShowsHeads node best finalized t) {t' : FinalityTracker}
    {best' finalized' : Option Nat} (hbest : t'.bestHeads.get? node = best')
    (hfin : t'.finalizedHeads.get? node = finalized') (r : FinalityReport)
    (hhist : t'.history = t.history ++ r :: lagReports node best' finalized')
    (hshowsBest : (showsBest node r).or best = best')
    (hshowsFin : (showsFinalized node r).or finalized = finalized')
    (hshowsLag : showsLag node r = none)
    (hstill : lagOf best' finalized' = none → lagOf best finalized = none) :
    ShowsHeads node best' finalized' t' := by
  have hsplit : t'.history = t.history ++ [r] ++ lagReports node best' finalized' := by
    rw [hhist, List.append_assoc]
    rfl
  refine ⟨hbest, hfin, ?_, ?_, ?_⟩
  · have hnone : latestOf (showsBest node) (lagReports node best' finalized') = none := by
      refine latestOf_eq_none fun r hr => ?_
      obtain ⟨lag, rfl⟩ := mem_lagReports hr
      rfl
    rw [hsplit, latestOf_append, hnone, Option.none_or, latestOf_snoc, h.bestGauge, hshowsBest]
  · have hnone : latestOf (showsFinalized node) (lagReports node best' finalized') = none := by
      refine latestOf_eq_none fun r hr => ?_
      obtain ⟨lag, rfl⟩ := mem_lagReports hr
      rfl
    rw [hsplit, latestOf_append, hnone, Option.none_or, latestOf_snoc, h.finalizedGauge, hshowsFin]
  · rw [hsplit, latestOf_append, latestOf_snoc, h.lagGauge, hshowsLag, Option.none_or,
      showsLag_lagReports, if_pos rfl]
    cases hlag : lagOf best' finalized' with
    | none => rw [hstill hlag]; rfl
    | some lag => rfl

/-- Nothing of another node's lag is shown. -/
theorem unseen_lagReports (hn : n ≠ node) (best finalized : Option Nat) :
    ∀ r ∈ lagReports n best finalized, showsBest node r = none ∧ showsFinalized node r = none ∧
      showsLag node r = none := by
  intro r hr
  obtain ⟨lag, rfl⟩ := mem_lagReports hr
  exact ⟨rfl, rfl, if_neg hn⟩

theorem shows_onBestHead (h : ShowsHeads node best finalized t) (n : NodeName) (height : Nat) :
    ShowsHeads node ((bestOf node (.newHead n height)).or best) finalized
      (t.onBestHead n height) := by
  unfold onBestHead
  rw [updateLag_eq]
  by_cases hn : n = node
  · subst hn
    have hbest : (bestOf n (.newHead n height)).or best = some height := by simp [bestOf]
    rw [hbest]
    refine h.update (by simp [emit]) (by simp [emit, h.finalizedHeads])
      (.bestBlockHeight n height) ?_ (by simp [showsBest]) rfl rfl ?_
    · simp [emit, h.finalizedHeads]
    · cases finalized with
      | none => cases best <;> exact fun _ => rfl
      | some f => exact fun hnone => absurd hnone (by simp [lagOf])
  · have hbest : (bestOf node (.newHead n height)).or best = best := by simp [bestOf, hn]
    rw [hbest]
    refine h.aside (OrdMap.get?_set_ne _ _ fun heq => hn heq.symm) rfl
      (.bestBlockHeight n height :: lagReports n _ _) (List.append_assoc ..) fun r hr => ?_
    rcases List.mem_cons.mp hr with rfl | hr
    · exact ⟨if_neg hn, rfl, rfl⟩
    · exact unseen_lagReports hn _ _ r hr

/-- A sample shows nothing on the gauges. -/
theorem shows_maybeSampleFinalityLog (h : ShowsHeads node best finalized t) (n : NodeName)
    (now : Int) : ShowsHeads node best finalized (t.maybeSampleFinalityLog n now) := by
  rw [maybeSampleFinalityLog_eq]
  split
  · exact h
  · refine h.aside rfl rfl _ rfl fun r hr => ?_
    obtain ⟨row, -, rfl⟩ := Option.map_eq_some_iff.mp (Option.mem_toList.mp hr)
    exact ⟨rfl, rfl, rfl⟩

theorem shows_onFinalizedHead (h : ShowsHeads node best finalized t) (n : NodeName)
    (height : Nat) (now : Int) :
    ShowsHeads node best ((finalizedOf node (.finalizedHead n height now)).or finalized)
      (t.onFinalizedHead n height now) := by
  unfold onFinalizedHead
  refine shows_maybeSampleFinalityLog ?_ n now
  rw [updateLag_eq]
  by_cases hn : n = node
  · subst hn
    have hfin : (finalizedOf n (.finalizedHead n height now)).or finalized = some height := by
      simp [finalizedOf]
    rw [hfin]
    refine h.update (by simp [emit, h.bestHeads]) (by simp [emit])
      (.finalizedBlockHeight n height) ?_ rfl (by simp [showsFinalized]) rfl ?_
    · simp [emit, h.bestHeads]
    · cases best with
      | none => exact fun _ => rfl
      | some b => exact fun hnone => absurd hnone (by simp [lagOf])
  · have hfin : (finalizedOf node (.finalizedHead n height now)).or finalized = finalized := by
      simp [finalizedOf, hn]
    rw [hfin]
    refine h.aside rfl (OrdMap.get?_set_ne _ _ fun heq => hn heq.symm)
      (.finalizedBlockHeight n height :: lagReports n _ _) (List.append_assoc ..) fun r hr => ?_
    rcases List.mem_cons.mp hr with rfl | hr
    · exact ⟨rfl, if_neg hn, rfl⟩
    · exact unseen_lagReports hn _ _ r hr

theorem shows_step (h : ShowsHeads node best finalized t) (e : HeadEvent) :
    ShowsHeads node ((bestOf node e).or best) ((finalizedOf node e).or finalized) (t.step e) := by
  cases e with
  | newHead n height => exact shows_onBestHead h n height
  | finalizedHead n height now => exact shows_onFinalizedHead h n height now

end Shows

/-- All along a run, the latest heads are shown. -/
theorem shows_run (setting : Option Nat) (evs : List HeadEvent) (node : NodeName) :
    ShowsHeads node (latestOf (bestOf node) evs) (latestOf (finalizedOf node) evs)
      ((machine setting).run evs) := by
  induction evs using List.reverseRecOn with
  | nil => exact ⟨rfl, rfl, rfl, rfl, rfl⟩
  | append_singleton evs e ih =>
      rw [latestOf_snoc, latestOf_snoc, Machine.run_snoc]
      exact shows_step ih e

/-- **The gauges mirror the heads.** -/
theorem gauges_mirror (setting : Option Nat) (evs : List HeadEvent) (node : NodeName) :
    ShowsHeads node (latestOf (bestOf node) evs) (latestOf (finalizedOf node) evs)
      ((machine setting).run evs) :=
  shows_run setting evs node

/-! ## The log -/

/-- A finalized head as the node brought it: when, and what its best head was then. -/
structure Sighting where
  now : Int
  best : Option Nat
  finalized : Nat

/-- The finalized head an event brings for a node whose best head is known this far. -/
def sighting (node : NodeName) (best : Option Nat) : HeadEvent → Option Sighting
  | .newHead .. => none
  | .finalizedHead n height now => if n = node then some ⟨now, best, height⟩ else none

/-- The finalized heads of a node, in order. -/
def sightingsFrom (node : NodeName) : Option Nat → List HeadEvent → List Sighting
  | _, [] => []
  | best, e :: evs =>
      (sighting node best e).toList ++ sightingsFrom node ((bestOf node e).or best) evs

def sightingsOf (node : NodeName) (evs : List HeadEvent) : List Sighting :=
  sightingsFrom node none evs

theorem sightingsOf_snoc (node : NodeName) (evs : List HeadEvent) (e : HeadEvent) :
    sightingsOf node (evs ++ [e])
      = sightingsOf node evs ++ (sighting node (latestOf (bestOf node) evs) e).toList := by
  have hfrom : ∀ best, sightingsFrom node best (evs ++ [e]) = sightingsFrom node best evs
      ++ (sighting node ((latestOf (bestOf node) evs).or best) e).toList := by
    induction evs with
    | nil => intro best; exact List.append_nil _
    | cons e' evs ih =>
        intro best
        have hlatest : latestOf (bestOf node) (e' :: evs)
            = (latestOf (bestOf node) evs).or (bestOf node e') := by
          rw [← List.singleton_append, latestOf_append, latestOf_singleton]
        rw [List.cons_append, sightingsFrom, sightingsFrom, ih, hlatest, Option.or_assoc,
          List.append_assoc]
  have hnone := hfrom none
  rw [Option.or_none] at hnone
  exact hnone

/-- The rows of a node, each with the time of its call. -/
def loggedRows (node : NodeName) (rs : List FinalityReport) : List (Int × FinalityLogRow) :=
  rs.filterMap fun r => match r with
    | .insertFinalityLog now row => if row.node = node then some (now, row) else none
    | _ => none

theorem loggedRows_append (node : NodeName) (rs rs' : List FinalityReport) :
    loggedRows node (rs ++ rs') = loggedRows node rs ++ loggedRows node rs' :=
  List.filterMap_append

/-- The row of a sample. -/
def Sighting.row (node : NodeName) (s : Sighting) : Option (Int × FinalityLogRow) :=
  (logRow node s.best (some s.finalized)).map (s.now, ·)

theorem time_of_row {node : NodeName} {s : Sighting} {row : Int × FinalityLogRow}
    (h : s.row node = some row) : row.1 = s.now := by
  obtain ⟨r, -, rfl⟩ := Option.map_eq_some_iff.mp h
  rfl

/-- The samples taken of a node. -/
def samples (interval : Nat) (seen : List Sighting) : List Sighting :=
  letThrough Sighting.now interval 0 seen

/-- The log of a node after these sightings. -/
structure Logged (node : NodeName) (seen : List Sighting) (t : FinalityTracker) : Prop where
  last : lastSample t node = lastPassed Sighting.now t.interval 0 seen
  rows : loggedRows node t.history = (samples t.interval seen).filterMap (Sighting.row node)

section Logged

variable {node : NodeName} {seen : List Sighting} {t : FinalityTracker}

/-- Reports without rows of the node. -/
theorem Logged.aside (h : Logged node seen t) {t' : FinalityTracker}
    (hinterval : t'.interval = t.interval)
    (hlast : t'.lastLogTime.get? node = t.lastLogTime.get? node) (rs : List FinalityReport)
    (hhist : t'.history = t.history ++ rs) (hno : loggedRows node rs = []) :
    Logged node seen t' where
  last := by
    unfold lastSample
    rw [hlast, hinterval]
    exact h.last
  rows := by
    rw [hhist, loggedRows_append, hno, List.append_nil, hinterval]
    exact h.rows

theorem loggedRows_lagReports (n : NodeName) (best finalized : Option Nat) :
    loggedRows node (lagReports n best finalized) = [] := by
  refine List.filterMap_eq_nil_iff.mpr fun r hr => ?_
  obtain ⟨lag, rfl⟩ := mem_lagReports hr
  rfl

theorem logged_onBestHead (h : Logged node seen t) (n : NodeName) (height : Nat) :
    Logged node seen (t.onBestHead n height) := by
  unfold onBestHead
  rw [updateLag_eq]
  refine h.aside rfl rfl (.bestBlockHeight n height :: lagReports n _ _) (List.append_assoc ..) ?_
  exact loggedRows_lagReports n _ _

/-- The gauges of a finalized head are set before the log is looked at. -/
theorem logged_finalizedGauge (h : Logged node seen t) (n : NodeName) (height : Nat) :
    Logged node seen (({ t with finalizedHeads := t.finalizedHeads.set n height }.emit
      (.finalizedBlockHeight n height)).updateLag n) := by
  rw [updateLag_eq]
  refine h.aside rfl rfl (.finalizedBlockHeight n height :: lagReports n _ _)
    (List.append_assoc ..) ?_
  exact loggedRows_lagReports n _ _

/-- **A sample** is taken if the throttle lets the sighting through. -/
theorem logged_sample (h : Logged node seen t) {s : Sighting}
    (hbest : t.bestHeads.get? node = s.best) (hfin : t.finalizedHeads.get? node = some s.finalized) :
    Logged node (seen ++ [s]) (t.maybeSampleFinalityLog node s.now) := by
  rw [maybeSampleFinalityLog_eq, hbest, hfin, h.last]
  split
  · rename_i hearly
    refine ⟨?_, ?_⟩
    · rw [lastPassed_snoc, if_pos hearly]
      exact h.last
    · unfold samples
      rw [letThrough_snoc, if_pos hearly, List.append_nil]
      exact h.rows
  · rename_i hlate
    refine ⟨?_, ?_⟩
    · rw [lastPassed_snoc, if_neg hlate]
      simp [lastSample]
    · unfold samples
      rw [letThrough_snoc, if_neg hlate, List.filterMap_append, loggedRows_append, h.rows]
      congr 1
      unfold Sighting.row
      cases hrow : logRow node s.best (some s.finalized) with
      | none => simp [hrow, loggedRows]
      | some row =>
          simp [hrow, loggedRows, node_of_logRow hrow]

/-- Another node's sample. -/
theorem logged_sampleOther (h : Logged node seen t) {n : NodeName} (hn : n ≠ node) (now : Int) :
    Logged node seen (t.maybeSampleFinalityLog n now) := by
  rw [maybeSampleFinalityLog_eq]
  split
  · exact h
  · refine h.aside rfl (OrdMap.get?_set_ne _ _ fun heq => hn heq.symm) _ rfl ?_
    refine List.filterMap_eq_nil_iff.mpr fun r hr => ?_
    obtain ⟨row, hrow, rfl⟩ := Option.map_eq_some_iff.mp (Option.mem_toList.mp hr)
    exact if_neg (node_of_logRow hrow ▸ hn)

theorem logged_step {best finalized : Option Nat} (h : Logged node seen t)
    (hshows : ShowsHeads node best finalized t) (e : HeadEvent) :
    Logged node (seen ++ (sighting node best e).toList) (t.step e) := by
  cases e with
  | newHead n height =>
      rw [sighting, Option.toList_none, List.append_nil]
      exact logged_onBestHead h n height
  | finalizedHead n height now =>
      have hgauge := logged_finalizedGauge h n height
      rw [sighting]
      by_cases hn : n = node
      · rw [if_pos hn]
        subst hn
        refine logged_sample hgauge (s := ⟨now, best, height⟩) ?_ ?_
        · rw [updateLag_eq]
          exact hshows.bestHeads
        · rw [updateLag_eq]
          exact OrdMap.get?_set_self ..
      · rw [if_neg hn, Option.toList_none, List.append_nil]
        exact logged_sampleOther hgauge hn now

end Logged

theorem interval_step (t : FinalityTracker) (e : HeadEvent) :
    (t.step e).interval = t.interval := by
  cases e with
  | newHead n height =>
      change (t.onBestHead n height).interval = t.interval
      unfold onBestHead
      rw [updateLag_eq]
      rfl
  | finalizedHead n height now =>
      change (t.onFinalizedHead n height now).interval = t.interval
      unfold onFinalizedHead
      rw [maybeSampleFinalityLog_eq, updateLag_eq]
      split
      · rfl
      · rfl

theorem interval_run (setting : Option Nat) (evs : List HeadEvent) :
    ((machine setting).run evs).interval = finalityLogInterval setting * 1000 :=
  Machine.run_invariant (A := fun _ => True)
    (I := fun t => t.interval = finalityLogInterval setting * 1000) rfl
    (fun t e h _ => (interval_step t e).trans h) fun _ _ => trivial

/-- The interval of the program is never zero. -/
theorem interval_pos (setting : Option Nat) : 0 < finalityLogInterval setting * 1000 := by
  have hpos : 0 < finalityLogInterval setting := by
    match setting with
    | none => exact Nat.succ_pos 59
    | some 0 => exact Nat.succ_pos 59
    | some (n + 1) => exact Nat.succ_pos n
  omega

theorem logged_run (setting : Option Nat) (evs : List HeadEvent) (node : NodeName) :
    Logged node (sightingsOf node evs) ((machine setting).run evs) := by
  induction evs using List.reverseRecOn with
  | nil => exact ⟨rfl, rfl⟩
  | append_singleton evs e ih =>
      rw [sightingsOf_snoc, Machine.run_snoc]
      exact logged_step ih (shows_run setting evs node) e

/-- What the finality log of a node holds after a run. -/
structure FinalityLog (setting : Option Nat) (evs : List HeadEvent) (node : NodeName) : Prop where
  /-- The rows are those of the samples taken once a best head was known. -/
  rows : loggedRows node ((machine setting).run evs).history
    = (samples (finalityLogInterval setting * 1000) (sightingsOf node evs)).filterMap
      (Sighting.row node)
  /-- A stretch of `n` intervals holds at most `n` rows. -/
  few : ∀ (since : Int) (n : Nat), (((loggedRows node ((machine setting).run evs).history).filter
    fun row => since ≤ row.1 ∧ row.1 < since + n * (finalityLogInterval setting * 1000 : Nat)).length
      ≤ n)
  /-- While the clock does not go back, every finalized head is near a sample. -/
  near : (sightingsOf node evs).Pairwise (fun s s' => s.now ≤ s'.now) →
    ∀ s ∈ sightingsOf node evs, (finalityLogInterval setting * 1000 : Nat) ≤ s.now →
      ∃ s' ∈ samples (finalityLogInterval setting * 1000) (sightingsOf node evs),
        s'.now ≤ s.now ∧ s.now < s'.now + (finalityLogInterval setting * 1000 : Nat)

/-- **The finality log is the finalized heads, throttled.** -/
theorem finality_log (setting : Option Nat) (evs : List HeadEvent) (node : NodeName) :
    FinalityLog setting evs node where
  rows := by
    rw [← interval_run setting evs]
    exact (logged_run setting evs node).rows
  few := by
    intro since n
    have hrows := (logged_run setting evs node).rows
    rw [interval_run] at hrows
    rw [hrows]
    have hspaced : Spaced Prod.fst (finalityLogInterval setting * 1000 : Nat)
        ((samples (finalityLogInterval setting * 1000) (sightingsOf node evs)).filterMap
          (Sighting.row node)) := by
      refine List.pairwise_filterMap.mpr ?_
      refine (letThrough_spaced (by omega) 0 (sightingsOf node evs)).imp ?_
      intro s s' hgap row hrow row' hrow'
      rw [time_of_row hrow, time_of_row hrow']
      exact hgap
    refine length_le_of_spaced (hspaced.filter _) (t := since) fun row hrow => ?_
    exact of_decide_eq_true (List.mem_filter.mp hrow).2
  near := by
    intro hmono s hs hlate
    have hpos := interval_pos setting
    exact letThrough_covers (by omega) 0 hmono s hs (by omega)

end ForkWatch.Proof
