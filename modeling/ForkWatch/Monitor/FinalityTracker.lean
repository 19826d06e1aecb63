import ForkWatch.Lib.Machine
import ForkWatch.Monitor.BlockTree

/-!
# The finality tracker

`src/monitor/finality-tracker.js`: per node, the best and the finalized head, the gauges
that show them and their distance, and a log in the database that is sampled at most
once per interval.

The tracker is called from the new-heads and the finalized-heads handler, which run
through it without an await; only the insert at its end is awaited, by nobody. Its clock
is `Date.now()`, so a time is part of the event. An unset entry of `lastLogTime` reads
as zero.
-/

namespace ForkWatch

open Lib

/-- `Number(setting) || fallback` of `src/config.js`; `none` is a setting that is no number. -/
def numberOr (setting : Option Nat) (fallback : Nat) : Nat :=
  match setting with
  | none | some 0 => fallback
  | some n => n

/-- `finalityLogInterval`, in seconds. -/
def finalityLogInterval (setting : Option Nat) : Nat := numberOr setting 60

/-- The argument of `insertFinalityLog`. -/
structure FinalityLogRow where
  node : NodeName
  bestHeight : Nat
  finalizedHeight : Nat
  lag : Int
  deriving DecidableEq

inductive FinalityReport where
  /-- `best_block_height` is set. -/
  | bestBlockHeight (node : NodeName) (height : Nat)
  /-- `finalized_block_height` is set. -/
  | finalizedBlockHeight (node : NodeName) (height : Nat)
  /-- `finality_lag_blocks` is set. -/
  | finalityLag (node : NodeName) (lag : Int)
  /-- `insertFinalityLog`, called at this time. -/
  | insertFinalityLog (now : Int) (row : FinalityLogRow)
  deriving DecidableEq

structure FinalityTracker where
  /-- The interval of the log, in milliseconds. -/
  interval : Nat
  bestHeads : OrdMap NodeName Nat := ∅
  finalizedHeads : OrdMap NodeName Nat := ∅
  lastLogTime : OrdMap NodeName Int := ∅
  history : List FinalityReport := []

/-- What the handlers tell the tracker. -/
inductive HeadEvent where
  | newHead (node : NodeName) (height : Nat)
  | finalizedHead (node : NodeName) (height : Nat) (now : Int)

namespace FinalityTracker

def emit (t : FinalityTracker) (r : FinalityReport) : FinalityTracker :=
  { t with history := t.history ++ [r] }

/-- The lag is shown as soon as both heads of the node are known. -/
def updateLag (t : FinalityTracker) (node : NodeName) : FinalityTracker :=
  match t.bestHeads.get? node, t.finalizedHeads.get? node with
  | some best, some finalized => t.emit (.finalityLag node (best - finalized))
  | _, _ => t

def onBestHead (t : FinalityTracker) (node : NodeName) (height : Nat) : FinalityTracker :=
  ({ t with bestHeads := t.bestHeads.set node height }.emit
    (.bestBlockHeight node height)).updateLag node

/-- The time is taken down first, even if there is nothing to log yet. -/
def maybeSampleFinalityLog (t : FinalityTracker) (node : NodeName) (now : Int) :
    FinalityTracker :=
  if now - (t.lastLogTime.get? node).getD 0 < t.interval then t
  else
    let t := { t with lastLogTime := t.lastLogTime.set node now }
    match t.bestHeads.get? node, t.finalizedHeads.get? node with
    | some best, some finalized =>
        t.emit (.insertFinalityLog now
          { node, bestHeight := best, finalizedHeight := finalized, lag := best - finalized })
    | _, _ => t

def onFinalizedHead (t : FinalityTracker) (node : NodeName) (height : Nat) (now : Int) :
    FinalityTracker :=
  (({ t with finalizedHeads := t.finalizedHeads.set node height }.emit
    (.finalizedBlockHeight node height)).updateLag node).maybeSampleFinalityLog node now

def step (t : FinalityTracker) : HeadEvent → FinalityTracker
  | .newHead node height => t.onBestHead node height
  | .finalizedHead node height now => t.onFinalizedHead node height now

/-- A tracker of a program with this setting of `FINALITY_LOG_INTERVAL`. -/
def machine (setting : Option Nat) : Machine FinalityTracker HeadEvent where
  init := { interval := finalityLogInterval setting * 1000 }
  step := step

end FinalityTracker

end ForkWatch
