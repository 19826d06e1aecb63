import ForkWatch.Lib.RoundRobin
import ForkWatch.Proof.SlotPartition

/-!
# Who is charged for a missed slot

The counters per collator are another view of the classification: after every run, a
collator has been counted for exactly the slots that are classified under its name
(`collators_counted`).

An outage charges the roster fairly: of the slots missed in a row, a collator is charged
for at least its seats in each whole round of the roster, and at most for one round more
(`outage_shared`).
-/

namespace ForkWatch.Proof

open Lib SlotTracker

/-! ## The counters are the classification -/

/-- The collator an entry counts for. -/
def countsFor (produced : Bool) (name : String) (e : SlotEntry) : Bool :=
  e.produced = produced ∧ orNull e.expected = some name

/-- The metric of a collator. -/
def metric (produced : Bool) (name : String) : SlotReport :=
  if produced then .collatorProduced name else .collatorMissed name

/-- Each metric counts what is classified. -/
structure Balanced (rs : List SlotReport) : Prop where
  counts : ∀ produced name, rs.count (metric produced name)
    = (rs.filterMap SlotReport.entry?).countP (countsFor produced name)

theorem Balanced.append {rs rs' : List SlotReport} (h : Balanced rs) (h' : Balanced rs') :
    Balanced (rs ++ rs') := by
  refine ⟨fun produced name => ?_⟩
  rw [List.count_append, List.filterMap_append, List.countP_append, h.counts, h'.counts]

theorem metric_inj {produced produced' : Bool} {name name' : String}
    (h : metric produced name = metric produced' name') : produced = produced' ∧ name = name' := by
  unfold metric at h
  cases produced with
  | true => cases produced' <;> simp_all
  | false => cases produced' <;> simp_all

/-- One slot: its metric if there is a name, and its entry. -/
theorem balanced_entry (e : SlotEntry) : Balanced
    (((orNull e.expected).map (metric e.produced)).toList ++ [.classified e]) := by
  refine ⟨fun produced name => ?_⟩
  have hentry : ∀ o : Option String, ((o.map (metric e.produced)).toList
      ++ [SlotReport.classified e]).filterMap SlotReport.entry? = [e] := by
    intro o
    cases o with
    | none => rfl
    | some n =>
        unfold metric
        split
        · rfl
        · rfl
  have hclassified : ∀ p n, SlotReport.classified e ≠ metric p n := by
    intro p n
    unfold metric
    split
    · simp
    · simp
  rw [hentry, List.countP_singleton]
  unfold countsFor
  cases orNull e.expected with
  | none => simp [hclassified]
  | some n =>
      by_cases hsame : e.produced = produced ∧ n = name
      · obtain ⟨rfl, rfl⟩ := hsame
        simp [hclassified]
      · have hother : metric e.produced n ≠ metric produced name := fun heq => hsame (metric_inj heq)
        have hcond : ¬ (e.produced = produced ∧ some n = some name) :=
          fun hall => hsame ⟨hall.1, Option.some.inj hall.2⟩
        rw [decide_eq_false hcond]
        simp [hother, hclassified]

theorem history_closeOpenMiss (t : SlotTracker) : t.closeOpenMiss.history = t.history := by
  unfold closeOpenMiss
  split
  · rfl
  · rfl

theorem history_extendOpenMiss (t : SlotTracker) (slot : Nat) (collator : String) :
    (t.extendOpenMiss slot collator).history = t.history := by
  unfold extendOpenMiss
  split
  · split
    · rfl
    · exact history_closeOpenMiss t
  · rfl

theorem history_recordMiss (t : SlotTracker) (slot : Nat) (expected : Option String) :
    (t.recordMiss slot expected).history = t.history
      ++ (((orNull expected).map (metric false)).toList
        ++ [.classified { slot, expected, produced := false, block := none }]) := by
  unfold recordMiss
  dsimp only
  rw [history_extendOpenMiss]
  exact List.append_assoc ..

theorem history_recordProduce (t : SlotTracker) (slot : Nat) (expected : Option String)
    (blockNumber : Option Nat) : (t.recordProduce slot expected blockNumber).history = t.history
      ++ (((orNull expected).map (metric true)).toList
        ++ [.classified { slot, expected, produced := true, block := blockNumber }]) := by
  rw [← history_closeOpenMiss t]
  exact List.append_assoc ..

theorem balanced_recordMisses {t : SlotTracker} (h : Balanced t.history) (slot : Nat) :
    Balanced (t.recordMisses slot).history := by
  unfold recordMisses
  split
  · exact h
  · refine List.foldlRecOn (motive := fun u : SlotTracker => Balanced u.history) _ _ h
      fun u hu s _ => ?_
    rw [history_recordMiss]
    exact hu.append (balanced_entry
      { slot := s, expected := u.expectedAuthor s, produced := false, block := none })

theorem balanced_recordProduce {t : SlotTracker} (h : Balanced t.history) (slot : Nat)
    (expected : Option String) (blockNumber : Option Nat) :
    Balanced (t.recordProduce slot expected blockNumber).history := by
  rw [history_recordProduce]
  exact h.append (balanced_entry { slot, expected, produced := true, block := blockNumber })

theorem balanced_processSlotWithActual {t : SlotTracker} (h : Balanced t.history) (api : SlotApi)
    (slot blockNumber : Nat) (blockHash : Hash) :
    Balanced (t.processSlotWithActual api slot blockNumber blockHash).history := by
  unfold processSlotWithActual
  split
  · exact h
  · exact balanced_recordProduce (balanced_recordMisses h slot) ..

theorem balanced_onFinalizedHeader {t : SlotTracker} (h : Balanced t.history) (api : SlotApi)
    (header : SlotHeader) (lastFinalizedNumber : Option Nat) :
    Balanced (t.onFinalizedHeader api header lastFinalizedNumber).history := by
  have hbackfill : ∀ (u : SlotTracker) n, Balanced u.history →
      Balanced (backfill api u n).history := by
    intro u n hu
    unfold backfill
    split
    · exact hu
    · split
      · exact hu
      · split
        · exact hu
        · exact balanced_processSlotWithActual hu ..
  unfold onFinalizedHeader
  split
  · exact h
  · dsimp only
    have hfold : ∀ missing : List Nat, Balanced (missing.foldl (backfill api) t).history :=
      fun missing => List.foldlRecOn (motive := fun u : SlotTracker => Balanced u.history) _ _ h
        fun u hu n _ => hbackfill u n hu
    unfold processHeader
    split
    · exact hfold _
    · exact balanced_processSlotWithActual (hfold _) ..

theorem balanced_apply {t : SlotTracker} (h : Balanced t.history) (call : SlotCall) :
    Balanced (call.apply t).history := by
  cases call with
  | processSlot roster slot blockNumber =>
      change Balanced ((t.holding roster).processSlot slot blockNumber).history
      unfold processSlot
      split
      · exact h
      · exact balanced_recordProduce (balanced_recordMisses (t := t.holding roster) h slot) ..
  | processSlotWithActual roster later api slot blockNumber blockHash =>
      change Balanced ((t.holding roster).processSlotAwaiting api slot blockNumber blockHash
        later).history
      unfold processSlotAwaiting
      split
      · exact h
      · have hmisses := balanced_recordMisses (t := t.holding roster) h slot
        exact balanced_recordProduce
          (t := ((t.holding roster).recordMisses slot).holding later) hmisses ..

theorem balanced_run (resolveAuthorName : Address → Option String)
    (evs : List SlotTracker.Event) :
    Balanced ((machine resolveAuthorName).run evs).history := by
  refine Machine.run_invariant (A := fun _ => True)
    (I := fun t : SlotTracker => Balanced t.history) ⟨fun _ _ => rfl⟩ ?_ fun _ _ => trivial
  intro t e h _
  cases e with
  | finalizedHeader d => exact balanced_onFinalizedHeader h ..
  | authorities l => exact h

theorem balanced_calls (calls : List SlotCall) : Balanced (callMachine.run calls).history :=
  Machine.run_invariant (A := fun _ => True) (I := fun t : SlotTracker => Balanced t.history)
    ⟨fun _ _ => rfl⟩ (fun _ call h _ => balanced_apply h call) fun _ _ => trivial

/-- The metric of a collator has counted what is classified under its name. -/
def Counted (produced : Bool) (name : String) (t : SlotTracker) : Prop :=
  t.history.count (metric produced name) = (classified t).countP (countsFor produced name)

/--
**The counters per collator are what is classified**, after every run of deliveries and
new lists of authorities, and after every sequence of single calls, between and within
which both the list and the names may change.
-/
theorem collators_counted (produced : Bool) (name : String) :
    (∀ (resolveAuthorName : Address → Option String) (evs : List SlotTracker.Event),
      Counted produced name ((machine resolveAuthorName).run evs)) ∧
    ∀ calls : List SlotCall, Counted produced name (callMachine.run calls) :=
  ⟨fun resolveAuthorName evs => (balanced_run resolveAuthorName evs).counts produced name,
    fun calls => (balanced_calls calls).counts produced name⟩

/-! ## An outage -/

/-- The roster held when a call starts. -/
def rosterOf : SlotCall → Roster
  | .processSlot roster .. => roster
  | .processSlotWithActual roster .. => roster

/-- The name under which an authority is counted. -/
def nameIn (roster : Roster) (addr : Address) : String :=
  (orNull (roster.resolveAuthorName addr)).getD addr

/-- How many seats of a roster are counted under a name. -/
def seats (roster : Roster) (authorities : List Address) (name : String) : Nat :=
  (authorities.map (nameIn roster)).count name

/-- **What a call classifies**: the slots missed since the last one, and its own. -/
theorem classified_apply {t : SlotTracker} (hopen : t.openMiss = none) (call : SlotCall)
    (h : Ahead t call.slot) : ∃ e, e.produced = true ∧ classified (call.apply t)
      = classified t ++ missedEntries (t.holding (rosterOf call)) (gapBefore t call.slot).1
        (gapBefore t call.slot).2 ++ [e] := by
  have hmissing := missing_recordMisses (t := t.holding (rosterOf call)) hopen call.slot
  have hahead : ¬ t.lastSlot.any (fun last => call.slot ≤ last) = true :=
    fun hany => any_of_ahead.mp hany h
  cases call with
  | processSlot roster slot blockNumber =>
      have happly : (t.holding roster).processSlot slot blockNumber = _ := if_neg hahead
      have hproduced := produced_recordProduce hmissing slot
        (((t.holding roster).recordMisses slot).expectedAuthor slot) blockNumber
      refine ⟨_, hproduced.entryProduced, ?_⟩
      change classified ((t.holding roster).processSlot slot blockNumber) = _
      rw [happly]
      exact hproduced.classified
  | processSlotWithActual roster later api slot blockNumber blockHash =>
      have happly : (t.holding roster).processSlotAwaiting api slot blockNumber blockHash later
          = _ := if_neg hahead
      have hproduced := hmissing.holding later slot
        ((((t.holding roster).recordMisses slot).holding later).displayName
          (api.deriveAuthor blockHash) slot) (some blockNumber)
      refine ⟨_, hproduced.entryProduced, ?_⟩
      change classified ((t.holding roster).processSlotAwaiting api slot blockNumber blockHash
        later) = _
      rw [happly]
      exact hproduced.classified

/-- The slot is counted for this collator when it is missed. -/
def turnOf (t : SlotTracker) (name : String) (slot : Nat) : Bool :=
  orNull (t.expectedAuthor slot) = some name

theorem countP_missedEntries (t : SlotTracker) (start k : Nat) (name : String) :
    (missedEntries t start k).countP (countsFor false name) = turns (turnOf t name) start k := by
  unfold missedEntries turns
  rw [List.countP_map]
  refine List.countP_congr fun s _ => ?_
  simp [countsFor, turnOf]

section Turns

variable {t : SlotTracker} {authorities : List Address}

theorem periodic_turnOf (h : t.authorities = some authorities) (name : String) :
    Function.Periodic (turnOf t name) authorities.length := by
  intro slot
  have hsame : t.expectedAuthor (slot + authorities.length) = t.expectedAuthor slot := by
    unfold expectedAuthor
    rw [h]
    dsimp only
    rw [Nat.add_mod_right]
  unfold turnOf
  rw [hsame]

/-- A round of the roster has a turn for every seat. -/
theorem turns_roster (roster : Roster) (h : roster.authorities = some authorities) {name : String}
    (hname : name ≠ "") :
    turns (turnOf (t.holding roster) name) 0 authorities.length
      = seats roster authorities name := by
  have hnames : (List.range' 0 authorities.length).map
      (fun slot => (t.holding roster).expectedAuthor slot)
      = (authorities.map (nameIn roster)).map some := by
    refine List.ext_getElem (by simp) fun slot hslot _ => ?_
    have hlt : slot < authorities.length := by simpa using hslot
    have hexp : (t.holding roster).authorities = some authorities := h
    simp only [List.getElem_map, List.getElem_range', expectedAuthor, hexp, Nat.zero_add,
      Nat.one_mul, Nat.mod_eq_of_lt hlt, List.getElem?_eq_getElem hlt, Option.map_some]
    rfl
  have hcount : turns (turnOf (t.holding roster) name) 0 authorities.length
      = ((List.range' 0 authorities.length).map
        (fun slot => (t.holding roster).expectedAuthor slot)).countP
          fun o => orNull o = some name := by
    rw [List.countP_map]
    rfl
  rw [hcount, hnames, List.countP_map]
  unfold seats List.count
  refine List.countP_congr fun n _ => ?_
  by_cases hn : n = name
  · subst hn
    simp [orNull, hname]
  · simp [orNull, hn]

end Turns

/-- A call charges a collator with between so many and so many slots. -/
def ChargesBetween (name : String) (pre : List SlotCall) (call : SlotCall) (lo hi : Nat) : Prop :=
  ∃ charge, (callMachine.run (pre ++ [call])).history.count (metric false name)
    = (callMachine.run pre).history.count (metric false name) + charge ∧ lo ≤ charge ∧ charge ≤ hi

/--
**An outage is charged to the whole roster.**

Whatever calls came before: of the slots missed before the next one, a collator is
charged its seats for every whole round of the roster, and at most one round more.
-/
theorem outage_shared (pre : List SlotCall) (call : SlotCall) (last : Nat)
    (authorities : List Address) (name : String)
    (hlast : (callMachine.run pre).lastSlot = some last) (hslot : last < call.slot)
    (hroster : (rosterOf call).authorities = some authorities) (hsome : authorities ≠ [])
    (hname : name ≠ "") :
    ChargesBetween name pre call
      ((call.slot - (last + 1)) / authorities.length * seats (rosterOf call) authorities name)
      (((call.slot - (last + 1)) / authorities.length + 1)
        * seats (rosterOf call) authorities name) := by
  have hahead : Ahead (callMachine.run pre) call.slot := by
    intro last' hlast'
    rw [hlast] at hlast'
    rw [← Option.some.inj hlast']
    exact hslot
  obtain ⟨e, hproduced, hclassified⟩ :=
    classified_apply (books_run pre).openMiss call hahead
  have hgap : gapBefore (callMachine.run pre) call.slot = (last + 1, call.slot - (last + 1)) := by
    unfold gapBefore
    rw [hlast]
  rw [hgap] at hclassified
  -- turns are periodic in the length of the roster
  have hbounds := turns_bounds
    (periodic_turnOf (t := (callMachine.run pre).holding (rosterOf call)) hroster name)
    (List.length_pos_of_ne_nil hsome) (last + 1) (call.slot - (last + 1))
  rw [turns_roster (rosterOf call) hroster hname] at hbounds
  refine ⟨_, ?_, hbounds.1, hbounds.2⟩
  have hafter := (balanced_calls (pre ++ [call])).counts false name
  have hbefore := (balanced_calls pre).counts false name
  -- the slot that ends the outage was produced
  have hentry : [e].countP (countsFor false name) = 0 := by
    simp [countsFor, hproduced]
  rw [hafter, hbefore, Machine.run_snoc]
  change (classified (call.apply (callMachine.run pre))).countP _
    = (classified (callMachine.run pre)).countP _ + _
  rw [hclassified, List.countP_append, List.countP_append, countP_missedEntries, hentry,
    Nat.add_zero]

/-- A call under a roster of three, one of whom sits there twice. -/
def rosterCall (slot : Nat) : SlotCall :=
  .processSlot
    { authorities := some ["a", "b", "a"], resolveAuthorName := fun _ => none } slot none

/-- Of seven slots missed in a row, the collator with two seats is charged four to six. -/
theorem outage_shared_two_seats :
    ChargesBetween "a" [rosterCall 10] (rosterCall 18) (7 / 3 * 2) ((7 / 3 + 1) * 2) :=
  outage_shared [rosterCall 10] (rosterCall 18) 10 ["a", "b", "a"] "a" rfl (by decide) rfl
    (by decide) (by decide)

end ForkWatch.Proof
