import ForkWatch.Proof.Slots

/-!
# Every slot is accounted for once

The tracker keeps two counters, a ring buffer, a run of misses that is still open and
a list of closed ones. All of them are views of one thing, the classification of the
slots from the first one accepted to the last (`classified`), and that in turn is fixed
by the slots accepted (`accepted`): those were produced, what lies between them was
missed.

A call takes the tracker from one accepted slot to the next in two parts. The misses
in between are recorded one at a time (`Missing`), which leaves one run open; recording
the slot itself closes it.
-/

namespace ForkWatch.Proof

open Lib SlotTracker

/-! ## The reference -/

/-- A slot is accepted if it exceeds the last one accepted. -/
def accept (l : List Nat) (slot : Nat) : List Nat :=
  if l.getLast?.any (fun last => slot ≤ last) then l else l ++ [slot]

/-- Of the slots passed, those that exceeded `lastSlot` when they were. -/
def accepted (slots : List Nat) : List Nat := slots.foldl accept []

def SlotReport.entry? : SlotReport → Option SlotEntry
  | .classified e => some e
  | _ => none

/-- The slots classified so far, oldest first. -/
def classified (t : SlotTracker) : List SlotEntry := t.history.filterMap SlotReport.entry?

/-- At most so many entries, the newest. -/
def newest {α : Type} (n : Nat) (l : List α) : List α := l.drop (l.length - n)

/-- The collator shown for a missed slot. -/
def collatorName (e : SlotEntry) : String := (orNull e.expected).getD "unknown"

/-- The gap between two accepted slots, if it is at least two slots wide. -/
def gap (entries : List SlotEntry) (p q : Nat) : Option MissedCombo :=
  if 2 ≤ q - (p + 1) then
    some { startSlot := p + 1, length := q - (p + 1),
           collators := (entries.filter fun e => p < e.slot ∧ e.slot < q).map collatorName }
  else none

/-- The gaps between consecutive accepted slots. -/
def gaps (entries : List SlotEntry) (slots : List Nat) : List MissedCombo :=
  (slots.zip slots.tail).filterMap fun e => gap entries e.1 e.2

/-! ## Ring buffers -/

theorem pushBounded_newest {α : Type} (n : Nat) (l : List α) (x : α) :
    pushBounded n (newest n l) x = newest n (l ++ [x]) := by
  unfold pushBounded newest
  rw [List.length_drop, List.length_append, List.length_singleton]
  by_cases h : n ≤ l.length
  -- full: what comes in pushes the oldest out
  · rw [if_pos (by omega), ← List.drop_append_of_le_length (by omega), List.drop_drop]
    congr 1
    omega
  · have hzero : l.length - n = 0 := by omega
    have hzero' : l.length + 1 - n = 0 := by omega
    rw [if_neg (by omega), hzero, hzero', List.drop_zero, List.drop_zero]

/-! ## Recording misses -/

/-- The entries for so many slots missed in a row. -/
def missedEntries (t : SlotTracker) (start k : Nat) : List SlotEntry :=
  (List.range' start k).map fun s =>
    { slot := s, expected := t.expectedAuthor s, produced := false, block := none }

theorem missedEntries_succ (t : SlotTracker) (start k : Nat) :
    missedEntries t start (k + 1) = missedEntries t start k
      ++ [{ slot := start + k, expected := t.expectedAuthor (start + k), produced := false,
            block := none }] := by
  unfold missedEntries
  rw [List.range'_1_concat, List.map_append, List.map_singleton]

/-- The run that so many misses in a row leave open. -/
def runOf (t : SlotTracker) (start k : Nat) : Option OpenMiss :=
  if k = 0 then none
  else some { startSlot := start, collators := (missedEntries t start k).map collatorName }

/-- What recording `k` misses from `start` on makes of a tracker with no run open. -/
structure Missing (t t' : SlotTracker) (start k : Nat) : Prop where
  classified : classified t' = classified t ++ missedEntries t start k
  recent : t.recentSlots = newest MAX_HISTORY (Proof.classified t) →
    t'.recentSlots = newest MAX_HISTORY (Proof.classified t')
  totalMissed : t'.totalMissed = t.totalMissed + k
  totalProduced : t'.totalProduced = t.totalProduced
  lastSlot : t'.lastSlot = t.lastSlot
  missedCombos : t'.missedCombos = t.missedCombos
  openMiss : t'.openMiss = runOf t start k
  authorities : t'.authorities = t.authorities
  names : t'.resolveAuthorName = t.resolveAuthorName

theorem classified_report_missed (t : SlotTracker) (o : Option String) :
    classified (t.report (o.map SlotReport.collatorMissed).toList) = classified t := by
  unfold classified report
  rw [List.filterMap_append]
  cases o <;> simp [SlotReport.entry?]

theorem classified_report_produced (t : SlotTracker) (o : Option String) :
    classified (t.report (o.map SlotReport.collatorProduced).toList) = classified t := by
  unfold classified report
  rw [List.filterMap_append]
  cases o <;> simp [SlotReport.entry?]

theorem classified_addHistory (t : SlotTracker) (e : SlotEntry) :
    classified (t.addHistory e) = classified t ++ [e] := by
  unfold classified addHistory report
  rw [List.filterMap_append]
  rfl

/-- The ring buffer goes on being the newest part of the classification. -/
theorem recent_addHistory {t : SlotTracker} (h : t.recentSlots = newest MAX_HISTORY (classified t))
    (e : SlotEntry) :
    (t.addHistory e).recentSlots = newest MAX_HISTORY (classified (t.addHistory e)) := by
  rw [classified_addHistory, ← pushBounded_newest, ← h]
  rfl

/-- The next miss extends the run of those before it. -/
theorem extendOpenMiss_runOf {t u : SlotTracker} {start k : Nat} (h : u.openMiss = runOf t start k) :
    u.extendOpenMiss (start + k) ((orNull (t.expectedAuthor (start + k))).getD "unknown")
      = { u with openMiss := runOf t start (k + 1) } := by
  unfold extendOpenMiss
  unfold runOf at h ⊢
  rw [missedEntries_succ, List.map_append]
  cases k with
  | zero =>
      rw [if_pos rfl] at h
      rw [h]
      rfl
  | succ k =>
      rw [if_neg (by omega)] at h
      have hlen : ((missedEntries t start (k + 1)).map collatorName).length = k + 1 := by
        simp [missedEntries]
      rw [h]
      dsimp only
      rw [if_pos (by rw [hlen]), if_neg (by omega)]
      rfl

/-- One more miss. -/
theorem missing_recordMiss {t u : SlotTracker} {start k : Nat} (h : Missing t u start k) :
    Missing t (u.recordMiss (start + k) (u.expectedAuthor (start + k))) start (k + 1) := by
  have hexp : u.expectedAuthor (start + k) = t.expectedAuthor (start + k) := by
    unfold expectedAuthor
    rw [h.authorities, h.names]
  unfold recordMiss
  dsimp only
  rw [hexp, extendOpenMiss_runOf (by exact h.openMiss)]
  refine ⟨?_, ?_, ?_, h.totalProduced, h.lastSlot, h.missedCombos, rfl, h.authorities,
    h.names⟩
  · show classified ((u.report _).addHistory _) = _
    rw [classified_addHistory, classified_report_missed, h.classified, missedEntries_succ,
      List.append_assoc]
  · intro ht
    refine recent_addHistory ?_ _
    rw [classified_report_missed]
    exact h.recent ht
  · show u.totalMissed + 1 = t.totalMissed + (k + 1)
    rw [h.totalMissed]
    omega

/-- All the misses of a gap. -/
theorem missing_foldl {t : SlotTracker} (hopen : t.openMiss = none) (start k : Nat) :
    Missing t ((List.range' start k).foldl (fun t s => t.recordMiss s (t.expectedAuthor s)) t)
      start k := by
  induction k with
  | zero =>
      have hnil : missedEntries t start 0 = [] := rfl
      exact ⟨by rw [hnil, List.append_nil]; rfl, fun ht => ht, rfl, rfl, rfl, rfl,
        by rw [runOf, if_pos rfl]; exact hopen, rfl, rfl⟩
  | succ k ih =>
      rw [List.range'_1_concat, List.foldl_append, List.foldl_cons, List.foldl_nil]
      exact missing_recordMiss ih

/-! ## Recording the slot itself -/

/-- The run that is open is closed, and kept if it is long enough. -/
theorem closeOpenMiss_eq {t u : SlotTracker} {start k : Nat} (h : u.openMiss = runOf t start k) :
    u.closeOpenMiss = { u with
      openMiss := none
      missedCombos := if 2 ≤ k then
          pushBounded MAX_COMBOS u.missedCombos
            { startSlot := start, length := k,
              collators := (missedEntries t start k).map collatorName }
        else u.missedCombos } := by
  have hlen : ((missedEntries t start k).map collatorName).length = k := by simp [missedEntries]
  unfold closeOpenMiss
  unfold runOf at h
  by_cases hk : k = 0
  · rw [if_pos hk] at h
    rw [h, if_neg (by omega)]
    cases u
    simp_all
  · rw [if_neg hk] at h
    rw [h]
    dsimp only
    rw [hlen]

/-- What a call for an accepted slot makes of a tracker with no run open. -/
structure Produced (t t' : SlotTracker) (start k slot : Nat) (e : SlotEntry) : Prop where
  entrySlot : e.slot = slot
  entryProduced : e.produced = true
  classified : classified t' = classified t ++ missedEntries t start k ++ [e]
  recent : t.recentSlots = newest MAX_HISTORY (Proof.classified t) →
    t'.recentSlots = newest MAX_HISTORY (Proof.classified t')
  totalMissed : t'.totalMissed = t.totalMissed + k
  totalProduced : t'.totalProduced = t.totalProduced + 1
  lastSlot : t'.lastSlot = some slot
  missedCombos : t'.missedCombos = if 2 ≤ k then
      pushBounded MAX_COMBOS t.missedCombos
        { startSlot := start, length := k, collators := (missedEntries t start k).map collatorName }
    else t.missedCombos
  openMiss : t'.openMiss = none

theorem produced_recordProduce {t u : SlotTracker} {start k : Nat} (h : Missing t u start k)
    (slot : Nat) (expected : Option String) (blockNumber : Option Nat) :
    Produced t (u.recordProduce slot expected blockNumber) start k slot
      { slot, expected, produced := true, block := blockNumber } := by
  have hclassified : classified u.closeOpenMiss = classified u := by
    rw [closeOpenMiss_eq h.openMiss]
    rfl
  have hrecent : u.closeOpenMiss.recentSlots = u.recentSlots := by
    rw [closeOpenMiss_eq h.openMiss]
  unfold recordProduce
  refine ⟨rfl, rfl, ?_, ?_, ?_, ?_, rfl, ?_, ?_⟩
  · show classified ((u.closeOpenMiss.report _).addHistory _) = _
    rw [classified_addHistory, classified_report_produced, hclassified, h.classified]
  · intro ht
    refine recent_addHistory ?_ _
    rw [classified_report_produced, hclassified]
    exact hrecent.trans (h.recent ht)
  · show u.closeOpenMiss.totalMissed = _
    rw [closeOpenMiss_eq h.openMiss]
    exact h.totalMissed
  · show u.closeOpenMiss.totalProduced + 1 = _
    rw [closeOpenMiss_eq h.openMiss]
    exact congrArg (· + 1) h.totalProduced
  · show u.closeOpenMiss.missedCombos = _
    rw [closeOpenMiss_eq h.openMiss, ← h.missedCombos]
  · show u.closeOpenMiss.openMiss = none
    rw [closeOpenMiss_eq h.openMiss]

/-! ## One call -/

theorem any_of_ahead {t : SlotTracker} {slot : Nat} :
    t.lastSlot.any (fun last => slot ≤ last) = true ↔ ¬ Ahead t slot := by
  rw [not_ahead_iff]
  cases t.lastSlot <;> simp

/-- A slot that is not ahead changes nothing but the roster. -/
theorem apply_of_not_ahead {t : SlotTracker} (call : SlotCall) (h : ¬ Ahead t call.slot) :
    ∃ roster, call.apply t = t.holding roster := by
  cases call with
  | processSlot roster slot blockNumber =>
      refine ⟨roster, ?_⟩
      unfold SlotCall.apply processSlot
      exact if_pos (any_of_ahead.mpr h)
  | processSlotWithActual roster later api slot blockNumber blockHash =>
      refine ⟨roster, ?_⟩
      unfold SlotCall.apply processSlotAwaiting
      exact if_pos (any_of_ahead.mpr h)

/-- How far the gap before a slot reaches. -/
def gapBefore (t : SlotTracker) (slot : Nat) : Nat × Nat :=
  match t.lastSlot with
  | none => (0, 0)
  | some last => (last + 1, slot - (last + 1))

theorem missing_recordMisses {t : SlotTracker} (hopen : t.openMiss = none) (slot : Nat) :
    Missing t (t.recordMisses slot) (gapBefore t slot).1 (gapBefore t slot).2 := by
  unfold recordMisses gapBefore
  cases t.lastSlot with
  | none => exact missing_foldl hopen 0 0
  | some last => exact missing_foldl hopen _ _

/-- If nothing changes while the author is looked up, the call is `processSlotWithActual`. -/
theorem processSlotAwaiting_of_same {t : SlotTracker} (hopen : t.openMiss = none) (api : SlotApi)
    (slot n : Nat) (x : Hash) :
    t.processSlotAwaiting api slot n x
        { authorities := t.authorities, resolveAuthorName := t.resolveAuthorName }
      = t.processSlotWithActual api slot n x := by
  have h := missing_recordMisses hopen slot
  have hsame : (t.recordMisses slot).holding
      { authorities := t.authorities, resolveAuthorName := t.resolveAuthorName }
      = t.recordMisses slot := by
    unfold SlotTracker.holding
    rw [← h.authorities, ← h.names]
  unfold processSlotAwaiting processSlotWithActual
  rw [hsame]

/-- The roster that came in the meantime has nothing to do with the misses before it. -/
theorem Missing.holding {t u : SlotTracker} {start k : Nat} (h : Missing t u start k)
    (later : Roster) (slot : Nat) (expected : Option String) (blockNumber : Option Nat) :
    Produced t ((u.holding later).recordProduce slot expected blockNumber) start k slot
      { slot, expected, produced := true, block := blockNumber } := by
  have hp := produced_recordProduce h slot expected blockNumber
  have heq : (u.holding later).recordProduce slot expected blockNumber
      = (u.recordProduce slot expected blockNumber).holding later := by
    unfold recordProduce closeOpenMiss SlotTracker.holding
    dsimp only
    split <;> rfl
  rw [heq]
  exact ⟨hp.entrySlot, hp.entryProduced, hp.classified, hp.recent, hp.totalMissed,
    hp.totalProduced, hp.lastSlot, hp.missedCombos, hp.openMiss⟩

/-- **A call for a slot that is ahead**: the gap before it, then the slot. -/
theorem apply_of_ahead {t : SlotTracker} (hopen : t.openMiss = none) (call : SlotCall)
    (h : Ahead t call.slot) : ∃ roster e, Produced (t.holding roster) (call.apply t)
      (gapBefore t call.slot).1 (gapBefore t call.slot).2 call.slot e := by
  cases call with
  | processSlot roster slot blockNumber =>
      have hmissing := missing_recordMisses (t := t.holding roster) hopen slot
      have heq : (t.holding roster).processSlot slot blockNumber = _ :=
        if_neg (fun hany => any_of_ahead.mp hany h)
      exact ⟨roster, _, heq ▸ produced_recordProduce hmissing slot _ blockNumber⟩
  | processSlotWithActual roster later api slot blockNumber blockHash =>
      have hmissing := missing_recordMisses (t := t.holding roster) hopen slot
      have heq : (t.holding roster).processSlotAwaiting api slot blockNumber blockHash later = _ :=
        if_neg (fun hany => any_of_ahead.mp hany h)
      exact ⟨roster, _, heq ▸ hmissing.holding later slot _ (some blockNumber)⟩

/-! ## The span of the accepted slots -/

/-- All slots from the first one to the last one. -/
def span (l : List Nat) : List Nat :=
  List.range' (l.head?.getD 0) ((l.getLast?.map (· + 1)).getD 0 - l.head?.getD 0)

theorem le_getLast {l : List Nat} (h : l.Pairwise (· < ·)) {last : Nat}
    (hlast : l.getLast? = some last) : ∀ a ∈ l, a ≤ last := by
  obtain ⟨init, rfl⟩ := List.getLast?_eq_some_iff.mp hlast
  intro a ha
  rcases List.mem_append.mp ha with ha | ha
  · exact Nat.le_of_lt ((List.pairwise_append.mp h).2.2 a ha last (by simp))
  · rw [List.mem_singleton.mp ha]

theorem mem_span_le {l : List Nat} {last : Nat} (hlast : l.getLast? = some last) {s : Nat}
    (h : s ∈ span l) : s ≤ last := by
  unfold span at h
  rw [hlast, List.mem_range'_1] at h
  simp only [Option.map_some, Option.getD_some] at h
  omega

/-- The span grows by the gap and the slot after it. -/
theorem span_snoc {l : List Nat} (h : l.Pairwise (· < ·)) {last s : Nat}
    (hlast : l.getLast? = some last) (hs : last < s) :
    span (l ++ [s]) = span l ++ List.range' (last + 1) (s - (last + 1)) ++ [s] := by
  cases l with
  | nil => exact absurd hlast (by simp)
  | cons first l =>
      have hle : first ≤ last := le_getLast h hlast first (by simp)
      have hlast' : (first :: l ++ [s]).getLast? = some s := List.getLast?_concat
      unfold span
      rw [hlast, hlast']
      simp only [List.cons_append, List.head?_cons, Option.getD_some, Option.map_some]
      have hfirst : last + 1 = first + 1 * (last + 1 - first) := by omega
      have hgap : first + 1 * (s - first) = s := by omega
      -- the whole range, cut after `last` and before `s`
      rw [show s + 1 - first = (s - first) + 1 by omega, List.range'_concat, hgap,
        show s - first = (last + 1 - first) + (s - (last + 1)) by omega, ← List.range'_append,
        ← hfirst]

theorem span_singleton (s : Nat) : span [s] = [s] := by
  unfold span
  simp

/-! ## Gaps -/

theorem zip_tail_snoc {l : List Nat} {last : Nat} (hlast : l.getLast? = some last) (s : Nat) :
    (l ++ [s]).zip (l ++ [s]).tail = l.zip l.tail ++ [(last, s)] := by
  induction l with
  | nil => exact absurd hlast (by simp)
  | cons a l ih =>
      cases l with
      | nil =>
          obtain rfl : a = last := by simpa using hlast
          rfl
      | cons b l =>
          rw [List.getLast?_cons_cons] at hlast
          have := ih hlast
          simp only [List.cons_append, List.tail_cons, List.zip_cons_cons] at this ⊢
          rw [this]

/-- A gap is not changed by what is classified behind it. -/
theorem gap_append {entries later : List SlotEntry} {p q : Nat} (h : ∀ e ∈ later, q ≤ e.slot) :
    gap (entries ++ later) p q = gap entries p q := by
  have hnil : later.filter (fun e => p < e.slot ∧ e.slot < q) = [] := by
    rw [List.filter_eq_nil_iff]
    intro e he
    have := h e he
    simp only [decide_eq_true_eq]
    omega
  unfold gap
  rw [List.filter_append, hnil, List.append_nil]

theorem gaps_snoc {entries later : List SlotEntry} {l : List Nat} (h : l.Pairwise (· < ·))
    {last : Nat} (hlast : l.getLast? = some last) (hlater : ∀ e ∈ later, last < e.slot) (s : Nat) :
    gaps (entries ++ later) (l ++ [s])
      = gaps entries l ++ (gap (entries ++ later) last s).toList := by
  unfold gaps
  rw [zip_tail_snoc hlast, List.filterMap_append]
  congr 1
  refine List.filterMap_congr fun e he => ?_
  refine gap_append fun e' he' => ?_
  have hmem : e.2 ∈ l := List.mem_of_mem_tail (List.of_mem_zip he).2
  have := le_getLast h hlast e.2 hmem
  have := hlater e' he'
  omega

/-- The gap that a call closes is what it recorded as missed. -/
theorem gap_missed {t : SlotTracker} {entries : List SlotEntry} {last s : Nat} {e : SlotEntry}
    (hentries : ∀ e ∈ entries, e.slot ≤ last) (he : e.slot = s) :
    gap (entries ++ (missedEntries t (last + 1) (s - (last + 1)) ++ [e])) last s
      = if 2 ≤ s - (last + 1) then
          some { startSlot := last + 1, length := s - (last + 1),
                 collators := (missedEntries t (last + 1) (s - (last + 1))).map collatorName }
        else none := by
  have hold : entries.filter (fun e => last < e.slot ∧ e.slot < s) = [] := by
    rw [List.filter_eq_nil_iff]
    intro e' he'
    have := hentries e' he'
    simp only [decide_eq_true_eq]
    omega
  have hgap : (missedEntries t (last + 1) (s - (last + 1))).filter
      (fun e => last < e.slot ∧ e.slot < s) = missedEntries t (last + 1) (s - (last + 1)) := by
    rw [List.filter_eq_self]
    intro e' he'
    obtain ⟨slot, hslot, rfl⟩ := List.mem_map.mp he'
    rw [List.mem_range'_1] at hslot
    simp only [decide_eq_true_eq]
    omega
  have hself : [e].filter (fun e => last < e.slot ∧ e.slot < s) = [] := by
    rw [List.filter_eq_nil_iff]
    intro e' he'
    rw [List.mem_singleton.mp he', he]
    simp
  unfold gap
  rw [List.filter_append, List.filter_append, hold, hgap, hself, List.nil_append, List.append_nil]

/-! ## The books -/

/-- Everything the tracker holds, in terms of the slots accepted. -/
structure Books (l : List Nat) (t : SlotTracker) : Prop where
  increasing : l.Pairwise (· < ·)
  lastSlot : t.lastSlot = l.getLast?
  once : (classified t).map SlotEntry.slot = span l
  verdict : ∀ e ∈ classified t, e.produced = true ↔ e.slot ∈ l
  totalProduced : t.totalProduced = ((classified t).filter fun e => e.produced).length
  totalMissed : t.totalMissed = ((classified t).filter fun e => !e.produced).length
  recent : t.recentSlots = newest MAX_HISTORY (classified t)
  combos : t.missedCombos = newest MAX_COMBOS (gaps (classified t) l)
  named : ∀ c ∈ gaps (classified t) l, c.collators.length = c.length
  openMiss : t.openMiss = none

theorem books_init : Books [] ({} : SlotTracker) where
  increasing := List.Pairwise.nil
  lastSlot := rfl
  once := rfl
  verdict := by intro e he; exact absurd he (by simp [classified])
  totalProduced := rfl
  totalMissed := rfl
  recent := rfl
  combos := rfl
  named := by intro c hc; exact absurd hc (by simp [gaps])
  openMiss := rfl

/-- The roster is not part of the books. -/
theorem Books.holding {l : List Nat} {t : SlotTracker} (h : Books l t) (roster : Roster) :
    Books l (t.holding roster) :=
  ⟨h.increasing, h.lastSlot, h.once, h.verdict, h.totalProduced, h.totalMissed, h.recent,
    h.combos, h.named, h.openMiss⟩

theorem map_slot_missedEntries (t : SlotTracker) (start k : Nat) :
    (missedEntries t start k).map SlotEntry.slot = List.range' start k := by
  unfold missedEntries
  rw [List.map_map]
  exact List.map_id _

theorem not_produced_of_mem_missedEntries {t : SlotTracker} {start k : Nat} {e : SlotEntry}
    (he : e ∈ missedEntries t start k) : e.produced = false := by
  obtain ⟨s, -, rfl⟩ := List.mem_map.mp he
  rfl

theorem mem_missedEntries {t : SlotTracker} {start k : Nat} {e : SlotEntry}
    (he : e ∈ missedEntries t start k) : start ≤ e.slot ∧ e.slot < start + k := by
  obtain ⟨s, hs, rfl⟩ := List.mem_map.mp he
  exact List.mem_range'_1.mp hs

/-- The two counters, when the books are extended by a gap and a slot. -/
theorem counts_append (t : SlotTracker) (entries : List SlotEntry) (start k : Nat) {e : SlotEntry}
    (he : e.produced = true) :
    ((entries ++ missedEntries t start k ++ [e]).filter fun e => e.produced).length
        = (entries.filter fun e => e.produced).length + 1
    ∧ ((entries ++ missedEntries t start k ++ [e]).filter fun e => !e.produced).length
        = (entries.filter fun e => !e.produced).length + k := by
  have hproduced : (missedEntries t start k).filter (fun e => e.produced) = [] := by
    rw [List.filter_eq_nil_iff]
    intro e' he'
    rw [not_produced_of_mem_missedEntries he']
    exact Bool.false_ne_true
  have hmissed : (missedEntries t start k).filter (fun e => !e.produced)
      = missedEntries t start k := by
    rw [List.filter_eq_self]
    intro e' he'
    rw [not_produced_of_mem_missedEntries he']
    rfl
  have hlen : (missedEntries t start k).length = k := by simp [missedEntries]
  rw [List.filter_append, List.filter_append, List.filter_append, List.filter_append, hproduced,
    hmissed]
  simp [he, hlen]

/-- The first slot. -/
theorem books_first {t t' : SlotTracker} (h : Books [] t) {slot : Nat} {e : SlotEntry}
    (hp : Produced t t' 0 0 slot e) : Books [slot] t' := by
  have hempty : classified t = [] := List.map_eq_nil_iff.mp h.once
  have hclassified : classified t' = [e] := by rw [hp.classified, hempty]; rfl
  refine ⟨List.pairwise_singleton _ _, hp.lastSlot, ?_, ?_, ?_, ?_, hp.recent h.recent, ?_, ?_,
    hp.openMiss⟩
  · rw [hclassified, span_singleton, List.map_singleton, hp.entrySlot]
  · intro e' he'
    rw [hclassified, List.mem_singleton] at he'
    rw [he', hp.entryProduced, hp.entrySlot]
    simp
  · rw [hp.totalProduced, h.totalProduced, hclassified, hempty]
    simp [hp.entryProduced]
  · rw [hp.totalMissed, h.totalMissed, hclassified, hempty]
    simp [hp.entryProduced]
  · rw [hp.missedCombos, if_neg (by omega), h.combos]
    rfl
  · intro c hc
    exact absurd hc (by simp [gaps])

/-- Of the slots classified by the next call, the new one is produced, and no other. -/
theorem verdict_next {t t' : SlotTracker} {l : List Nat} (h : Books l t) {last : Nat}
    (hlast : l.getLast? = some last) {slot : Nat} (hslot : last < slot) {e : SlotEntry}
    (hp : Produced t t' (last + 1) (slot - (last + 1)) slot e)
    (hold : ∀ e ∈ classified t, e.slot ≤ last) :
    ∀ e' ∈ classified t', e'.produced = true ↔ e'.slot ∈ l ++ [slot] := by
  have hle := le_getLast h.increasing hlast
  intro e' he'
  rw [hp.classified, List.mem_append, List.mem_append] at he'
  rw [List.mem_append, List.mem_singleton]
  rcases he' with (he' | he') | he'
  · have := hold e' he'
    rw [h.verdict e' he']
    exact ⟨Or.inl, fun hor => hor.resolve_right (by omega)⟩
  · -- a missed slot lies behind everything accepted before, and before the new one
    have hrange := mem_missedEntries he'
    rw [not_produced_of_mem_missedEntries he']
    refine ⟨fun hf => absurd hf (by simp), ?_⟩
    intro hor
    rcases hor with hmem | heq
    · have := hle _ hmem
      omega
    · omega
  · rw [List.mem_singleton.mp he', hp.entryProduced, hp.entrySlot]
    simp

/-- **A slot after a gap.** -/
theorem books_next {t t' : SlotTracker} {l : List Nat} (h : Books l t) {last : Nat}
    (hlast : l.getLast? = some last) {slot : Nat} (hslot : last < slot) {e : SlotEntry}
    (hp : Produced t t' (last + 1) (slot - (last + 1)) slot e) : Books (l ++ [slot]) t' := by
  -- the new entries lie above all old ones, so the gaps of before stay as they are
  have hold : ∀ e ∈ classified t, e.slot ≤ last := by
    intro e he
    refine mem_span_le hlast ?_
    rw [← h.once]
    exact List.mem_map_of_mem he
  have hnew : ∀ e' ∈ missedEntries t (last + 1) (slot - (last + 1)) ++ [e], last < e'.slot := by
    intro e' he'
    rcases List.mem_append.mp he' with he' | he'
    · have := mem_missedEntries he'
      omega
    · rw [List.mem_singleton.mp he', hp.entrySlot]
      exact hslot
  have hgaps : gaps (classified t') (l ++ [slot]) = gaps (classified t) l
      ++ (if 2 ≤ slot - (last + 1) then
          some { startSlot := last + 1, length := slot - (last + 1),
                 collators := (missedEntries t (last + 1) (slot - (last + 1))).map collatorName }
        else none).toList := by
    rw [hp.classified, List.append_assoc, gaps_snoc h.increasing hlast hnew,
      gap_missed hold hp.entrySlot]
  have hcounts := counts_append t (classified t) (last + 1) (slot - (last + 1)) hp.entryProduced
  have hle := le_getLast h.increasing hlast
  refine ⟨?_, ?_, ?_, verdict_next h hlast hslot hp hold, ?_, ?_, hp.recent h.recent, ?_, ?_,
    hp.openMiss⟩
  · refine List.pairwise_append.mpr ⟨h.increasing, List.pairwise_singleton _ _, ?_⟩
    intro a ha b hb
    have := hle a ha
    rw [List.mem_singleton.mp hb]
    omega
  · rw [hp.lastSlot, List.getLast?_concat]
  · rw [hp.classified, List.map_append, List.map_append, h.once, map_slot_missedEntries,
      List.map_singleton, hp.entrySlot, span_snoc h.increasing hlast hslot]
  · rw [hp.totalProduced, h.totalProduced, hp.classified, hcounts.1]
  · rw [hp.totalMissed, h.totalMissed, hp.classified, hcounts.2]
  · rw [hp.missedCombos, hgaps, h.combos]
    split
    · exact pushBounded_newest _ _ _
    · rw [Option.toList_none, List.append_nil]
  · intro c hc
    rw [hgaps, List.mem_append] at hc
    rcases hc with hc | hc
    · exact h.named c hc
    · split at hc
      · rw [Option.toList_some, List.mem_singleton] at hc
        rw [hc]
        simp [missedEntries]
      · exact absurd hc (by simp)

/-- **One call.** The books are kept by every call, whatever its slot. -/
theorem books_apply {l : List Nat} {t : SlotTracker} (h : Books l t) (call : SlotCall) :
    Books (accept l call.slot) (call.apply t) := by
  have hany : t.lastSlot.any (fun last => call.slot ≤ last) = true ↔ ¬ Ahead t call.slot :=
    any_of_ahead
  unfold accept
  rw [← h.lastSlot]
  by_cases hahead : Ahead t call.slot
  · rw [if_neg (fun ha => hany.mp ha hahead)]
    obtain ⟨roster, e, hp⟩ := apply_of_ahead h.openMiss call hahead
    have hlast := h.lastSlot
    unfold gapBefore at hp
    cases hl : t.lastSlot with
    | none =>
        rw [hl] at hp hlast
        obtain rfl : l = [] := List.getLast?_eq_none_iff.mp hlast.symm
        exact books_first (h.holding roster) hp
    | some last =>
        rw [hl] at hp hlast
        exact books_next (h.holding roster) hlast.symm (hahead last hl) hp
  · rw [if_pos (hany.mpr hahead)]
    obtain ⟨roster, heq⟩ := apply_of_not_ahead call hahead
    rw [heq]
    exact h.holding roster

/-- **Every run of calls keeps the books.** -/
theorem books_run (calls : List SlotCall) :
    Books (accepted (calls.map SlotCall.slot)) (callMachine.run calls) := by
  induction calls using List.reverseRecOn with
  | nil => exact books_init
  | append_singleton calls call ih =>
      rw [Machine.run_snoc, List.map_append, List.map_singleton]
      unfold accepted
      rw [List.foldl_append]
      exact books_apply ih call

/-! ## The law -/

/-- The slot accounting of a tracker that was passed these slots, the first of them `first`. -/
structure Partition (slots : List Nat) (first last : Nat) (t : SlotTracker) : Prop where
  lastSlot : t.lastSlot = some last
  /-- Every slot from the first accepted one to the last is classified, once and in order. -/
  once : (classified t).map SlotEntry.slot = List.range' first (last - first + 1)
  /-- Produced if it was passed when it exceeded `lastSlot`, and missed otherwise. -/
  verdict : ∀ e ∈ classified t, e.produced = true ↔ e.slot ∈ accepted slots
  totalProduced : t.totalProduced = ((classified t).filter fun e => e.produced).length
  totalMissed : t.totalMissed = ((classified t).filter fun e => !e.produced).length
  sum : t.totalProduced + t.totalMissed = last - first + 1
  /-- The recent slots are the end of the classification. -/
  recent : t.recentSlots = newest MAX_HISTORY (classified t)
  /-- The combos are the gaps of two slots and more, cut to the last hundred. -/
  combos : t.missedCombos = newest MAX_COMBOS (gaps (classified t) (accepted slots))
  /-- One collator for each slot of a gap. -/
  named : ∀ c ∈ gaps (classified t) (accepted slots), c.collators.length = c.length
  /-- No run is left open. -/
  closed : t.openMiss = none

theorem head?_accept {l : List Nat} {first : Nat} (h : l.head? = some first) (slot : Nat) :
    (accept l slot).head? = some first := by
  unfold accept
  split
  · exact h
  · rw [List.head?_append, h]
    rfl

/-- The first slot passed is accepted, and stays the first accepted one. -/
theorem head?_accepted (slot : Nat) (slots : List Nat) :
    (accepted (slot :: slots)).head? = some slot := by
  induction slots using List.reverseRecOn with
  | nil => rfl
  | append_singleton slots s ih =>
      unfold accepted at ih ⊢
      rw [← List.cons_append, List.foldl_append, List.foldl_cons, List.foldl_nil]
      exact head?_accept ih s

/--
**Slot accounting is a partition.**

A fresh tracker that is passed a first slot and then any others, in any order and
with any names for collators, has classified every slot from the first to the last
accepted one exactly once, produced if it was accepted and missed otherwise; its
counters, its ring buffer and its list of combos are views of that classification.
-/
theorem slotAccounting (call : SlotCall) (calls : List SlotCall) :
    ∃ last, call.slot ≤ last
      ∧ Partition ((call :: calls).map SlotCall.slot) call.slot last
          (callMachine.run (call :: calls)) := by
  have h := books_run (call :: calls)
  have hhead := head?_accepted call.slot (calls.map SlotCall.slot)
  rw [← List.map_cons] at hhead
  obtain ⟨l, hl⟩ : ∃ l, accepted ((call :: calls).map SlotCall.slot) = call.slot :: l := by
    cases hacc : accepted ((call :: calls).map SlotCall.slot) with
    | nil => rw [hacc] at hhead; exact absurd hhead (by simp)
    | cons a l => rw [hacc] at hhead; exact ⟨l, by rw [Option.some.inj hhead]⟩
  obtain ⟨last, hlast⟩ : ∃ last, (call.slot :: l).getLast? = some last :=
    ⟨_, List.getLast?_cons⟩
  have hle : call.slot ≤ last := le_getLast (hl ▸ h.increasing) hlast _ (by simp)
  have honce : (classified (callMachine.run (call :: calls))).map SlotEntry.slot
      = List.range' call.slot (last - call.slot + 1) := by
    rw [h.once, hl]
    unfold span
    rw [hlast]
    simp only [List.head?_cons, Option.getD_some, Option.map_some]
    congr 1
    omega
  refine ⟨last, hle, h.lastSlot.trans (by rw [hl, hlast]), honce, h.verdict, h.totalProduced,
    h.totalMissed, ?_, h.recent, h.combos, h.named, h.openMiss⟩
  -- each entry is counted by one of the two counters
  have hlen := congrArg List.length honce
  rw [List.length_map, List.length_range'] at hlen
  rw [h.totalProduced, h.totalMissed, ← hlen, ← List.countP_eq_length_filter,
    ← List.countP_eq_length_filter]
  rw [List.length_eq_countP_add_countP (fun e => e.produced)]
  congr 2
  funext e
  cases e.produced <;> rfl

end ForkWatch.Proof
