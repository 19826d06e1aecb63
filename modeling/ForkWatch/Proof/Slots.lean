import ForkWatch.Monitor.SlotTracker

/-!
# Does a finality jump count like single steps?

When finality jumps, the tracker fetches the headers in between, but at most the
last fifty of them. Everything else is the same processing of one slot after
another, so the two ways of delivering a range of blocks are compared through
one list: the blocks whose slots are processed.

`catchUp` processes such a list. A run of single steps is `catchUp` over the
whole range, a jump is `catchUp` over the part the window reaches, and the names
of the authors do not influence the count (`Alike`). So the two agree when the
window covers the range, and also when the tracker had already seen the slots of
the blocks it skips; in every other case a slot in which a block was produced is
not counted as produced.
-/

namespace ForkWatch.Proof

open Lib SlotTracker

/-! ## What is counted -/

/-- Slot and verdict of a history entry. -/
def SlotEntry.verdict (e : SlotEntry) : Nat × Bool := (e.slot, e.produced)

/-- The classification of slots a history holds, oldest first. -/
def classification (rs : List SlotReport) : List (Nat × Bool) :=
  rs.filterMap fun
    | .classified e => some (SlotEntry.verdict e)
    | _ => none

/-- Two trackers counted the same. -/
structure SameCount (t t' : SlotTracker) : Prop where
  totalProduced : t.totalProduced = t'.totalProduced
  totalMissed : t.totalMissed = t'.totalMissed
  lastSlot : t.lastSlot = t'.lastSlot
  classified : classification t.history = classification t'.history
  recent : t.recentSlots.map SlotEntry.verdict = t'.recentSlots.map SlotEntry.verdict
  missedCombos : t.missedCombos = t'.missedCombos

/-- Two trackers counted the same and will go on doing so. -/
structure Alike (t t' : SlotTracker) : Prop extends SameCount t t' where
  openMiss : t.openMiss = t'.openMiss
  authorities : t.authorities = t'.authorities
  names : t.resolveAuthorName = t'.resolveAuthorName

theorem Alike.refl (t : SlotTracker) : Alike t t where
  totalProduced := rfl
  totalMissed := rfl
  lastSlot := rfl
  classified := rfl
  recent := rfl
  missedCombos := rfl
  openMiss := rfl
  authorities := rfl
  names := rfl

theorem Alike.symm {t t' : SlotTracker} (h : Alike t t') : Alike t' t where
  totalProduced := h.totalProduced.symm
  totalMissed := h.totalMissed.symm
  lastSlot := h.lastSlot.symm
  classified := h.classified.symm
  recent := h.recent.symm
  missedCombos := h.missedCombos.symm
  openMiss := h.openMiss.symm
  authorities := h.authorities.symm
  names := h.names.symm

theorem Alike.trans {t t' t'' : SlotTracker} (h : Alike t t') (h' : Alike t' t'') :
    Alike t t'' where
  totalProduced := h.totalProduced.trans h'.totalProduced
  totalMissed := h.totalMissed.trans h'.totalMissed
  lastSlot := h.lastSlot.trans h'.lastSlot
  classified := h.classified.trans h'.classified
  recent := h.recent.trans h'.recent
  missedCombos := h.missedCombos.trans h'.missedCombos
  openMiss := h.openMiss.trans h'.openMiss
  authorities := h.authorities.trans h'.authorities
  names := h.names.trans h'.names

/-! ## Processing keeps alike trackers alike -/

theorem map_pushBounded {α β : Type} (f : α → β) (n : Nat) (l : List α) (x : α) :
    (pushBounded n l x).map f = pushBounded n (l.map f) (f x) := by
  unfold pushBounded
  rw [List.length_map]
  split
  · rw [List.map_drop, List.map_append, List.map_singleton]
  · rw [List.map_append, List.map_singleton]

theorem classification_append (rs rs' : List SlotReport) :
    classification (rs ++ rs') = classification rs ++ classification rs' :=
  List.filterMap_append

@[simp] theorem classification_classified (e : SlotEntry) :
    classification [.classified e] = [SlotEntry.verdict e] := rfl

@[simp] theorem classification_collatorMissed (o : Option String) :
    classification (o.map SlotReport.collatorMissed).toList = [] := by cases o <;> rfl

@[simp] theorem classification_collatorProduced (o : Option String) :
    classification (o.map SlotReport.collatorProduced).toList = [] := by cases o <;> rfl

/-- Metrics of single collators are not part of the count. -/
theorem alike_report {t t' : SlotTracker} (h : Alike t t') {rs rs' : List SlotReport}
    (hrs : classification rs = []) (hrs' : classification rs' = []) :
    Alike (t.report rs) (t'.report rs') where
  __ := h
  classified := by
    show classification (t.history ++ rs) = classification (t'.history ++ rs')
    rw [classification_append, classification_append, hrs, hrs', h.classified]

theorem alike_addHistory {t t' : SlotTracker} (h : Alike t t') (e e' : SlotEntry)
    (he : SlotEntry.verdict e = SlotEntry.verdict e') :
    Alike (t.addHistory e) (t'.addHistory e') where
  __ := h
  classified := by
    show classification (t.history ++ [.classified e]) = classification (t'.history ++ [.classified e'])
    rw [classification_append, classification_append, classification_classified,
      classification_classified, h.classified, he]
  recent := by
    show (pushBounded MAX_HISTORY t.recentSlots e).map SlotEntry.verdict
      = (pushBounded MAX_HISTORY t'.recentSlots e').map SlotEntry.verdict
    rw [map_pushBounded, map_pushBounded, h.recent, he]

theorem alike_closeOpenMiss {t t' : SlotTracker} (h : Alike t t') :
    Alike t.closeOpenMiss t'.closeOpenMiss := by
  unfold closeOpenMiss
  rw [← h.openMiss]
  split
  · exact h
  · exact { h with
      openMiss := rfl
      missedCombos := by dsimp only; rw [h.missedCombos] }

theorem alike_recordProduce {t t' : SlotTracker} (h : Alike t t') (slot : Nat)
    (n n' : Option Nat) (e e' : Option String) : Alike (t.recordProduce slot e n) (t'.recordProduce slot e' n') := by
  have h₁ := alike_report (alike_closeOpenMiss h)
    (classification_collatorProduced (orNull e)) (classification_collatorProduced (orNull e'))
  have h₂ := alike_addHistory h₁ ⟨slot, e, true, n⟩ ⟨slot, e', true, n'⟩ rfl
  exact { h₂ with
    lastSlot := rfl
    totalProduced := congrArg (· + 1) h₂.totalProduced }

theorem alike_extendOpenMiss {t t' : SlotTracker} (h : Alike t t') (slot : Nat)
    (collator : String) : Alike (t.extendOpenMiss slot collator) (t'.extendOpenMiss slot collator) := by
  have hclosed := alike_closeOpenMiss h
  have ho := h.openMiss
  unfold extendOpenMiss
  cases hm : t.openMiss with
  | none =>
      rw [← ho, hm]
      exact { h with openMiss := rfl }
  | some run =>
      rw [← ho, hm]
      dsimp only
      split
      · exact { h with openMiss := rfl }
      · exact { hclosed with openMiss := rfl }

theorem alike_recordMiss {t t' : SlotTracker} (h : Alike t t') (slot : Nat) (e : Option String) :
    Alike (t.recordMiss slot e) (t'.recordMiss slot e) := by
  have h₁ := alike_report h
    (classification_collatorMissed (orNull e)) (classification_collatorMissed (orNull e))
  have h₂ := alike_addHistory h₁ ⟨slot, e, false, none⟩ ⟨slot, e, false, none⟩ rfl
  refine alike_extendOpenMiss ?_ ..
  exact { h₂ with totalMissed := congrArg (· + 1) h₂.totalMissed }

theorem Alike.expectedAuthor {t t' : SlotTracker} (h : Alike t t') (slot : Nat) :
    t.expectedAuthor slot = t'.expectedAuthor slot := by
  unfold SlotTracker.expectedAuthor
  rw [h.authorities, h.names]

theorem alike_recordMisses {t t' : SlotTracker} (h : Alike t t') (slot : Nat) :
    Alike (t.recordMisses slot) (t'.recordMisses slot) := by
  unfold recordMisses
  rw [← h.lastSlot]
  split
  · exact h
  · rename_i last hlast
    generalize List.range' (last + 1) (slot - (last + 1)) = slots
    clear hlast
    induction slots generalizing t t' with
    | nil => exact h
    | cons s slots ih =>
        rw [List.foldl_cons, List.foldl_cons, ← h.expectedAuthor]
        exact ih (alike_recordMiss h s _)

/-- **One slot.** The author, and the node that was asked for it, do not matter. -/
theorem alike_process {t t' : SlotTracker} (h : Alike t t') (api api' : SlotApi)
    (slot n n' : Nat) (x x' : Hash) :
    Alike (t.processSlotWithActual api slot n x) (t'.processSlotWithActual api' slot n' x') := by
  unfold processSlotWithActual
  rw [← h.lastSlot]
  split
  · exact h
  · exact alike_recordProduce (alike_recordMisses h slot) ..

/-! ## One slot after another -/

/-- The slot lies beyond everything the tracker has seen. -/
def Ahead (t : SlotTracker) (slot : Nat) : Prop := ∀ last, t.lastSlot = some last → last < slot

theorem not_ahead_iff {t : SlotTracker} {slot : Nat} :
    ¬ Ahead t slot ↔ ∃ last, t.lastSlot = some last ∧ slot ≤ last := by
  simp [Ahead]

theorem process_of_not_ahead {t : SlotTracker} {slot : Nat} (h : ¬ Ahead t slot) (api : SlotApi)
    (n : Nat) (x : Hash) : t.processSlotWithActual api slot n x = t := by
  obtain ⟨last, hl, hle⟩ := not_ahead_iff.mp h
  unfold processSlotWithActual
  rw [hl, if_pos (by simpa using hle)]

theorem process_of_ahead {t : SlotTracker} {slot : Nat} (h : Ahead t slot) (api : SlotApi)
    (n : Nat) (x : Hash) : t.processSlotWithActual api slot n x
      = (t.recordMisses slot).recordProduce slot
          ((t.recordMisses slot).displayName (api.deriveAuthor x) slot) (some n) := by
  unfold processSlotWithActual
  rw [if_neg]
  cases hl : t.lastSlot with
  | none => simp
  | some last => simpa using h last hl

theorem lastSlot_recordMiss (t : SlotTracker) (slot : Nat) (e : Option String) :
    (t.recordMiss slot e).lastSlot = t.lastSlot
      ∧ (t.recordMiss slot e).totalProduced = t.totalProduced := by
  unfold recordMiss extendOpenMiss closeOpenMiss
  dsimp only
  split
  · split
    · exact ⟨rfl, rfl⟩
    · split <;> exact ⟨rfl, rfl⟩
  · exact ⟨rfl, rfl⟩

theorem classification_recordMiss (t : SlotTracker) (slot : Nat) (e : Option String) :
    classification (t.recordMiss slot e).history = classification t.history ++ [(slot, false)] := by
  have h : (t.recordMiss slot e).history
      = t.history ++ ((orNull e).map SlotReport.collatorMissed).toList
        ++ [.classified ⟨slot, e, false, none⟩] := by
    unfold recordMiss extendOpenMiss closeOpenMiss
    dsimp only
    split
    · split
      · rfl
      · split <;> rfl
    · rfl
  rw [h, classification_append, classification_append, classification_collatorMissed,
    List.append_nil]
  rfl

/-- Misses are recorded strictly between the last slot and the next one. -/
theorem recordMisses_spec (t : SlotTracker) (slot : Nat) :
    (t.recordMisses slot).totalProduced = t.totalProduced ∧
    ∃ missed : List Nat, (∀ s ∈ missed, Ahead t s ∧ s < slot) ∧
      classification (t.recordMisses slot).history
        = classification t.history ++ missed.map (fun s => (s, false)) := by
  unfold recordMisses
  cases hl : t.lastSlot with
  | none => exact ⟨rfl, [], by simp, by simp⟩
  | some last =>
      have key : ∀ (slots : List Nat) (u : SlotTracker),
          (slots.foldl (fun t s => t.recordMiss s (t.expectedAuthor s)) u).totalProduced
              = u.totalProduced ∧
            classification
                (slots.foldl (fun t s => t.recordMiss s (t.expectedAuthor s)) u).history
              = classification u.history ++ slots.map (fun s => (s, false)) := by
        intro slots
        induction slots with
        | nil => intro u; simp
        | cons s slots ih =>
            intro u
            obtain ⟨h1, h2⟩ := ih (u.recordMiss s (u.expectedAuthor s))
            rw [List.foldl_cons, h1, h2, classification_recordMiss, (lastSlot_recordMiss ..).2]
            simp
      obtain ⟨h1, h2⟩ := key (List.range' (last + 1) (slot - (last + 1))) t
      refine ⟨h1, List.range' (last + 1) (slot - (last + 1)), ?_, h2⟩
      intro s hs
      rw [List.mem_range'_1] at hs
      refine ⟨fun last' hl' => ?_, by omega⟩
      rw [hl] at hl'
      have := Option.some.inj hl'
      omega

theorem totalProduced_process {t : SlotTracker} {slot : Nat} (h : Ahead t slot) (api : SlotApi)
    (n : Nat) (x : Hash) :
    (t.processSlotWithActual api slot n x).totalProduced = t.totalProduced + 1 := by
  rw [process_of_ahead h, ← (recordMisses_spec t slot).1]
  unfold recordProduce closeOpenMiss
  dsimp only
  split <;> rfl

theorem ahead_process (t : SlotTracker) (api : SlotApi) (slot n : Nat) (x : Hash) (s : Nat) :
    Ahead (t.processSlotWithActual api slot n x) s ↔ Ahead t s ∧ slot < s := by
  by_cases h : Ahead t slot
  · have hl : (t.processSlotWithActual api slot n x).lastSlot = some slot := by
      rw [process_of_ahead h]; rfl
    refine ⟨?_, ?_⟩
    · intro hs
      have hlt := hs slot hl
      exact ⟨fun last hlast => Nat.lt_trans (h last hlast) hlt, hlt⟩
    · rintro ⟨-, hlt⟩ last hlast
      rw [hl] at hlast
      exact Option.some.inj hlast ▸ hlt
  · rw [process_of_not_ahead h]
    obtain ⟨last, hl, hle⟩ := not_ahead_iff.mp h
    exact ⟨fun hs => ⟨hs, Nat.lt_of_le_of_lt hle (hs last hl)⟩, fun hs => hs.1⟩

/-- A miss recorded while processing a slot lies before it and ahead of what was seen. -/
theorem missed_process {t : SlotTracker} {api : SlotApi} {slot n : Nat} {x : Hash} {s : Nat}
    (h : (s, false) ∈ classification (t.processSlotWithActual api slot n x).history) :
    (s, false) ∈ classification t.history ∨ Ahead t s ∧ s < slot := by
  by_cases ha : Ahead t slot
  · obtain ⟨-, missed, hmissed, hc⟩ := recordMisses_spec t slot
    rw [process_of_ahead ha] at h
    have hh : classification ((t.recordMisses slot).recordProduce slot
        ((t.recordMisses slot).displayName (api.deriveAuthor x) slot) (some n)).history
        = classification (t.recordMisses slot).history ++ [(slot, true)] := by
      unfold recordProduce closeOpenMiss addHistory report
      dsimp only
      split <;>
        rw [classification_append, classification_append, classification_collatorProduced,
          List.append_nil] <;> rfl
    rw [hh, hc] at h
    simp only [List.mem_append, List.mem_map, Prod.mk.injEq, and_true, exists_eq_right,
      List.mem_singleton, Bool.false_eq_true, and_false, or_false] at h
    rcases h with h | h
    · exact Or.inl h
    · exact Or.inr (hmissed s h)
  · rw [process_of_not_ahead ha] at h
    exact Or.inl h

/-! ## Lists of blocks -/

/-- An API that answers nothing; whom it would name does not matter. -/
def silent : SlotApi := ⟨fun _ => none, fun _ => none, fun _ => none⟩

/-- Process the slots of these blocks, one after another. -/
def catchUp (slot : Nat → Nat) (t : SlotTracker) (blocks : List Nat) : SlotTracker :=
  blocks.foldl (fun t n => t.processSlotWithActual silent (slot n) n "") t

variable {slot : Nat → Nat}

theorem alike_catchUp {t t' : SlotTracker} (h : Alike t t') (blocks : List Nat) :
    Alike (catchUp slot t blocks) (catchUp slot t' blocks) := by
  induction blocks generalizing t t' with
  | nil => exact h
  | cons n blocks ih => exact ih (alike_process h ..)

theorem catchUp_append (t : SlotTracker) (xs ys : List Nat) :
    catchUp slot t (xs ++ ys) = catchUp slot (catchUp slot t xs) ys := List.foldl_append

theorem ahead_catchUp (t : SlotTracker) (blocks : List Nat) (s : Nat) :
    Ahead (catchUp slot t blocks) s ↔ Ahead t s ∧ ∀ n ∈ blocks, slot n < s := by
  induction blocks generalizing t with
  | nil => simp [catchUp]
  | cons n blocks ih =>
      rw [catchUp, List.foldl_cons, ← catchUp, ih, ahead_process]
      simp [and_assoc]

/-- Blocks whose slots the tracker has seen already leave it as it is. -/
theorem catchUp_of_not_ahead {t : SlotTracker} {blocks : List Nat}
    (h : ∀ n ∈ blocks, ¬ Ahead t (slot n)) : catchUp slot t blocks = t := by
  induction blocks with
  | nil => rfl
  | cons n blocks ih =>
      rw [catchUp, List.foldl_cons, process_of_not_ahead (h n (by simp)), ← catchUp]
      exact ih fun m hm => h m (by simp [hm])

theorem le_totalProduced_catchUp (slot : Nat → Nat) (t : SlotTracker) (blocks : List Nat) :
    t.totalProduced ≤ (catchUp slot t blocks).totalProduced := by
  induction blocks generalizing t with
  | nil => exact Nat.le_refl _
  | cons n blocks ih =>
      refine Nat.le_trans ?_ (ih (t.processSlotWithActual silent (slot n) n ""))
      by_cases h : Ahead t (slot n)
      · rw [totalProduced_process h]; omega
      · rw [process_of_not_ahead h]

/-- Blocks with increasing slots, all of them new, count one each. -/
theorem totalProduced_catchUp {t : SlotTracker} {blocks : List Nat}
    (hs : blocks.Pairwise (fun m n => slot m < slot n)) (h : ∀ n ∈ blocks, Ahead t (slot n)) :
    (catchUp slot t blocks).totalProduced = t.totalProduced + blocks.length := by
  induction blocks generalizing t with
  | nil => rfl
  | cons n blocks ih =>
      rw [List.pairwise_cons] at hs
      have hrest : ∀ m ∈ blocks,
          Ahead (t.processSlotWithActual silent (slot n) n "") (slot m) := fun m hm =>
        (ahead_process ..).mpr ⟨h m (by simp [hm]), hs.1 m hm⟩
      rw [catchUp, List.foldl_cons, ← catchUp, ih hs.2 hrest,
        totalProduced_process (h n (by simp)), List.length_cons]
      omega

/-- Where in the list a miss was recorded. -/
theorem missed_catchUp {t : SlotTracker} {blocks : List Nat} {s : Nat}
    (h : (s, false) ∈ classification (catchUp slot t blocks).history) :
    (s, false) ∈ classification t.history ∨
      ∃ pre n post, blocks = pre ++ n :: post ∧ Ahead (catchUp slot t pre) s ∧ s < slot n := by
  induction blocks using List.reverseRecOn with
  | nil => exact Or.inl h
  | append_singleton blocks n ih =>
      rw [catchUp_append] at h
      rcases missed_process h with h' | ⟨ha, hlt⟩
      · rcases ih h' with h'' | ⟨pre, m, post, rfl, ha, hlt⟩
        · exact Or.inl h''
        · exact Or.inr ⟨pre, m, post ++ [n], by simp, ha, hlt⟩
      · exact Or.inr ⟨blocks, n, [], rfl, ha, hlt⟩

/-- **No slot of a processed block is recorded as missed.** -/
theorem not_missed_catchUp {t : SlotTracker} {blocks : List Nat}
    (hs : blocks.Pairwise (fun m n => slot m < slot n)) {m : Nat} (hm : m ∈ blocks)
    (h : (slot m, false) ∈ classification (catchUp slot t blocks).history) :
    (slot m, false) ∈ classification t.history := by
  rcases missed_catchUp h with h' | ⟨pre, n, post, rfl, ha, hlt⟩
  · exact h'
  · exfalso
    rw [ahead_catchUp] at ha
    rcases List.mem_append.mp hm with hpre | hpost
    · exact Nat.lt_irrefl _ (ha.2 m hpre)
    · rcases List.mem_cons.mp hpost with rfl | hpost
      · exact Nat.lt_irrefl _ hlt
      · have := (List.pairwise_cons.mp (List.pairwise_append.mp hs).2.1).1 m hpost
        omega

/-! ## Two ways to deliver a range of blocks -/

/-- The finalized blocks `P + 1 … N`, with strictly increasing aura slots. -/
structure FinalizedRange (P N : Nat) where
  header : Nat → SlotHeader
  slot : Nat → Nat
  number : ∀ n, P < n → n ≤ N → (header n).number = n
  extracted : ∀ n, P < n → n ≤ N → extractSlot (header n) = some (slot n)
  increasing : ∀ m n, P < m → m < n → n ≤ N → slot m < slot n

/-- All header calls succeed; deriving an author may fail. -/
def FinalizedRange.ServedBy {P N : Nat} (c : FinalizedRange P N) (api : SlotApi) : Prop :=
  ∀ n, P < n → n ≤ N →
    api.getBlockHash n = some (c.header n).hash ∧ api.getHeader (c.header n).hash = some (c.header n)

/-- One header after another, from block `p` on, with duplicates and stale ones in between. -/
inductive OneAtATime {P N : Nat} (c : FinalizedRange P N) : Nat → List Delivery → Prop where
  | done : OneAtATime c N []
  | stale {p : Nat} {d : Delivery} {ds : List Delivery} (h : d.header.number ≤ p)
      (hs : OneAtATime c p ds) : OneAtATime c p (d :: ds)
  | next {p : Nat} {d : Delivery} {ds : List Delivery} (hp : p < N)
      (h : d.header = c.header (p + 1)) (hs : OneAtATime c (p + 1) ds) : OneAtATime c p (d :: ds)

/-- Deliver headers to a tracker. -/
def deliver (t : SlotTracker) (ds : List Delivery) : SlotTracker :=
  ds.foldl (fun t d => t.onFinalizedHeader d.api d.header d.lastFinalizedNumber) t

/-- The jump counted like the steps, and missed no slot of a block in the range. -/
structure JumpCounts {P N : Nat} (c : FinalizedRange P N) (t jump steps : SlotTracker) : Prop where
  same : SameCount jump steps
  noneMissed : ∀ n, P < n → n ≤ N → (c.slot n, false) ∈ classification jump.history →
    (c.slot n, false) ∈ classification t.history

variable {P N : Nat}

theorem FinalizedRange.pairwise (c : FinalizedRange P N) {a k : Nat} (ha : P < a)
    (hk : a + k ≤ N + 1) : (List.range' a k).Pairwise (fun m n => c.slot m < c.slot n) := by
  refine (List.pairwise_lt_range' (s := a) (n := k)).imp_of_mem ?_
  intro m n hm hn hlt
  rw [List.mem_range'_1] at hm hn
  exact c.increasing m n (by omega) hlt (by omega)

/-- A stale header changes nothing. -/
theorem onFinalizedHeader_of_stale {t : SlotTracker} {p : Nat}
    (ht : t.lastProcessedBlock = some p) {header : SlotHeader} (h : header.number ≤ p)
    (api : SlotApi) (last : Option Nat) : t.onFinalizedHeader api header last = t := by
  unfold onFinalizedHeader
  rw [ht, if_pos (by simpa using h)]

/-- A newer header: the missing blocks within the window, then the block itself. -/
theorem alike_onFinalizedHeader (c : FinalizedRange P N) {t : SlotTracker} {p n : Nat}
    (ht : t.lastProcessedBlock = some p) (hPp : P ≤ p) (hpn : p < n) (hn : n ≤ N) (api : SlotApi)
    (hapi : p + 1 < n → c.ServedBy api) (last : Option Nat) :
    Alike (t.onFinalizedHeader api (c.header n) last)
        (catchUp c.slot t (List.range' (max (p + 1) (n - 50)) (n + 1 - max (p + 1) (n - 50))))
      ∧ (t.onFinalizedHeader api (c.header n) last).lastProcessedBlock = some n := by
  have hnum := c.number n (by omega) hn
  have hfold : ∀ (blocks : List Nat) (u u' : SlotTracker), Alike u u' →
      (∀ m ∈ blocks, p < m ∧ m < n) →
      Alike (blocks.foldl (backfill api) u) (catchUp c.slot u' blocks) := by
    intro blocks
    induction blocks with
    | nil => intro u u' hu _; exact hu
    | cons m blocks ih =>
        intro u u' hu hm
        have hmn := hm m (by simp)
        -- a header is asked for only when there is a gap, where the range is served
        obtain ⟨hhash, hheader⟩ := hapi (by omega) m (by omega) (by omega)
        refine ih _ _ ?_ fun k hk => hm k (by simp [hk])
        unfold backfill
        rw [hhash]
        dsimp only
        rw [hheader]
        dsimp only
        rw [c.extracted m (by omega) (by omega)]
        exact alike_process hu ..
  -- the backfill stops short of the header itself
  have hrange : List.range' (max (p + 1) (n - 50)) (n + 1 - max (p + 1) (n - 50))
      = backfillRange p n ++ [n] := by
    unfold backfillRange
    dsimp only
    split
    · rw [show n + 1 - max (p + 1) (n - 50) = (n - max (p + 1) (n - 50)) + 1 by omega,
        List.range'_1_concat, show max (p + 1) (n - 50) + (n - max (p + 1) (n - 50)) = n by omega]
    · rw [show max (p + 1) (n - 50) = n by omega, show n + 1 - n = 1 by omega]
      rfl
  have hmem : ∀ m ∈ backfillRange p n, p < m ∧ m < n := by
    intro m hm
    unfold backfillRange at hm
    dsimp only at hm
    split at hm
    · rw [List.mem_range'_1] at hm; omega
    · exact absurd hm (by simp)
  unfold onFinalizedHeader
  rw [ht, hnum, if_neg (by simpa using hpn)]
  refine ⟨?_, rfl⟩
  rw [hrange, catchUp_append]
  have hprocess : Alike (((backfillRange p n).foldl (backfill api) t).processHeader api (c.header n))
      (catchUp c.slot (catchUp c.slot t (backfillRange p n)) [n]) := by
    unfold processHeader
    rw [c.extracted n (by omega) hn]
    exact alike_process (hfold _ _ _ (Alike.refl t) hmem) ..
  exact { hprocess with }

/-- Single steps process every block of the range. -/
theorem alike_deliver (c : FinalizedRange P N) {p : Nat} {ds : List Delivery}
    (hds : OneAtATime c p ds) : ∀ {t : SlotTracker}, t.lastProcessedBlock = some p → P ≤ p →
      Alike (deliver t ds) (catchUp c.slot t (List.range' (p + 1) (N - p))) := by
  induction hds with
  | done =>
      intro t _ _
      rw [Nat.sub_self]
      exact Alike.refl t
  | stale h _ ih =>
      intro t ht hPp
      rw [deliver, List.foldl_cons, ← deliver, onFinalizedHeader_of_stale ht h]
      exact ih ht hPp
  | @next p d ds hp h _ ih =>
      intro t ht hPp
      obtain ⟨h1, h2⟩ := alike_onFinalizedHeader c ht hPp (Nat.lt_succ_self p) hp
        d.api (fun hlt => absurd hlt (by omega)) d.lastFinalizedNumber
      rw [show max (p + 1) (p + 1 - 50) = p + 1 by omega, show p + 1 + 1 - (p + 1) = 1 by omega] at h1
      rw [deliver, List.foldl_cons, ← deliver, h]
      refine (ih h2 (by omega)).trans ((alike_catchUp h1 _).trans ?_)
      rw [← catchUp_append, show N - p = 1 + (N - (p + 1)) by omega, ← List.range'_append_1]
      exact Alike.refl _

/-- The window leaves blocks out, and the last of them is news: the jump produces less. -/
theorem totalProduced_of_gap (c : FinalizedRange P N) {t : SlotTracker} (hgap : P + 51 < N)
    (hnew : Ahead t (c.slot (N - 51))) :
    (catchUp c.slot t (List.range' (N - 50) 51)).totalProduced
      < (catchUp c.slot t (List.range' (P + 1) (N - P))).totalProduced := by
  -- the blocks the window leaves out, the last of them, and the window
  have hsplit : List.range' (P + 1) (N - P)
      = List.range' (P + 1) (N - 52 - P) ++ [N - 51] ++ List.range' (N - 50) 51 := by
    rw [show [N - 51] = List.range' (P + 1 + (N - 52 - P)) 1 by
        rw [show P + 1 + (N - 52 - P) = N - 51 by omega]; rfl,
      List.range'_append_1, show N - 50 = P + 1 + (N - 52 - P + 1) by omega, List.range'_append_1,
      show N - 52 - P + 1 + 51 = N - P by omega]
  have hwindow : ∀ n ∈ List.range' (N - 50) 51, c.slot (N - 51) < c.slot n := by
    intro n hn
    rw [List.mem_range'_1] at hn
    exact c.increasing _ _ (by omega) (by omega) (by omega)
  have hbefore : ∀ n ∈ List.range' (P + 1) (N - 52 - P), c.slot n < c.slot (N - 51) := by
    intro n hn
    rw [List.mem_range'_1] at hn
    exact c.increasing _ _ (by omega) (by omega) (by omega)
  have hsorted := c.pairwise (a := N - 50) (k := 51) (by omega) (by omega)
  -- the last one left out is ahead of all before it, so it counts as produced
  have hlast : Ahead (catchUp c.slot t (List.range' (P + 1) (N - 52 - P))) (c.slot (N - 51)) :=
    (ahead_catchUp ..).mpr ⟨hnew, hbefore⟩
  have hjump := totalProduced_catchUp hsorted (t := t) fun n hn last hl =>
    Nat.lt_trans (hnew last hl) (hwindow n hn)
  have hsteps := totalProduced_catchUp hsorted
    (t := catchUp c.slot (catchUp c.slot t (List.range' (P + 1) (N - 52 - P))) [N - 51])
    fun n hn => by
      refine (ahead_process ..).mpr ⟨fun last hl => ?_, hwindow n hn⟩
      exact Nat.lt_trans (hlast last hl) (hwindow n hn)
  have hone : (catchUp c.slot (catchUp c.slot t (List.range' (P + 1) (N - 52 - P)))
      [N - 51]).totalProduced
        = (catchUp c.slot t (List.range' (P + 1) (N - 52 - P))).totalProduced + 1 :=
    totalProduced_process hlast ..
  have hle := le_totalProduced_catchUp c.slot t (List.range' (P + 1) (N - 52 - P))
  rw [hsplit, catchUp_append, catchUp_append, hjump, hsteps, hone]
  omega

/-- Then the two ways do not count the same. -/
theorem not_sameCount_of_gap (c : FinalizedRange P N) {t : SlotTracker}
    (ht : t.lastProcessedBlock = some P) {api : SlotApi} (hapi : c.ServedBy api)
    (last : Option Nat) {ds : List Delivery} (hds : OneAtATime c P ds) (hgap : P + 51 < N)
    (hnew : Ahead t (c.slot (N - 51))) :
    ¬ SameCount (t.onFinalizedHeader api (c.header N) last) (deliver t ds) := by
  intro h
  obtain ⟨hjump, -⟩ := alike_onFinalizedHeader c ht (Nat.le_refl P) (by omega) (Nat.le_refl N)
    api (fun _ => hapi) last
  rw [show max (P + 1) (N - 50) = N - 50 by omega, show N + 1 - (N - 50) = 51 by omega] at hjump
  have hsteps := alike_deliver c hds ht (Nat.le_refl P)
  have hlt := totalProduced_of_gap c hgap hnew
  rw [← hjump.totalProduced, ← hsteps.totalProduced, h.totalProduced] at hlt
  exact Nat.lt_irrefl _ hlt

/-! ## A chain with a block in every slot -/

/-- Block `n` in slot `n`, under a hash of that length. -/
def everySlotHeader (n : Nat) : SlotHeader where
  number := n
  hash := String.ofList (List.replicate n 'x')
  logs := [{ isPreRuntime := true, engine := "aura", payload := [UInt8.ofNat n, 0, 0, 0, 0, 0, 0, 0] }]

/-- The range `P + 1 … N` of that chain, as far as one byte reaches. -/
def everySlot (P N : Nat) (hN : N < 256) : FinalizedRange P N where
  header := everySlotHeader
  slot := id
  number := fun _ _ _ => rfl
  extracted := by
    intro n _ hn
    have hmod : n % 256 = n := Nat.mod_eq_of_lt (by omega)
    simp [everySlotHeader, extractSlot, littleEndian, hmod]
  increasing := fun _ _ _ h _ => h

def everySlotApi : SlotApi where
  getBlockHash := fun n => some (everySlotHeader n).hash
  getHeader := fun x => some (everySlotHeader x.length)
  deriveAuthor := fun _ => none

theorem everySlot_served (P N : Nat) (hN : N < 256) : (everySlot P N hN).ServedBy everySlotApi := by
  intro n _ _
  refine ⟨rfl, ?_⟩
  simp [everySlot, everySlotApi, everySlotHeader]

/-- The headers `p + 1 … p + k` of that chain, one at a time. -/
def everySlotDeliveries (p k : Nat) : List Delivery :=
  (List.range' (p + 1) k).map fun n => ⟨everySlotApi, everySlotHeader n, none⟩

theorem everySlotDeliveries_oneAtATime {P N : Nat} (hN : N < 256) :
    ∀ k p, p + k = N → OneAtATime (everySlot P N hN) p (everySlotDeliveries p k) := by
  intro k
  induction k with
  | zero =>
      rintro p rfl
      exact .done
  | succ k ih =>
      intro p hp
      exact .next (by omega) rfl (ih (p + 1) (by omega))

/-- A tracker that has processed block 1, in slot 1. -/
def afterFirst : SlotTracker := { lastSlot := some 1, lastProcessedBlock := some 1, totalProduced := 1 }

/-! ## The exact condition -/

/--
**Exactly when a finality jump counts like single steps.**

The tracker has processed block `P`; the finalized header `N` is delivered alone,
or all headers up to `N` one at a time. The outcomes agree exactly if the window
of the backfill covers the range, or all the slots it leaves out are behind the
last slot seen.
-/
theorem jumpCounts_iff (c : FinalizedRange P N) (t : SlotTracker)
    (ht : t.lastProcessedBlock = some P) (hPN : P < N) (api : SlotApi) (hapi : c.ServedBy api)
    (last : Option Nat) (ds : List Delivery) (hds : OneAtATime c P ds) :
    JumpCounts c t (t.onFinalizedHeader api (c.header N) last) (deliver t ds)
      ↔ N ≤ P + 51 ∨ ∃ l, t.lastSlot = some l ∧ c.slot (N - 51) ≤ l := by
  obtain ⟨hjump, -⟩ := alike_onFinalizedHeader c ht (Nat.le_refl P) hPN (Nat.le_refl N)
    api (fun _ => hapi) last
  have hsteps := alike_deliver c hds ht (Nat.le_refl P)
  refine ⟨?_, ?_⟩
  · intro h
    by_contra hcon
    rw [not_or, ← not_ahead_iff, not_not] at hcon
    exact not_sameCount_of_gap c ht hapi last hds (by omega) hcon.2 h.same
  · intro h
    have hall : Alike (t.onFinalizedHeader api (c.header N) last)
        (catchUp c.slot t (List.range' (P + 1) (N - P))) := by
      by_cases hwin : N ≤ P + 51
      · rwa [show max (P + 1) (N - 50) = P + 1 by omega, show N + 1 - (P + 1) = N - P by omega]
          at hjump
      · -- the window leaves blocks out, but their slots are behind the last one seen
        obtain ⟨l, hl, hle⟩ := h.resolve_left hwin
        rw [show max (P + 1) (N - 50) = N - 50 by omega, show N + 1 - (N - 50) = 51 by omega]
          at hjump
        have hskip : catchUp c.slot t (List.range' (P + 1) (N - 51 - P)) = t := by
          refine catchUp_of_not_ahead fun n hn => not_ahead_iff.mpr ⟨l, hl, Nat.le_trans ?_ hle⟩
          rw [List.mem_range'_1] at hn
          rcases Nat.eq_or_lt_of_le (show n ≤ N - 51 by omega) with rfl | hlt
          · exact Nat.le_refl _
          · exact Nat.le_of_lt (c.increasing _ _ (by omega) hlt (by omega))
        rwa [show N - P = (N - 51 - P) + 51 by omega, ← List.range'_append_1, catchUp_append, hskip,
          show P + 1 + (N - 51 - P) = N - 50 by omega]
    refine ⟨(hall.trans hsteps.symm).toSameCount, fun n hPn hnN hmiss => ?_⟩
    rw [hall.classified] at hmiss
    exact not_missed_catchUp (c.pairwise (by omega) (by omega)) (by rw [List.mem_range'_1]; omega)
      hmiss

/-- Fifty-one blocks at once are still counted one by one. -/
theorem jumpCounts_fiftyOne :
    JumpCounts (everySlot 1 52 (by decide)) afterFirst
      (afterFirst.onFinalizedHeader everySlotApi (everySlotHeader 52) none)
      (deliver afterFirst (everySlotDeliveries 1 51)) :=
  (jumpCounts_iff (everySlot 1 52 (by decide)) afterFirst rfl (by decide) everySlotApi
    (everySlot_served 1 52 (by decide)) none (everySlotDeliveries 1 51)
    (everySlotDeliveries_oneAtATime (by decide) 51 1 rfl)).mpr (Or.inl (by decide))

/-- Fifty-two are not: the slot of block 2 is counted as missed. -/
theorem not_always_jumpCounts :
    ¬ ∀ (P N : Nat) (c : FinalizedRange P N) (t : SlotTracker), t.lastProcessedBlock = some P →
      P < N → ∀ api, c.ServedBy api → ∀ (last : Option Nat) (ds : List Delivery),
        OneAtATime c P ds → JumpCounts c t (t.onFinalizedHeader api (c.header N) last) (deliver t ds) := by
  intro h
  have hapi := everySlot_served 1 53 (by decide)
  have hds := everySlotDeliveries_oneAtATime (P := 1) (N := 53) (by decide) 52 1 rfl
  refine not_sameCount_of_gap (everySlot 1 53 (by decide)) (t := afterFirst) rfl hapi none hds
    (by decide) ?_ (h 1 53 _ afterFirst rfl (by decide) everySlotApi hapi none _ hds).same
  intro last hl
  obtain rfl := Option.some.inj hl
  decide

end ForkWatch.Proof
