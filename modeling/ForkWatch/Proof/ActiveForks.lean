import ForkWatch.Proof.ForkReport
import ForkWatch.Proof.Resolution

/-!
# What is on record as forked

`recordedForks` says which heights have an open fork event; the tree says which heights
are forked. They are changed in different handlers: a new header enters the tree and
only then its height, finality takes heights off the record and leaves the tree alone
until its handler goes on and prunes both. `active_forks` says what holds between them
after every run: what is on record is forked, every forked height finality has not
reached is on record, and the ring buffer shows no recorded fork as resolved.
-/

namespace ForkWatch.Proof

open Lib ChainContext

/-! ## The entry of another height -/

section FindLast

variable {α : Type}

theorem findLast_cons (p : α → Bool) (x : α) (l : List α) :
    findLast p (x :: l) = (findLast p l).or (if p x then some x else none) := by
  unfold findLast
  rw [List.reverse_cons, List.find?_append]
  cases hp : p x with
  | true => simp [hp]
  | false => simp [hp]

/-- A change of elements that the search passes over. -/
theorem findLast_modifyLast {p q : α → Bool} {f : α → α}
    (h : ∀ x, p x = true → q x = false ∧ q (f x) = false) (l : List α) :
    findLast q (modifyLast p f l) = findLast q l := by
  induction l with
  | nil => rfl
  | cons x l ih =>
      unfold modifyLast
      split
      · rw [findLast_cons, findLast_cons, ih]
      · split
        · rename_i hp
          rw [findLast_cons, findLast_cons, (h x hp).1, (h x hp).2]
          rfl
        · rfl

end FindLast

theorem recentEntry_resolveHeights (x : Hash) {n : Nat} (heights : List Nat) (hn : n ∉ heights)
    (acc : ForkDetector × List Report) :
    (heights.foldl (ForkDetector.resolveHeight x) acc).1.recentEntry n = acc.1.recentEntry n := by
  induction heights generalizing acc with
  | nil => rfl
  | cons h heights ih =>
      rw [List.mem_cons, not_or] at hn
      rw [List.foldl_cons, ih hn.2]
      refine findLast_modifyLast (fun f hf => ?_) acc.1.recentForks
      have hnumber : f.blockNumber = h := of_decide_eq_true hf
      have hne : f.blockNumber ≠ n := fun heq => hn.1 (heq.symm.trans hnumber)
      exact ⟨decide_eq_false hne, decide_eq_false hne⟩

/-- Finality leaves the entries of the heights above alone. -/
theorem recentEntry_onHeightFinalized (d : ForkDetector) {F n : Nat} (x : Hash) (hn : F < n) :
    (d.onHeightFinalized F x).1.recentEntry n = d.recentEntry n := by
  refine recentEntry_resolveHeights x _ (fun hmem => ?_) (d, [])
  have hle := (List.mem_filter.mp hmem).2
  exact absurd (of_decide_eq_true hle) (by omega)

theorem recentEntry_settled {d d' : ForkDetector}
    (h : d'.recentForks.map RecentFork.settled = d.recentForks.map RecentFork.settled) (n : Nat) :
    (d'.recentEntry n).map RecentFork.settled = (d.recentEntry n).map RecentFork.settled := by
  have hfind : ∀ l : List RecentFork,
      (findLast (fun f => f.blockNumber = n) l).map RecentFork.settled
        = (l.map RecentFork.settled).reverse.find? (fun s => s.1 = n) := by
    intro l
    rw [← List.map_reverse, List.find?_map]
    rfl
  unfold ForkDetector.recentEntry
  rw [hfind, hfind, h]

/-! ## The invariant -/

/-- What is on record as forked, against the tree and the ring buffer. -/
structure ActiveForks (c : ChainContext) : Prop where
  /-- A height on record is forked. -/
  forked : ∀ n, c.forkDetector.recordedForks.has n = true → c.blockTree.isForked n = true
  /-- Above finality, every forked height is on record. -/
  above : ∀ n, c.blockTree.finalizedHeight < n → c.blockTree.isForked n = true →
    c.forkDetector.recordedForks.has n = true
  /-- What the ring buffer shows of a height on record is not resolved. -/
  unresolved : ∀ n f, c.forkDetector.recordedForks.has n = true →
    c.forkDetector.recentEntry n = some f → f.resolved = false

variable {c c' : ChainContext}

theorem activeForks_init (config : ChainConfig) (opts : TxOptions) :
    ActiveForks (machine config opts).init where
  forked := fun n hn => absurd hn (by simp [machine])
  above := fun n _ hn => absurd hn (by simp [machine, BlockTree.isForked])
  unresolved := fun n f hn => absurd hn (by simp [machine])

/-- Steps that leave the record alone, and as many blocks at every height. -/
theorem ActiveForks.of_same (h : ActiveForks c)
    (hrec : c'.forkDetector.recordedForks = c.forkDetector.recordedForks)
    (hcount : ∀ n, competitors c'.blockTree n = competitors c.blockTree n)
    (hfinal : c'.blockTree.finalizedHeight = c.blockTree.finalizedHeight)
    (hring : c'.forkDetector.recentForks.map RecentFork.settled
      = c.forkDetector.recentForks.map RecentFork.settled) : ActiveForks c' where
  forked := by
    intro n hn
    rw [isForked_eq, hcount, ← isForked_eq]
    exact h.forked n (hrec ▸ hn)
  above := by
    intro n hlt hn
    rw [isForked_eq, hcount, ← isForked_eq] at hn
    rw [hrec]
    exact h.above n (hfinal ▸ hlt) hn
  unresolved := by
    intro n f hn hf
    have hsettled := recentEntry_settled hring n
    rw [hf, Option.map_some] at hsettled
    obtain ⟨f₀, hf₀, heq⟩ := Option.map_eq_some_iff.mp hsettled.symm
    have hsame : f₀.resolved = f.resolved := congrArg (fun s => s.2.1) heq
    rw [← hsame]
    exact h.unresolved n f₀ (hrec ▸ hn) hf₀

theorem finalizedHeight_refreshed {t t' : BlockTree} (h : Refreshed t t') :
    t'.finalizedHeight = t.finalizedHeight := by
  induction h with
  | refl => rfl
  | @update t' _ x f hf ih =>
      rw [← ih]
      unfold BlockTree.updateRecord
      split
      · rfl
      · rfl

/-! ## A header arrives -/

/-- A header that enters the tree, and its height the record if it is forked by then. -/
theorem ActiveForks.newHeader (h : ActiveForks c) {node : NodeName} {header : Header}
    (hi : TreeInv c.blockTree) (hnew : c.blockTree.getBlock header.hash = none)
    (htree : c'.blockTree = c.blockTree.insertRecord (recordOf node header))
    (hrec : ∀ n, c'.forkDetector.recordedForks.has n = true ↔
      c.forkDetector.recordedForks.has n = true ∨
        n = header.number ∧ c'.blockTree.isForked n = true)
    (hring : ∀ n f, c'.forkDetector.recordedForks.has n = true →
      c'.forkDetector.recentEntry n = some f →
      f.resolved = false ∨
        c.forkDetector.recordedForks.has n = true ∧ c.forkDetector.recentEntry n = some f) :
    ActiveForks c' where
  forked := by
    intro n hn
    rcases (hrec n).mp hn with hold | ⟨-, hforked⟩
    · have hforked := h.forked n hold
      rw [isForked_eq, decide_eq_true_eq] at hforked ⊢
      rw [htree, competitors_insertRecord node hi hnew]
      omega
    · exact hforked
  above := by
    intro n hlt hn
    refine (hrec n).mpr ?_
    by_cases heq : n = header.number
    · exact Or.inr ⟨heq, hn⟩
    · refine Or.inl (h.above n ?_ ?_)
      · rw [htree] at hlt
        exact hlt
      · rw [htree, isForked_insertRecord node hi hnew heq] at hn
        exact hn
  unresolved := by
    intro n f hn hf
    rcases hring n f hn hf with hnew | ⟨hold, hsame⟩
    · exact hnew
    · exact h.unresolved n f hold hsame

theorem activeForks_allHeads (h : ActiveForks c) (hi : TreeInv c.blockTree) (node : NodeName)
    (header : Header) : ActiveForks (c.step (.allHeads node header)) := by
  cases hget : c.blockTree.getBlock header.hash with
  | some r =>
      rw [step_allHeads_of_known hget]
      have href := seenAgain_refreshed c node header
      exact h.of_same rfl (competitors_refreshed href) (finalizedHeight_refreshed href) rfl
  | none =>
      have hcount := competitors_insertRecord node hi hget header.number
      rw [if_pos rfl, ← length_currentAt c.blockTree] at hcount
      have harrives := arrives node hi hget
      generalize c.step (.allHeads node header) = c' at harrives ⊢
      cases harrives with
      | alone hnone =>
          refine h.newHeader hi hget rfl (fun n => ⟨Or.inl, fun hn => hn.elim id fun hn => ?_⟩)
            fun n f hn hf => Or.inr ⟨hn, hf⟩
          -- alone, it makes no fork
          obtain ⟨rfl, hforked⟩ := hn
          change (c.blockTree.insertRecord (recordOf node header)).isForked header.number = true
            at hforked
          rw [isForked_eq, decide_eq_true_eq, hcount, hnone] at hforked
          exact absurd hforked (by simp)
      | later hsome hrec =>
          refine h.newHeader hi hget rfl (fun n => ⟨Or.inl, fun hn => hn.elim id fun hn => ?_⟩)
            fun n f hn hf => Or.inr ⟨hn, hf⟩
          obtain ⟨rfl, -⟩ := hn
          exact hrec
      | second hsome hrec =>
          have hpos := List.length_pos_of_ne_nil hsome
          generalize hblocks : c.blockTree.currentAt header.number ++ [recordOf node header]
            = blocks
          obtain ⟨htree, hdetector⟩ := detectFork_frame (onRecord c node header) header blocks
          obtain ⟨f₀, hpushed, hnumber, hopen⟩ : ∃ f₀ : RecentFork,
              ((onRecord c node header).forkDetector.onForkDetected
                (onRecord c node header).blockTree header.number blocks).1.recentForks
                  = keptRecent c.forkDetector.recentForks ++ [f₀] ∧
              f₀.blockNumber = header.number ∧ f₀.resolved = false :=
            ⟨_, pushRecent_eq .., rfl, rfl⟩
          refine h.newHeader hi hget htree (fun n => ?_) fun n f hn hf => ?_
          · rw [hdetector, htree]
            change (c.forkDetector.recordedForks.add header.number).has n = true ↔ _
            rw [OrdMap.has_add, Bool.or_eq_true, decide_eq_true_eq, or_comm]
            refine or_congr_right ⟨fun heq => ⟨heq, ?_⟩, fun hn => hn.1⟩
            subst heq
            change (c.blockTree.insertRecord (recordOf node header)).isForked _ = true
            rw [isForked_eq, decide_eq_true_eq, hcount]
            omega
          · rw [hdetector] at hn hf
            unfold ForkDetector.recentEntry at hf
            rw [hpushed, findLast_concat, hnumber] at hf
            by_cases heq : header.number = n
            · rw [if_pos (decide_eq_true heq)] at hf
              exact Or.inl (Option.some.inj hf ▸ hopen)
            · rw [if_neg (by simp [heq])] at hf
              change (c.forkDetector.recordedForks.add header.number).has n = true at hn
              rw [OrdMap.has_add, Bool.or_eq_true, decide_eq_true_eq] at hn
              exact Or.inr ⟨hn.resolve_left (Ne.symm heq), findLast_keptRecent hf⟩

/-! ## The other events -/

theorem activeForks_finalizedHeads (h : ActiveForks c) (node : NodeName) (F : Nat) (x : Hash) :
    ActiveForks (c.step (.finalizedHeads node F x)) := by
  have hrec : ∀ n, (c.step (.finalizedHeads node F x)).forkDetector.recordedForks.has n = true ↔
      c.forkDetector.recordedForks.has n = true ∧ F < n := by
    intro n
    change (c.forkDetector.onHeightFinalized F x).1.recordedForks.has n = true ↔ _
    rw [recordedForks_onHeightFinalized, OrdMap.has_filter, Bool.and_eq_true, decide_eq_true_eq]
  refine ⟨fun n hn => h.forked n ((hrec n).mp hn).1, fun n hlt hn => ?_, fun n f hn hf => ?_⟩
  · change max c.blockTree.finalizedHeight F < n at hlt
    exact (hrec n).mpr ⟨h.above n (by omega) hn, by omega⟩
  · obtain ⟨hold, hlt⟩ := (hrec n).mp hn
    refine h.unresolved n f hold ?_
    rw [← recentEntry_onHeightFinalized c.forkDetector x hlt]
    exact hf

theorem competitors_prune (t : BlockTree) (k : Int) (n : Nat) :
    competitors (t.prune k) n = if (n : Int) ≤ k then 0 else competitors t n := by
  unfold competitors
  rw [getBlocksAtHeight_prune]
  split
  · rfl
  · rfl

/-- Pruning takes the same heights off the record and out of the tree. -/
theorem activeForks_prune (h : ActiveForks c) (F : Nat) : ActiveForks (c.prune F) := by
  have hrec : ∀ n, (c.prune F).forkDetector.recordedForks.has n = true ↔
      c.forkDetector.recordedForks.has n = true ∧ ¬ (n : Int) ≤ F - c.config.pruneAfter := by
    intro n
    unfold ChainContext.prune ForkDetector.pruneRecordedForks
    dsimp only
    rw [OrdMap.has_filter, Bool.and_eq_true, Bool.not_eq_true', decide_eq_false_iff_not]
  have htree : ∀ n, (c.prune F).blockTree.isForked n = true ↔
      c.blockTree.isForked n = true ∧ ¬ (n : Int) ≤ F - c.config.pruneAfter := by
    intro n
    change (c.blockTree.prune _).isForked n = true ↔ _
    rw [isForked_eq, isForked_eq, competitors_prune]
    split
    · rename_i hle
      simp [hle]
    · rename_i hle
      simp [hle]
  refine ⟨fun n hn => ?_, fun n hlt hn => ?_, fun n f hn hf => ?_⟩
  · obtain ⟨hold, hkept⟩ := (hrec n).mp hn
    exact (htree n).mpr ⟨h.forked n hold, hkept⟩
  · obtain ⟨hforked, hkept⟩ := (htree n).mp hn
    exact (hrec n).mpr ⟨h.above n hlt hforked, hkept⟩
  · exact h.unresolved n f ((hrec n).mp hn).1 hf

/-- **Every event keeps the record, the tree and the ring buffer in line.** -/
theorem activeForks_step (h : ActiveForks c) (hi : TreeInv c.blockTree) (e : Event) :
    ActiveForks (c.step e) := by
  cases e with
  | allHeads node header => exact activeForks_allHeads h hi node header
  | finalizedHeads node F x => exact activeForks_finalizedHeads h node F x
  | resume i a =>
      rcases resume_cases c i a with ⟨x, n, body, -, -, heq⟩ | ⟨F, -, -, heq⟩ | hq
      · rw [heq]
        exact ⟨h.forked, h.above, h.unresolved⟩
      · rw [heq]
        have htaken : ActiveForks (taken c i) := ⟨h.forked, h.above, h.unresolved⟩
        exact activeForks_prune htaken F
      · exact h.of_same hq.recordedForks (competitors_refreshed hq.tree)
          (finalizedHeight_refreshed hq.tree) hq.recentForks
  | _ => exact ⟨h.forked, h.above, h.unresolved⟩

/--
**The record of open forks mirrors the tree.** In every run, however headers,
notifications and prunes interleave: every height on record is forked, every forked
height above finality is on record, and no entry the ring buffer shows for a height on
record is resolved.
-/
theorem active_forks (config : ChainConfig) (opts : TxOptions) (evs : List Event) :
    ActiveForks ((machine config opts).run evs) :=
  (Machine.run_invariant (m := machine config opts) (A := fun _ => True)
    (I := fun c => ActiveForks c ∧ TreeInv c.blockTree)
    ⟨activeForks_init config opts, treeInv_run config opts []⟩
    (fun _ e h _ => ⟨activeForks_step h.1 h.2 e, treeInv_step h.2 e⟩) fun _ _ => trivial).1

end ForkWatch.Proof
