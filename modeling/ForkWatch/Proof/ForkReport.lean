import ForkWatch.Proof.Dues

/-!
# Does the fork report reflect the tree?

A fork is entered into the ring buffer when the second block of its height
arrives, with the number of blocks there and the depth of the fork as they are at
that moment. Blocks that arrive later refresh the authors of the entry, and
nothing else of it. `reflected_iff` says which arrivals leave an entry behind: a
third block at its height, and a fork right below a run of forks it ends.
-/

namespace ForkWatch.Proof

open Lib ChainContext

/-! ## Forked heights -/

/-- How many distinct blocks the tree holds at a height. -/
def competitors (t : BlockTree) (h : Nat) : Nat :=
  ((t.getBlocksAtHeight h).map OrdMap.size).getD 0

theorem isForked_eq (t : BlockTree) (h : Nat) : t.isForked h = decide (1 < competitors t h) := by
  unfold BlockTree.isForked competitors BlockTree.getBlocksAtHeight
  cases t.blocksByHeight.get? h <;> rfl

theorem length_currentAt (t : BlockTree) (h : Nat) :
    (t.currentAt h).length = competitors t h := by
  unfold BlockTree.currentAt competitors
  cases t.getBlocksAtHeight h with
  | none => rfl
  | some m => exact List.length_map ..

/-- Exactly `d` consecutive heights ending at `h` are forked. -/
structure ForkedFor (t : BlockTree) (h d : Nat) : Prop where
  le : d ≤ h + 1
  run : ∀ k < d, t.isForked (h - k) = true
  maximal : d ≤ h → t.isForked (h - d) = false

theorem ForkedFor.unique {t : BlockTree} {h d d' : Nat} (hd : ForkedFor t h d)
    (hd' : ForkedFor t h d') : d = d' := by
  have no_lt : ∀ {d d' : Nat}, ForkedFor t h d → ForkedFor t h d' → ¬ d < d' := by
    intro d d' hd hd' hlt
    have hle := hd'.le
    have hstop := hd.maximal (by omega)
    rw [hd'.run d hlt] at hstop
    exact absurd hstop (by simp)
  have := no_lt hd hd'
  have := no_lt hd' hd
  omega

theorem forkedFor_forkRun (t : BlockTree) (h : Nat) : ForkedFor t h (t.forkRun h) := by
  induction h with
  | zero =>
      unfold BlockTree.forkRun
      split
      · rename_i hforked
        refine ⟨Nat.le_refl _, fun k hk => ?_, fun hle => absurd hle (by simp)⟩
        obtain rfl : k = 0 := by omega
        exact hforked
      · rename_i hnot
        exact ⟨Nat.zero_le _, fun k hk => absurd hk (by simp), fun _ => by simpa using hnot⟩
  | succ h ih =>
      unfold BlockTree.forkRun
      split
      · rename_i hforked
        have hle := ih.le
        refine ⟨by omega, fun k hk => ?_, fun hle => ?_⟩
        · cases k with
          | zero => exact hforked
          | succ k =>
              rw [Nat.add_sub_add_right]
              exact ih.run k (by omega)
        · rw [Nat.add_sub_add_right]
          exact ih.maximal (by omega)
      · rename_i hnot
        exact ⟨Nat.zero_le _, fun k hk => absurd hk (by simp), fun _ => by simpa using hnot⟩

theorem forkedFor_iff {t : BlockTree} {h d : Nat} : ForkedFor t h d ↔ d = t.forkRun h :=
  ⟨fun hd => hd.unique (forkedFor_forkRun t h), fun hd => hd ▸ forkedFor_forkRun t h⟩

theorem forkRun_congr {t t' : BlockTree} {h : Nat}
    (hsame : ∀ m ≤ h, t'.isForked m = t.isForked m) : t'.forkRun h = t.forkRun h := by
  induction h with
  | zero =>
      unfold BlockTree.forkRun
      rw [hsame 0 (Nat.le_refl _)]
  | succ h ih =>
      unfold BlockTree.forkRun
      rw [hsame (h + 1) (Nat.le_refl _), ih fun m hm => hsame m (by omega)]

/-- A fork at `n` makes the runs longer that end above it and rest on it, and no others. -/
theorem forkRun_of_forked {t t' : BlockTree} {n : Nat} (hbefore : t.isForked n = false)
    (hafter : t'.isForked n = true) (hsame : ∀ m, m ≠ n → t'.isForked m = t.isForked m) {m : Nat}
    (hm : n ≤ m) : (n + t.forkRun m = m → t.forkRun m < t'.forkRun m) ∧
      (n + t.forkRun m ≠ m → t'.forkRun m = t.forkRun m) := by
  induction m, hm using Nat.le_induction with
  | base =>
      have hzero : t.forkRun n = 0 := by
        cases n <;> simp [BlockTree.forkRun, hbefore]
      have hpos : 0 < t'.forkRun n := by
        cases n <;> simp [BlockTree.forkRun, hafter]
      rw [hzero]
      exact ⟨fun _ => hpos, fun hne => absurd rfl hne⟩
  | succ m hm ih =>
      have hnext : ∀ u : BlockTree, u.forkRun (m + 1)
          = if u.isForked (m + 1) then u.forkRun m + 1 else 0 := fun _ => rfl
      rw [hnext t, hnext t', hsame (m + 1) (by omega)]
      split
      · refine ⟨fun hrests => ?_, fun hne => ?_⟩
        · have := ih.1 (by omega)
          omega
        · rw [ih.2 (by omega)]
      · exact ⟨fun hrests => absurd hrests (by omega), fun _ => rfl⟩

/-! ## The ring buffer -/

theorem findLast_concat {α : Type} (p : α → Bool) (l : List α) (x : α) :
    findLast p (l ++ [x]) = if p x then some x else findLast p l := by
  unfold findLast
  rw [List.reverse_concat, List.find?_cons]
  cases p x <;> rfl

theorem findLast_drop {α : Type} {p : α → Bool} {l : List α} {x : α}
    (h : findLast p (l.drop 1) = some x) : findLast p l = some x := by
  cases l with
  | nil => exact h
  | cons y l =>
      unfold findLast at h ⊢
      rw [List.reverse_cons, List.find?_append]
      rw [List.drop_one, List.tail_cons] at h
      rw [h]
      rfl

theorem mem_of_findLast {α : Type} {p : α → Bool} {l : List α} {x : α}
    (h : findLast p l = some x) : x ∈ l ∧ p x = true :=
  ⟨List.mem_reverse.mp (List.mem_of_find?_eq_some h), List.find?_some h⟩

theorem exists_findLast {α : Type} {p : α → Bool} {l : List α} {x : α} (hx : x ∈ l)
    (hp : p x = true) : ∃ y, findLast p l = some y := by
  cases h : findLast p l with
  | some y => exact ⟨y, rfl⟩
  | none => exact absurd hp (List.find?_eq_none.mp h x (List.mem_reverse.mpr hx))

/-- The entries that stay when one is pushed. -/
def keptRecent (l : List RecentFork) : List RecentFork :=
  if MAX_RECENT_FORKS < l.length + 1 then l.drop 1 else l

theorem pushRecent_eq (l : List RecentFork) (f : RecentFork) :
    ForkDetector.pushRecent l f = keptRecent l ++ [f] := by
  unfold ForkDetector.pushRecent keptRecent
  dsimp only
  rw [List.length_append, List.length_singleton]
  split
  · rename_i hfull
    have hpos : 1 ≤ l.length := by
      unfold MAX_RECENT_FORKS at hfull
      omega
    exact List.drop_append_of_le_length hpos
  · rfl

theorem mem_of_mem_keptRecent {l : List RecentFork} {f : RecentFork} (h : f ∈ keptRecent l) :
    f ∈ l := by
  unfold keptRecent at h
  split at h
  · exact List.mem_of_mem_drop h
  · exact h

theorem findLast_keptRecent {p : RecentFork → Bool} {l : List RecentFork} {f : RecentFork}
    (h : findLast p (keptRecent l) = some f) : findLast p l = some f := by
  unfold keptRecent at h
  split at h
  · exact findLast_drop h
  · exact h

/-- What of an entry is set once and for all when the fork is detected. -/
def RecentFork.shape (f : RecentFork) : Nat × Nat × Nat :=
  (f.blockNumber, f.competingCount, f.depth)

theorem recentEntry_shape {d d' : ForkDetector}
    (h : d'.recentForks.map RecentFork.shape = d.recentForks.map RecentFork.shape) (n : Nat) :
    (d'.recentEntry n).map RecentFork.shape = (d.recentEntry n).map RecentFork.shape := by
  have hfind : ∀ l : List RecentFork, (findLast (fun f => f.blockNumber = n) l).map RecentFork.shape
      = (l.map RecentFork.shape).reverse.find? (fun s => s.1 = n) := by
    intro l
    rw [← List.map_reverse, List.find?_map]
    rfl
  unfold ForkDetector.recentEntry
  rw [hfind, hfind, h]

theorem shapes_recordCause (c : ChainContext) (header : Header) (epoch : Nat)
    (blocks : List BlockRecord) (rps : List (Option RelayParent)) :
    (c.recordCause header epoch blocks rps).forkDetector.recentForks.map RecentFork.shape
      = c.forkDetector.recentForks.map RecentFork.shape := by
  unfold ChainContext.recordCause
  dsimp only
  split
  · rfl
  · exact map_modifyLast _ fun _ => rfl

theorem shapes_enrichForkAuthors (c : ChainContext) (header : Header) (epoch : Nat)
    (visited : List Hash) :
    (c.enrichForkAuthors header epoch visited).forkDetector.recentForks.map RecentFork.shape
      = c.forkDetector.recentForks.map RecentFork.shape := by
  unfold enrichForkAuthors updateForkAuthors
  split
  · split
    · rfl
    · exact map_modifyLast _ fun _ => rfl
  · rfl

/-- No handler that goes on changes the shape of an entry. -/
theorem Resumed.shapes {c c' : ChainContext} {task : Task} {a : Answer} (h : Resumed c task a c') :
    c'.forkDetector.recentForks.map RecentFork.shape
      = c.forkDetector.recentForks.map RecentFork.shape := by
  cases h with
  | insertForkBlocks header epoch rest =>
      unfold ChainContext.insertForkBlocks
      cases rest <;> rfl
  | hooked header epoch =>
      unfold analyzeForkCause
      dsimp only
      split <;> rfl
  | relayParents header epoch blocks parent =>
      unfold onRelayParents
      dsimp only
      split
      · rfl
      · exact shapes_recordCause ..
  | retryRelayParents => exact shapes_recordCause ..
  | imported header forked =>
      unfold afterImport
      split
      · split
        · rfl
        · exact shapes_enrichForkAuthors ..
      · rfl
  | updateCause =>
      unfold await
      rw [(storeRelayParents_frame ..).2.2]
  | extractAuthor header epoch visited block answer =>
      unfold onAuthor
      split
      · exact shapes_enrichForkAuthors ..
      · unfold await
        rw [(writeHeld_frame ..).2.2]
  | resolveIdentity header epoch visited =>
      refine (shapes_enrichForkAuthors _ header epoch visited).trans ?_
      unfold report
      rw [(writeHeld_frame ..).2.2]
  | _ => rfl

/-! ## One step -/

/-- The entry of a forked height shows how many blocks are there, and how deep the fork is. -/
def Reflected (c : ChainContext) : Prop :=
  ∀ h f, c.forkDetector.recentEntry h = some f → c.blockTree.isForked h = true →
    f.competingCount = competitors c.blockTree h ∧ ForkedFor c.blockTree h f.depth

/-- Without finality, what is forked is on record, and the ring buffer is about forks. -/
structure Standing (c : ChainContext) : Prop where
  inv : TreeInv c.blockTree
  noPrune : NoPrune c
  attached : Attached c
  recorded : ∀ n, c.forkDetector.recordedForks.has n = c.blockTree.isForked n
  ring : ∀ f ∈ c.forkDetector.recentForks, c.blockTree.isForked f.blockNumber = true

/--
The header is one more copy of a block, or alone at its height; or it competes at a
height that is forked, but no longer in the ring buffer; or it makes a fork on
which no run of forks rests that is still in the ring buffer.
-/
def ReportStays (c : ChainContext) : Event → Prop
  | .allHeads _ header =>
      c.blockTree.getBlock header.hash = none →
        (c.blockTree.isForked header.number = true →
          c.forkDetector.recentEntry header.number = none) ∧
        (competitors c.blockTree header.number = 1 →
          ∀ f ∈ keptRecent c.forkDetector.recentForks, header.number < f.blockNumber →
            header.number + c.blockTree.forkRun f.blockNumber ≠ f.blockNumber)
  | _ => True

instance (c : ChainContext) : ∀ e, Decidable (ReportStays c e)
  | .allHeads _ header =>
      inferInstanceAs (Decidable (c.blockTree.getBlock header.hash = none → _ ∧ _))
  | .finalizedHeads .. | .resume .. | .poll .. | .retryTick .. | .resubmitSettled ..
  | .connections .. | .setupCausation | .identities .. => isTrue trivial

/-- Nothing changes that an entry reports. -/
theorem reflected_of_same {c c' : ChainContext}
    (hcount : ∀ h, competitors c'.blockTree h = competitors c.blockTree h)
    (hshape : c'.forkDetector.recentForks.map RecentFork.shape
      = c.forkDetector.recentForks.map RecentFork.shape) (h : Reflected c) : Reflected c' := by
  have hforked : ∀ h, c'.blockTree.isForked h = c.blockTree.isForked h := by
    intro h
    rw [isForked_eq, isForked_eq, hcount]
  intro n f' hf' hn
  have hentry := recentEntry_shape hshape n
  rw [hf', Option.map_some] at hentry
  obtain ⟨f, hf, heq⟩ := Option.map_eq_some_iff.mp hentry.symm
  obtain ⟨hfcount, hfdepth⟩ := h n f hf (by rw [← hforked]; exact hn)
  have hcounts : f.competingCount = f'.competingCount := congrArg (fun s => s.2.1) heq
  have hdepths : f.depth = f'.depth := congrArg (fun s => s.2.2) heq
  rw [forkedFor_iff] at hfdepth ⊢
  rw [hcount, forkRun_congr fun m _ => hforked m, ← hcounts, ← hdepths]
  exact ⟨hfcount, hfdepth⟩

theorem competitors_refreshed {t t' : BlockTree} (h : Refreshed t t') (n : Nat) :
    competitors t' n = competitors t n := by
  induction h with
  | refl => rfl
  | @update t' _ x f hf ih =>
      rw [← ih]
      have hkeys := congrArg (Option.map List.length) (keysAt_updateRecord t' x f n)
      simp only [Option.map_map] at hkeys
      unfold competitors
      have hsize : ∀ o : Option (OrdMap Hash BlockRecord),
          o.map OrdMap.size = o.map (List.length ∘ OrdMap.keys) := by
        intro o
        cases o with
        | none => rfl
        | some m => exact congrArg some m.size_eq_length_keys
      rw [hsize, hsize, hkeys]

theorem competitors_insertRecord {c : ChainContext} (node : NodeName) {header : Header}
    (hi : TreeInv c.blockTree) (hnew : c.blockTree.getBlock header.hash = none) (n : Nat) :
    competitors (c.blockTree.insertRecord (recordOf node header)) n
      = competitors c.blockTree n + if n = header.number then 1 else 0 := by
  by_cases hn : n = header.number
  · subst hn
    have hat := congrArg List.length (currentAt_entered node hi hnew)
    rw [length_currentAt, List.length_append, length_currentAt] at hat
    rw [if_pos rfl]
    exact hat
  · have hat := getBlocksAtHeight_insertRecord c.blockTree (recordOf node header) n
    rw [if_neg (show n ≠ (recordOf node header).number from hn)] at hat
    unfold competitors
    rw [hat, if_neg hn]
    rfl

/-- A new header changes forks at its own height only. -/
theorem isForked_insertRecord {c : ChainContext} (node : NodeName) {header : Header}
    (hi : TreeInv c.blockTree) (hnew : c.blockTree.getBlock header.hash = none) {n : Nat}
    (hn : n ≠ header.number) :
    (c.blockTree.insertRecord (recordOf node header)).isForked n = c.blockTree.isForked n := by
  rw [isForked_eq, isForked_eq, competitors_insertRecord node hi hnew, if_neg hn]
  rfl

theorem detectFork_frame (c : ChainContext) (header : Header) (blocks : List BlockRecord) :
    (c.detectFork header blocks).blockTree = c.blockTree ∧
      (c.detectFork header blocks).forkDetector
        = (c.forkDetector.onForkDetected c.blockTree header.number blocks).1 := by
  unfold detectFork insertForkBlocks
  dsimp only
  split
  · exact ⟨rfl, rfl⟩
  · exact ⟨rfl, rfl⟩

section NewHeader

variable {c c' : ChainContext} {node : NodeName} {header : Header}

/-- A block that makes no fork leaves the entry of its own height behind, if there is one. -/
theorem reflected_of_no_fork (hi : Standing c) (h : Reflected c)
    (hnew : c.blockTree.getBlock header.hash = none)
    (hno : (c.blockTree.insertRecord (recordOf node header)).isForked header.number
      = c.blockTree.isForked header.number)
    (ht : c'.blockTree = c.blockTree.insertRecord (recordOf node header))
    (hd : c'.forkDetector = c.forkDetector) :
    Reflected c' ↔ (c.blockTree.isForked header.number = true →
      c.forkDetector.recentEntry header.number = none) := by
  have hcount := competitors_insertRecord node hi.inv hnew
  have hforked : ∀ n, c'.blockTree.isForked n = c.blockTree.isForked n := by
    intro n
    rw [ht]
    by_cases hn : n = header.number
    · rw [hn]
      exact hno
    · exact isForked_insertRecord node hi.inv hnew hn
  unfold Reflected
  rw [hd]
  refine ⟨?_, ?_⟩
  · intro hr hn
    by_contra hsome
    obtain ⟨f, hf⟩ := Option.ne_none_iff_exists'.mp hsome
    have hbefore := (h _ f hf hn).1
    have hafter := (hr _ f hf ((hforked _).trans hn)).1
    rw [ht, hcount, if_pos rfl] at hafter
    omega
  · intro hnone n f hf hn
    rw [hforked] at hn
    have hne : n ≠ header.number := by
      rintro rfl
      rw [hnone hn] at hf
      exact absurd hf (by simp)
    obtain ⟨hfcount, hfdepth⟩ := h n f hf hn
    rw [forkedFor_iff] at hfdepth ⊢
    rw [forkRun_congr fun m _ => hforked m]
    refine ⟨?_, hfdepth⟩
    rw [ht, hcount, if_neg hne]
    exact hfcount

/-- A block that makes a fork leaves the entries behind whose run of forks rests on it. -/
theorem reflected_of_fork (hi : Standing c) (h : Reflected c)
    (hnew : c.blockTree.getBlock header.hash = none)
    (hone : competitors c.blockTree header.number = 1)
    (ht : c'.blockTree = c.blockTree.insertRecord (recordOf node header)) {f₀ : RecentFork}
    (hd : c'.forkDetector.recentForks = keptRecent c.forkDetector.recentForks ++ [f₀])
    (hnumber : f₀.blockNumber = header.number) (hcount₀ : f₀.competingCount = 2)
    (hdepth₀ : f₀.depth = c'.blockTree.forkRun header.number) :
    Reflected c' ↔ ∀ f ∈ keptRecent c.forkDetector.recentForks, header.number < f.blockNumber →
      header.number + c.blockTree.forkRun f.blockNumber ≠ f.blockNumber := by
  have hcount := competitors_insertRecord node hi.inv hnew
  have hbefore : c.blockTree.isForked header.number = false := by
    rw [isForked_eq, hone]
    rfl
  have hafter : c'.blockTree.isForked header.number = true := by
    rw [ht, isForked_eq, hcount, hone, if_pos rfl]
    rfl
  have hsame : ∀ m, m ≠ header.number → c'.blockTree.isForked m = c.blockTree.isForked m := by
    intro m hm
    rw [ht]
    exact isForked_insertRecord node hi.inv hnew hm
  have hentry : ∀ n, c'.forkDetector.recentEntry n
      = if header.number = n then some f₀
        else findLast (fun f => f.blockNumber = n) (keptRecent c.forkDetector.recentForks) := by
    intro n
    unfold ForkDetector.recentEntry
    rw [hd, findLast_concat, hnumber]
    simp only [decide_eq_true_eq]
  -- a run that rests on the new fork gets longer, and its entry is not told
  refine ⟨?_, ?_⟩
  · intro hr f hf habove hrests
    obtain ⟨f', hf'⟩ := exists_findLast (p := fun e => e.blockNumber = f.blockNumber) hf (by simp)
    have hforked := hi.ring f (mem_of_mem_keptRecent hf)
    have hshown := (h _ f' (findLast_keptRecent hf') hforked).2
    have hnow := (hr f.blockNumber f' (by rw [hentry, if_neg (Nat.ne_of_lt habove)]; exact hf')
      ((hsame _ (Nat.ne_of_gt habove)).trans hforked)).2
    rw [forkedFor_iff] at hshown hnow
    have := (forkRun_of_forked hbefore hafter hsame (Nat.le_of_lt habove)).1 hrests
    omega
  · intro hall n f hf hn
    rw [hentry] at hf
    split at hf
    · rename_i heq
      obtain rfl := Option.some.inj hf
      subst heq
      rw [forkedFor_iff, hcount₀, ht, hcount, hone, if_pos rfl, ← ht]
      exact ⟨rfl, hdepth₀⟩
    · rename_i hne
      have hne' : n ≠ header.number := fun heq => hne heq.symm
      obtain ⟨hin, hnumbered⟩ := mem_of_findLast hf
      have hfn : f.blockNumber = n := of_decide_eq_true hnumbered
      rw [hsame n hne'] at hn
      obtain ⟨hfcount, hfdepth⟩ := h n f (findLast_keptRecent hf) hn
      have hrun : c'.blockTree.forkRun n = c.blockTree.forkRun n := by
        -- runs are counted downwards, so those below the new fork are what they were
        rcases Nat.lt_or_gt_of_ne hne' with hbelow | habove
        · exact forkRun_congr fun m hm => hsame m (by omega)
        · have hapart := hall f hin (by omega)
          rw [hfn] at hapart
          exact (forkRun_of_forked hbefore hafter hsame (Nat.le_of_lt habove)).2 hapart
      rw [forkedFor_iff] at hfdepth ⊢
      rw [hrun, ht, hcount, if_neg hne']
      exact ⟨hfcount, hfdepth⟩

theorem measureForkDepth_of_forked {t : BlockTree} {n : Nat} (h : t.isForked n = true) :
    t.measureForkDepth n = t.forkRun n := by
  cases n with
  | zero => simp [BlockTree.measureForkDepth, BlockTree.forkRun, h]
  | succ n => simp [BlockTree.measureForkDepth, BlockTree.forkRun, h, Nat.add_comm]

theorem recentForks_onForkDetected (d : ForkDetector) (tree : BlockTree) (height : Nat)
    (blocks : List BlockRecord) :
    ∃ f₀, (d.onForkDetected tree height blocks).1.recentForks = keptRecent d.recentForks ++ [f₀] ∧
      f₀.blockNumber = height ∧ f₀.competingCount = blocks.length ∧
      f₀.depth = tree.measureForkDepth height :=
  ⟨_, pushRecent_eq .., rfl, rfl, rfl⟩

/-- **What a new header does to trees and reports**: nothing to the reports, or it makes a fork. -/
theorem newHeader_cases (node : NodeName) (hi : Standing c)
    (hnew : c.blockTree.getBlock header.hash = none)
    (hstep : c' = c.step (.allHeads node header)) :
    c'.blockTree = c.blockTree.insertRecord (recordOf node header) ∧
    ((competitors c.blockTree header.number ≠ 1 ∧
        c'.blockTree.isForked header.number = c.blockTree.isForked header.number ∧
        c'.forkDetector = c.forkDetector) ∨
      (competitors c.blockTree header.number = 1 ∧ c'.blockTree.isForked header.number = true ∧
        c'.forkDetector.recordedForks = c.forkDetector.recordedForks.add header.number ∧
        ∃ f₀ : RecentFork, c'.forkDetector.recentForks
            = keptRecent c.forkDetector.recentForks ++ [f₀] ∧
          f₀.blockNumber = header.number ∧ f₀.competingCount = 2 ∧
          f₀.depth = c'.blockTree.forkRun header.number)) := by
  have hcount := competitors_insertRecord node hi.inv hnew header.number
  rw [if_pos rfl] at hcount
  have hforked : (c.blockTree.insertRecord (recordOf node header)).isForked header.number
      = decide (1 < competitors c.blockTree header.number + 1) := by
    rw [isForked_eq, hcount]
  have hlen := length_currentAt c.blockTree header.number
  have hbefore := isForked_eq c.blockTree header.number
  have hrecorded := (hi.recorded header.number).trans hbefore
  have harrives := arrives node hi.inv hnew
  rw [← hstep] at harrives
  cases harrives with
  | alone hnone =>
      rw [hnone] at hlen
      have hzero : competitors c.blockTree header.number = 0 := hlen.symm
      refine ⟨rfl, Or.inl ⟨by omega, ?_, rfl⟩⟩
      refine hforked.trans ?_
      rw [hbefore, hzero]
      rfl
  | later hsome hrec =>
      rw [hrec] at hrecorded
      have htwo := of_decide_eq_true hrecorded.symm
      refine ⟨rfl, Or.inl ⟨by omega, ?_, rfl⟩⟩
      refine hforked.trans ?_
      rw [hbefore, decide_eq_decide]
      omega
  | second hsome hrec =>
      have hpos := List.length_pos_of_ne_nil hsome
      rw [hrec] at hrecorded
      have hfew := of_decide_eq_false hrecorded.symm
      have hone : competitors c.blockTree header.number = 1 := by omega
      obtain ⟨htree, hdetector⟩ := detectFork_frame (onRecord c node header) header
        (c.blockTree.currentAt header.number ++ [recordOf node header])
      have htwo : (c.blockTree.insertRecord (recordOf node header)).isForked header.number
          = true := by
        rw [hforked, hone]
        rfl
      obtain ⟨f₀, hpushed, hnumber, hcount₀, hdepth₀⟩ := recentForks_onForkDetected
        (onRecord c node header).forkDetector (onRecord c node header).blockTree header.number
        (c.blockTree.currentAt header.number ++ [recordOf node header])
      rw [List.length_append, hlen, hone] at hcount₀
      rw [htree, hdetector]
      refine ⟨rfl, Or.inr ⟨hone, htwo, rfl, f₀, hpushed, hnumber, hcount₀, ?_⟩⟩
      exact hdepth₀.trans (measureForkDepth_of_forked htwo)

theorem reflected_newHeader (node : NodeName) (hi : Standing c) (h : Reflected c)
    (hnew : c.blockTree.getBlock header.hash = none) :
    Reflected (c.step (.allHeads node header)) ↔ ReportStays c (.allHeads node header) := by
  unfold ReportStays
  dsimp only
  obtain ⟨ht, ⟨hne, hno, hd⟩ | ⟨hone, -, -, f₀, hd, hnumber, hcount, hdepth⟩⟩ :=
    newHeader_cases node hi hnew rfl
  · rw [ht] at hno
    rw [reflected_of_no_fork hi h hnew hno ht hd]
    exact ⟨fun hnone _ => ⟨hnone, fun hone => absurd hone hne⟩, fun hall => (hall hnew).1⟩
  · have hunforked : c.blockTree.isForked header.number = false := by
      rw [isForked_eq, hone]
      rfl
    rw [reflected_of_fork hi h hnew hone ht hd hnumber hcount hdepth]
    refine ⟨fun hapart _ => ⟨fun hforked => ?_, fun _ => hapart⟩, fun hall => (hall hnew).2 hone⟩
    rw [hunforked] at hforked
    exact absurd hforked (by simp)

theorem standing_newHeader (node : NodeName) (hi : Standing c)
    (hnew : c.blockTree.getBlock header.hash = none) :
    (∀ n, (c.step (.allHeads node header)).forkDetector.recordedForks.has n
      = (c.step (.allHeads node header)).blockTree.isForked n) ∧
    ∀ f ∈ (c.step (.allHeads node header)).forkDetector.recentForks,
      (c.step (.allHeads node header)).blockTree.isForked f.blockNumber = true := by
  have hcases := newHeader_cases node hi hnew rfl
  generalize c.step (.allHeads node header) = c' at hcases
  obtain ⟨ht, hcases⟩ := hcases
  have hsame : ∀ n, n ≠ header.number → c'.blockTree.isForked n = c.blockTree.isForked n := by
    intro n hn
    rw [ht]
    exact isForked_insertRecord node hi.inv hnew hn
  rcases hcases with ⟨-, hno, hd⟩ | ⟨-, htwo, hrec, f₀, hd, hnumber, -⟩
  · have hforked : ∀ n, c'.blockTree.isForked n = c.blockTree.isForked n := by
      intro n
      by_cases hn : n = header.number
      · rw [hn]
        exact hno
      · exact hsame n hn
    rw [hd]
    exact ⟨fun n => (hi.recorded n).trans (hforked n).symm,
      fun f hf => (hforked _).trans (hi.ring f hf)⟩
  · refine ⟨fun n => ?_, fun f hf => ?_⟩
    · rw [hrec, OrdMap.has_add, hi.recorded]
      by_cases hn : n = header.number
      · rw [hn, htwo]
        simp
      · rw [hsame n hn]
        simp [hn]
    · rw [hd] at hf
      rcases List.mem_append.mp hf with hkept | hpushed
      · by_cases hn : f.blockNumber = header.number
        · rw [hn]
          exact htwo
        · rw [hsame _ hn]
          exact hi.ring f (mem_of_mem_keptRecent hkept)
      · rw [List.mem_singleton.mp hpushed, hnumber]
        exact htwo

end NewHeader

/-- What a resumed task leaves alone, as long as nothing is pruned. -/
theorem resume_reports {c : ChainContext} (hp : NoPrune c) (i : Nat) (a : Answer) :
    (∀ n, competitors (c.step (.resume i a)).blockTree n = competitors c.blockTree n) ∧
      (c.step (.resume i a)).forkDetector.recentForks.map RecentFork.shape
        = c.forkDetector.recentForks.map RecentFork.shape ∧
      (c.step (.resume i a)).forkDetector.recordedForks = c.forkDetector.recordedForks := by
  have hshapes : (c.step (.resume i a)).forkDetector.recentForks.map RecentFork.shape
      = c.forkDetector.recentForks.map RecentFork.shape := by
    unfold step
    dsimp only
    cases c.tasks[i]? with
    | none => rfl
    | some task => exact (resumed (taken c i) task a).shapes
  rcases resume_cases c i a with ⟨x, n, body, -, -, heq⟩ | ⟨F, ht, -, -⟩ | hq
  · exact ⟨fun n => by rw [heq]; rfl, hshapes, by rw [heq]; rfl⟩
  · exact absurd (List.mem_of_getElem? ht) (hp F)
  · exact ⟨competitors_refreshed hq.tree, hshapes, hq.recordedForks⟩

theorem seenAgain_refreshed (c : ChainContext) (node : NodeName) (header : Header) :
    Refreshed c.blockTree (seenAgain c node header).blockTree :=
  Refreshed.refl.update header.hash fun _ => ⟨rfl, rfl, rfl⟩

/-- Forked heights stay what they are, and so does what is known about them. -/
theorem standing_of_same {c c' : ChainContext} (hi : Standing c) (htree : TreeInv c'.blockTree)
    (hp : NoPrune c') (ha : Attached c')
    (hcount : ∀ n, competitors c'.blockTree n = competitors c.blockTree n)
    (hshape : c'.forkDetector.recentForks.map RecentFork.shape
      = c.forkDetector.recentForks.map RecentFork.shape)
    (hrec : c'.forkDetector.recordedForks = c.forkDetector.recordedForks) : Standing c' := by
  have hforked : ∀ n, c'.blockTree.isForked n = c.blockTree.isForked n := by
    intro n
    rw [isForked_eq, isForked_eq, hcount]
  refine ⟨htree, hp, ha, fun n => ?_, fun f' hf' => ?_⟩
  · rw [hrec, hi.recorded, hforked]
  · have hin : RecentFork.shape f' ∈ c.forkDetector.recentForks.map RecentFork.shape :=
      hshape ▸ List.mem_map_of_mem hf'
    obtain ⟨f, hf, heq⟩ := List.mem_map.mp hin
    have hnumber : f.blockNumber = f'.blockNumber := congrArg Prod.fst heq
    rw [hforked, ← hnumber]
    exact hi.ring f hf

theorem standing_step {c : ChainContext} (hi : Standing c) {e : Event} (he : Unfinal e) :
    Standing (c.step e) := by
  have htree := treeInv_step hi.inv e
  have hprune := noPrune_step hi.inv hi.noPrune he
  have hattached := attached_step hi.attached hi.noPrune e
  cases e with
  | allHeads node header =>
      cases hget : c.blockTree.getBlock header.hash with
      | some r =>
          rw [step_allHeads_of_known hget] at htree hprune hattached ⊢
          exact standing_of_same hi htree hprune hattached
            (competitors_refreshed (seenAgain_refreshed c node header)) rfl rfl
      | none =>
          obtain ⟨hrecorded, hring⟩ := standing_newHeader node hi hget
          exact ⟨htree, hprune, hattached, hrecorded, hring⟩
  | resume i a =>
      obtain ⟨hcount, hshape, hrec⟩ := resume_reports hi.noPrune i a
      exact standing_of_same hi htree hprune hattached hcount hshape hrec
  | finalizedHeads => exact absurd he id
  | _ => exact ⟨htree, hprune, hattached, hi.recorded, hi.ring⟩

/-- **One step keeps the reports right, or is an arrival that leaves one behind.** -/
theorem reflected_step {c : ChainContext} (hi : Standing c) {e : Event} (he : Unfinal e)
    (h : Reflected c) : Reflected (c.step e) ↔ ReportStays c e := by
  cases e with
  | allHeads node header =>
      cases hget : c.blockTree.getBlock header.hash with
      | some r =>
          rw [step_allHeads_of_known hget]
          refine iff_of_true ?_ fun hnew => ?_
          · exact reflected_of_same (competitors_refreshed (seenAgain_refreshed c node header)) rfl h
          · rw [hget] at hnew
            exact absurd hnew (by simp)
      | none => exact reflected_newHeader node hi h hget
  | resume i a =>
      obtain ⟨hcount, hshape, -⟩ := resume_reports hi.noPrune i a
      exact iff_of_true (reflected_of_same hcount hshape h) trivial
  | finalizedHeads => exact absurd he id
  | _ => exact iff_of_true h trivial

/-! ## Every run -/

theorem standing_init (config : ChainConfig) (opts : TxOptions) :
    Standing (machine config opts).init where
  inv := treeInv_init
  noPrune := by
    intro F hF
    exact absurd hF (by simp [machine])
  attached := fun _ => rfl
  recorded := fun _ => rfl
  ring := by
    intro f hf
    exact absurd hf (by simp [machine])

/--
**When the reports reflect the tree.** In a run without finality every entry of the
ring buffer shows, in every state, how many blocks its height has and how deep its
fork is, exactly if no block arrives that leaves one behind.
-/
theorem reflected_iff (config : ChainConfig) (opts : TxOptions) (evs : List Event)
    (hu : ∀ e ∈ evs, Unfinal e) :
    (∀ pre, pre <+: evs → Reflected ((machine config opts).run pre)) ↔
      (machine config opts).Guarded ReportStays (machine config opts).init evs :=
  Machine.always_iff_guarded (m := machine config opts) (A := fun _ e => Unfinal e)
    (I := Standing) (P := Reflected) (standing_init config opts)
    (fun _ _ hi he => standing_step hi he) (fun _ _ hf => nomatch hf)
    (fun _ _ hi he h => reflected_step hi he h) (Machine.guarded_of_forall hu)

/-- Two runs whose reports reflect the same tree report the same. -/
theorem reports_agree {c c' : ChainContext} (h : Reflected c) (h' : Reflected c')
    (hsame : ∀ n, competitors c'.blockTree n = competitors c.blockTree n) {n : Nat}
    {f f' : RecentFork} (hf : c.forkDetector.recentEntry n = some f)
    (hf' : c'.forkDetector.recentEntry n = some f') (hn : c.blockTree.isForked n = true) :
    f'.competingCount = f.competingCount ∧ f'.depth = f.depth := by
  have hforked : ∀ m, c'.blockTree.isForked m = c.blockTree.isForked m := by
    intro m
    rw [isForked_eq, isForked_eq, hsame]
  obtain ⟨hcount, hdepth⟩ := h n f hf hn
  obtain ⟨hcount', hdepth'⟩ := h' n f' hf' ((hforked n).trans hn)
  rw [forkedFor_iff] at hdepth hdepth'
  rw [forkRun_congr fun m _ => hforked m] at hdepth'
  exact ⟨by rw [hcount', hsame, hcount], hdepth'.trans hdepth.symm⟩

/-! ## A third block, and forks one above the other -/

/-- A second block arrives at height 1, and then at height 2. -/
def risingForksRun : List Event :=
  [reports smallLineage "n" "a1", reports smallLineage "n" "a2", reports smallLineage "n" "b1",
    .allHeads "n" ⟨"b2", 2, "a1", "", ""⟩]

/-- Forks that are made from below upwards are reported right. -/
theorem reflected_risingForksRun : Reflected ((machine {} {}).run risingForksRun) :=
  (reflected_iff {} {} risingForksRun (by decide)).mpr (by decide) _ (List.prefix_refl _)

/-- A third block arrives while the handler of the second one waits; both go on to the end. -/
def thirdBlockComesRun : List Event :=
  [reports smallLineage "n" "a1", reports smallLineage "n" "a2", reports smallLineage "n" "a3",
    .resume 0 .done, .resume 1 .done, .resume 0 .done, .resume 2 .done, .resume 2 .done]

/-- Three blocks compete, and the entry says two. -/
theorem not_reflected_thirdBlockComesRun :
    (∀ e ∈ thirdBlockComesRun, Unfinal e) ∧
      ¬ Reflected ((machine {} {}).run thirdBlockComesRun) := by
  refine ⟨by decide, fun h => ?_⟩
  have hentry : ((machine {} {}).run thirdBlockComesRun).forkDetector.recentEntry 1
      = some ⟨1, 2, ["unknown", "unknown"], none, none, 1, none, none, none, false, none⟩ := by
    decide
  exact absurd (h 1 _ hentry (by decide)).1 (by decide)

end ForkWatch.Proof
