import ForkWatch.Proof.Tree
import ForkWatch.Lib.Machine

/-!
# Every tree that adding and pruning builds

Headers come from nodes, and nothing makes a node send a sensible one: parents may
be missing, lie at the wrong height or lead back to where a walk came from, and a
hash may be announced twice with two numbers. This file is about the tree under
any calls of `addBlock` and `prune` whatever.

The indexes agree in all of them (`treeInv_treeRun`). The ancestor lookup ends in
all of them too: `getCanonicalAncestorAt` counts its steps, and `ancestorLoop` is
its loop with that counter, run for as long as it takes. What stops it early is the
bound, and `ancestorLoop_complete` says that no walk that goes down one number at
each step meets it.
-/

namespace ForkWatch.Proof

open Lib

/-! ## Calls -/

/-- A call that changes the tree. -/
inductive TreeOp where
  | addBlock (hash : Hash) (number : Nat) (parentHash : Hash) (author : Option Address)
      (authorName : Option String) (relayParent : Option Hash) (nodeName : NodeName)
      (extra : BlockExtra)
  | prune (keepAboveHeight : Int)

def TreeOp.apply (t : BlockTree) : TreeOp → BlockTree
  | .addBlock hash number parentHash author authorName relayParent nodeName extra =>
      (t.addBlock hash number parentHash author authorName relayParent nodeName extra).1
  | .prune keepAboveHeight => t.prune keepAboveHeight

/-- A tree under calls in any order. -/
def treeMachine : Machine BlockTree TreeOp where
  init := BlockTree.init
  step := TreeOp.apply

theorem treeInv_addBlock {t : BlockTree} (h : TreeInv t) (hash : Hash) (number : Nat)
    (parentHash : Hash) (author : Option Address) (authorName : Option String)
    (relayParent : Option Hash) (nodeName : NodeName) (extra : BlockExtra) :
    TreeInv (t.addBlock hash number parentHash author authorName relayParent nodeName extra).1 := by
  unfold BlockTree.addBlock
  split
  · exact treeInv_updateRecord h hash fun _ => ⟨rfl, rfl, rfl⟩
  · rename_i hnone
    exact treeInv_insertRecord h hnone

theorem treeInv_apply {t : BlockTree} (h : TreeInv t) (op : TreeOp) : TreeInv (op.apply t) := by
  cases op with
  | addBlock hash number parentHash author authorName relayParent nodeName extra =>
      exact treeInv_addBlock h hash number parentHash author authorName relayParent nodeName extra
  | prune k => exact treeInv_prune h k

/-- **The indexes agree after any calls.** -/
theorem treeInv_treeRun (ops : List TreeOp) : TreeInv (treeMachine.run ops) :=
  Machine.run_invariant (A := fun _ => True) (I := TreeInv) treeInv_init
    (fun _ op h _ => treeInv_apply h op) fun _ _ => trivial

/-! ## Two indexes over the same records -/

/-- What the two maps of a tree say of each other. -/
structure Represents (t : BlockTree) : Prop where
  /-- A record stands under a hash exactly if it stands under it at its own number. -/
  agree : ∀ x r, t.blocksByHash.get? x = some r ↔
    ∃ blocks, t.blocksByHeight.get? r.number = some blocks ∧ blocks.get? x = some r
  /-- What stands at a height has that number. -/
  filed : ∀ n blocks x r, t.blocksByHeight.get? n = some blocks → blocks.get? x = some r →
    r.number = n ∧ r.hash = x
  /-- No height map is empty. -/
  inhabited : ∀ n blocks, t.blocksByHeight.get? n = some blocks → blocks.size ≠ 0
  /-- No hash stands at two heights. -/
  unique : ∀ x n m blocks blocks', t.blocksByHeight.get? n = some blocks → x ∈ blocks.keys →
    t.blocksByHeight.get? m = some blocks' → x ∈ blocks'.keys → n = m
  /-- No record lies above `bestHeight`. -/
  best : ∀ x r, t.blocksByHash.get? x = some r → r.number ≤ t.bestHeight

theorem TreeInv.represents {t : BlockTree} (h : TreeInv t) : Represents t where
  agree := by
    intro x r
    refine ⟨h.byHash x r, ?_⟩
    intro hr
    obtain ⟨blocks, hblocks, hx⟩ := hr
    exact (h.byHeight r.number blocks x r hblocks hx).2.2
  filed := by
    intro n blocks x r hblocks hx
    obtain ⟨hn, hhash, -⟩ := h.byHeight n blocks x r hblocks hx
    exact ⟨hn, hhash⟩
  inhabited := by
    intro n blocks hblocks hsize
    have := h.inhabited n blocks hblocks
    omega
  unique := by
    intro x n m blocks blocks' hn hx hm hx'
    -- both heights are the number of the one record stored under the hash
    obtain ⟨r, hr, hrn⟩ := h.mem_keysAt_iff.mp ⟨blocks, hn, hx⟩
    obtain ⟨s, hs, hsm⟩ := h.mem_keysAt_iff.mp ⟨blocks', hm, hx'⟩
    rw [hr] at hs
    obtain rfl : r = s := Option.some.inj hs
    exact hrn.symm.trans hsm
  best := h.best

/-- A fork is two records of one number under two hashes. -/
theorem TreeInv.mem_getForkedHeights_iff {t : BlockTree} (h : TreeInv t) {n : Nat} :
    n ∈ t.getForkedHeights ↔ ∃ x y r s, x ≠ y ∧ t.getBlock x = some r ∧ t.getBlock y = some s ∧
      r.number = n ∧ s.number = n := by
  rw [mem_getForkedHeights]
  refine ⟨?_, ?_⟩
  · intro hn
    obtain ⟨blocks, hblocks, hsize⟩ := hn
    obtain ⟨x, y, hne, hx, hy⟩ := OrdMap.one_lt_size_iff.mp hsize
    obtain ⟨r, hr, hrn⟩ := h.mem_keysAt_iff.mp ⟨blocks, hblocks, hx⟩
    obtain ⟨s, hs, hsn⟩ := h.mem_keysAt_iff.mp ⟨blocks, hblocks, hy⟩
    exact ⟨x, y, r, s, hne, hr, hs, hrn, hsn⟩
  · intro hn
    obtain ⟨x, y, r, s, hne, hr, hs, hrn, hsn⟩ := hn
    obtain ⟨blocks, hblocks, hx⟩ := h.mem_keysAt_iff.mpr ⟨r, hr, hrn⟩
    obtain ⟨blocks', hblocks', hy⟩ := h.mem_keysAt_iff.mpr ⟨s, hs, hsn⟩
    rw [hblocks] at hblocks'
    obtain rfl : blocks = blocks' := Option.some.inj hblocks'
    exact ⟨blocks, hblocks, OrdMap.one_lt_size_iff.mpr ⟨x, y, hne, hx, hy⟩⟩

theorem getForkedHeights_increasing (t : BlockTree) :
    t.getForkedHeights.Pairwise (fun a b => a < b) := by
  have hsorted : t.getForkedHeights.Pairwise (· ≤ ·) := List.pairwise_insertionSort _ _
  have hnodup : t.getForkedHeights.Pairwise (· ≠ ·) := getForkedHeights_nodup t
  exact (hsorted.and hnodup).imp fun h => by omega

/-! ## Pruning as the source writes it -/

/-- One turn of the loop of `prune`. -/
def pruneTurn (keepAboveHeight : Int) (t : BlockTree) (e : Nat × OrdMap Hash BlockRecord) :
    BlockTree :=
  if (e.1 : Int) ≤ keepAboveHeight then
    { t with
      blocksByHash := e.2.keys.foldl (fun m hash => m.erase hash) t.blocksByHash
      blocksByHeight := t.blocksByHeight.erase e.1 }
  else t

/-- What the loop has done to the two maps once it has passed over some of the heights. -/
theorem foldl_pruneTurn (k : Int) (l : List (Nat × OrdMap Hash BlockRecord)) (t : BlockTree) :
    l.foldl (pruneTurn k) t =
      { t with
        blocksByHash := ((l.filter fun e => (e.1 : Int) ≤ k).flatMap (fun e => e.2.keys)).foldl
          (fun m hash => m.erase hash) t.blocksByHash
        blocksByHeight := t.blocksByHeight.filter fun n _ =>
          !decide ((n : Int) ≤ k ∧ n ∈ l.map Prod.fst) } := by
  induction l generalizing t with
  | nil =>
      have hall : t.blocksByHeight.filter (fun n _ => !decide ((n : Int) ≤ k ∧ n ∈ ([] : List Nat)))
          = t.blocksByHeight := OrdMap.filter_eq_self fun _ _ _ => by simp
      simp only [List.foldl_nil, List.filter_nil, List.flatMap_nil, List.map_nil, hall]
  | cons e l ih =>
      rw [List.foldl_cons, ih]
      unfold pruneTurn
      by_cases hk : (e.1 : Int) ≤ k
      -- a height that goes takes its hashes along
      · rw [if_pos hk, List.filter_cons_of_pos (by simpa using hk), List.flatMap_cons,
          List.foldl_append]
        simp only [OrdMap.erase, OrdMap.filter_filter]
        congr 1
        refine OrdMap.filter_congr fun n _ _ => ?_
        by_cases hn : n = e.1
        · subst hn; simp [hk]
        · simp only [List.map_cons, List.mem_cons, hn, false_or, ne_eq, not_false_eq_true,
            decide_true, Bool.true_and]
      · rw [if_neg hk, List.filter_cons_of_neg (by simpa using hk)]
        congr 1
        refine OrdMap.filter_congr fun n _ _ => ?_
        by_cases hn : n = e.1
        · subst hn; simp [hk]
        · simp only [List.map_cons, List.mem_cons, hn, false_or]

/--
**The loop that deletes from the map it runs over is `prune`.** Deleting the entry
it stands on does not disturb a loop over a `Map`, so it passes over the entries
there were at the start.
-/
theorem prune_eq_loop (t : BlockTree) (k : Int) :
    t.prune k = t.blocksByHeight.entries.foldl (pruneTurn k) t := by
  rw [foldl_pruneTurn]
  unfold BlockTree.prune BlockTree.prunable
  congr 1
  refine OrdMap.filter_congr fun n blocks hn => ?_
  have hmem : n ∈ t.blocksByHeight.entries.map Prod.fst :=
    List.mem_map.mpr ⟨(n, blocks), OrdMap.mem_entries_iff.mpr hn, rfl⟩
  simp [hmem]

/-- **What `prune` removes, and what it leaves.** -/
theorem TreeInv.prune_eq_some_iff {t : BlockTree} (h : TreeInv t) {k : Int} {x : Hash}
    {r : BlockRecord} :
    (t.prune k).getBlock x = some r ↔ t.getBlock x = some r ∧ k < (r.number : Int) := by
  rw [getBlock_prune h, Option.filter_eq_some_iff]
  simp

/--
**The representation invariant of the block tree.**

After any calls of `addBlock` and `prune`: the two indexes hold the same records,
each at its own number, no height map is empty, no hash stands at two heights and
nothing lies above `bestHeight`; pruning at `k` removes the records numbered at
most `k` from both indexes and touches nothing else; and the forked heights are
listed once each, ascending, exactly where two hashes share a number.
-/
theorem blockTree_represents (ops : List TreeOp) :
    Represents (treeMachine.run ops)
    ∧ (∀ k x r, ((treeMachine.run ops).prune k).getBlock x = some r ↔
        (treeMachine.run ops).getBlock x = some r ∧ k < (r.number : Int))
    ∧ (∀ k n, ((treeMachine.run ops).prune k).getBlocksAtHeight n =
        if (n : Int) ≤ k then none else (treeMachine.run ops).getBlocksAtHeight n)
    ∧ (∀ k, ((treeMachine.run ops).prune k).bestHeight = (treeMachine.run ops).bestHeight ∧
        ((treeMachine.run ops).prune k).finalizedHeight = (treeMachine.run ops).finalizedHeight)
    ∧ (treeMachine.run ops).getForkedHeights.Pairwise (fun a b => a < b)
    ∧ (∀ n, n ∈ (treeMachine.run ops).getForkedHeights ↔
        ∃ x y r s, x ≠ y ∧ (treeMachine.run ops).getBlock x = some r ∧
          (treeMachine.run ops).getBlock y = some s ∧ r.number = n ∧ s.number = n) := by
  have h := treeInv_treeRun ops
  refine ⟨h.represents, ?_, ?_, ?_, getForkedHeights_increasing _, ?_⟩
  · intro k x r
    exact h.prune_eq_some_iff
  · intro k n
    exact getBlocksAtHeight_prune _ k n
  · intro k
    exact ⟨rfl, rfl⟩
  · intro n
    exact h.mem_getForkedHeights_iff

/-! ## The ancestor lookup, with its counter -/

/-- Where the loop of `getCanonicalAncestorAt` stands. -/
structure AncestorSearch where
  current : Option BlockRecord
  steps : Nat

/-- `bestHeight - targetHeight + 100`. -/
def maxSteps (t : BlockTree) (targetHeight : Nat) : Int :=
  (t.bestHeight : Int) - targetHeight + 100

/-- One turn of the loop: on to the parent, or out of the loop with an answer. -/
def ancestorTurn (t : BlockTree) (targetHeight : Nat) (s : AncestorSearch) :
    AncestorSearch ⊕ Option BlockRecord :=
  match s.current with
  | none => .inr none
  | some current =>
      if targetHeight < current.number then
        if maxSteps t targetHeight < (s.steps + 1 : Nat) then .inr none
        else .inl { current := t.blocksByHash.get? current.parentHash, steps := s.steps + 1 }
      else .inr (if current.number = targetHeight then some current else none)

/-- So many turns of the loop; `none` if it has not ended within them. -/
def ancestorLoop (t : BlockTree) (targetHeight : Nat) :
    Nat → AncestorSearch → Option (Option BlockRecord)
  | 0, _ => none
  | turns + 1, s =>
      match ancestorTurn t targetHeight s with
      | .inl s' => ancestorLoop t targetHeight turns s'
      | .inr answer => some answer

/--
**The loop ends with what the walk finds**, as soon as it is given one turn more
than the steps it has left.
-/
theorem ancestorLoop_eq {t : BlockTree} {h : Nat} : ∀ (turns : Nat) (s : AncestorSearch),
    (maxSteps t h).toNat - s.steps < turns →
      ancestorLoop t h turns s
        = some (t.ancestorWalk h ((maxSteps t h).toNat - s.steps) s.current) := by
  intro turns
  induction turns with
  | zero => intro s hlt; omega
  | succ turns ih =>
      intro s hlt
      rw [ancestorLoop, ancestorTurn]
      cases hcur : s.current with
      | none => simp [BlockTree.ancestorWalk]
      | some current =>
          dsimp only
          by_cases hnum : h < current.number
          · rw [if_pos hnum]
            by_cases hsteps : maxSteps t h < (s.steps + 1 : Nat)
            -- the counter has passed the bound: no fuel is left either
            · have hfuel : (maxSteps t h).toNat - s.steps = 0 := by omega
              rw [if_pos hsteps, hfuel, BlockTree.ancestorWalk, if_neg (by omega)]
            · obtain ⟨fuel, hfuel⟩ : ∃ fuel, (maxSteps t h).toNat - s.steps = fuel + 1 :=
                ⟨(maxSteps t h).toNat - s.steps - 1, by omega⟩
              have hrest : (maxSteps t h).toNat - (s.steps + 1) = fuel := by omega
              rw [if_neg hsteps, hfuel, BlockTree.ancestorWalk, if_pos hnum]
              dsimp only
              rw [ih _ (by dsimp only; omega), hrest]
          · rw [if_neg hnum]
            dsimp only
            cases (maxSteps t h).toNat - s.steps with
            | zero => rw [BlockTree.ancestorWalk]
            | succ fuel => rw [BlockTree.ancestorWalk, if_neg hnum]

/-- Stored parent links lead from a hash to a record. -/
inductive ParentPath (t : BlockTree) : Hash → BlockRecord → Prop where
  | here {x : Hash} {r : BlockRecord} (hx : t.getBlock x = some r) : ParentPath t x r
  | parent {x : Hash} {b r : BlockRecord} (hx : t.getBlock x = some b)
      (rest : ParentPath t b.parentHash r) : ParentPath t x r

/-- The same, and every parent on the way is one number lower. -/
inductive StepsDown (t : BlockTree) : Hash → BlockRecord → Prop where
  | here {x : Hash} {r : BlockRecord} (hx : t.getBlock x = some r) : StepsDown t x r
  | parent {x : Hash} {b p r : BlockRecord} (hx : t.getBlock x = some b)
      (hp : t.getBlock b.parentHash = some p) (hn : b.number = p.number + 1)
      (rest : StepsDown t b.parentHash r) : StepsDown t x r

/-- A walk that finds something starts at a stored block. -/
theorem exists_of_ancestorWalk {t : BlockTree} {h fuel : Nat} {start : Option BlockRecord}
    {r : BlockRecord} (hw : t.ancestorWalk h fuel start = some r) : ∃ b, start = some b := by
  cases start with
  | none => exact absurd hw (by simp [BlockTree.ancestorWalk])
  | some b => exact ⟨b, rfl⟩

/-- A walk only follows stored links. -/
theorem ancestorWalk_parentPath {t : BlockTree} {h : Nat} {r : BlockRecord} :
    ∀ (fuel : Nat) (x : Hash), t.ancestorWalk h fuel (t.getBlock x) = some r → ParentPath t x r := by
  intro fuel
  induction fuel with
  | zero =>
      intro x hw
      obtain ⟨b, hx⟩ := exists_of_ancestorWalk hw
      rw [hx, BlockTree.ancestorWalk] at hw
      split at hw
      · exact .here (hx.trans hw)
      · exact absurd hw (by simp)
  | succ fuel ih =>
      intro x hw
      obtain ⟨b, hx⟩ := exists_of_ancestorWalk hw
      rw [hx, BlockTree.ancestorWalk] at hw
      split at hw
      · exact .parent hx (ih b.parentHash hw)
      · split at hw
        · exact .here (hx.trans hw)
        · exact absurd hw (by simp)

/-- With fuel for the distance, a walk that steps down arrives. -/
theorem StepsDown.ancestorWalk {t : BlockTree} {x : Hash} {r : BlockRecord}
    (h : StepsDown t x r) : ∀ b, t.getBlock x = some b → r.number ≤ b.number ∧
      ∀ fuel, b.number - r.number ≤ fuel → t.ancestorWalk r.number fuel (some b) = some r := by
  induction h with
  | @here x r hx =>
      intro b hb
      rw [hx] at hb
      obtain rfl : r = b := Option.some.inj hb
      refine ⟨Nat.le_refl _, ?_⟩
      intro fuel _
      cases fuel with
      | zero => rw [BlockTree.ancestorWalk, if_pos rfl]
      | succ fuel => rw [BlockTree.ancestorWalk, if_neg (by omega), if_pos rfl]
  | @parent x b p r hx hp hn _ ih =>
      intro b' hb
      rw [hx] at hb
      obtain rfl : b = b' := Option.some.inj hb
      obtain ⟨hle, hwalk⟩ := ih p hp
      refine ⟨by omega, ?_⟩
      intro fuel hfuel
      -- a parent below means at least one step is left
      obtain ⟨fuel, rfl⟩ : ∃ n, fuel = n + 1 := ⟨fuel - 1, by omega⟩
      rw [BlockTree.ancestorWalk, if_pos (by omega), ← BlockTree.getBlock, hp]
      exact hwalk fuel (by omega)

/-- **No walk that steps down meets the bound**, since nothing lies above `bestHeight`. -/
theorem TreeInv.getCanonicalAncestorAt_of_stepsDown {t : BlockTree} (hi : TreeInv t) {x : Hash}
    {r : BlockRecord} (h : StepsDown t x r) : t.getCanonicalAncestorAt x r.number = some r := by
  obtain ⟨b, hb⟩ : ∃ b, t.getBlock x = some b := by
    cases h with
    | here hx => exact ⟨_, hx⟩
    | parent hx _ _ _ => exact ⟨_, hx⟩
  have hbest := hi.best x b hb
  unfold BlockTree.getCanonicalAncestorAt
  rw [← BlockTree.getBlock, hb]
  exact (h.ancestorWalk b hb).2 _ (by omega)

/--
**The ancestor lookup ends, is sound and misses nothing**, in every tree that calls
of `addBlock` and `prune` build.

Its loop is over after so many turns that the counter cannot go on; what it
returns lies at the height asked for and is reached by stored links; and where the
stored links step down to a record, that record is what it returns.
-/
theorem getCanonicalAncestorAt_correct (ops : List TreeOp) (fromHash : Hash) (targetHeight : Nat) :
    let t := treeMachine.run ops
    (∀ turns, (maxSteps t targetHeight).toNat < turns →
      ancestorLoop t targetHeight turns { current := t.getBlock fromHash, steps := 0 }
        = some (t.getCanonicalAncestorAt fromHash targetHeight))
    ∧ (∀ r, t.getCanonicalAncestorAt fromHash targetHeight = some r →
        r.number = targetHeight ∧ ParentPath t fromHash r)
    ∧ ∀ r, StepsDown t fromHash r → r.number = targetHeight →
        t.getCanonicalAncestorAt fromHash targetHeight = some r := by
  intro t
  have hi : TreeInv t := treeInv_treeRun ops
  refine ⟨?_, ?_, ?_⟩
  · intro turns hturns
    exact ancestorLoop_eq turns _ hturns
  · intro r hr
    exact ⟨ancestorWalk_sound _ _ hr, ancestorWalk_parentPath _ fromHash hr⟩
  · intro r hdown hnum
    rw [← hnum]
    exact hi.getCanonicalAncestorAt_of_stepsDown hdown

/-- Three blocks on top of each other, the lowest pruned. -/
def prunedChain : List TreeOp :=
  [.addBlock "a" 1 "genesis" none none none "alice" {},
    .addBlock "b" 2 "a" none none none "alice" {},
    .addBlock "c" 3 "b" none none none "bob" {}, .prune 1]

theorem getCanonicalAncestorAt_prunedChain :
    (treeMachine.run prunedChain).getCanonicalAncestorAt "c" 2
      = some (BlockTree.newRecord "b" 2 "a" none none none "alice" {}) :=
  (getCanonicalAncestorAt_correct prunedChain "c" 2).2.2 _
    (.parent rfl rfl rfl (.here rfl)) rfl

end ForkWatch.Proof
