import ForkWatch.Lib.Lineage
import ForkWatch.Chain.Context

/-!
# The two indexes of the block tree agree

The tree keeps every record twice, by hash and by height, and mutates the two
indexes separately. `TreeInv` says they never disagree, that no height is kept
without a block, and that no block lies above `bestHeight`; every operation
preserves it.

The other half is about ancestry. Headers come from nodes, and a block hash
fixes its header: `Authentic` says the stored records are those of one lineage of
headers. Under it, what a walk along parent links finds is exactly what the
lineage says, as long as the store holds the headers in between.
-/

namespace ForkWatch.Proof

open Lib

/-- The two indexes of a tree agree. -/
structure TreeInv (t : BlockTree) : Prop where
  /-- A record found by hash is found at its own height. -/
  byHash : ∀ x r, t.getBlock x = some r →
    ∃ m, t.getBlocksAtHeight r.number = some m ∧ m.get? x = some r
  /-- A record found at a height has that number, and is found by its hash. -/
  byHeight : ∀ n m x r, t.getBlocksAtHeight n = some m → m.get? x = some r →
    r.number = n ∧ r.hash = x ∧ t.getBlock x = some r
  /-- No height is kept without a block. -/
  inhabited : ∀ n m, t.getBlocksAtHeight n = some m → 0 < m.size
  /-- No block lies above `bestHeight`. -/
  best : ∀ x r, t.getBlock x = some r → r.number ≤ t.bestHeight

theorem treeInv_init : TreeInv BlockTree.init where
  byHash := by intro x r h; exact absurd h (by simp [BlockTree.getBlock, BlockTree.init])
  byHeight := by
    intro n m x r h; exact absurd h (by simp [BlockTree.getBlocksAtHeight, BlockTree.init])
  inhabited := by
    intro n m h; exact absurd h (by simp [BlockTree.getBlocksAtHeight, BlockTree.init])
  best := by intro x r h; exact absurd h (by simp [BlockTree.getBlock, BlockTree.init])

/-- A stored record is filed under its own hash. -/
theorem TreeInv.hash_eq {t : BlockTree} (h : TreeInv t) {x : Hash} {r : BlockRecord}
    (hx : t.getBlock x = some r) : r.hash = x := by
  obtain ⟨m, hm, hr⟩ := h.byHash x r hx
  exact (h.byHeight _ m x r hm hr).2.1

/-- Looking a record up again finds the block it was taken from. -/
theorem TreeInv.current_hash {t : BlockTree} (h : TreeInv t) (b : BlockRecord) :
    (t.current b).hash = b.hash := by
  unfold BlockTree.current
  cases hget : t.getBlock b.hash with
  | none => rfl
  | some r => exact h.hash_eq hget

/-- What stands at a height is what is stored with that number. -/
theorem TreeInv.mem_keysAt_iff {t : BlockTree} (h : TreeInv t) {n : Nat} {x : Hash} :
    (∃ m, t.getBlocksAtHeight n = some m ∧ x ∈ m.keys)
      ↔ ∃ r, t.getBlock x = some r ∧ r.number = n := by
  refine ⟨?_, ?_⟩
  · intro hx
    obtain ⟨m, hm, hk⟩ := hx
    obtain ⟨r, hr⟩ := OrdMap.mem_keys_iff.mp hk
    obtain ⟨hn, -, hget⟩ := h.byHeight n m x r hm hr
    exact ⟨r, hget, hn⟩
  · intro hx
    obtain ⟨r, hr, rfl⟩ := hx
    obtain ⟨m, hm, hk⟩ := h.byHash x r hr
    exact ⟨m, hm, OrdMap.mem_keys_iff.mpr ⟨r, hk⟩⟩

/-! ## Updating a record -/

/-- An update that leaves hash, number and parent alone. -/
def KeepsHeader (f : BlockRecord → BlockRecord) : Prop :=
  ∀ r, (f r).hash = r.hash ∧ (f r).number = r.number ∧ (f r).parentHash = r.parentHash

theorem getBlock_updateRecord (t : BlockTree) (x : Hash) (f : BlockRecord → BlockRecord)
    (y : Hash) :
    (t.updateRecord x f).getBlock y = if y = x then (t.getBlock x).map f else t.getBlock y := by
  unfold BlockTree.updateRecord BlockTree.getBlock
  cases hx : t.blocksByHash.get? x with
  | none =>
      by_cases hy : y = x
      · subst hy; simp [hx]
      · simp [hy]
  | some r =>
      dsimp only
      rw [OrdMap.get?_modify]
      by_cases hy : y = x
      · subst hy; simp [hx]
      · simp [hy]

theorem getBlocksAtHeight_updateRecord {t : BlockTree} {x : Hash} {r : BlockRecord}
    (hx : t.getBlock x = some r) (f : BlockRecord → BlockRecord) (n : Nat) :
    (t.updateRecord x f).getBlocksAtHeight n =
      if n = r.number then (t.getBlocksAtHeight n).map (fun m => m.modify x f)
      else t.getBlocksAtHeight n := by
  rw [BlockTree.getBlock] at hx
  unfold BlockTree.updateRecord BlockTree.getBlocksAtHeight
  rw [hx]
  dsimp only
  rw [OrdMap.get?_modify]

theorem updateRecord_of_absent {t : BlockTree} {x : Hash} (hx : t.getBlock x = none)
    (f : BlockRecord → BlockRecord) : t.updateRecord x f = t := by
  rw [BlockTree.getBlock] at hx
  unfold BlockTree.updateRecord
  rw [hx]

theorem bestHeight_updateRecord (t : BlockTree) (x : Hash) (f : BlockRecord → BlockRecord) :
    (t.updateRecord x f).bestHeight = t.bestHeight := by
  unfold BlockTree.updateRecord; split <;> rfl

theorem keysAt_updateRecord (t : BlockTree) (x : Hash) (f : BlockRecord → BlockRecord) (n : Nat) :
    ((t.updateRecord x f).getBlocksAtHeight n).map OrdMap.keys
      = (t.getBlocksAtHeight n).map OrdMap.keys := by
  cases hx : t.getBlock x with
  | none => rw [updateRecord_of_absent hx]
  | some r =>
      rw [getBlocksAtHeight_updateRecord hx]
      split
      · rw [Option.map_map]
        congr 1
        funext m
        exact OrdMap.keys_modify m x f
      · rfl

theorem treeInv_updateRecord {t : BlockTree} (h : TreeInv t) (x : Hash)
    {f : BlockRecord → BlockRecord} (hf : KeepsHeader f) : TreeInv (t.updateRecord x f) := by
  cases hx : t.getBlock x with
  | none => rw [updateRecord_of_absent hx]; exact h
  | some r =>
      refine ⟨?_, ?_, ?_, ?_⟩
      -- by hash: the changed record is found at the height of the old one
      · intro y s hy
        rw [getBlock_updateRecord] at hy
        by_cases hyx : y = x
        · subst hyx
          rw [if_pos rfl, hx] at hy
          obtain rfl : f r = s := by simpa using hy
          obtain ⟨m, hm, hr⟩ := h.byHash y r hx
          refine ⟨m.modify y f, ?_, ?_⟩
          · rw [getBlocksAtHeight_updateRecord hx, (hf r).2.1, if_pos rfl, hm]; rfl
          · rw [OrdMap.get?_modify, if_pos rfl, hr]; rfl
        · rw [if_neg hyx] at hy
          obtain ⟨m, hm, hs⟩ := h.byHash y s hy
          by_cases hn : s.number = r.number
          · refine ⟨m.modify x f, ?_, ?_⟩
            · rw [getBlocksAtHeight_updateRecord hx, if_pos hn, hm]; rfl
            · rw [OrdMap.get?_modify, if_neg hyx]; exact hs
          · exact ⟨m, by rw [getBlocksAtHeight_updateRecord hx, if_neg hn]; exact hm, hs⟩
      -- by height: only the map at the record's own height is touched
      · intro n m y s hm hs
        rw [getBlocksAtHeight_updateRecord hx] at hm
        rw [getBlock_updateRecord]
        by_cases hn : n = r.number
        · rw [if_pos hn] at hm
          obtain ⟨m₀, hm₀, rfl⟩ := Option.map_eq_some_iff.mp hm
          rw [OrdMap.get?_modify] at hs
          by_cases hyx : y = x
          · subst hyx
            rw [if_pos rfl] at hs ⊢
            obtain ⟨s₀, hs₀, rfl⟩ := Option.map_eq_some_iff.mp hs
            obtain ⟨h1, h2, h3⟩ := h.byHeight n m₀ y s₀ hm₀ hs₀
            exact ⟨by rw [(hf s₀).2.1, h1], by rw [(hf s₀).1, h2], by rw [h3]; rfl⟩
          · rw [if_neg hyx] at hs ⊢
            exact h.byHeight n m₀ y s hm₀ hs
        · rw [if_neg hn] at hm
          have hb := h.byHeight n m y s hm hs
          have hyx : y ≠ x := by
            rintro rfl
            rw [hx] at hb
            exact hn (by rw [← hb.1, ← Option.some.inj hb.2.2])
          rw [if_neg hyx]
          exact hb
      -- no height loses its last block, since no key is lost
      · intro n m hm
        have hk := keysAt_updateRecord t x f n
        rw [hm] at hk
        obtain ⟨m₀, hm₀, he⟩ := Option.map_eq_some_iff.mp hk.symm
        rw [OrdMap.size_eq_length_keys, ← he, ← OrdMap.size_eq_length_keys]
        exact h.inhabited n m₀ hm₀
      · intro y s hy
        rw [getBlock_updateRecord] at hy
        rw [bestHeight_updateRecord]
        by_cases hyx : y = x
        · rw [if_pos hyx, hx] at hy
          obtain rfl : f r = s := by simpa using hy
          rw [(hf r).2.1]
          exact h.best x r hx
        · rw [if_neg hyx] at hy
          exact h.best y s hy

/-! ## Adding a block -/

theorem getBlock_insertRecord (t : BlockTree) (r : BlockRecord) (y : Hash) :
    (t.insertRecord r).getBlock y = if y = r.hash then some r else t.getBlock y := by
  unfold BlockTree.insertRecord BlockTree.getBlock
  exact OrdMap.get?_set ..

theorem getBlocksAtHeight_insertRecord (t : BlockTree) (r : BlockRecord) (n : Nat) :
    (t.insertRecord r).getBlocksAtHeight n =
      if n = r.number then some (((t.getBlocksAtHeight n).getD ∅).set r.hash r)
      else t.getBlocksAtHeight n := by
  unfold BlockTree.insertRecord BlockTree.getBlocksAtHeight
  dsimp only
  rw [OrdMap.get?_set]
  by_cases h : n = r.number
  · subst h; simp
  · simp [h]

theorem le_bestHeight_insertRecord (t : BlockTree) (r : BlockRecord) :
    t.bestHeight ≤ (t.insertRecord r).bestHeight ∧ r.number ≤ (t.insertRecord r).bestHeight := by
  unfold BlockTree.insertRecord
  dsimp only
  split <;> omega

theorem treeInv_insertRecord {t : BlockTree} (h : TreeInv t) {r : BlockRecord}
    (hr : t.getBlock r.hash = none) : TreeInv (t.insertRecord r) := by
  -- a hash that is not stored stands at no height either
  have hat : ∀ n m, t.getBlocksAtHeight n = some m → m.get? r.hash = none := by
    intro n m hm
    cases hq : m.get? r.hash with
    | none => rfl
    | some s => rw [(h.byHeight n m _ s hm hq).2.2] at hr; exact absurd hr (by simp)
  refine ⟨?_, ?_, ?_, ?_⟩
  · intro y s hy
    rw [getBlock_insertRecord] at hy
    by_cases hyx : y = r.hash
    · rw [if_pos hyx] at hy
      obtain rfl : r = s := Option.some.inj hy
      exact ⟨_, by rw [getBlocksAtHeight_insertRecord, if_pos rfl], by rw [hyx]; simp⟩
    · rw [if_neg hyx] at hy
      obtain ⟨m, hm, hs⟩ := h.byHash y s hy
      by_cases hn : s.number = r.number
      · refine ⟨_, by rw [getBlocksAtHeight_insertRecord, if_pos hn], ?_⟩
        rw [hm, Option.getD_some, OrdMap.get?_set_ne _ _ hyx]
        exact hs
      · exact ⟨m, by rw [getBlocksAtHeight_insertRecord, if_neg hn]; exact hm, hs⟩
  · intro n m y s hm hs
    rw [getBlocksAtHeight_insertRecord] at hm
    rw [getBlock_insertRecord]
    by_cases hn : n = r.number
    · rw [if_pos hn] at hm
      obtain rfl := Option.some.inj hm
      rw [OrdMap.get?_set] at hs
      by_cases hyx : y = r.hash
      · rw [if_pos hyx] at hs
        obtain rfl : r = s := Option.some.inj hs
        exact ⟨hn.symm, hyx.symm, by rw [if_pos hyx]⟩
      · rw [if_neg hyx] at hs ⊢
        cases hq : t.getBlocksAtHeight n with
        | none => rw [hq] at hs; exact absurd hs (by simp)
        | some m₀ => rw [hq, Option.getD_some] at hs; exact h.byHeight n m₀ y s hq hs
    · rw [if_neg hn] at hm
      obtain ⟨h1, h2, h3⟩ := h.byHeight n m y s hm hs
      have hyx : y ≠ r.hash := by rintro rfl; rw [hr] at h3; exact absurd h3 (by simp)
      rw [if_neg hyx]
      exact ⟨h1, h2, h3⟩
  · intro n m hm
    rw [getBlocksAtHeight_insertRecord] at hm
    by_cases hn : n = r.number
    · rw [if_pos hn] at hm
      obtain rfl := Option.some.inj hm
      exact OrdMap.size_pos_of_get? (OrdMap.get?_set_self _ r.hash r)
    · rw [if_neg hn] at hm
      exact h.inhabited n m hm
  · intro y s hy
    rw [getBlock_insertRecord] at hy
    have hb := le_bestHeight_insertRecord t r
    by_cases hyx : y = r.hash
    · rw [if_pos hyx] at hy
      obtain rfl : r = s := Option.some.inj hy
      exact hb.2
    · rw [if_neg hyx] at hy
      exact Nat.le_trans (h.best y s hy) hb.1

/-! ## Pruning -/

theorem getBlocksAtHeight_prune (t : BlockTree) (k : Int) (n : Nat) :
    (t.prune k).getBlocksAtHeight n = if (n : Int) ≤ k then none else t.getBlocksAtHeight n := by
  unfold BlockTree.prune BlockTree.getBlocksAtHeight
  dsimp only
  rw [OrdMap.get?_filter]
  cases t.blocksByHeight.get? n with
  | none => simp
  | some m => by_cases h : (n : Int) ≤ k <;> simp [h]

theorem getBlock_prune {t : BlockTree} (h : TreeInv t) (k : Int) (x : Hash) :
    (t.prune k).getBlock x = (t.getBlock x).filter (fun r => !decide ((r.number : Int) ≤ k)) := by
  unfold BlockTree.prune BlockTree.getBlock
  dsimp only
  rw [OrdMap.get?_foldl_erase]
  cases hx : t.blocksByHash.get? x with
  | none => simp
  | some r =>
      obtain ⟨m, hm, hr⟩ := h.byHash x r hx
      by_cases hk : (r.number : Int) ≤ k
      -- the hash is erased with its height, and with no other
      · have hmem : x ∈ (t.prunable k).flatMap (fun e => e.2.keys) := by
          refine List.mem_flatMap.mpr ⟨(r.number, m), ?_, OrdMap.mem_keys_iff.mpr ⟨r, hr⟩⟩
          exact List.mem_filter.mpr ⟨OrdMap.mem_entries_iff.mpr hm, by simpa using hk⟩
        rw [if_pos hmem, Option.filter_some, if_neg (by simpa using hk)]
      · have hmem : x ∉ (t.prunable k).flatMap (fun e => e.2.keys) := by
          intro hmem
          obtain ⟨⟨n, m'⟩, he, hxk⟩ := List.mem_flatMap.mp hmem
          obtain ⟨he, hn⟩ := List.mem_filter.mp he
          obtain ⟨s, hs⟩ := OrdMap.mem_keys_iff.mp hxk
          obtain ⟨h1, -, h3⟩ := h.byHeight n m' x s (OrdMap.mem_entries_iff.mp he) hs
          rw [BlockTree.getBlock, hx] at h3
          obtain rfl := Option.some.inj h3
          exact hk (by simpa [h1] using hn)
        rw [if_neg hmem, Option.filter_some, if_pos (by simpa using hk)]

theorem treeInv_prune {t : BlockTree} (h : TreeInv t) (k : Int) : TreeInv (t.prune k) := by
  refine ⟨?_, ?_, ?_, ?_⟩
  · intro x r hx
    rw [getBlock_prune h, Option.filter_eq_some_iff] at hx
    obtain ⟨m, hm, hr⟩ := h.byHash x r hx.1
    have hk : ¬ (r.number : Int) ≤ k := by simpa using hx.2
    exact ⟨m, by rw [getBlocksAtHeight_prune, if_neg hk]; exact hm, hr⟩
  · intro n m x r hm hr
    rw [getBlocksAtHeight_prune] at hm
    split at hm
    · exact absurd hm (by simp)
    · rename_i hk
      obtain ⟨h1, h2, h3⟩ := h.byHeight n m x r hm hr
      refine ⟨h1, h2, ?_⟩
      rw [getBlock_prune h, Option.filter_eq_some_iff]
      exact ⟨h3, by rw [h1]; simpa using hk⟩
  · intro n m hm
    rw [getBlocksAtHeight_prune] at hm
    split at hm
    · exact absurd hm (by simp)
    · exact h.inhabited n m hm
  · intro x r hx
    rw [getBlock_prune h, Option.filter_eq_some_iff] at hx
    exact h.best x r hx.1

/-! ## Forked heights -/

theorem mem_getForkedHeights {t : BlockTree} {n : Nat} :
    n ∈ t.getForkedHeights ↔ ∃ m, t.getBlocksAtHeight n = some m ∧ 1 < m.size := by
  unfold BlockTree.getForkedHeights BlockTree.getBlocksAtHeight
  rw [List.mem_insertionSort, List.mem_map]
  refine ⟨?_, ?_⟩
  · intro hex
    obtain ⟨⟨n', m⟩, he, rfl⟩ := hex
    obtain ⟨he, hs⟩ := List.mem_filter.mp he
    exact ⟨m, OrdMap.mem_entries_iff.mp he, by simpa using hs⟩
  · intro hex
    obtain ⟨m, hm, hs⟩ := hex
    exact ⟨(n, m), List.mem_filter.mpr ⟨OrdMap.mem_entries_iff.mpr hm, by simpa using hs⟩, rfl⟩

theorem getForkedHeights_nodup (t : BlockTree) : t.getForkedHeights.Nodup := by
  unfold BlockTree.getForkedHeights
  refine (List.perm_insertionSort _ _).nodup_iff.mpr ?_
  exact t.blocksByHeight.nodup.sublist (List.filter_sublist.map _)

/-! ## Ancestry -/

/-- The tree holds a record under this hash. -/
def Holds (t : BlockTree) (x : Hash) : Prop := ∃ r, t.getBlock x = some r

/-- Every stored record carries the header its hash stands for. -/
def Authentic (L : Lineage Hash) (t : BlockTree) : Prop :=
  ∀ x r, t.getBlock x = some r → r.hash = x ∧ r.number = L.number x ∧ r.parentHash = L.parent x

/--
**What the ancestor walk finds.** With fuel for the distance, the walk from `x`
reaches the ancestor at height `h` exactly if every header in between is held.
-/
theorem ancestorWalk_eq_some_iff {t : BlockTree} {L : Lineage Hash} (ha : Authentic L t) {h : Nat}
    {r : BlockRecord} : ∀ (fuel : Nat) (x : Hash), h ≤ L.number x → L.number x ≤ h + fuel →
      (t.ancestorWalk h fuel (t.getBlock x) = some r
        ↔ L.HeldDownTo (Holds t) x h ∧ t.getBlock (L.ancestorAt x h) = some r) := by
  intro fuel
  induction fuel with
  | zero =>
      intro x hx hf
      obtain rfl : h = L.number x := by omega
      rw [Lineage.heldDownTo_number_iff, Lineage.ancestorAt_self]
      cases hq : t.getBlock x with
      | none => simp [BlockTree.ancestorWalk, Holds, hq]
      | some s => simp [BlockTree.ancestorWalk, Holds, hq, (ha x s hq).2.1]
  | succ n ih =>
      intro x hx hf
      cases hq : t.getBlock x with
      | none =>
          have hnot : ¬ L.HeldDownTo (Holds t) x h := by
            intro hh
            obtain ⟨s, hs⟩ := hh.self hx
            rw [hq] at hs
            exact absurd hs (by simp)
          simp [BlockTree.ancestorWalk, hnot]
      | some s =>
          obtain ⟨-, hnum, hpar⟩ := ha x s hq
          rw [BlockTree.ancestorWalk]
          rcases Nat.eq_or_lt_of_le hx with heq | hlt
          -- at the height itself the walk stops, above it the walk goes to the parent
          · rw [if_neg (by omega), if_pos (by omega), heq, Lineage.heldDownTo_number_iff,
              Lineage.ancestorAt_self, hq]
            exact ⟨fun e => ⟨⟨s, hq⟩, e⟩, fun e => e.2⟩
          · have hp := L.number_parent x
            rw [if_pos (by omega), hpar, Lineage.heldDownTo_parent_iff hlt,
              Lineage.ancestorAt_parent hlt, ← BlockTree.getBlock, ih (L.parent x) (by omega) (by omega)]
            exact ⟨fun e => ⟨⟨⟨s, hq⟩, e.1⟩, e.2⟩, fun e => ⟨e.1.2, e.2⟩⟩

/--
**`getCanonicalAncestorAt` finds the ancestor exactly if the tree holds the
headers down to it.** The step bound never cuts a genuine walk off, because no
stored block lies above `bestHeight`.
-/
theorem getCanonicalAncestorAt_eq_some_iff {t : BlockTree} {L : Lineage Hash} (hi : TreeInv t)
    (ha : Authentic L t) {x : Hash} {h : Nat} (hx : h ≤ L.number x) {r : BlockRecord} :
    t.getCanonicalAncestorAt x h = some r
      ↔ L.HeldDownTo (Holds t) x h ∧ t.getBlock (L.ancestorAt x h) = some r := by
  unfold BlockTree.getCanonicalAncestorAt
  cases hq : t.getBlock x with
  | none =>
      have hnot : ¬ L.HeldDownTo (Holds t) x h := by
        intro hh
        obtain ⟨s, hs⟩ := hh.self hx
        rw [hq] at hs
        exact absurd hs (by simp)
      rw [BlockTree.getBlock] at hq
      rw [hq]
      simp [BlockTree.ancestorWalk, hnot]
  | some s =>
      -- the step bound is at least the distance to `bestHeight`
      have hb := hi.best x s hq
      have hn := (ha x s hq).2.1
      rw [← BlockTree.getBlock]
      exact ancestorWalk_eq_some_iff ha _ x hx (by omega)

/-- The walk never returns a block at another height, nor one that is not stored. -/
theorem ancestorWalk_sound {t : BlockTree} {h : Nat} {r : BlockRecord} :
    ∀ (fuel : Nat) (cursor : Option BlockRecord), t.ancestorWalk h fuel cursor = some r →
      r.number = h := by
  intro fuel
  induction fuel with
  | zero =>
      intro cursor hw
      cases cursor with
      | none => simp [BlockTree.ancestorWalk] at hw
      | some s =>
          rw [BlockTree.ancestorWalk] at hw
          split at hw
          · rename_i hs; rw [← Option.some.inj hw]; exact hs
          · exact absurd hw (by simp)
  | succ n ih =>
      intro cursor hw
      cases cursor with
      | none => simp [BlockTree.ancestorWalk] at hw
      | some s =>
          rw [BlockTree.ancestorWalk] at hw
          split at hw
          · exact ih _ hw
          · split at hw
            · rename_i hs; rw [← Option.some.inj hw]; exact hs
            · exact absurd hw (by simp)

/-! ## Steps keep a tree authentic -/

theorem authentic_init (L : Lineage Hash) : Authentic L BlockTree.init := by
  intro x r h; exact absurd h (by simp [BlockTree.getBlock, BlockTree.init])

theorem authentic_updateRecord {t : BlockTree} {L : Lineage Hash} (h : Authentic L t) (x : Hash)
    {f : BlockRecord → BlockRecord} (hf : KeepsHeader f) : Authentic L (t.updateRecord x f) := by
  intro y r hy
  rw [getBlock_updateRecord] at hy
  by_cases hyx : y = x
  · rw [if_pos hyx] at hy
    obtain ⟨s, hs, rfl⟩ := Option.map_eq_some_iff.mp hy
    obtain ⟨h1, h2, h3⟩ := h x s hs
    subst hyx
    exact ⟨by rw [(hf s).1, h1], by rw [(hf s).2.1, h2], by rw [(hf s).2.2, h3]⟩
  · rw [if_neg hyx] at hy
    exact h y r hy

theorem authentic_insertRecord {t : BlockTree} {L : Lineage Hash} (h : Authentic L t)
    {r : BlockRecord} (hn : r.number = L.number r.hash) (hp : r.parentHash = L.parent r.hash) :
    Authentic L (t.insertRecord r) := by
  intro y s hy
  rw [getBlock_insertRecord] at hy
  by_cases hyx : y = r.hash
  · rw [if_pos hyx] at hy
    obtain rfl := Option.some.inj hy
    subst hyx
    exact ⟨rfl, hn, hp⟩
  · rw [if_neg hyx] at hy
    exact h y s hy

theorem authentic_prune {t : BlockTree} {L : Lineage Hash} (hi : TreeInv t) (h : Authentic L t)
    (k : Int) : Authentic L (t.prune k) := by
  intro x r hx
  rw [getBlock_prune hi, Option.filter_eq_some_iff] at hx
  exact h x r hx.1

end ForkWatch.Proof
