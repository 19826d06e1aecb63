import ForkWatch.Proof.Step

/-!
# Records in the tree and records that left it

A prune takes the map of a height out of the tree, and leaves it to the handlers that
hold it. So a block may be on record more than once: in the tree, and in maps that were
pruned before it arrived again (`Recorded`). A handler writes into the record it holds,
wherever that is by now, and `Resumed.writes` says once what it writes: names, relay
parents, and the author that has just come back.
-/

namespace ForkWatch.Proof

open Lib ChainContext

/-- The block has this record, in the tree or in a map that has been pruned. -/
def Recorded (c : ChainContext) (x : Hash) (r : BlockRecord) : Prop :=
  c.blockTree.getBlock x = some r ∨ ∃ n, ∃ m ∈ c.detached n, m.get? x = some r

/-- A map that has been pruned holds blocks of its height, under their hashes. -/
def DetachedInv (c : ChainContext) : Prop :=
  ∀ n, ∀ m ∈ c.detached n, ∀ x r, m.get? x = some r → r.number = n ∧ r.hash = x

theorem Recorded.hash_eq {c : ChainContext} {x : Hash} {r : BlockRecord} (h : Recorded c x r)
    (hi : TreeInv c.blockTree) (hd : DetachedInv c) : r.hash = x := by
  rcases h with hx | ⟨n, m, hm, hx⟩
  · exact hi.hash_eq hx
  · exact (hd n m hm x r hx).2

/-- The blocks of a captured map. -/
def heldHashes (c : ChainContext) (n epoch : Nat) : List Hash :=
  match (c.detached n)[epoch]? with
  | none => ((c.blockTree.getBlocksAtHeight n).map OrdMap.keys).getD []
  | some m => m.keys

/-- A handler may hold this map, and the block is in it. -/
structure Holding (c : ChainContext) (n epoch : Nat) (x : Hash) : Prop where
  taken : epoch ≤ c.epochAt n
  has : x ∈ heldHashes c n epoch

theorem heldHashes_of_none {c : ChainContext} {n epoch : Nat}
    (h : (c.detached n)[epoch]? = none) :
    heldHashes c n epoch = ((c.blockTree.getBlocksAtHeight n).map OrdMap.keys).getD [] := by
  unfold heldHashes
  rw [h]

theorem heldHashes_of_some {c : ChainContext} {n epoch : Nat} {m : OrdMap Hash BlockRecord}
    (h : (c.detached n)[epoch]? = some m) : heldHashes c n epoch = m.keys := by
  unfold heldHashes
  rw [h]

/-! ## Reading -/

theorem mem_heldAt {c : ChainContext} (hi : TreeInv c.blockTree) (hd : DetachedInv c)
    {n epoch : Nat} {b : BlockRecord} (h : b ∈ c.heldAt n epoch) :
    Recorded c b.hash b ∧ b.hash ∈ heldHashes c n epoch ∧ b.number = n := by
  cases hmap : (c.detached n)[epoch]? with
  | none =>
      have hheld : c.heldAt n epoch = c.blockTree.currentAt n := by
        unfold heldAt
        rw [hmap]
      rw [hheld] at h
      rw [heldHashes_of_none hmap]
      unfold BlockTree.currentAt at h
      cases hm : c.blockTree.getBlocksAtHeight n with
      | none => rw [hm] at h; exact absurd h (by simp)
      | some m =>
          rw [hm] at h
          obtain ⟨⟨x, r⟩, hr, rfl⟩ := List.mem_map.mp h
          have hget := OrdMap.mem_entries_iff.mp hr
          obtain ⟨hnumber, hhash, hstored⟩ := hi.byHeight n m x r hm hget
          dsimp only
          rw [hhash]
          exact ⟨Or.inl hstored, OrdMap.mem_keys_iff.mpr ⟨r, hget⟩, hnumber⟩
  | some m =>
      have hheld : c.heldAt n epoch = m.values := by
        unfold heldAt
        rw [hmap]
      rw [hheld] at h
      rw [heldHashes_of_some hmap]
      obtain ⟨⟨x, r⟩, hr, rfl⟩ := List.mem_map.mp h
      have hget := OrdMap.mem_entries_iff.mp hr
      have hmem := List.mem_of_getElem? hmap
      obtain ⟨hnumber, hhash⟩ := hd n m hmem x r hget
      dsimp only
      rw [hhash]
      exact ⟨Or.inr ⟨n, m, hmem, hget⟩, OrdMap.mem_keys_iff.mpr ⟨r, hget⟩, hnumber⟩

/-- What a handler reads of a block is a record of it, or what it has read before. -/
theorem held_cases (c : ChainContext) (n epoch : Nat) (b : BlockRecord) :
    c.held n epoch b = b ∨ Recorded c b.hash (c.held n epoch b) := by
  unfold held
  split
  · unfold BlockTree.current
    cases hget : c.blockTree.getBlock b.hash with
    | none => exact Or.inl rfl
    | some r => exact Or.inr (Or.inl hget)
  · rename_i m hm
    cases hget : m.get? b.hash with
    | none => exact Or.inl rfl
    | some r => exact Or.inr (Or.inr ⟨n, m, List.mem_of_getElem? hm, hget⟩)

theorem held_hash {c : ChainContext} (hi : TreeInv c.blockTree) (hd : DetachedInv c) (n epoch : Nat)
    (b : BlockRecord) : (c.held n epoch b).hash = b.hash := by
  rcases held_cases c n epoch b with heq | hr
  · rw [heq]
  · exact hr.hash_eq hi hd

/-- Where nothing has been pruned, a handler reads the tree. -/
theorem held_of_attached {c : ChainContext} {n : Nat} (h : c.detached n = []) (epoch : Nat)
    (b : BlockRecord) : c.held n epoch b = c.blockTree.current b := by
  unfold held
  rw [h]
  rfl

/-- The map a handler captures now is the tree's. -/
theorem held_epochAt (c : ChainContext) (n : Nat) (b : BlockRecord) :
    c.held n (c.epochAt n) b = c.blockTree.current b := by
  unfold held epochAt
  rw [List.getElem?_eq_none (Nat.le_refl _)]

theorem heldHashes_epochAt (c : ChainContext) (n : Nat) :
    heldHashes c n (c.epochAt n) = ((c.blockTree.getBlocksAtHeight n).map OrdMap.keys).getD [] :=
  heldHashes_of_none (List.getElem?_eq_none (Nat.le_refl _))

/-! ## Writing -/

/-- A write changes one record of the block it is about, and nothing else. -/
theorem recorded_writeHeld {c : ChainContext} {n epoch : Nat} {y : Hash}
    {f : BlockRecord → BlockRecord} {x : Hash} {r : BlockRecord}
    (h : Recorded (c.writeHeld n epoch y f) x r) :
    Recorded c x r ∨ x = y ∧ ∃ r₀, Recorded c x r₀ ∧ r = f r₀ := by
  unfold writeHeld at h
  split at h
  · rcases h with hx | ⟨k, m, hm, hx⟩
    · dsimp only at hx
      rw [getBlock_updateRecord] at hx
      split at hx
      · rename_i hxy
        obtain ⟨r₀, hr₀, rfl⟩ := Option.map_eq_some_iff.mp hx
        exact Or.inr ⟨hxy, r₀, Or.inl (hxy ▸ hr₀), rfl⟩
      · exact Or.inl (Or.inl hx)
    · exact Or.inl (Or.inr ⟨k, m, hm, hx⟩)
  · rename_i m₀ hm₀
    rcases h with hx | ⟨k, m, hm, hx⟩
    · exact Or.inl (Or.inl hx)
    · by_cases hk : k = n
      · subst hk
        dsimp only at hm
        rw [Function.update_self] at hm
        rcases List.mem_or_eq_of_mem_set hm with hold | rfl
        · exact Or.inl (Or.inr ⟨k, m, hold, hx⟩)
        · rw [OrdMap.get?_modify] at hx
          have hmem := List.mem_of_getElem? hm₀
          split at hx
          · rename_i hxy
            obtain ⟨r₀, hr₀, rfl⟩ := Option.map_eq_some_iff.mp hx
            exact Or.inr ⟨hxy, r₀, Or.inr ⟨k, m₀, hmem, hxy ▸ hr₀⟩, rfl⟩
          · exact Or.inl (Or.inr ⟨k, m₀, hmem, hx⟩)
      · dsimp only at hm
        rw [Function.update_of_ne hk] at hm
        exact Or.inl (Or.inr ⟨k, m, hm, hx⟩)

/-- No record is lost by a write. -/
theorem Recorded.writeHeld {c : ChainContext} {x : Hash} {r : BlockRecord} (h : Recorded c x r)
    (n epoch : Nat) (y : Hash) (f : BlockRecord → BlockRecord) :
    Recorded (c.writeHeld n epoch y f) x r ∨
      x = y ∧ Recorded (c.writeHeld n epoch y f) x (f r) := by
  unfold ChainContext.writeHeld
  split
  · rcases h with hx | hdetached
    · have hget := getBlock_updateRecord c.blockTree y f x
      split at hget
      · rename_i hxy
        rw [← hxy, hx, hxy] at hget
        exact Or.inr ⟨hxy, Or.inl (hxy ▸ hget)⟩
      · exact Or.inl (Or.inl (hget.trans hx))
    · exact Or.inl (Or.inr hdetached)
  · rename_i m₀ hm₀
    rcases h with hx | ⟨k, m, hm, hx⟩
    · exact Or.inl (Or.inl hx)
    · by_cases hk : k = n
      · subst hk
        obtain ⟨i, hi⟩ := List.mem_iff_getElem?.mp hm
        by_cases hie : epoch = i
        · -- the record stands in the map that is written
          subst hie
          obtain rfl := Option.some.inj (hm₀.symm.trans hi)
          have hmem : m₀.modify y f ∈ Function.update c.detached k
              ((c.detached k).set epoch (m₀.modify y f)) k := by
            rw [Function.update_self]
            obtain ⟨hlt, -⟩ := List.getElem?_eq_some_iff.mp hi
            exact List.mem_iff_getElem?.mpr ⟨epoch, by rw [List.getElem?_set_self hlt]⟩
          have hget := OrdMap.get?_modify m₀ y f x
          split at hget
          · rename_i hxy
            rw [← hxy, hx, hxy] at hget
            exact Or.inr ⟨hxy, Or.inr ⟨k, _, hmem, hxy ▸ hget⟩⟩
          · exact Or.inl (Or.inr ⟨k, _, hmem, hget.trans hx⟩)
        · refine Or.inl (Or.inr ⟨k, m, ?_, hx⟩)
          dsimp only
          rw [Function.update_self]
          exact List.mem_iff_getElem?.mpr ⟨i, by rw [List.getElem?_set_ne hie, hi]⟩
      · refine Or.inl (Or.inr ⟨k, m, ?_, hx⟩)
        dsimp only
        rw [Function.update_of_ne hk]
        exact hm

theorem TreeInv.writeHeld {c : ChainContext} (h : TreeInv c.blockTree) (n epoch : Nat) (y : Hash)
    {f : BlockRecord → BlockRecord} (hf : KeepsHeader f) :
    TreeInv (c.writeHeld n epoch y f).blockTree := by
  unfold ChainContext.writeHeld
  split
  · exact treeInv_updateRecord h y hf
  · exact h

theorem detachedInv_writeHeld {c : ChainContext} (h : DetachedInv c) (n epoch : Nat) (y : Hash)
    {f : BlockRecord → BlockRecord} (hf : KeepsHeader f) :
    DetachedInv (c.writeHeld n epoch y f) := by
  unfold writeHeld
  split
  · exact h
  · rename_i m₀ hm₀
    intro k m hm x r hx
    dsimp only at hm
    by_cases hk : k = n
    · subst hk
      rw [Function.update_self] at hm
      rcases List.mem_or_eq_of_mem_set hm with hold | rfl
      · exact h k m hold x r hx
      · rw [OrdMap.get?_modify] at hx
        split at hx
        · obtain ⟨r₀, hr₀, rfl⟩ := Option.map_eq_some_iff.mp hx
          rw [(hf r₀).1, (hf r₀).2.1]
          exact h k m₀ (List.mem_of_getElem? hm₀) x r₀ hr₀
        · exact h k m₀ (List.mem_of_getElem? hm₀) x r hx
    · rw [Function.update_of_ne hk] at hm
      exact h k m hm x r hx

/-- A write that finds the block changes a record of it. -/
theorem Holding.written {c : ChainContext} {n epoch : Nat} {x : Hash} (h : Holding c n epoch x)
    (hi : TreeInv c.blockTree) (f : BlockRecord → BlockRecord) :
    ∃ r, Recorded (c.writeHeld n epoch x f) x (f r) := by
  have hx := h.has
  cases hmap : (c.detached n)[epoch]? with
  | none =>
      rw [heldHashes_of_none hmap] at hx
      have hwrite : c.writeHeld n epoch x f
          = { c with blockTree := c.blockTree.updateRecord x f } := by
        unfold writeHeld
        rw [hmap]
      cases hm : c.blockTree.getBlocksAtHeight n with
      | none => rw [hm] at hx; exact absurd hx (by simp)
      | some m =>
          rw [hm] at hx
          obtain ⟨r, hr⟩ := OrdMap.mem_keys_iff.mp hx
          refine ⟨r, Or.inl ?_⟩
          rw [hwrite, getBlock_updateRecord, if_pos rfl, (hi.byHeight n m x r hm hr).2.2]
          rfl
  | some m =>
      rw [heldHashes_of_some hmap] at hx
      obtain ⟨r, hr⟩ := OrdMap.mem_keys_iff.mp hx
      obtain ⟨hlt, -⟩ := List.getElem?_eq_some_iff.mp hmap
      have hwrite : (c.writeHeld n epoch x f).detached
          = Function.update c.detached n ((c.detached n).set epoch (m.modify x f)) := by
        unfold writeHeld
        rw [hmap]
      refine ⟨r, Or.inr ⟨n, m.modify x f, ?_, ?_⟩⟩
      · rw [hwrite, Function.update_self]
        exact List.mem_iff_getElem?.mpr ⟨epoch, List.getElem?_set_self hlt⟩
      · rw [OrdMap.get?_modify, if_pos rfl, hr]
        rfl

/-- No map gains or loses a block by a write. -/
theorem heldHashes_writeHeld (c : ChainContext) (n epoch : Nat) (y : Hash)
    (f : BlockRecord → BlockRecord) (k epoch' : Nat) :
    heldHashes (c.writeHeld n epoch y f) k epoch' = heldHashes c k epoch' := by
  unfold writeHeld
  split
  · unfold heldHashes
    rw [keysAt_updateRecord]
  · rename_i m hm
    unfold heldHashes
    dsimp only
    by_cases hk : k = n
    · subst hk
      rw [Function.update_self]
      by_cases he : epoch = epoch'
      · subst he
        obtain ⟨hlt, -⟩ := List.getElem?_eq_some_iff.mp hm
        rw [List.getElem?_set_self hlt, hm]
        exact OrdMap.keys_modify m y f
      · rw [List.getElem?_set_ne he]
    · rw [Function.update_of_ne hk]

theorem epochAt_writeHeld (c : ChainContext) (n epoch : Nat) (y : Hash)
    (f : BlockRecord → BlockRecord) (k : Nat) :
    (c.writeHeld n epoch y f).epochAt k = c.epochAt k := by
  unfold writeHeld epochAt
  split
  · rfl
  · dsimp only
    by_cases hk : k = n
    · subst hk
      rw [Function.update_self, List.length_set]
    · rw [Function.update_of_ne hk]

/-! ## Pruning -/

/-- A prune loses no record and makes none. -/
theorem recorded_prune {c : ChainContext} (hi : TreeInv c.blockTree) (F : Nat) {x : Hash}
    {r : BlockRecord} : Recorded (c.prune F) x r ↔ Recorded c x r := by
  unfold Recorded prune
  dsimp only
  rw [getBlock_prune hi, Option.filter_eq_some_iff]
  refine ⟨?_, ?_⟩
  · rintro (⟨hx, -⟩ | ⟨n, m, hm, hx⟩)
    · exact Or.inl hx
    · rcases List.mem_append.mp hm with hold | hnew
      · exact Or.inr ⟨n, m, hold, hx⟩
      · split at hnew
        · exact Or.inl (hi.byHeight n m x r (Option.mem_toList.mp hnew) hx).2.2
        · exact absurd hnew (by simp)
  · rintro (hx | ⟨n, m, hm, hx⟩)
    · by_cases hlow : (r.number : Int) ≤ F - c.config.pruneAfter
      · obtain ⟨m, hm, hget⟩ := hi.byHash x r hx
        refine Or.inr ⟨r.number, m, List.mem_append_right _ ?_, hget⟩
        rw [if_pos hlow]
        exact Option.mem_toList.mpr hm
      · exact Or.inl ⟨hx, by simpa using hlow⟩
    · exact Or.inr ⟨n, m, List.mem_append_left _ hm, hx⟩

theorem detachedInv_prune {c : ChainContext} (h : DetachedInv c) (hi : TreeInv c.blockTree)
    (F : Nat) : DetachedInv (c.prune F) := by
  intro n m hm x r hx
  rcases List.mem_append.mp hm with hold | hnew
  · exact h n m hold x r hx
  · split at hnew
    · obtain ⟨hnumber, hhash, -⟩ := hi.byHeight n m x r (Option.mem_toList.mp hnew) hx
      exact ⟨hnumber, hhash⟩
    · exact absurd hnew (by simp)

theorem epochAt_prune (c : ChainContext) (F n : Nat) :
    (c.prune F).epochAt n = c.epochAt n + if (n : Int) ≤ F - c.config.pruneAfter then
      (c.blockTree.getBlocksAtHeight n).toList.length else 0 := by
  unfold epochAt prune
  dsimp only
  rw [List.length_append]
  split <;> rfl

/-- What stands at a height after a prune stood there before. -/
theorem mem_keysAt_of_prune {t : BlockTree} {k : Int} {n : Nat} {x : Hash}
    (h : x ∈ (((t.prune k).getBlocksAtHeight n).map OrdMap.keys).getD []) :
    x ∈ ((t.getBlocksAtHeight n).map OrdMap.keys).getD [] := by
  rw [getBlocksAtHeight_prune] at h
  split at h
  · exact absurd h (by simp)
  · exact h

/-- A map that is pruned stays with the handlers that hold it. -/
theorem heldHashes_prune (c : ChainContext) (F : Nat) {n epoch : Nat} (h : epoch ≤ c.epochAt n) :
    heldHashes (c.prune F) n epoch = heldHashes c n epoch := by
  unfold heldHashes prune
  dsimp only
  rcases Nat.lt_or_eq_of_le h with hlt | rfl
  · rw [List.getElem?_append_left hlt]
    obtain ⟨m, hm⟩ : ∃ m, (c.detached n)[epoch]? = some m := ⟨_, List.getElem?_eq_getElem hlt⟩
    rw [hm]
  · unfold epochAt
    rw [List.getElem?_append_right (Nat.le_refl _), Nat.sub_self,
      List.getElem?_eq_none (Nat.le_refl _), getBlocksAtHeight_prune]
    by_cases hlow : (n : Int) ≤ F - c.config.pruneAfter
    · rw [if_pos hlow, if_pos hlow]
      cases c.blockTree.getBlocksAtHeight n with
      | none => rfl
      | some m => rfl
    · rw [if_neg hlow, if_neg hlow]
      rfl

/-! ## What a task writes -/

/-- The block whose author a resumed task enters, and the author. -/
def taskAuthor : Task → Answer → Option (Hash × Address)
  | .extractAuthor _ _ _ block, .author author => (orNull author).map fun x => (block.hash, x)
  | _, _ => none

/-- The author the step enters. -/
def entering (c : ChainContext) : Event → Option (Hash × Address)
  | .resume i a => (c.tasks[i]?).bind fun task => taskAuthor task a
  | _ => none

/-- What is written into the record of a block: names, relay parents, and an author that is found. -/
inductive Change (found : Option (Hash × Address)) (x : Hash) :
    (BlockRecord → BlockRecord) → Prop where
  | name (n : Option String) : Change found x fun r => { r with authorName := n }
  | relay (p : Option Hash) (n : Option Nat) :
      Change found x fun r => { r with relayParent := p, relayNumber := n }
  | author (a : Address) (h : found = some (x, a)) : Change found x fun r => { r with author := some a }

theorem Change.keepsHeader {found : Option (Hash × Address)} {x : Hash}
    {f : BlockRecord → BlockRecord} (h : Change found x f) : KeepsHeader f := by
  cases h with
  | _ => exact fun _ => ⟨rfl, rfl, rfl⟩

/-- Tree and pruned maps have been written to, by these changes. -/
inductive Writes (found : Option (Hash × Address)) (c : ChainContext) : ChainContext → Prop where
  | same {d : ChainContext} (htree : d.blockTree = c.blockTree) (hmaps : d.detached = c.detached) :
      Writes found c d
  | write {d e : ChainContext} (h : Writes found c d) (n epoch : Nat) (x : Hash)
      {f : BlockRecord → BlockRecord} (hf : Change found x f)
      (htree : e.blockTree = (d.writeHeld n epoch x f).blockTree)
      (hmaps : e.detached = (d.writeHeld n epoch x f).detached) : Writes found c e

section Writes

variable {found : Option (Hash × Address)} {c d e : ChainContext}

theorem Writes.congr (h : Writes found c d) (htree : e.blockTree = d.blockTree)
    (hmaps : e.detached = d.detached) : Writes found c e := by
  cases h with
  | same ht hm => exact .same (htree.trans ht) (hmaps.trans hm)
  | write h n epoch x hf ht hm => exact .write h n epoch x hf (htree.trans ht) (hmaps.trans hm)

/-- The same from a context with the same records. -/
theorem Writes.of_same (h : Writes found c d) {c₀ : ChainContext}
    (htree : c.blockTree = c₀.blockTree) (hmaps : c.detached = c₀.detached) :
    Writes found c₀ d := by
  induction h with
  | same ht hm => exact .same (ht.trans htree) (hm.trans hmaps)
  | write _ n epoch x hf ht hm ih => exact .write ih n epoch x hf ht hm

/-- Only tree and pruned maps matter for what is on record. -/
theorem recorded_congr (htree : d.blockTree = c.blockTree) (hmaps : d.detached = c.detached)
    {x : Hash} {r : BlockRecord} : Recorded d x r ↔ Recorded c x r := by
  unfold Recorded
  rw [htree, hmaps]

/-- **What holds of all records and survives the changes holds afterwards.** -/
theorem Writes.records (h : Writes found c d) {P : Hash → BlockRecord → Prop}
    (hP : ∀ x f r, Change found x f → P x r → P x (f r)) (hc : ∀ x r, Recorded c x r → P x r) :
    ∀ x r, Recorded d x r → P x r := by
  induction h with
  | same htree hmaps => exact fun x r hr => hc x r ((recorded_congr htree hmaps).mp hr)
  | write _ n epoch y hf htree hmaps ih =>
      intro x r hr
      rcases recorded_writeHeld ((recorded_congr htree hmaps).mp hr) with hold | ⟨rfl, r₀, hr₀, rfl⟩
      · exact ih x r hold
      · exact hP x _ r₀ hf (ih x r₀ hr₀)

/-- What holds of some record of a block and survives the changes is not lost. -/
theorem Writes.keeps (h : Writes found c d) {x : Hash} {P : BlockRecord → Prop}
    (hP : ∀ f r, Change found x f → P r → P (f r)) (hc : ∃ r, Recorded c x r ∧ P r) :
    ∃ r, Recorded d x r ∧ P r := by
  induction h with
  | same htree hmaps =>
      obtain ⟨r, hr, hp⟩ := hc
      exact ⟨r, (recorded_congr htree hmaps).mpr hr, hp⟩
  | write _ n epoch y hf htree hmaps ih =>
      obtain ⟨r, hr, hp⟩ := ih
      rcases hr.writeHeld n epoch y _ with hold | ⟨rfl, hnew⟩
      · exact ⟨r, (recorded_congr htree hmaps).mpr hold, hp⟩
      · exact ⟨_, (recorded_congr htree hmaps).mpr hnew, hP _ r hf hp⟩

theorem Writes.detachedInv (h : Writes found c d) (hc : DetachedInv c) : DetachedInv d := by
  induction h with
  | same _ hmaps => unfold DetachedInv; rw [hmaps]; exact hc
  | write _ n epoch y hf _ hmaps ih =>
      unfold DetachedInv
      rw [hmaps]
      exact detachedInv_writeHeld ih n epoch y hf.keepsHeader

theorem Writes.epochAt (h : Writes found c d) (n : Nat) : d.epochAt n = c.epochAt n := by
  induction h with
  | same _ hmaps => unfold ChainContext.epochAt; rw [hmaps]
  | @write d e _ k epoch y f _ _ hmaps ih =>
      have hsame : e.epochAt n = (d.writeHeld k epoch y f).epochAt n := by
        unfold ChainContext.epochAt
        rw [hmaps]
      rw [hsame, epochAt_writeHeld, ih]

theorem Writes.heldHashes (h : Writes found c d) (n epoch : Nat) :
    heldHashes d n epoch = heldHashes c n epoch := by
  have hsame : ∀ {u v : ChainContext}, v.blockTree = u.blockTree → v.detached = u.detached →
      Proof.heldHashes v n epoch = Proof.heldHashes u n epoch := by
    intro u v htree hmaps
    unfold Proof.heldHashes
    rw [htree, hmaps]
  induction h with
  | same htree hmaps => exact hsame htree hmaps
  | write _ k epoch y _ htree hmaps ih =>
      rw [hsame htree hmaps, heldHashes_writeHeld, ih]

end Writes

theorem writes_storeRelayParents (found : Option (Hash × Address)) (c : ChainContext)
    (n epoch : Nat) (blocks : List BlockRecord) (rps : List (Option RelayParent)) :
    Writes found c (c.storeRelayParents n epoch blocks rps) := by
  refine List.foldlRecOn (motive := Writes found c) _ _ (.same rfl rfl) fun u hu e _ => ?_
  split
  · exact hu
  · exact .write hu n epoch e.1.hash (.relay _ _) rfl rfl

theorem stores_enrichForkAuthors (c : ChainContext) (header : Header) (epoch : Nat)
    (visited : List Hash) :
    (c.enrichForkAuthors header epoch visited).blockTree = c.blockTree ∧
      (c.enrichForkAuthors header epoch visited).detached = c.detached := by
  unfold enrichForkAuthors updateForkAuthors
  split
  · split
    · exact ⟨rfl, rfl⟩
    · exact ⟨rfl, rfl⟩
  · exact ⟨rfl, rfl⟩

theorem stores_recordCause (c : ChainContext) (header : Header) (epoch : Nat)
    (blocks : List BlockRecord) (rps : List (Option RelayParent)) :
    (c.recordCause header epoch blocks rps).blockTree = c.blockTree ∧
      (c.recordCause header epoch blocks rps).detached = c.detached := by
  unfold ChainContext.recordCause
  dsimp only
  split
  · exact ⟨rfl, rfl⟩
  · exact ⟨rfl, rfl⟩

/-- Naming a block leaves the tasks, and the blocks of every map, as they are. -/
theorem exists_named {c : ChainContext} (hi : TreeInv c.blockTree) (hd : DetachedInv c)
    (header : Header) (epoch : Nat) (visited : List Hash) (block : BlockRecord)
    (author : Address) :
    ∃ named : ChainContext, c.onIdentity header epoch visited block author
        = named.enrichForkAuthors header epoch visited ∧
      named.tasks = c.tasks ∧ TreeInv named.blockTree ∧ DetachedInv named ∧
      (∀ n epoch, heldHashes named n epoch = heldHashes c n epoch) ∧
      ∀ n, named.epochAt n = c.epochAt n := by
  have hheader : KeepsHeader fun r => { r with authorName := c.resolveAuthorName author } :=
    fun _ => ⟨rfl, rfl, rfl⟩
  obtain ⟨htasks, -⟩ := writeHeld_frame c header.number epoch block.hash
    fun r => { r with authorName := c.resolveAuthorName author }
  exact ⟨_, rfl, htasks, hi.writeHeld header.number epoch block.hash hheader,
    detachedInv_writeHeld hd header.number epoch block.hash hheader,
    heldHashes_writeHeld c header.number epoch block.hash _,
    epochAt_writeHeld c header.number epoch block.hash _⟩

/-- **A task writes no more than that**, unless it prunes. -/
theorem Resumed.writes {c c' : ChainContext} {task : Task} {a : Answer}
    (h : Resumed c task a c') : Writes (taskAuthor task a) c c' ∨
      ∃ F, task = .resolveForkEvent F ∧ a = .done ∧ c' = c.prune F := by
  cases h with
  | insertForkBlocks header epoch rest =>
      unfold ChainContext.insertForkBlocks
      cases rest with
      | nil => exact Or.inl (.same rfl rfl)
      | cons => exact Or.inl (.same rfl rfl)
  | unhooked => exact Or.inl (.same rfl rfl)
  | hooked =>
      unfold analyzeForkCause
      dsimp only
      split
      · exact Or.inl (.same rfl rfl)
      · exact Or.inl (.same rfl rfl)
  | relayParents =>
      unfold onRelayParents
      dsimp only
      split
      · exact Or.inl (.same rfl rfl)
      · exact Or.inl (.same (stores_recordCause ..).1 (stores_recordCause ..).2)
  | retryRelayParents => exact Or.inl (.same (stores_recordCause ..).1 (stores_recordCause ..).2)
  | updateCause => exact Or.inl ((writes_storeRelayParents ..).congr rfl rfl)
  | forkUpdated => exact Or.inl (.same rfl rfl)
  | imported =>
      unfold afterImport
      split
      · split
        · exact Or.inl (.same rfl rfl)
        · exact Or.inl (.same (stores_enrichForkAuthors ..).1 (stores_enrichForkAuthors ..).2)
      · exact Or.inl (.same rfl rfl)
  | extractAuthor header epoch visited block answer =>
      unfold onAuthor
      cases hanswer : orNull answer with
      | none => exact Or.inl (.same (stores_enrichForkAuthors ..).1 (stores_enrichForkAuthors ..).2)
      | some author =>
          refine Or.inl (.write (.same rfl rfl) header.number epoch block.hash
            (.author author ?_) rfl rfl)
          rw [taskAuthor, hanswer]
          rfl
  | lookup => exact Or.inl (.same rfl rfl)
  | resolveIdentity header epoch visited block author =>
      exact Or.inl (.write (.same rfl rfl) header.number epoch block.hash (.name _)
        (stores_enrichForkAuthors ..).1 (stores_enrichForkAuthors ..).2)
  | body => exact Or.inl (.same rfl rfl)
  | noBody => exact Or.inl (.same rfl rfl)
  | resolveForkEvent F => exact Or.inr ⟨F, rfl, rfl, rfl⟩
  | other => exact Or.inl (.same rfl rfl)

/-! ## One event -/

/-- What one event does to everything on record. -/
inductive RecordsStep (c : ChainContext) : Event → ChainContext → Prop where
  /-- Records are written to. -/
  | writes {e : Event} {d : ChainContext} (h : Writes (entering c e) c d) : RecordsStep c e d
  /-- A block is seen by one more node. -/
  | seen {node : NodeName} {header : Header} {r : BlockRecord}
      (h : c.blockTree.getBlock header.hash = some r) :
      RecordsStep c (.allHeads node header) (seenAgain c node header)
  /-- A header gets a record. -/
  | new {node : NodeName} {header : Header} {d : ChainContext}
      (h : c.blockTree.getBlock header.hash = none)
      (htree : d.blockTree = c.blockTree.insertRecord (recordOf node header))
      (hmaps : d.detached = c.detached) : RecordsStep c (.allHeads node header) d
  /-- A notification only raises the finalized height. -/
  | notified {node : NodeName} {F : Nat} {y : Hash} {d : ChainContext} {k : Nat}
      (htree : d.blockTree = { c.blockTree with finalizedHeight := k })
      (hmaps : d.detached = c.detached) : RecordsStep c (.finalizedHeads node F y) d
  /-- Maps leave the tree. -/
  | pruned {i F : Nat} {d : ChainContext} (ht : c.tasks[i]? = some (.resolveForkEvent F))
      (htree : d.blockTree = (c.prune F).blockTree) (hmaps : d.detached = (c.prune F).detached) :
      RecordsStep c (.resume i .done) d

theorem importNew_detached (c : ChainContext) (header : Header) :
    (c.importNew header).detached = c.detached := by
  unfold importNew detectFork insertForkBlocks
  dsimp only
  split
  · split
    · rfl
    · split <;> rfl
  · rfl

theorem recordsStep (c : ChainContext) (e : Event) : RecordsStep c e (c.step e) := by
  cases e with
  | allHeads node header =>
      cases h : c.blockTree.getBlock header.hash with
      | some r =>
          rw [step_allHeads_of_known h]
          exact .seen h
      | none =>
          rw [step_allHeads_of_new h]
          exact .new h (importNew_frame _ header).2.1 (importNew_detached _ header)
  | resume i a =>
      unfold step
      dsimp only
      cases ht : c.tasks[i]? with
      | none => exact .writes (.same rfl rfl)
      | some task =>
          rcases (resumed (taken c i) task a).writes with hwrites | ⟨F, rfl, rfl, -⟩
          · have hentering : entering c (.resume i a) = taskAuthor task a := by
              simp [entering, ht]
            refine .writes ?_
            rw [hentering]
            exact hwrites.of_same rfl rfl
          · exact .pruned ht rfl rfl
  | finalizedHeads => exact .notified rfl rfl
  | _ => exact .writes (.same rfl rfl)

/-- **Pruned maps hold blocks of their height**, in every run. -/
theorem detachedInv_step {c : ChainContext} (hi : TreeInv c.blockTree) (h : DetachedInv c)
    (e : Event) : DetachedInv (c.step e) := by
  have hstep := recordsStep c e
  generalize c.step e = d at hstep
  cases hstep with
  | writes hwrites => exact hwrites.detachedInv h
  | seen => exact h
  | new _ _ hmaps => unfold DetachedInv; rw [hmaps]; exact h
  | notified _ hmaps => unfold DetachedInv; rw [hmaps]; exact h
  | @pruned i F _ _ _ hmaps =>
      unfold DetachedInv
      rw [hmaps]
      exact detachedInv_prune h hi F

/-- **What a handler holds it keeps**, whatever happens. -/
theorem Holding.step {c : ChainContext} {n epoch : Nat} {x : Hash} (h : Holding c n epoch x)
    (e : Event) : Holding (c.step e) n epoch x := by
  have hstep := recordsStep c e
  generalize c.step e = d at hstep
  cases hstep with
  | writes hwrites =>
      exact ⟨by rw [hwrites.epochAt]; exact h.taken, by rw [hwrites.heldHashes]; exact h.has⟩
  | @seen node header =>
      refine ⟨h.taken, ?_⟩
      have hkeys := keysAt_updateRecord c.blockTree header.hash
        (fun r => { r with seenByNodes := r.seenByNodes.add node }) n
      have hsame : heldHashes (seenAgain c node header) n epoch = heldHashes c n epoch := by
        unfold heldHashes
        rw [← hkeys]
        rfl
      rw [hsame]
      exact h.has
  | @new node header d _ htree hmaps =>
      have hmore : ∀ y ∈ ((c.blockTree.getBlocksAtHeight n).map OrdMap.keys).getD [],
          y ∈ ((d.blockTree.getBlocksAtHeight n).map OrdMap.keys).getD [] := by
        intro y hy
        rw [htree, getBlocksAtHeight_insertRecord]
        cases hm : c.blockTree.getBlocksAtHeight n with
        | none => rw [hm] at hy; exact absurd hy (by simp)
        | some m =>
            rw [hm] at hy
            split
            · refine OrdMap.mem_keys_iff.mpr ?_
              rw [Option.getD_some, OrdMap.get?_set]
              split
              · exact ⟨_, rfl⟩
              · exact OrdMap.mem_keys_iff.mp hy
            · exact hy
      have hx := h.has
      have htaken := h.taken
      refine ⟨by unfold epochAt; rw [hmaps]; exact htaken, ?_⟩
      unfold heldHashes at hx ⊢
      rw [hmaps]
      split
      · rename_i hnone
        rw [hnone] at hx
        exact hmore x hx
      · rename_i m hm
        rw [hm] at hx
        exact hx
  | notified htree hmaps =>
      have hx := h.has
      have htaken := h.taken
      unfold epochAt at htaken
      unfold heldHashes at hx
      constructor
      · unfold epochAt
        rw [hmaps]
        exact htaken
      · unfold heldHashes
        rw [hmaps, htree]
        exact hx
  | @pruned i F d _ htree hmaps =>
      have hx := h.has
      rw [← heldHashes_prune c F h.taken] at hx
      have htaken := Nat.le_trans h.taken ((Nat.le_add_right _ _).trans
        (epochAt_prune c F n).ge)
      unfold epochAt at htaken
      unfold heldHashes at hx
      constructor
      · unfold epochAt
        rw [hmaps]
        exact htaken
      · unfold heldHashes
        rw [hmaps, htree]
        exact hx

/-- Tree and pruned maps are in order in every run. -/
theorem recordsInv_run (config : ChainConfig) (opts : TxOptions) (evs : List Event) :
    TreeInv ((machine config opts).run evs).blockTree ∧
      DetachedInv ((machine config opts).run evs) :=
  Machine.run_invariant (m := machine config opts) (A := fun _ => True)
    (I := fun c => TreeInv c.blockTree ∧ DetachedInv c)
    ⟨treeInv_init, fun _ _ hm => absurd hm (by simp [machine])⟩
    (fun _ e h _ => ⟨treeInv_step h.1 e, detachedInv_step h.1 h.2 e⟩) fun _ _ => trivial

theorem getBlock_of_seenAgain (c : ChainContext) (node : NodeName) (header : Header) (x : Hash) :
    (seenAgain c node header).blockTree.getBlock x
      = if x = header.hash then (c.blockTree.getBlock header.hash).map
          fun r => { r with seenByNodes := r.seenByNodes.add node }
        else c.blockTree.getBlock x := getBlock_updateRecord ..

/--
**What holds of every record.** If it holds of the records of headers, and survives
what tasks write and another node's report, it holds after the step.
-/
theorem records_step_of {c : ChainContext} (hi : TreeInv c.blockTree) (e : Event)
    {P : Hash → BlockRecord → Prop}
    (hchange : ∀ x f r, Change (entering c e) x f → P x r → P x (f r))
    (hseen : ∀ node header, e = .allHeads node header → ∀ r, P header.hash r →
      P header.hash { r with seenByNodes := r.seenByNodes.add node })
    (hnew : ∀ node header, e = .allHeads node header →
      P header.hash (recordOf node header))
    (hc : ∀ x r, Recorded c x r → P x r) : ∀ x r, Recorded (c.step e) x r → P x r := by
  have hstep := recordsStep c e
  generalize c.step e = d at hstep
  cases hstep with
  | writes hwrites => exact hwrites.records hchange hc
  | @seen node header r₀ hget =>
      intro x r hr
      rcases hr with hx | hdetached
      · rw [getBlock_of_seenAgain] at hx
        split at hx
        · rename_i hxh
          obtain ⟨r₁, hr₁, rfl⟩ := Option.map_eq_some_iff.mp hx
          rw [hxh]
          exact hseen node header rfl r₁ (hc _ r₁ (Or.inl hr₁))
        · exact hc x r (Or.inl hx)
      · exact hc x r (Or.inr hdetached)
  | @new node header d hget htree hmaps =>
      intro x r hr
      unfold Recorded at hr
      rw [htree, hmaps, getBlock_insertRecord] at hr
      rcases hr with hx | hdetached
      · split at hx
        · rename_i hxh
          rw [← Option.some.inj hx, hxh]
          exact hnew node header rfl
        · exact hc x r (Or.inl hx)
      · exact hc x r (Or.inr hdetached)
  | notified htree hmaps =>
      intro x r hr
      unfold Recorded at hr
      rw [htree, hmaps] at hr
      exact hc x r hr
  | @pruned i F _ _ htree hmaps =>
      intro x r hr
      exact hc x r ((recorded_prune hi F).mp ((recorded_congr htree hmaps).mp hr))

/-- What holds of some record of a block, and survives, is not lost by a step. -/
theorem keeps_step_of {c : ChainContext} (hi : TreeInv c.blockTree) (e : Event) {x : Hash}
    {P : BlockRecord → Prop} (hchange : ∀ f r, Change (entering c e) x f → P r → P (f r))
    (hseen : ∀ node r, P r → P { r with seenByNodes := r.seenByNodes.add node })
    (hc : ∃ r, Recorded c x r ∧ P r) : ∃ r, Recorded (c.step e) x r ∧ P r := by
  have hstep := recordsStep c e
  generalize c.step e = d at hstep
  cases hstep with
  | writes hwrites => exact hwrites.keeps hchange hc
  | @seen node header r₀ hget =>
      obtain ⟨r, hx | hdetached, hp⟩ := hc
      · have hnow := getBlock_of_seenAgain c node header x
        split at hnow
        · rename_i hxh
          rw [← hxh, hx] at hnow
          exact ⟨_, Or.inl (hxh ▸ hnow), hseen node r hp⟩
        · exact ⟨r, Or.inl (hnow.trans hx), hp⟩
      · exact ⟨r, Or.inr hdetached, hp⟩
  | @new node header d hget htree hmaps =>
      obtain ⟨r, hx | hdetached, hp⟩ := hc
      · refine ⟨r, Or.inl ?_, hp⟩
        rw [htree, getBlock_insertRecord, if_neg, hx]
        rintro rfl
        exact absurd (hget.symm.trans hx) (by simp)
      · refine ⟨r, Or.inr ?_, hp⟩
        rw [hmaps]
        exact hdetached
  | notified htree hmaps =>
      obtain ⟨r, hr, hp⟩ := hc
      refine ⟨r, ?_, hp⟩
      unfold Recorded
      rw [htree, hmaps]
      exact hr
  | @pruned i F _ _ htree hmaps =>
      obtain ⟨r, hr, hp⟩ := hc
      exact ⟨r, (recorded_congr htree hmaps).mpr ((recorded_prune hi F).mpr hr), hp⟩

end ForkWatch.Proof
