import ForkWatch.Lib.LastWriter
import ForkWatch.Proof.Links

/-!
# Does a finality jump leave the same inclusions as single steps?

A notification marks the newly final blocks from the top down, and each of them
overwrites what the map of inclusions holds for its signers and nonces. So a jump
leaves, for each key, the inclusion in the *lowest* new block that has it, where
single steps leave the one in the highest. On a chain whose bodies are all captured
the two leave the same map exactly if no signer and nonce occurs in two of the new
blocks (`batchFree_iff`).
-/

namespace ForkWatch.Proof

open Lib TxTracker

/-! ## What marking a block writes -/

/-- What an extrinsic of a block writes for a signer and nonce. -/
def writes (r : BlockRecord) (key : Address × Nat) (tx : Tx) : Option Inclusion :=
  if tx.signer = some key.1 ∧ tx.nonce = some key.2 then some (inclusionOf r.hash r.number tx)
  else none

/-- The inclusion of a signer and nonce in a block: that of its last such extrinsic. -/
def inclusionIn (bodies : OrdMap Hash Captured) (key : Address × Nat) (r : BlockRecord) :
    Option Inclusion :=
  (bodies.get? r.hash).bind fun captured => captured.extrinsics.reverse.findSome? (writes r key)

/-- A signer and nonce occurs in a block. -/
def Occurs (bodies : OrdMap Hash Captured) (key : Address × Nat) (r : BlockRecord) : Prop :=
  ∃ captured, bodies.get? r.hash = some captured ∧
    ∃ tx ∈ captured.extrinsics, tx.signer = some key.1 ∧ tx.nonce = some key.2

theorem inclusionIn_eq_none_iff {bodies : OrdMap Hash Captured} {key : Address × Nat}
    {r : BlockRecord} : inclusionIn bodies key r = none ↔ ¬ Occurs bodies key r := by
  unfold inclusionIn Occurs
  cases bodies.get? r.hash with
  | none => simp
  | some captured =>
      rw [Option.bind_some, List.findSome?_eq_none_iff]
      simp [writes]

/-- An inclusion names its block. -/
theorem blockHash_of_inclusionIn {bodies : OrdMap Hash Captured} {key : Address × Nat}
    {r : BlockRecord} {incl : Inclusion} (h : inclusionIn bodies key r = some incl) :
    incl.blockHash = r.hash := by
  obtain ⟨captured, -, hfind⟩ := Option.bind_eq_some_iff.mp h
  obtain ⟨tx, -, hwrites⟩ := List.exists_of_findSome?_eq_some hfind
  unfold writes at hwrites
  split at hwrites
  · rw [← Option.some.inj hwrites]
    rfl
  · exact absurd hwrites (by simp)

theorem get?_recordInclusion (r : BlockRecord) (key : Address × Nat)
    (latest : OrdMap (Address × Nat) Inclusion) (tx : Tx) :
    (recordInclusion r.hash r.number latest tx).get? key
      = (writes r key tx).or (latest.get? key) := by
  unfold recordInclusion writes
  cases hs : tx.signer with
  | none => simp
  | some s =>
      cases hk : tx.nonce with
      | none => simp
      | some k =>
          dsimp only
          rw [OrdMap.get?_set]
          by_cases hkey : key = (s, k)
          · subst hkey
            rw [if_pos rfl, if_pos ⟨rfl, rfl⟩]
            rfl
          · have hne : ¬ (some s = some key.1 ∧ some k = some key.2) := by
              intro h
              obtain ⟨h1, h2⟩ := h
              exact hkey (Prod.ext (Option.some.inj h1).symm (Option.some.inj h2).symm)
            rw [if_neg hkey, if_neg hne, Option.none_or]

/-- **What marking a block writes.** -/
theorem get?_markInto (bodies : OrdMap Hash Captured) (key : Address × Nat)
    (latest : OrdMap (Address × Nat) Inclusion) (r : BlockRecord) :
    (markInto bodies latest r).get? key = (inclusionIn bodies key r).or (latest.get? key) := by
  unfold markInto inclusionIn
  cases bodies.get? r.hash with
  | none => rw [Option.bind_none, Option.none_or]
  | some captured =>
      exact read_foldl (fun m : OrdMap (Address × Nat) Inclusion => m.get? key)
        (get?_recordInclusion r key) _ _

/-! ## The chain -/

/--
A contiguous chain of stored blocks, lowest first, down to what the walk has covered:
below its lowest block there is nothing, or something the walk has covered.
-/
structure CanonicalChain (tree : BlockTree) (walked : Nat) (blocks : List BlockRecord) : Prop where
  stored : ∀ b ∈ blocks, tree.getBlock b.hash = some b
  linked : blocks.IsChain fun a b => b.parentHash = a.hash ∧ b.number = a.number + 1
  bottom : ∀ b r, blocks.head? = some b → tree.getBlock b.parentHash = some r → r.number ≤ walked

/-- The blocks of the chain that are new to the walk. -/
def newBlocks (walked : Nat) (blocks : List BlockRecord) : List BlockRecord :=
  blocks.filter fun b => walked < b.number

variable {tree : BlockTree} {walked : Nat} {blocks : List BlockRecord}

theorem CanonicalChain.init {b : BlockRecord} (h : CanonicalChain tree walked (blocks ++ [b])) :
    CanonicalChain tree walked blocks where
  stored := fun a ha => h.stored a (List.mem_append_left _ ha)
  linked := h.linked.left_of_append
  bottom := by
    intro a r ha hr
    refine h.bottom a r ?_ hr
    rw [List.head?_append, ha]
    rfl

/-- Numbers go up along the chain. -/
theorem CanonicalChain.increasing (h : CanonicalChain tree walked blocks) :
    blocks.Pairwise fun a b => a.number < b.number := by
  have hchain : blocks.IsChain fun a b => a.number < b.number :=
    h.linked.imp fun a b hab => by omega
  have htrans : IsTrans BlockRecord (fun a b => a.number < b.number) :=
    ⟨fun a b c hab hbc => Nat.lt_trans hab hbc⟩
  exact List.isChain_iff_pairwise.mp hchain

/-- What stands below the last block of a chain. -/
theorem CanonicalChain.parent {b : BlockRecord} (h : CanonicalChain tree walked (blocks ++ [b])) :
    (∃ a, blocks.getLast? = some a ∧ tree.getBlock b.parentHash = some a
      ∧ b.number = a.number + 1)
    ∨ blocks = [] ∧ ∀ r, tree.getBlock b.parentHash = some r → r.number ≤ walked := by
  cases hlast : blocks.getLast? with
  | none =>
      obtain rfl := List.getLast?_eq_none_iff.mp hlast
      exact Or.inr ⟨rfl, fun r hr => h.bottom b r rfl hr⟩
  | some a =>
      obtain ⟨lower, rfl⟩ := List.getLast?_eq_some_iff.mp hlast
      have hab : b.parentHash = a.hash ∧ b.number = a.number + 1 := by
        have hlinked := h.linked
        rw [List.append_assoc] at hlinked
        exact (List.isChain_cons_cons.mp hlinked.right_of_append).1
      refine Or.inl ⟨a, rfl, ?_, hab.2⟩
      rw [hab.1]
      exact h.stored a (by simp)

theorem walkPath_of_le {floor : Int} {r : BlockRecord} (h : (r.number : Int) ≤ floor) (fuel : Nat) :
    walkPath tree floor fuel (some r) = [] := by
  cases fuel with
  | zero => rfl
  | succ fuel => rw [walkPath, if_neg (by omega)]

/-- **A walk from the top of a chain** meets its new blocks, from the top down. -/
theorem CanonicalChain.walkPath {b : BlockRecord} (h : CanonicalChain tree walked (blocks ++ [b]))
    {fuel : Nat} (hfuel : blocks.length < fuel) :
    walkPath tree walked fuel (some b) = (newBlocks walked (blocks ++ [b])).reverse := by
  induction blocks using List.reverseRecOn generalizing b fuel with
  | nil =>
      obtain ⟨fuel, rfl⟩ : ∃ n, fuel = n + 1 := ⟨fuel - 1, by omega⟩
      rw [Proof.walkPath, List.nil_append]
      by_cases hb : walked < b.number
      · rw [if_pos (by omega), newBlocks, List.filter_cons_of_pos (by simpa using hb)]
        -- below the lowest block, the walk leaves the tree or meets what was walked
        rcases h.parent with ⟨a, ha, -, -⟩ | ⟨-, hbottom⟩
        · exact absurd ha (by simp)
        · cases hp : tree.getBlock b.parentHash with
          | none => cases fuel <;> rfl
          | some r => rw [walkPath_of_le (by exact_mod_cast hbottom r hp)]; rfl
      · rw [if_neg (by omega), newBlocks, List.filter_cons_of_neg (by simpa using hb)]
        rfl
  | append_singleton blocks a ih =>
      obtain ⟨fuel, rfl⟩ : ∃ n, fuel = n + 1 := ⟨fuel - 1, by omega⟩
      rw [Proof.walkPath]
      by_cases hb : walked < b.number
      · rcases h.parent with ⟨a', ha', hp, -⟩ | ⟨hnil, -⟩
        · obtain rfl : a = a' := by simpa using ha'
          rw [List.length_append, List.length_singleton] at hfuel
          rw [if_pos (by omega), hp, ih h.init (by omega), newBlocks, newBlocks,
            List.filter_append (blocks ++ [a]), List.filter_cons_of_pos (by simpa using hb),
            List.filter_nil, List.reverse_append, List.reverse_singleton, List.singleton_append]
        · exact absurd hnil (by simp)
      · -- nothing below is new either
        rw [if_neg (by omega)]
        have hnone : newBlocks walked (blocks ++ [a] ++ [b]) = [] := by
          refine List.filter_eq_nil_iff.mpr fun c hc => ?_
          have hle : c.number ≤ b.number := by
            rcases List.mem_append.mp hc with hc | hc
            · exact Nat.le_of_lt ((List.pairwise_append.mp h.increasing).2.2 c hc b (by simp))
            · rw [List.mem_singleton.mp hc]
          simp only [decide_eq_true_eq]
          omega
        rw [hnone]
        rfl

/-- The stored blocks are fuel enough for a walk down the chain. -/
theorem CanonicalChain.length_le (h : CanonicalChain tree walked blocks) :
    blocks.length ≤ tree.blocksByHash.size := by
  have hnodup : (blocks.map BlockRecord.hash).Nodup := by
    rw [List.Nodup, List.pairwise_map]
    refine h.increasing.imp_of_mem ?_
    intro a b ha hb hlt heq
    have hab := h.stored a ha
    rw [heq, h.stored b hb] at hab
    rw [Option.some.inj hab] at hlt
    exact Nat.lt_irrefl _ hlt
  have hsub : blocks.map BlockRecord.hash ⊆ tree.blocksByHash.keys := by
    intro x hx
    obtain ⟨b, hb, rfl⟩ := List.mem_map.mp hx
    exact OrdMap.mem_keys_iff.mpr ⟨b, h.stored b hb⟩
  have hle := (List.subperm_of_subset hnodup hsub).length_le
  rw [List.length_map] at hle
  rw [OrdMap.size_eq_length_keys]
  exact hle

/-! ## A jump and its steps -/

/-- Every height of the chain is finalized, one after the other. -/
def stepwise (tree : BlockTree) (t : TxTracker) (blocks : List BlockRecord) : TxTracker :=
  blocks.foldl (fun t b => t.onHeightFinalized b.number b.hash tree) t

/-- **What a jump leaves.** -/
theorem latest_jump {t : TxTracker} {tip : BlockRecord}
    (hw : t.lastCanonicalWalkHeight = some walked)
    (h : CanonicalChain tree walked (blocks ++ [tip])) :
    (t.onHeightFinalized tip.number tip.hash tree).latestBySignerNonce
      = (newBlocks walked (blocks ++ [tip])).reverse.foldl (markInto t.blockExtrinsics)
          t.latestBySignerNonce := by
  rw [(finalized_spec t tip.number tip.hash tree).latestBySignerNonce]
  have hfuel := h.length_le
  rw [List.length_append, List.length_singleton] at hfuel
  unfold newlyFinal walkFloor
  rw [hw, h.stored tip (by simp)]
  dsimp only
  rw [h.walkPath (by omega)]

/-- A single step meets its own block, if that is new. -/
theorem newlyFinal_step {t : TxTracker} {b : BlockRecord}
    (h : CanonicalChain tree walked (blocks ++ [b]))
    (hw : t.lastCanonicalWalkHeight
      = some (max walked ((blocks.getLast?.map BlockRecord.number).getD 0))) :
    newlyFinal t b.number b.hash tree = if walked < b.number then [b] else [] := by
  have hfuel := h.length_le
  rw [List.length_append, List.length_singleton] at hfuel
  obtain ⟨fuel, hfuel⟩ : ∃ n, tree.blocksByHash.size = n + 1 :=
    ⟨tree.blocksByHash.size - 1, by omega⟩
  unfold newlyFinal walkFloor
  rw [hw, h.stored b (by simp), hfuel]
  dsimp only
  rw [walkPath]
  -- the block below has been covered by the step before, or by the walk so far
  rcases h.parent with ⟨a, ha, hp, hn⟩ | ⟨rfl, hbottom⟩
  · rw [ha, hp]
    simp only [Option.map_some, Option.getD_some]
    by_cases hb : walked < b.number
    · rw [if_pos (by omega), if_pos hb, walkPath_of_le (by omega)]
    · rw [if_neg (by omega), if_neg hb]
  · simp only [List.getLast?_nil, Option.map_none, Option.getD_none, Nat.max_zero]
    by_cases hb : walked < b.number
    · rw [if_pos (by omega), if_pos hb]
      cases hp : tree.getBlock b.parentHash with
      | none => cases fuel <;> rfl
      | some r => rw [walkPath_of_le (by exact_mod_cast hbottom r hp)]
    · rw [if_neg (by omega), if_neg hb]

/-- **What single steps leave**, and how far the walk has got. -/
theorem latest_stepwise {t : TxTracker} (hw : t.lastCanonicalWalkHeight = some walked)
    (h : CanonicalChain tree walked blocks) :
    (stepwise tree t blocks).latestBySignerNonce
        = (newBlocks walked blocks).foldl (markInto t.blockExtrinsics) t.latestBySignerNonce
      ∧ (stepwise tree t blocks).blockExtrinsics = t.blockExtrinsics
      ∧ (stepwise tree t blocks).lastCanonicalWalkHeight
        = some (max walked ((blocks.getLast?.map BlockRecord.number).getD 0)) := by
  induction blocks using List.reverseRecOn with
  | nil => exact ⟨rfl, rfl, by rw [stepwise, List.foldl_nil, hw]; simp⟩
  | append_singleton blocks b ih =>
      obtain ⟨hlatest, hbodies, hfloor⟩ := ih h.init
      have hspec := finalized_spec (stepwise tree t blocks) b.number b.hash tree
      have hstep : stepwise tree t (blocks ++ [b])
          = (stepwise tree t blocks).onHeightFinalized b.number b.hash tree := by
        unfold stepwise
        rw [List.foldl_append]
        rfl
      rw [hstep]
      refine ⟨?_, hspec.blockExtrinsics.trans hbodies, ?_⟩
      · rw [hspec.latestBySignerNonce, hlatest, hbodies, newlyFinal_step h hfloor, newBlocks,
          newBlocks, List.filter_append, List.foldl_append]
        by_cases hb : walked < b.number
        · rw [if_pos hb, List.filter_cons_of_pos (by simpa using hb)]
          rfl
        · rw [if_neg hb, List.filter_cons_of_neg (by simpa using hb)]
          rfl
      · rw [hspec.lastCanonicalWalkHeight, hfloor, List.getLast?_concat]
        rcases h.parent with ⟨a, ha, -, hn⟩ | ⟨rfl, -⟩
        · rw [ha]
          simp only [Option.map_some, Option.getD_some]
          congr 1
          omega
        · simp

/-! ## When they agree -/

/-- For every signer and nonce that is new, the inclusion in its highest new block is kept. -/
def KeepsHighest (t t' : TxTracker) (walked : Nat) (blocks : List BlockRecord) : Prop :=
  ∀ key b, b ∈ newBlocks walked blocks → Occurs t.blockExtrinsics key b →
    (∀ c ∈ newBlocks walked blocks, Occurs t.blockExtrinsics key c → c.number ≤ b.number) →
      t'.latestBySignerNonce.get? key = inclusionIn t.blockExtrinsics key b

/-- No signer and nonce occurs in two new blocks. -/
def OccursOnce (t : TxTracker) (walked : Nat) (blocks : List BlockRecord) : Prop :=
  ∀ key b c, b ∈ newBlocks walked blocks → c ∈ newBlocks walked blocks →
    Occurs t.blockExtrinsics key b → Occurs t.blockExtrinsics key c → b = c

theorem CanonicalChain.newBlocks_increasing (h : CanonicalChain tree walked blocks) :
    (newBlocks walked blocks).Pairwise fun a b => a.number < b.number :=
  h.increasing.sublist List.filter_sublist

/-- Different blocks of the chain write different inclusions. -/
theorem CanonicalChain.writes_ne (h : CanonicalChain tree walked blocks)
    (bodies : OrdMap Hash Captured) (key : Address × Nat) :
    (newBlocks walked blocks).Pairwise fun a b =>
      ∀ v, inclusionIn bodies key a = some v → inclusionIn bodies key b ≠ some v := by
  refine h.newBlocks_increasing.imp_of_mem ?_
  intro a b ha hb hlt v hva hvb
  have hhash : a.hash = b.hash :=
    (blockHash_of_inclusionIn hva).symm.trans (blockHash_of_inclusionIn hvb)
  have hstored := h.stored a (List.mem_of_mem_filter ha)
  rw [hhash, h.stored b (List.mem_of_mem_filter hb)] at hstored
  rw [Option.some.inj hstored] at hlt
  exact Nat.lt_irrefl _ hlt

/-- No key is written twice exactly if no signer and nonce occurs twice. -/
theorem occursOnce_iff {t : TxTracker} (h : CanonicalChain tree walked blocks) :
    OccursOnce t walked blocks ↔ ∀ key, (newBlocks walked blocks).Pairwise fun a b =>
      inclusionIn t.blockExtrinsics key a = none ∨ inclusionIn t.blockExtrinsics key b = none := by
  refine ⟨?_, ?_⟩
  · intro honce key
    refine h.newBlocks_increasing.imp_of_mem ?_
    intro a b ha hb hlt
    by_contra hor
    rw [not_or, inclusionIn_eq_none_iff, inclusionIn_eq_none_iff, not_not, not_not] at hor
    have heq := honce key a b ha hb hor.1 hor.2
    rw [heq] at hlt
    exact Nat.lt_irrefl _ hlt
  · intro hpair key b c hb hc hoccb hoccc
    -- in whichever order the two stand
    by_contra hne
    have hsymm : Std.Symm fun a b => inclusionIn t.blockExtrinsics key a = none ∨
        inclusionIn t.blockExtrinsics key b = none := ⟨fun _ _ h => h.symm⟩
    rcases (hpair key).forall hb hc hne with hnone | hnone
    · exact inclusionIn_eq_none_iff.mp hnone hoccb
    · exact inclusionIn_eq_none_iff.mp hnone hoccc

/-- The inclusion a jump leaves for a key: that of the first new block that has it. -/
theorem get?_jump {t : TxTracker} {tip : BlockRecord}
    (hw : t.lastCanonicalWalkHeight = some walked)
    (h : CanonicalChain tree walked (blocks ++ [tip])) (key : Address × Nat) :
    (t.onHeightFinalized tip.number tip.hash tree).latestBySignerNonce.get? key
      = ((newBlocks walked (blocks ++ [tip])).findSome? (inclusionIn t.blockExtrinsics key)).or
          (t.latestBySignerNonce.get? key) := by
  have hread := read_foldl (fun m : OrdMap (Address × Nat) Inclusion => m.get? key)
    (get?_markInto t.blockExtrinsics key) (newBlocks walked (blocks ++ [tip])).reverse
    t.latestBySignerNonce
  rw [List.reverse_reverse] at hread
  rw [latest_jump hw h]
  exact hread

/-- The inclusion single steps leave: that of the last one. -/
theorem get?_stepwise {t : TxTracker} (hw : t.lastCanonicalWalkHeight = some walked)
    (h : CanonicalChain tree walked blocks) (key : Address × Nat) :
    (stepwise tree t blocks).latestBySignerNonce.get? key
      = ((newBlocks walked blocks).reverse.findSome? (inclusionIn t.blockExtrinsics key)).or
          (t.latestBySignerNonce.get? key) := by
  rw [(latest_stepwise hw h).1]
  exact read_foldl (fun m : OrdMap (Address × Nat) Inclusion => m.get? key)
    (get?_markInto t.blockExtrinsics key) _ _

/-- **Single steps keep the highest inclusion**, whatever occurs how often. -/
theorem keepsHighest_stepwise {t : TxTracker} (hw : t.lastCanonicalWalkHeight = some walked)
    (h : CanonicalChain tree walked blocks) :
    KeepsHighest t (stepwise tree t blocks) walked blocks := by
  intro key b hb hocc hhighest
  rw [get?_stepwise hw h]
  cases hfind : (newBlocks walked blocks).reverse.findSome? (inclusionIn t.blockExtrinsics key) with
  | none =>
      have hnone := List.findSome?_eq_none_iff.mp hfind b (List.mem_reverse.mpr hb)
      exact absurd hocc (inclusionIn_eq_none_iff.mp hnone)
  | some v =>
      obtain ⟨above, c, below, hsplit, hc, habove⟩ := List.findSome?_eq_some_iff.mp hfind
      have hdown : (above ++ c :: below).Pairwise fun a b => b.number < a.number := by
        rw [← hsplit]
        exact List.pairwise_reverse.mpr h.newBlocks_increasing
      have hmem : ∀ x, x ∈ above ++ c :: below → x ∈ newBlocks walked blocks := by
        intro x hx
        rw [← hsplit] at hx
        exact List.mem_reverse.mp hx
      have hbmem : b ∈ above ++ c :: below := by
        rw [← hsplit]
        exact List.mem_reverse.mpr hb
      have hcocc : Occurs t.blockExtrinsics key c := by
        by_contra hno
        rw [inclusionIn_eq_none_iff.mpr hno] at hc
        exact absurd hc (by simp)
      -- a block above the one found does not have the key, one below it is not the highest
      rcases List.mem_append.mp hbmem with hba | hbc
      · exact absurd hocc (inclusionIn_eq_none_iff.mp (habove b hba))
      · rcases List.mem_cons.mp hbc with rfl | hbb
        · rw [hc]
          rfl
        · have hlt := List.rel_of_pairwise_cons (List.pairwise_append.mp hdown).2.1 hbb
          have hle := hhighest c (hmem c (by simp)) hcocc
          omega

/--
**When a finality jump leaves the same inclusions as single steps.**

For every contiguous chain in the tree, whatever its bodies contain, and every state
whose walk height is set: finalizing the tip in one jump leaves the same inclusions
as finalizing every height one after the other, the one with the highest block
number for each signer and nonce, if and only if no signer and nonce occurs in two
of the new blocks.
-/
theorem batchFree_iff (tree : BlockTree) (t : TxTracker) (walked : Nat)
    (blocks : List BlockRecord) (tip : BlockRecord)
    (hw : t.lastCanonicalWalkHeight = some walked)
    (h : CanonicalChain tree walked (blocks ++ [tip])) :
    ((∀ key, (t.onHeightFinalized tip.number tip.hash tree).latestBySignerNonce.get? key
        = (stepwise tree t (blocks ++ [tip])).latestBySignerNonce.get? key)
      ∧ KeepsHighest t (t.onHeightFinalized tip.number tip.hash tree) walked (blocks ++ [tip]))
    ↔ OccursOnce t walked (blocks ++ [tip]) := by
  have hagree : ∀ key,
      ((t.onHeightFinalized tip.number tip.hash tree).latestBySignerNonce.get? key
        = (stepwise tree t (blocks ++ [tip])).latestBySignerNonce.get? key)
      ↔ (newBlocks walked (blocks ++ [tip])).Pairwise fun a b =>
        inclusionIn t.blockExtrinsics key a = none ∨ inclusionIn t.blockExtrinsics key b = none := by
    intro key
    rw [get?_jump hw h, get?_stepwise hw h, ← findSome?_reverse_eq_iff (h.writes_ne _ key)]
    refine ⟨?_, fun heq => by rw [heq]⟩
    intro heq
    -- either both passes find a writer, or neither does
    cases hfirst : (newBlocks walked (blocks ++ [tip])).findSome?
        (inclusionIn t.blockExtrinsics key) with
    | none =>
        rw [List.findSome?_eq_none_iff] at hfirst
        refine (List.findSome?_eq_none_iff.mpr fun b hb => ?_).symm
        exact hfirst b (List.mem_reverse.mp hb)
    | some v =>
        cases hlast : (newBlocks walked (blocks ++ [tip])).reverse.findSome?
            (inclusionIn t.blockExtrinsics key) with
        | none =>
            obtain ⟨b, hb, hv⟩ := List.exists_of_findSome?_eq_some hfirst
            rw [List.findSome?_eq_none_iff] at hlast
            rw [hlast b (List.mem_reverse.mpr hb)] at hv
            exact absurd hv (by simp)
        | some v' =>
            rw [hfirst, hlast, Option.some_or, Option.some_or] at heq
            exact heq
  rw [occursOnce_iff h]
  refine ⟨fun hall key => (hagree key).mp (hall.1 key), ?_⟩
  intro honce
  have hsame := fun key => (hagree key).mpr (honce key)
  refine ⟨hsame, ?_⟩
  intro key b hb hocc hhighest
  rw [hsame key]
  exact keepsHighest_stepwise hw h key b hb hocc hhighest

/-- Two blocks on top of a third that has been walked already. -/
def blockTwo : BlockRecord := BlockTree.newRecord "b2" 2 "b1" none none none "alice" {}

def blockThree : BlockRecord := BlockTree.newRecord "b3" 3 "b2" none none none "alice" {}

def twoNew : BlockTree :=
  ((BlockTree.init.insertRecord (BlockTree.newRecord "b1" 1 "b0" none none none "alice" {})).insertRecord
    blockTwo).insertRecord blockThree

theorem canonicalChain_twoNew : CanonicalChain twoNew 1 [blockTwo, blockThree] where
  stored := by
    intro b hb
    rcases List.mem_cons.mp hb with rfl | hb
    · rfl
    · rw [List.mem_singleton.mp hb]
      rfl
  linked := List.isChain_pair.mpr ⟨rfl, rfl⟩
  bottom := by
    intro b r hb hr
    obtain rfl : blockTwo = b := Option.some.inj hb
    rw [← Option.some.inj hr]
    exact Nat.le_refl 1

/-- An extrinsic of Alice with this nonce. -/
def ofAlice (nonce : Nat) (hash : Hash) : Tx where
  kind := .substrate
  signer := some "5Alice"
  nonce := some nonce
  hash := hash
  pallet := "balances"
  method := "transfer"
  era := none
  raw := "0x00"

/-- Alice has an extrinsic in each of the two blocks. -/
def aliceTwice (nonceTwo nonceThree : Nat) : TxTracker where
  lastCanonicalWalkHeight := some 1
  blockExtrinsics := OrdMap.ofList
    [("b2", { number := 2, extrinsics := [ofAlice nonceTwo "t2"] }),
      ("b3", { number := 3, extrinsics := [ofAlice nonceThree "t3"] })]

theorem occurs_aliceTwice {m n : Nat} {key : Address × Nat} {b : BlockRecord}
    (h : Occurs (aliceTwice m n).blockExtrinsics key b) :
    b.hash = "b2" ∧ m = key.2 ∨ b.hash = "b3" ∧ n = key.2 := by
  obtain ⟨captured, hget, tx, htx, -, hk⟩ := h
  have hmem := OrdMap.mem_of_get?_ofList hget
  simp only [List.mem_cons, Prod.mk.injEq, List.not_mem_nil, or_false] at hmem
  rcases hmem with ⟨hhash, rfl⟩ | ⟨hhash, rfl⟩
  · rw [List.mem_singleton.mp htx] at hk
    exact Or.inl ⟨hhash, Option.some.inj hk⟩
  · rw [List.mem_singleton.mp htx] at hk
    exact Or.inr ⟨hhash, Option.some.inj hk⟩

/-- With two nonces, the jump leaves what single steps leave. -/
theorem batchFree_twoNonces :
    (∀ key, ((aliceTwice 4 5).onHeightFinalized 3 "b3" twoNew).latestBySignerNonce.get? key
        = (stepwise twoNew (aliceTwice 4 5) [blockTwo, blockThree]).latestBySignerNonce.get? key)
      ∧ KeepsHighest (aliceTwice 4 5) ((aliceTwice 4 5).onHeightFinalized 3 "b3" twoNew) 1
          [blockTwo, blockThree] := by
  refine (batchFree_iff twoNew (aliceTwice 4 5) 1 [blockTwo] blockThree rfl
    canonicalChain_twoNew).mpr ?_
  intro key b c hb hc hoccb hoccc
  have hmem : ∀ x, x ∈ newBlocks 1 ([blockTwo] ++ [blockThree]) → x = blockTwo ∨ x = blockThree := by
    intro x hx
    simpa using List.mem_of_mem_filter hx
  -- one nonce is not in both blocks
  rcases hmem b hb with rfl | rfl <;> rcases hmem c hc with rfl | rfl
  · rfl
  · rcases occurs_aliceTwice hoccb with ⟨-, h⟩ | ⟨h, -⟩
    · rcases occurs_aliceTwice hoccc with ⟨h', -⟩ | ⟨-, h'⟩
      · exact absurd h' (by decide)
      · omega
    · exact absurd h (by decide)
  · rcases occurs_aliceTwice hoccc with ⟨-, h⟩ | ⟨h, -⟩
    · rcases occurs_aliceTwice hoccb with ⟨h', -⟩ | ⟨-, h'⟩
      · exact absurd h' (by decide)
      · omega
    · exact absurd h (by decide)
  · rfl

/-- With the same nonce in both blocks, the jump leaves the lower inclusion. -/
theorem not_batchFree_sameNonce :
    CanonicalChain twoNew 1 [blockTwo, blockThree]
    ∧ (∀ b ∈ [blockTwo, blockThree], ∃ captured,
        (aliceTwice 0 0).blockExtrinsics.get? b.hash = some captured)
    ∧ (((aliceTwice 0 0).onHeightFinalized 3 "b3" twoNew).latestBySignerNonce.get?
        ("5Alice", 0)).map Inclusion.hash = some "t2"
    ∧ ((stepwise twoNew (aliceTwice 0 0) [blockTwo, blockThree]).latestBySignerNonce.get?
        ("5Alice", 0)).map Inclusion.hash = some "t3"
    ∧ ¬ ∀ key, ((aliceTwice 0 0).onHeightFinalized 3 "b3" twoNew).latestBySignerNonce.get? key
        = (stepwise twoNew (aliceTwice 0 0) [blockTwo, blockThree]).latestBySignerNonce.get? key := by
  have hjump : (((aliceTwice 0 0).onHeightFinalized 3 "b3" twoNew).latestBySignerNonce.get?
      ("5Alice", 0)).map Inclusion.hash = some "t2" := rfl
  have hsteps : ((stepwise twoNew (aliceTwice 0 0) [blockTwo, blockThree]).latestBySignerNonce.get?
      ("5Alice", 0)).map Inclusion.hash = some "t3" := rfl
  refine ⟨canonicalChain_twoNew, ?_, hjump, hsteps, ?_⟩
  · intro b hb
    rcases List.mem_cons.mp hb with rfl | hb
    · exact ⟨_, rfl⟩
    · rw [List.mem_singleton.mp hb]
      exact ⟨_, rfl⟩
  · intro h
    rw [h ("5Alice", 0), hsteps] at hjump
    exact absurd hjump (by decide)

end ForkWatch.Proof
