import ForkWatch.Monitor.Causation

/-!
# When is "the relay chain forked" the right verdict?

The documented meaning of a relay fork is about a *pair* of competing blocks:
same relay number, different relay hashes. The decision is taken from *sets*
instead: all known numbers agree, and more than one hash is known. The two are
the same as long as every known hash comes with a number and only one number is
around. They part in two ways, and only in these two:

* `MixedNumbers` — a genuine pair, hidden by a third block at another relay
  number;
* `UnnumberedHash` — two hashes, but no pair of them at one known number, since
  all but one come without a number.

The sets are taken over all blocks at once, so the order of the blocks never
matters; that half of the specification holds unconditionally.
-/

namespace ForkWatch.Proof

open Lib

/-- Some relay parent is known to have this number. -/
def NumberKnown (rps : List (Option RelayParent)) (n : Nat) : Prop :=
  ∃ p, some p ∈ rps ∧ p.number = some n

/-- Some relay parent is known to have this hash. -/
def HashKnown (rps : List (Option RelayParent)) (x : Hash) : Prop :=
  ∃ p, some p ∈ rps ∧ p.hash = some x

/-- Some relay parent is known to have both. -/
def BothKnown (rps : List (Option RelayParent)) (n : Nat) (x : Hash) : Prop :=
  ∃ p, some p ∈ rps ∧ p.number = some n ∧ p.hash = some x

/-- Two competing blocks have relay parents with this number and with different hashes. -/
def RelayForkedAt (rps : List (Option RelayParent)) (n : Nat) : Prop :=
  ∃ x y, BothKnown rps n x ∧ BothKnown rps n y ∧ x ≠ y

/-- The verdict on these blocks says exactly what the relay parents say about pairs. -/
structure RelayExact (blocks : List BlockRecord) (rps : List (Option RelayParent)) : Prop where
  /-- The relay chain is blamed exactly for a pair, and the height recorded is that of a pair. -/
  verdict : ∃ v, determineCause blocks rps = some v ∧
    (v.cause.blamesRelayChain = true ↔ ∃ n, RelayForkedAt rps n) ∧
    ((∃ n, RelayForkedAt rps n) → ∃ n, v.relayHeight = some n ∧ RelayForkedAt rps n)
  /-- The order of the competing blocks does not matter. -/
  order : ∀ l : List (BlockRecord × Option RelayParent), l.Perm (blocks.zip rps) →
    (determineCause (l.map Prod.fst) (l.map Prod.snd)).map
        (fun v => (v.cause, v.relayHeight, v.sameAuthor))
      = (determineCause blocks rps).map (fun v => (v.cause, v.relayHeight, v.sameAuthor))

/-- A pair forked at one relay number, next to a block at another relay number. -/
def MixedNumbers (rps : List (Option RelayParent)) : Prop :=
  (∃ n, RelayForkedAt rps n) ∧ ∃ n m, NumberKnown rps n ∧ NumberKnown rps m ∧ n ≠ m

/-- Two relay hashes, at most one known number, and no two hashes that come with it. -/
def UnnumberedHash (rps : List (Option RelayParent)) : Prop :=
  (∀ n m, NumberKnown rps n → NumberKnown rps m → n = m) ∧
  (∃ x y, HashKnown rps x ∧ HashKnown rps y ∧ x ≠ y) ∧
  ∀ n m x y, BothKnown rps n x → BothKnown rps m y → x = y

/-! ## Sizes of sets -/

theorem distinct_le_one_iff {α : Type} [DecidableEq α] {xs : List α} :
    distinct xs ≤ 1 ↔ ∀ x ∈ xs, ∀ y ∈ xs, x = y := by
  rw [distinct, ← List.card_toFinset, Finset.card_le_one]
  simp

theorem distinct_perm {α : Type} [DecidableEq α] {xs ys : List α} (h : xs.Perm ys) :
    distinct xs = distinct ys := h.dedup.length_eq

/-- The first element of a list does not depend on its order when all elements are equal. -/
theorem head?_eq_of_perm {α : Type} {xs ys : List α} (h : xs.Perm ys)
    (hs : ∀ x ∈ xs, ∀ y ∈ xs, x = y) : xs.head? = ys.head? := by
  cases xs with
  | nil => rw [List.nil_perm.mp h]
  | cons x xs =>
      cases ys with
      | nil => exact absurd (List.perm_nil.mp h) (by simp)
      | cons y ys =>
          have hy : y ∈ x :: xs := h.mem_iff.mpr (by simp)
          rw [List.head?_cons, List.head?_cons, hs x (by simp) y hy]

/-! ## What the two sets contain -/

/-- The known relay numbers, block by block. -/
def relayNumbers (rps : List (Option RelayParent)) : List Nat :=
  (rps.filterMap id).filterMap RelayParent.number

/-- The known relay hashes, block by block. -/
def relayHashes (rps : List (Option RelayParent)) : List Hash :=
  (rps.filterMap id).filterMap RelayParent.hash

theorem mem_relayNumbers {rps : List (Option RelayParent)} {n : Nat} :
    n ∈ relayNumbers rps ↔ NumberKnown rps n := by
  simp [relayNumbers, NumberKnown]

theorem mem_relayHashes {rps : List (Option RelayParent)} {x : Hash} :
    x ∈ relayHashes rps ↔ HashKnown rps x := by
  simp [relayHashes, HashKnown]

/-- The cause, from what the competing blocks have in common. -/
def causeOf (sameAuthor sameParent sameRelayNumber sameRelayHash : Bool) : Cause :=
  if sameRelayNumber && !sameRelayHash then
    if sameAuthor then .relayForkSameAuthor else .relayFork
  else if sameAuthor then
    if !sameRelayNumber then .doubleProductionTiming
    else if !sameParent then .doubleProductionReorg
    else .doubleProduction
  else .collatorContention

/-- The verdict in closed form. -/
theorem determineCause_eq {rps : List (Option RelayParent)} (h : 2 ≤ (rps.filterMap id).length)
    (blocks : List BlockRecord) :
    determineCause blocks rps = some
      { authors := blocks.map BlockRecord.authorLabel
        cause := causeOf (distinct (blocks.map BlockRecord.authorLabel) = 1)
          (distinct (blocks.map BlockRecord.parentHash) = 1)
          (distinct (relayNumbers rps) ≤ 1) (distinct (relayHashes rps) ≤ 1)
        relayHeight :=
          if decide (distinct (relayNumbers rps) ≤ 1) && !decide (distinct (relayHashes rps) ≤ 1)
          then (relayNumbers rps).head? else none
        sameAuthor := distinct (blocks.map BlockRecord.authorLabel) = 1
        sameRelayNumber := distinct (relayNumbers rps) ≤ 1
        sameRelayHash := distinct (relayHashes rps) ≤ 1
        sameParent := distinct (blocks.map BlockRecord.parentHash) = 1 } := by
  unfold determineCause causeOf
  rw [if_neg (by omega)]
  unfold relayNumbers relayHashes
  dsimp only
  generalize decide (distinct (blocks.map BlockRecord.authorLabel) = 1) = sameAuthor
  generalize decide (distinct (blocks.map BlockRecord.parentHash) = 1) = sameParent
  generalize decide (distinct ((rps.filterMap id).filterMap RelayParent.number) ≤ 1) = sameNumber
  generalize decide (distinct ((rps.filterMap id).filterMap RelayParent.hash) ≤ 1) = sameHash
  cases sameAuthor <;> cases sameParent <;> cases sameNumber <;> cases sameHash <;> rfl

theorem blamesRelayChain_causeOf (sameAuthor sameParent sameRelayNumber sameRelayHash : Bool) :
    (causeOf sameAuthor sameParent sameRelayNumber sameRelayHash).blamesRelayChain
      = (sameRelayNumber && !sameRelayHash) := by
  cases sameAuthor <;> cases sameParent <;> cases sameRelayNumber <;> cases sameRelayHash <;> rfl

/-- What `determineCause` decides about the relay chain, in terms of the two sets. -/
theorem determineCause_spec {rps : List (Option RelayParent)}
    (h : 2 ≤ (rps.filterMap id).length) (blocks : List BlockRecord) :
    ∃ v, determineCause blocks rps = some v ∧
      (v.cause.blamesRelayChain = true
        ↔ distinct (relayNumbers rps) ≤ 1 ∧ ¬ distinct (relayHashes rps) ≤ 1) ∧
      (v.cause.blamesRelayChain = true → v.relayHeight = (relayNumbers rps).head?) := by
  refine ⟨_, determineCause_eq h blocks, ?_, ?_⟩
  · rw [blamesRelayChain_causeOf]
    simp
  · intro hb
    rw [blamesRelayChain_causeOf] at hb
    exact if_pos hb

/-- Reordering the competing blocks changes nothing but the order of what is listed. -/
theorem determineCause_perm {l l' : List (BlockRecord × Option RelayParent)} (h : l.Perm l')
    (hvalid : 2 ≤ ((l'.map Prod.snd).filterMap id).length) :
    (determineCause (l.map Prod.fst) (l.map Prod.snd)).map
        (fun v => (v.cause, v.relayHeight, v.sameAuthor))
      = (determineCause (l'.map Prod.fst) (l'.map Prod.snd)).map
        (fun v => (v.cause, v.relayHeight, v.sameAuthor)) := by
  have hlen := ((h.map Prod.snd).filterMap id).length_eq
  have hauthors := distinct_perm ((h.map Prod.fst).map BlockRecord.authorLabel)
  have hparents := distinct_perm ((h.map Prod.fst).map BlockRecord.parentHash)
  have hnumbers : (relayNumbers (l.map Prod.snd)).Perm (relayNumbers (l'.map Prod.snd)) :=
    ((h.map Prod.snd).filterMap id).filterMap _
  have hhashes : (relayHashes (l.map Prod.snd)).Perm (relayHashes (l'.map Prod.snd)) :=
    ((h.map Prod.snd).filterMap id).filterMap _
  have hn := distinct_perm hnumbers
  rw [determineCause_eq (by omega), determineCause_eq hvalid, hauthors, hparents, hn,
    distinct_perm hhashes]
  by_cases hone : distinct (relayNumbers (l'.map Prod.snd)) ≤ 1
  · -- all known numbers agree, so the first one does not depend on the order
    rw [head?_eq_of_perm hnumbers (distinct_le_one_iff.mp (by rw [hn]; exact hone))]
    rfl
  · simp [hone]

/-! ## The pair reading and the set reading -/

theorem BothKnown.number {rps : List (Option RelayParent)} {n : Nat} {x : Hash}
    (h : BothKnown rps n x) : NumberKnown rps n := by
  obtain ⟨p, hp, hn, -⟩ := h
  exact ⟨p, hp, hn⟩

theorem BothKnown.hash {rps : List (Option RelayParent)} {n : Nat} {x : Hash}
    (h : BothKnown rps n x) : HashKnown rps x := by
  obtain ⟨p, hp, -, hx⟩ := h
  exact ⟨p, hp, hx⟩

theorem numbers_agree_iff {rps : List (Option RelayParent)} :
    distinct (relayNumbers rps) ≤ 1 ↔ ∀ n m, NumberKnown rps n → NumberKnown rps m → n = m := by
  rw [distinct_le_one_iff]
  simp only [mem_relayNumbers]
  exact ⟨fun h n m hn hm => h n hn m hm, fun h n hn m hm => h n m hn hm⟩

theorem hashes_differ_iff {rps : List (Option RelayParent)} :
    ¬ distinct (relayHashes rps) ≤ 1 ↔ ∃ x y, HashKnown rps x ∧ HashKnown rps y ∧ x ≠ y := by
  rw [distinct_le_one_iff]
  simp only [mem_relayHashes]
  push Not
  refine ⟨?_, ?_⟩
  · rintro ⟨x, hx, y, hy, hne⟩; exact ⟨x, y, hx, hy, hne⟩
  · rintro ⟨x, y, hx, hy, hne⟩; exact ⟨x, hx, y, hy, hne⟩

/-- A forked pair is a pair of different hashes. -/
theorem RelayForkedAt.hashes {rps : List (Option RelayParent)} {n : Nat}
    (h : RelayForkedAt rps n) : ∃ x y, HashKnown rps x ∧ HashKnown rps y ∧ x ≠ y := by
  obtain ⟨x, y, hx, hy, hne⟩ := h
  exact ⟨x, y, hx.hash, hy.hash, hne⟩

/-- **The two readings agree exactly outside the two kinds.** -/
theorem sets_iff_pair {rps : List (Option RelayParent)} :
    (((∀ n m, NumberKnown rps n → NumberKnown rps m → n = m) ∧
        ∃ x y, HashKnown rps x ∧ HashKnown rps y ∧ x ≠ y) ↔ ∃ n, RelayForkedAt rps n)
      ↔ ¬ MixedNumbers rps ∧ ¬ UnnumberedHash rps := by
  refine ⟨?_, ?_⟩
  · intro h
    refine ⟨?_, ?_⟩
    · intro hall
      obtain ⟨hfork, n, m, hn, hm, hne⟩ := hall
      exact hne ((h.mpr hfork).1 n m hn hm)
    · intro hall
      obtain ⟨hnum, hhash, hone⟩ := hall
      obtain ⟨n, x, y, hx, hy, hne⟩ := h.mp ⟨hnum, hhash⟩
      exact hne (hone n n x y hx hy)
  · intro hboth
    obtain ⟨hmixed, hloose⟩ := hboth
    refine ⟨?_, ?_⟩
    · intro hboth
      obtain ⟨hnum, hhash⟩ := hboth
      have : ¬ ∀ n m x y, BothKnown rps n x → BothKnown rps m y → x = y :=
        fun hone => hloose ⟨hnum, hhash, hone⟩
      push Not at this
      obtain ⟨n, m, x, y, hx, hy, hne⟩ := this
      obtain rfl := hnum n m hx.number hy.number
      exact ⟨n, x, y, hx, hy, hne⟩
    · intro hex
      obtain ⟨n, hfork⟩ := hex
      refine ⟨fun a b ha hb => ?_, hfork.hashes⟩
      by_contra hne
      exact hmixed ⟨⟨n, hfork⟩, a, b, ha, hb, hne⟩

/-- Once all numbers agree, the height recorded is the one at which a pair forked. -/
theorem head?_of_relayForkedAt {rps : List (Option RelayParent)} {n : Nat}
    (hnum : ∀ n m, NumberKnown rps n → NumberKnown rps m → n = m) (h : RelayForkedAt rps n) :
    (relayNumbers rps).head? = some n := by
  obtain ⟨x, -, hx, -, -⟩ := h
  have hmem : n ∈ relayNumbers rps := mem_relayNumbers.mpr hx.number
  cases hl : relayNumbers rps with
  | nil => rw [hl] at hmem; exact absurd hmem (by simp)
  | cons m ms =>
      have hm : NumberKnown rps m := mem_relayNumbers.mp (by rw [hl]; simp)
      rw [List.head?_cons, hnum m n hm hx.number]

/--
**Exactly when the relay-fork verdict is right.**

For competing blocks of which at least two have a relay parent, the verdict
says "relay fork" exactly for a forked pair, with the height of a forked pair,
and independently of the order of the blocks — unless a third relay number
hides the pair, or a hash without a number mimics one.
-/
theorem relayExact_iff (blocks : List BlockRecord) (rps : List (Option RelayParent))
    (haligned : rps.length = blocks.length) (hvalid : 2 ≤ (rps.filterMap id).length) :
    RelayExact blocks rps ↔ ¬ MixedNumbers rps ∧ ¬ UnnumberedHash rps := by
  obtain ⟨v, hv, hblames, hheight⟩ := determineCause_spec hvalid blocks
  rw [numbers_agree_iff, hashes_differ_iff] at hblames
  rw [← sets_iff_pair]
  refine ⟨?_, ?_⟩
  · intro h
    obtain ⟨v', hv', hiff, -⟩ := h.verdict
    rw [hv] at hv'
    obtain rfl := Option.some.inj hv'
    rw [← hblames, hiff]
  · intro h
    refine ⟨⟨v, hv, by rw [hblames, h], ?_⟩, ?_⟩
    · intro hex
      obtain ⟨n, hfork⟩ := hex
      have hsets := h.mpr ⟨n, hfork⟩
      refine ⟨n, ?_, hfork⟩
      rw [hheight (hblames.mpr hsets), head?_of_relayForkedAt hsets.1 hfork]
    · intro l hl
      have hfst : (blocks.zip rps).map Prod.fst = blocks := List.map_fst_zip (by omega)
      have hsnd : (blocks.zip rps).map Prod.snd = rps := List.map_snd_zip (by omega)
      rw [determineCause_perm hl (by rw [hsnd]; exact hvalid), hfst, hsnd]

/-- Two blocks on the two sides of a relay fork are told as such. -/
theorem relayExact_pair :
    RelayExact
      [BlockTree.newRecord "a" 7 "p" (some "alice") none none "node" {},
        BlockTree.newRecord "b" 7 "p" (some "bob") none none "node" {}]
      [some ⟨some "r", some 100⟩, some ⟨some "s", some 100⟩] := by
  refine (relayExact_iff _ _ (by decide) (by decide)).mpr ⟨?_, ?_⟩
  · intro hall
    obtain ⟨-, n, m, ⟨p, hp, hn⟩, ⟨q, hq, hm⟩, hne⟩ := hall
    simp only [List.mem_cons, Option.some.injEq, List.not_mem_nil, or_false] at hp hq
    rcases hp with rfl | rfl <;> rcases hq with rfl | rfl <;>
      exact hne ((Option.some.inj hn).symm.trans (Option.some.inj hm))
  · intro hall
    obtain ⟨-, -, hone⟩ := hall
    exact absurd (hone 100 100 "r" "s" ⟨⟨some "r", some 100⟩, by simp, rfl, rfl⟩
      ⟨⟨some "s", some 100⟩, by simp, rfl, rfl⟩) (by decide)

/-- A third block, built one relay block later, turns a relay fork into contention. -/
theorem not_always_relayExact :
    ¬ ∀ (blocks : List BlockRecord) (rps : List (Option RelayParent)), 2 ≤ blocks.length →
      rps.length = blocks.length → 2 ≤ (rps.filterMap id).length → RelayExact blocks rps := by
  intro h
  obtain ⟨v, hv, hiff, -⟩ := (h
    [BlockTree.newRecord "a" 7 "p" (some "alice") none none "node" {},
      BlockTree.newRecord "b" 7 "p" (some "bob") none none "node" {},
      BlockTree.newRecord "c" 7 "p" (some "carol") none none "node" {}]
    [some ⟨some "r", some 100⟩, some ⟨some "s", some 100⟩, some ⟨some "t", some 101⟩]
    (by decide) (by decide) (by decide)).verdict
  have hfork : RelayForkedAt
      [some ⟨some "r", some 100⟩, some ⟨some "s", some 100⟩, some ⟨some "t", some 101⟩] 100 :=
    ⟨"r", "s", ⟨⟨some "r", some 100⟩, by simp, rfl, rfl⟩,
      ⟨⟨some "s", some 100⟩, by simp, rfl, rfl⟩, by decide⟩
  have hblames := hiff.mpr ⟨100, hfork⟩
  have hcause : some Cause.collatorContention = some v.cause :=
    Eq.trans (by decide) (congrArg (Option.map CauseVerdict.cause) hv)
  rw [← Option.some.inj hcause] at hblames
  exact absurd hblames (by decide)

end ForkWatch.Proof
