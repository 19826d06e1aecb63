import Mathlib

/-!
# Lineages: things with a number and a parent

A lineage assigns to every name a number and a parent whose number is one
smaller, down to number zero. Following parents from `x` meets exactly one name
at every number below that of `x`, which makes "the ancestor of `x` at `h`" a
function, and being an ancestor a matter of comparing with it.

The second half is about *partial* knowledge of a lineage: a store that holds
some names only. What a walk along parent links can find in such a store is
decided by one property, `HeldDownTo`.
-/

namespace Lib

/-- Numbers and parents of names; the parent's number is one smaller, as far as it goes. -/
structure Lineage (α : Type) where
  /-- The number of a name. -/
  number : α → Nat
  /-- The parent of a name. -/
  parent : α → α
  /-- Numbers decrease by exactly one along parents, and stop at zero. -/
  number_parent : ∀ x, number (parent x) = number x - 1

namespace Lineage

variable {α : Type} (L : Lineage α)

/-- The ancestor of `x` (or `x` itself) with number `h`; meaningful for `h ≤ number x`. -/
def ancestorAt (x : α) (h : Nat) : α := L.parent^[L.number x - h] x

/-- `a` is `x` itself or one of its ancestors. -/
def IsAncestor (a x : α) : Prop := L.number a ≤ L.number x ∧ L.ancestorAt x (L.number a) = a

instance [DecidableEq α] (a x : α) : Decidable (L.IsAncestor a x) :=
  inferInstanceAs (Decidable (_ ∧ _))

variable {L}

theorem number_iterate_parent {x : α} {k : Nat} (h : k ≤ L.number x) :
    L.number (L.parent^[k] x) = L.number x - k := by
  induction k generalizing x with
  | zero => rfl
  | succ k ih =>
      have hp := L.number_parent x
      rw [Function.iterate_succ_apply, ih (by omega)]
      omega

theorem number_ancestorAt {x : α} {h : Nat} (hx : h ≤ L.number x) :
    L.number (L.ancestorAt x h) = h := by
  rw [ancestorAt, number_iterate_parent (by omega)]
  omega

@[simp] theorem ancestorAt_self (x : α) : L.ancestorAt x (L.number x) = x := by
  simp [ancestorAt]

/-- Below `x` itself, the ancestors of `x` are those of its parent. -/
theorem ancestorAt_parent {x : α} {h : Nat} (hx : h < L.number x) :
    L.ancestorAt x h = L.ancestorAt (L.parent x) h := by
  have hp := L.number_parent x
  rw [ancestorAt, ancestorAt, show L.number x - h = (L.number (L.parent x) - h) + 1 by omega,
    Function.iterate_succ_apply]

theorem isAncestor_refl (x : α) : L.IsAncestor x x := ⟨Nat.le_refl _, ancestorAt_self x⟩

theorem isAncestor_parent_iff {a x : α} (h : L.number a < L.number x) :
    L.IsAncestor a x ↔ L.IsAncestor a (L.parent x) := by
  have hp := L.number_parent x
  rw [IsAncestor, IsAncestor, ancestorAt_parent h]
  refine ⟨?_, ?_⟩
  · rintro ⟨-, h2⟩; exact ⟨by omega, h2⟩
  · rintro ⟨-, h2⟩; exact ⟨by omega, h2⟩

/-- Two ancestors of `x` with one number are the same. -/
theorem isAncestor_unique {a b x : α} (ha : L.IsAncestor a x) (hb : L.IsAncestor b x)
    (h : L.number a = L.number b) : a = b := by
  rw [← ha.2, ← hb.2, h]

/-! ## Stores that hold part of a lineage -/

/-- The store holds every name from `x` down to number `h`. -/
def HeldDownTo (L : Lineage α) (held : α → Prop) (x : α) (h : Nat) : Prop :=
  ∀ k, h ≤ k → k ≤ L.number x → held (L.ancestorAt x k)

theorem HeldDownTo.self {held : α → Prop} {x : α} {h : Nat} (hh : L.HeldDownTo held x h)
    (hx : h ≤ L.number x) : held x := by
  have := hh (L.number x) hx (Nat.le_refl _)
  rwa [ancestorAt_self] at this

/-- One step of a walk: `x` is held, and so is everything from its parent down. -/
theorem heldDownTo_parent_iff {held : α → Prop} {x : α} {h : Nat} (hx : h < L.number x) :
    L.HeldDownTo held x h ↔ held x ∧ L.HeldDownTo held (L.parent x) h := by
  have hp := L.number_parent x
  refine ⟨?_, ?_⟩
  · intro hh
    refine ⟨hh.self (by omega), fun k hk hkx => ?_⟩
    rw [← ancestorAt_parent (by omega)]
    exact hh k hk (by omega)
  · rintro ⟨hx', hh⟩ k hk hkx
    -- `x` is its own ancestor at its own number only
    rcases Nat.lt_or_ge k (L.number x) with hlt | hge
    · rw [ancestorAt_parent hlt]
      exact hh k hk (by omega)
    · rw [show k = L.number x by omega, ancestorAt_self]
      exact hx'

theorem heldDownTo_number_iff {held : α → Prop} {x : α} :
    L.HeldDownTo held x (L.number x) ↔ held x := by
  refine ⟨?_, ?_⟩
  · intro hh; exact hh.self (Nat.le_refl _)
  · intro hx k hk hkx
    rw [show k = L.number x by omega, ancestorAt_self]
    exact hx

/-- A list that names everything held is longer than the walk down to `h`. -/
theorem HeldDownTo.lt_length {held : α → Prop} {x : α} {h : Nat} (hh : L.HeldDownTo held x h)
    (hx : h ≤ L.number x) {l : List α} (hl : ∀ y, held y → y ∈ l) :
    L.number x - h < l.length := by
  -- the ancestors on the way down have different numbers, so they are different
  have hnum : ∀ k ∈ List.range (L.number x - h + 1), L.number (L.ancestorAt x (h + k)) = h + k := by
    intro k hk
    rw [List.mem_range] at hk
    exact number_ancestorAt (by omega)
  have hnodup : ((List.range (L.number x - h + 1)).map fun k => L.ancestorAt x (h + k)).Nodup := by
    refine List.Nodup.map_on ?_ List.nodup_range
    intro a ha b hb hab
    have hnumbers := congrArg L.number hab
    rw [hnum a ha, hnum b hb] at hnumbers
    omega
  have hsub : ∀ y ∈ (List.range (L.number x - h + 1)).map (fun k => L.ancestorAt x (h + k)),
      y ∈ l := by
    intro y hy
    obtain ⟨k, hk, rfl⟩ := List.mem_map.mp hy
    rw [List.mem_range] at hk
    exact hl _ (hh (h + k) (by omega) (by omega))
  have hle := (List.subperm_of_subset hnodup hsub).length_le
  rw [List.length_map, List.length_range] at hle
  omega

end Lineage

end Lib
