import ForkWatch.Lib.OrdMap

/-!
# Guard sets of bounded size

A set that remembers what has been let through, so that nothing is let through
twice, and that is emptied once it is full. `log` is the list of everything let
through so far, in order. Cut into stretches of `cap` elements, the log has no
repetition within a stretch, and the set holds the stretch being filled: that is
`Guards`, and it is all there is to know about such a set.

As long as the log is no longer than `cap`, nothing has been forgotten.
-/

namespace Lib

variable {κ : Type}

/-- Remember one more element; a full set is emptied first. -/
def remember [DecidableEq κ] (cap : Nat) (s : OrdSet κ) (x : κ) : OrdSet κ :=
  (if cap ≤ s.size then ∅ else s).add x

/-- Where the stretch begins that is being filled after `n` elements. -/
def stretchStart (cap n : Nat) : Nat := cap * ((n - 1) / cap)

/-- The set guards the log: it holds the last stretch, and no stretch repeats an element. -/
structure Guards (cap : Nat) (s : OrdSet κ) (log : List κ) : Prop where
  keys : s.keys = log.drop (stretchStart cap log.length)
  distinct : ∀ i j, (hij : i < j) → (hj : j < log.length) → i / cap = j / cap →
    log[i] ≠ log[j]

namespace Guards

variable {cap : Nat} {s : OrdSet κ} {log : List κ} {x : κ}

theorem empty (cap : Nat) : Guards cap (∅ : OrdSet κ) [] where
  keys := List.drop_nil.symm
  distinct := by intro i j _ hj; exact absurd hj (by simp)

theorem size_eq (h : Guards cap s log) : s.size = log.length - stretchStart cap log.length := by
  rw [OrdMap.size_eq_length_keys, h.keys, List.length_drop]

theorem stretchStart_le (cap n : Nat) : stretchStart cap n ≤ n :=
  (Nat.mul_div_le (n - 1) cap).trans (Nat.sub_le n 1)

/-- No stretch of the log has a repetition. -/
theorem nodup_stretch (h : Guards cap s log) (n : Nat) : ((log.drop (cap * n)).take cap).Nodup := by
  rw [List.nodup_iff_pairwise_ne, List.pairwise_iff_getElem]
  intro i j hi hj hij
  rw [List.length_take, List.length_drop] at hi hj
  have hdiv : ∀ a, a < cap → (cap * n + a) / cap = n := fun a ha => by
    rw [Nat.mul_add_div (by omega), Nat.div_eq_of_lt ha, Nat.add_zero]
  rw [List.getElem_take, List.getElem_take, List.getElem_drop, List.getElem_drop]
  refine h.distinct _ _ (by omega) (by omega) ?_
  rw [hdiv i (by omega), hdiv j (by omega)]

/-- A log of at most `cap` elements has no repetition at all. -/
theorem nodup (h : Guards cap s log) (hle : log.length ≤ cap) : log.Nodup := by
  have hfirst := h.nodup_stretch 0
  rw [Nat.mul_zero, List.drop_zero, List.take_of_length_le hle] at hfirst
  exact hfirst

/-- The set is full exactly if the stretch is complete. -/
theorem full_iff (h : Guards cap s log) (hcap : 0 < cap) :
    cap ≤ s.size ↔ 0 < log.length ∧ log.length % cap = 0 := by
  have hdiv := Nat.div_add_mod (log.length - 1) cap
  have hmod := Nat.mod_lt (log.length - 1) hcap
  rw [h.size_eq]
  unfold stretchStart
  refine ⟨?_, ?_⟩
  · intro hfull
    have hlen : log.length = cap * ((log.length - 1) / cap + 1) := by
      rw [Nat.mul_add, Nat.mul_one]
      omega
    refine ⟨by omega, ?_⟩
    rw [hlen]
    exact Nat.mul_mod_right ..
  · intro hboth
    obtain ⟨hpos, hzero⟩ := hboth
    obtain ⟨q, hq⟩ := Nat.dvd_of_mod_eq_zero hzero
    have hqpos : 0 < q := by
      rcases Nat.eq_zero_or_pos q with rfl | hqpos
      · omega
      · exact hqpos
    have hprev : (log.length - 1) / cap = q - 1 := by
      refine Nat.div_eq_of_lt_le ?_ ?_
      · rw [Nat.sub_mul, Nat.one_mul, Nat.mul_comm q cap]
        omega
      · rw [Nat.sub_add_cancel hqpos, Nat.mul_comm q cap]
        omega
    rw [hprev, Nat.mul_sub, Nat.mul_one]
    have hle : cap ≤ cap * q := Nat.le_mul_of_pos_right cap hqpos
    omega

/-- An element that its own stretch does not have yet. -/
theorem distinct_snoc (h : Guards cap s log)
    (hnew : ∀ i, (hi : i < log.length) → i / cap = log.length / cap → log[i] ≠ x) :
    ∀ i j, (hij : i < j) → (hj : j < (log ++ [x]).length) → i / cap = j / cap →
      (log ++ [x])[i] ≠ (log ++ [x])[j] := by
  intro i j hij hj hsame
  rw [List.length_append, List.length_singleton] at hj
  rcases Nat.lt_succ_iff_lt_or_eq.mp hj with hj | rfl
  · rw [List.getElem_append_left (by omega), List.getElem_append_left hj]
    exact h.distinct i j hij hj hsame
  · rw [List.getElem_append_left hij, List.getElem_concat_length rfl]
    exact hnew i hij hsame

variable [DecidableEq κ]

theorem has_iff (h : Guards cap s log) :
    s.has x = true ↔ x ∈ log.drop (stretchStart cap log.length) := by
  rw [← h.keys, OrdMap.mem_keys_iff, OrdMap.has_iff]

/-- **Letting one more element through.** -/
theorem remember (h : Guards cap s log) (hcap : 0 < cap) (hx : s.has x = false) :
    Guards cap (remember cap s x) (log ++ [x]) := by
  have hnot : x ∉ s.keys := by
    rw [OrdMap.not_mem_keys_iff]
    exact OrdMap.has_eq_false_iff.mp hx
  have hstart : stretchStart cap (log ++ [x]).length = cap * (log.length / cap) := by
    simp [stretchStart]
  have hdiv := Nat.div_add_mod log.length cap
  unfold Lib.remember
  by_cases hfull : cap ≤ s.size
  · -- a new stretch begins with `x`
    have hzero := ((h.full_iff hcap).mp hfull).2
    have hnow : cap * (log.length / cap) = log.length := by omega
    refine ⟨?_, ?_⟩
    · rw [if_pos hfull, hstart, hnow, List.drop_left]
      rfl
    · refine h.distinct_snoc fun i hi hsame => ?_
      have hlt : i / cap < log.length / cap := by
        rw [Nat.div_lt_iff_lt_mul hcap, Nat.mul_comm]
        omega
      omega
  · have hold : stretchStart cap log.length = cap * (log.length / cap) := by
      rw [h.full_iff hcap, not_and] at hfull
      unfold stretchStart
      rcases Nat.eq_zero_or_pos log.length with hlen | hlen
      · rw [hlen]
      · have hmod : 0 < log.length % cap := Nat.pos_of_ne_zero (hfull hlen)
        have hsame : (log.length - 1) / cap = log.length / cap := by
          refine Nat.div_eq_of_lt_le ?_ ?_
          · rw [Nat.mul_comm]
            omega
          · rw [Nat.add_mul, Nat.one_mul, Nat.mul_comm]
            have := Nat.mod_lt log.length hcap
            omega
        rw [hsame]
    refine ⟨?_, ?_⟩
    · rw [if_neg hfull, hstart, ← hold, List.drop_append_of_le_length (stretchStart_le ..), ← h.keys]
      unfold OrdMap.add OrdMap.keys
      rw [OrdMap.entries_set_of_not_mem (OrdMap.has_eq_false_iff.mp hx), List.map_append]
      rfl
    · refine h.distinct_snoc fun i hi hsame => ?_
      -- an element of the same stretch is in the set, and `x` is not
      have hge : stretchStart cap log.length ≤ i := by
        rw [hold, ← hsame]
        exact Nat.mul_div_le i cap
      have hmem : log[i] ∈ s.keys := by
        rw [h.keys, List.mem_iff_getElem]
        refine ⟨i - stretchStart cap log.length, by rw [List.length_drop]; omega, ?_⟩
        rw [List.getElem_drop]
        congr 1
        omega
      intro heq
      rw [heq] at hmem
      exact hnot hmem

/-- As long as the log is no longer than `cap`, the set has forgotten nothing. -/
theorem has_iff_mem (h : Guards cap s log) (hle : log.length ≤ cap) :
    s.has x = true ↔ x ∈ log := by
  have hstart : stretchStart cap log.length = 0 := by
    unfold stretchStart
    rcases Nat.eq_zero_or_pos log.length with hlen | hlen
    · simp [hlen]
    · rw [Nat.div_eq_of_lt (by omega), Nat.mul_zero]
  rw [h.has_iff, hstart, List.drop_zero]

/-- What is in the set was let through. -/
theorem mem_of_has (h : Guards cap s log) (hx : s.has x = true) : x ∈ log :=
  List.mem_of_mem_drop (h.has_iff.mp hx)

/-- Fewer than `cap` different elements were let through: then fewer than `cap` in all. -/
theorem length_lt (h : Guards cap s log) (hlt : log.dedup.length < cap) : log.length < cap := by
  by_contra hge
  -- the first stretch alone has `cap` different elements
  have hnodup := h.nodup_stretch 0
  rw [Nat.mul_zero, List.drop_zero] at hnodup
  have hsub : log.take cap ⊆ log.dedup := fun y hy =>
    List.mem_dedup.mpr (List.mem_of_mem_take hy)
  have hle := (List.subperm_of_subset hnodup hsub).length_le
  rw [List.length_take] at hle
  omega

end Guards

end Lib
