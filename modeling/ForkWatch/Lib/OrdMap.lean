import Mathlib

/-!
# Maps that remember the order of insertion

The semantics of a JavaScript `Map`: keys are distinct, iteration follows the
order in which keys were first inserted, overwriting a key keeps its place, and
deleting while iterating only drops the deleted entries. A `Set` is a map
without values.

Distinctness of the keys is a field, so no operation below has a
well-formedness precondition. Everything a client needs is said through `get?`,
and `mem_entries_iff` is the one bridge back to the list of entries.
-/

namespace Lib

/-- A finite map with its entries in insertion order. -/
structure OrdMap (κ ν : Type) where
  /-- Key and value, oldest key first. -/
  entries : List (κ × ν)
  /-- No key occurs twice. -/
  nodup : (entries.map Prod.fst).Nodup

namespace OrdMap

variable {κ ν : Type}

/-- The map without entries. -/
def empty : OrdMap κ ν := ⟨[], List.nodup_nil⟩

instance : EmptyCollection (OrdMap κ ν) := ⟨empty⟩

instance [DecidableEq κ] [DecidableEq ν] : DecidableEq (OrdMap κ ν) := fun m n =>
  decidable_of_iff (m.entries = n.entries) (by cases m; cases n; simp)

/-- `map.keys()`. -/
def keys (m : OrdMap κ ν) : List κ := m.entries.map Prod.fst

/-- `map.values()`. -/
def values (m : OrdMap κ ν) : List ν := m.entries.map Prod.snd

/-- `map.size`. -/
def size (m : OrdMap κ ν) : Nat := m.entries.length

/-- Keep the entries that pass the test, in order. -/
def filter (m : OrdMap κ ν) (p : κ → ν → Bool) : OrdMap κ ν :=
  ⟨m.entries.filter (fun e => p e.1 e.2), m.nodup.sublist (List.filter_sublist.map _)⟩

theorem keys_nodup (m : OrdMap κ ν) : m.keys.Nodup := m.nodup

theorem size_eq_length_keys (m : OrdMap κ ν) : m.size = m.keys.length := by
  simp [size, keys]

theorem filter_filter (m : OrdMap κ ν) (p q : κ → ν → Bool) :
    (m.filter p).filter q = m.filter fun k v => p k v && q k v := by
  have hentries := List.filter_filter (p := fun e : κ × ν => q e.1 e.2)
    (q := fun e : κ × ν => p e.1 e.2) (l := m.entries)
  unfold filter
  simp only [mk.injEq]
  exact hentries.trans (List.filter_congr fun e _ => Bool.and_comm ..)

private theorem nodup_snoc {l : List (κ × ν)} {k : κ} {v : ν}
    (h : (l.map Prod.fst).Nodup) (hk : k ∉ l.map Prod.fst) :
    ((l ++ [(k, v)]).map Prod.fst).Nodup := by
  rw [List.map_append, List.nodup_append]
  refine ⟨h, by simp, ?_⟩
  intro a ha b hb hab
  simp only [List.map_cons, List.map_nil, List.mem_singleton] at hb
  exact hk (hb ▸ hab ▸ ha)

variable [DecidableEq κ]

/-- `map.get(key)`. -/
def get? (m : OrdMap κ ν) (k : κ) : Option ν :=
  (m.entries.find? (fun e => e.1 = k)).map Prod.snd

/-- `map.has(key)`. -/
def has (m : OrdMap κ ν) (k : κ) : Bool := (m.get? k).isSome

/-- Change the value under one key, in place; nothing happens when it is absent. -/
def modify (m : OrdMap κ ν) (k : κ) (f : ν → ν) : OrdMap κ ν :=
  ⟨m.entries.map (fun e => if e.1 = k then (e.1, f e.2) else e), by
    have : (m.entries.map (fun e => if e.1 = k then (e.1, f e.2) else e)).map Prod.fst
        = m.entries.map Prod.fst := by
      rw [List.map_map]
      refine List.map_congr_left ?_
      intro e _
      by_cases he : e.1 = k <;> simp [he]
    rw [this]; exact m.nodup⟩

/-- `map.set(key, value)`: an existing key keeps its place, a new one goes last. -/
def set (m : OrdMap κ ν) (k : κ) (v : ν) : OrdMap κ ν :=
  if h : k ∈ m.keys then m.modify k (fun _ => v)
  else ⟨m.entries ++ [(k, v)], nodup_snoc m.nodup h⟩

/-- `map.delete(key)`. -/
def erase (m : OrdMap κ ν) (k : κ) : OrdMap κ ν := m.filter (fun k' _ => k' ≠ k)

/-- `new Map(pairs)`: later pairs overwrite earlier ones. -/
def ofList (l : List (κ × ν)) : OrdMap κ ν := l.foldl (fun m e => m.set e.1 e.2) ∅

/-! ## The bridge to the list of entries -/

theorem mem_entries_iff {m : OrdMap κ ν} {k : κ} {v : ν} :
    (k, v) ∈ m.entries ↔ m.get? k = some v := by
  obtain ⟨l, hl⟩ := m
  simp only [get?]
  induction l with
  | nil => simp
  | cons e l ih =>
      simp only [List.map_cons, List.nodup_cons] at hl
      by_cases he : e.1 = k
      · simp only [List.mem_cons, List.find?_cons, he, decide_true, Option.map_some,
          Option.some.injEq]
        refine ⟨?_, ?_⟩
        · rintro (rfl | h)
          · rfl
          · exact absurd (List.mem_map.mpr ⟨(k, v), h, he.symm⟩) hl.1
        · rintro rfl
          exact Or.inl (by rw [← he])
      · simp only [List.mem_cons, List.find?_cons, he, decide_false]
        rw [← ih hl.2]
        refine ⟨?_, ?_⟩
        · rintro (rfl | h)
          · exact absurd rfl he
          · exact h
        · exact Or.inr

theorem mem_keys_iff {m : OrdMap κ ν} {k : κ} : k ∈ m.keys ↔ ∃ v, m.get? k = some v := by
  simp only [keys, List.mem_map]
  refine ⟨?_, ?_⟩
  · intro hex
    obtain ⟨⟨k', v⟩, hm, rfl⟩ := hex
    exact ⟨v, mem_entries_iff.mp hm⟩
  · intro hex
    obtain ⟨v, hv⟩ := hex
    exact ⟨(k, v), mem_entries_iff.mpr hv, rfl⟩

theorem not_mem_keys_iff {m : OrdMap κ ν} {k : κ} : k ∉ m.keys ↔ m.get? k = none := by
  rw [mem_keys_iff]
  cases h : m.get? k <;> simp

theorem has_iff {m : OrdMap κ ν} {k : κ} : m.has k = true ↔ ∃ v, m.get? k = some v := by
  rw [has, Option.isSome_iff_exists]

theorem has_eq_false_iff {m : OrdMap κ ν} {k : κ} : m.has k = false ↔ m.get? k = none := by
  rw [has]; cases m.get? k <;> simp

theorem size_eq_zero_iff {m : OrdMap κ ν} : m.size = 0 ↔ ∀ k, m.get? k = none := by
  refine ⟨?_, ?_⟩
  · intro h k
    have : m.entries = [] := List.length_eq_zero_iff.mp h
    simp [get?, this]
  · intro h
    refine List.length_eq_zero_iff.mpr (List.eq_nil_iff_forall_not_mem.mpr ?_)
    rintro ⟨k, v⟩ hm
    rw [mem_entries_iff, h k] at hm
    exact absurd hm (by simp)

/-! ## What each operation does, key by key -/

@[simp] theorem get?_empty (k : κ) : (∅ : OrdMap κ ν).get? k = none := rfl

theorem get?_modify (m : OrdMap κ ν) (k : κ) (f : ν → ν) (k' : κ) :
    (m.modify k f).get? k' = if k' = k then (m.get? k').map f else m.get? k' := by
  refine Option.ext fun v => ?_
  rw [← mem_entries_iff]
  simp only [modify, List.mem_map]
  by_cases hk : k' = k
  · subst hk
    simp only [if_true, Option.map_eq_some_iff]
    refine ⟨?_, ?_⟩
    · intro hex
      obtain ⟨⟨k₁, v₁⟩, hm, he⟩ := hex
      by_cases h₁ : k₁ = k'
      · subst h₁
        simp only [if_true, Prod.mk.injEq, true_and] at he
        exact ⟨v₁, mem_entries_iff.mp hm, he⟩
      · simp only [if_neg h₁, Prod.mk.injEq] at he
        exact absurd he.1 h₁
    · intro hex
      obtain ⟨v₁, hv₁, rfl⟩ := hex
      exact ⟨(k', v₁), mem_entries_iff.mpr hv₁, by simp⟩
  · rw [if_neg hk, ← mem_entries_iff]
    refine ⟨?_, ?_⟩
    · intro hex
      obtain ⟨⟨k₁, v₁⟩, hm, he⟩ := hex
      by_cases h₁ : k₁ = k
      · simp only [if_pos h₁, Prod.mk.injEq] at he
        exact absurd (he.1.symm.trans h₁) hk
      · rw [if_neg h₁] at he
        exact he ▸ hm
    · intro hm
      exact ⟨(k', v), hm, by rw [if_neg hk]⟩

theorem get?_set (m : OrdMap κ ν) (k : κ) (v : ν) (k' : κ) :
    (m.set k v).get? k' = if k' = k then some v else m.get? k' := by
  unfold set
  split
  · rename_i h
    rw [get?_modify]
    obtain ⟨w, hw⟩ := mem_keys_iff.mp h
    by_cases hk : k' = k
    · subst hk; simp [hw]
    · simp [hk]
  · rename_i h
    have hn := not_mem_keys_iff.mp h
    simp only [get?, List.find?_append, List.find?_cons, List.find?_nil]
    by_cases hk : k' = k
    · subst hk
      simp only [get?, Option.map_eq_none_iff] at hn
      simp [hn]
    · have hk' : ¬ k = k' := fun e => hk e.symm
      simp [hk, hk']

@[simp] theorem get?_set_self (m : OrdMap κ ν) (k : κ) (v : ν) :
    (m.set k v).get? k = some v := by simp [get?_set]

theorem get?_set_ne (m : OrdMap κ ν) {k k' : κ} (v : ν) (h : k' ≠ k) :
    (m.set k v).get? k' = m.get? k' := by simp [get?_set, h]

theorem get?_filter (m : OrdMap κ ν) (p : κ → ν → Bool) (k : κ) :
    (m.filter p).get? k = (m.get? k).filter (p k) := by
  refine Option.ext fun v => ?_
  rw [← mem_entries_iff, Option.filter_eq_some_iff, ← mem_entries_iff]
  simp [filter]

theorem get?_erase (m : OrdMap κ ν) (k k' : κ) :
    (m.erase k).get? k' = if k' = k then none else m.get? k' := by
  rw [erase, get?_filter]
  by_cases h : k' = k
  · subst h; cases m.get? k' <;> simp
  · cases m.get? k' <;> simp [h]

@[simp] theorem has_set (m : OrdMap κ ν) (k : κ) (v : ν) (k' : κ) :
    (m.set k v).has k' = (decide (k' = k) || m.has k') := by
  simp only [has, get?_set]
  by_cases h : k' = k <;> simp [h]

/-- `INSERT … ON CONFLICT … DO UPDATE`: enter a value, or merge it into the one that is there. -/
def upsert (m : OrdMap κ ν) (merge : ν → ν → ν) (k : κ) (v : ν) : OrdMap κ ν :=
  m.set k (match m.get? k with
    | none => v
    | some old => merge old v)

theorem has_upsert (m : OrdMap κ ν) (merge : ν → ν → ν) (k : κ) (v : ν) (k' : κ) :
    (m.upsert merge k v).has k' = (decide (k' = k) || m.has k') := has_set ..

/-- Without a conflict the value is entered as it is. -/
theorem get?_upsert_of_not_mem {m : OrdMap κ ν} {k : κ} (h : m.get? k = none)
    (merge : ν → ν → ν) (v : ν) (k' : κ) :
    (m.upsert merge k v).get? k' = if k' = k then some v else m.get? k' := by
  unfold upsert
  rw [h]
  exact get?_set ..

@[simp] theorem keys_modify (m : OrdMap κ ν) (k : κ) (f : ν → ν) :
    (m.modify k f).keys = m.keys := by
  simp only [keys, modify, List.map_map]
  refine List.map_congr_left ?_
  intro e _
  by_cases he : e.1 = k <;> simp [he]

theorem entries_set_of_not_mem {m : OrdMap κ ν} {k : κ} {v : ν} (h : m.get? k = none) :
    (m.set k v).entries = m.entries ++ [(k, v)] := by
  have hk : k ∉ m.keys := not_mem_keys_iff.mpr h
  unfold set
  rw [dif_neg hk]

theorem size_set_of_not_mem {m : OrdMap κ ν} {k : κ} {v : ν} (h : m.get? k = none) :
    (m.set k v).size = m.size + 1 := by
  simp [size, entries_set_of_not_mem h]

theorem size_pos_of_get? {m : OrdMap κ ν} {k : κ} {v : ν} (h : m.get? k = some v) :
    0 < m.size :=
  List.length_pos_of_mem (mem_entries_iff.mpr h)

theorem get?_foldl_erase (l : List κ) (m : OrdMap κ ν) (k : κ) :
    (l.foldl (fun m k => m.erase k) m).get? k = if k ∈ l then none else m.get? k := by
  induction l generalizing m with
  | nil => simp
  | cons a l ih =>
      rw [List.foldl_cons, ih, get?_erase]
      by_cases h : k ∈ l
      · simp [h]
      · by_cases ha : k = a <;> simp [h, ha]

theorem get?_foldl_set {l : List (κ × ν)} {m : OrdMap κ ν} {k : κ} {v : ν}
    (h : (l.foldl (fun m e => m.set e.1 e.2) m).get? k = some v) :
    m.get? k = some v ∨ (k, v) ∈ l := by
  induction l generalizing m with
  | nil => exact Or.inl h
  | cons e l ih =>
      rcases ih h with hm | hl
      · rw [get?_set] at hm
        split at hm
        · rename_i hk
          obtain rfl := Option.some.inj hm
          exact Or.inr (by rw [hk]; simp)
        · exact Or.inl hm
      · exact Or.inr (List.mem_cons_of_mem e hl)

/-! ## Loops over the entries -/

/--
A loop over a map each turn of which minds its own key: what can be seen of `k`
afterwards is what the turn of `k` makes of it, if `k` has one.
-/
theorem foldl_turn {σ α : Type} {f : σ → κ × ν → σ} {g : σ → α} {I : σ → Prop} {k : κ}
    {w : ν → α → α} {m : OrdMap κ ν} {s : σ}
    (hI : ∀ u, I u → ∀ e ∈ m.entries, I (f u e))
    (hother : ∀ u, I u → ∀ e ∈ m.entries, e.1 ≠ k → g (f u e) = g u)
    (hself : ∀ u, I u → ∀ v, (k, v) ∈ m.entries → g (f u (k, v)) = w v (g u)) (hs : I s) :
    g (m.entries.foldl f s) = (m.get? k).elim (g s) (fun v => w v (g s)) := by
  obtain ⟨l, hl⟩ := m
  simp only [get?]
  induction l generalizing s with
  | nil => rfl
  | cons e l ih =>
      simp only [List.map_cons, List.nodup_cons] at hl
      have hrest := ih (hI s hs e (by simp)) hl.2
        (fun u hu e' he' => hI u hu e' (List.mem_cons_of_mem e he'))
        (fun u hu e' he' => hother u hu e' (List.mem_cons_of_mem e he'))
        (fun u hu v hv => hself u hu v (List.mem_cons_of_mem e hv))
      rw [List.foldl_cons, hrest, List.find?_cons]
      by_cases hk : e.1 = k
      · -- this is the turn, and there is no other
        subst hk
        have hnone : l.find? (fun e' => e'.1 = e.1) = none := by
          rw [List.find?_eq_none]
          intro e' he' heq
          exact hl.1 (List.mem_map.mpr ⟨e', he', by simpa using heq⟩)
        rw [hnone]
        simp only [decide_true, Option.map_none, Option.map_some, Option.elim_none,
          Option.elim_some]
        exact hself s hs e.2 (by simp)
      · rw [hother s hs e (by simp) hk]
        simp only [hk, decide_false]

theorem mem_of_mem_entries {m : OrdMap κ ν} {e : κ × ν} (h : e ∈ m.entries) :
    m.get? e.1 = some e.2 := mem_entries_iff.mp h

/-- Nothing is dropped exactly if every entry passes the test. -/
theorem size_filter_eq_iff {m : OrdMap κ ν} {p : κ → ν → Bool} :
    (m.filter p).size = m.size ↔ ∀ k v, m.get? k = some v → p k v = true := by
  unfold size filter
  rw [List.length_filter_eq_length_iff]
  refine ⟨?_, ?_⟩
  · intro h k v hv
    exact h (k, v) (mem_entries_iff.mpr hv)
  · intro h e he
    exact h e.1 e.2 (mem_of_mem_entries he)

theorem filter_eq_self {m : OrdMap κ ν} {p : κ → ν → Bool}
    (h : ∀ k v, m.get? k = some v → p k v = true) : m.filter p = m := by
  have hentries : m.entries.filter (fun e => p e.1 e.2) = m.entries :=
    List.filter_eq_self.mpr fun e he => h e.1 e.2 (mem_of_mem_entries he)
  unfold filter
  cases m
  simp only [mk.injEq]
  exact hentries

theorem filter_congr {m : OrdMap κ ν} {p q : κ → ν → Bool}
    (h : ∀ k v, m.get? k = some v → p k v = q k v) : m.filter p = m.filter q := by
  have hentries : m.entries.filter (fun e => p e.1 e.2) = m.entries.filter fun e => q e.1 e.2 :=
    List.filter_congr fun e he => h e.1 e.2 (mem_of_mem_entries he)
  unfold filter
  simp only [mk.injEq]
  exact hentries

omit [DecidableEq κ] in
/-- More than one entry means two keys. -/
theorem one_lt_size_iff {m : OrdMap κ ν} :
    1 < m.size ↔ ∃ k k', k ≠ k' ∧ k ∈ m.keys ∧ k' ∈ m.keys := by
  rw [size_eq_length_keys]
  have hnodup := m.keys_nodup
  refine ⟨?_, ?_⟩
  · intro h
    match hkeys : m.keys, h with
    | k :: k' :: rest, _ =>
        rw [hkeys, List.nodup_cons] at hnodup
        refine ⟨k, k', ?_, by simp, by simp⟩
        intro heq
        exact hnodup.1 (by simp [heq])
  · intro h
    obtain ⟨k, k', hne, hk, hk'⟩ := h
    by_contra hlen
    -- a list of at most one key has no room for both
    have hle : m.keys.length ≤ 1 := by omega
    match hkeys : m.keys, hle with
    | [], _ => rw [hkeys] at hk; exact absurd hk (by simp)
    | [x], _ =>
        rw [hkeys, List.mem_singleton] at hk hk'
        exact hne (hk.trans hk'.symm)

theorem has_ofList (l : List (κ × ν)) (k : κ) :
    (ofList l).has k = l.any (fun e => e.1 = k) := by
  have hfold : ∀ m : OrdMap κ ν, (l.foldl (fun m e => m.set e.1 e.2) m).has k
      = (m.has k || l.any fun e => e.1 = k) := by
    induction l with
    | nil => simp
    | cons e l ih =>
        intro m
        rw [List.foldl_cons, ih, has_set, List.any_cons]
        by_cases hk : e.1 = k
        · simp [hk]
        · have hk' : ¬ k = e.1 := fun h => hk h.symm
          simp [hk, hk']
  exact (hfold ∅).trans (Bool.false_or _)

/-- The map of a list whose values are mapped. -/
theorem get?_ofList_map {μ : Type} (f : ν → μ) (l : List (κ × ν)) (k : κ) :
    (ofList (l.map fun e => (e.1, f e.2))).get? k = ((ofList l).get? k).map f := by
  have hfrom : ∀ (b : OrdMap κ μ) (a : OrdMap κ ν), (∀ k, b.get? k = (a.get? k).map f) →
      ((l.map fun e => (e.1, f e.2)).foldl (fun m e => m.set e.1 e.2) b).get? k
        = ((l.foldl (fun m e => m.set e.1 e.2) a).get? k).map f := by
    induction l with
    | nil => exact fun b a h => h k
    | cons e l ih =>
        intro b a h
        refine ih _ _ fun k' => ?_
        rw [get?_set, get?_set]
        split
        · rfl
        · exact h k'
  exact hfrom ∅ ∅ fun _ => rfl

/-- Changing entries one after the other, each once. -/
theorem get?_foldl_modify (f : κ → ν → ν) {l : List κ} (h : l.Nodup) (m : OrdMap κ ν) (k : κ) :
    (l.foldl (fun m k' => m.modify k' (f k')) m).get? k
      = (m.get? k).map fun v => if k ∈ l then f k v else v := by
  induction l generalizing m with
  | nil => simp
  | cons k' l ih =>
      obtain ⟨hk, hl⟩ := List.nodup_cons.mp h
      rw [List.foldl_cons, ih hl, get?_modify]
      by_cases hsame : k = k'
      · subst hsame
        cases m.get? k with
        | none => simp
        | some v => simp [hk]
      · rw [if_neg hsame]
        simp [hsame]

/-- A map of pairs holds nothing but these pairs. -/
theorem mem_of_get?_ofList {l : List (κ × ν)} {k : κ} {v : ν} (h : (ofList l).get? k = some v) :
    (k, v) ∈ l := by
  rcases get?_foldl_set h with hm | hl
  · exact absurd hm (by simp)
  · exact hl

end OrdMap

/-- A set that remembers the order of insertion: a map without values. -/
abbrev OrdSet (κ : Type) := OrdMap κ Unit

namespace OrdMap

variable {κ : Type} [DecidableEq κ]

/-- `set.add(value)`. -/
def add (s : OrdSet κ) (k : κ) : OrdSet κ := s.set k ()

@[simp] theorem has_empty (k : κ) : (∅ : OrdSet κ).has k = false := rfl

@[simp] theorem has_add (s : OrdSet κ) (k k' : κ) :
    (s.add k).has k' = (decide (k' = k) || s.has k') := has_set s k () k'

theorem has_filter (s : OrdSet κ) (p : κ → Unit → Bool) (k : κ) :
    (s.filter p).has k = (s.has k && p k ()) := by
  simp only [has, get?_filter]
  cases s.get? k with
  | none => rfl
  | some u => cases hp : p k () <;> simp [hp]

end OrdMap

end Lib
