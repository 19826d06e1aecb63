import ForkWatch.Lib.Machine

/-!
# Tables that are rewritten row by row

A statement on a table drops or rewrites each row on its own and puts new rows at the
end. What becomes of a row under the statements after its insertion is its `life`, so
the table after a run is the lives of all rows ever inserted (`table_runFrom`).

When the statements that drop a row look only at what no statement rewrites, a row is
there exactly if none of them dropped it, and its columns are what the rewritings made
of them one after the other (`Rewrites.life_eq`).

A `Cell` is a table with room for one row, such as the rows of a unique key: what it
holds came in while it was empty, and has lived since (`Cell.run_iff`).

An update of one row, picked among those that pass a test and found again by its key, is
`modifyNth`; it does not depend on the keys, nor on rows of another kind.
-/

namespace Lib

variable {σ ε ρ : Type} {turn : ε → ρ → Option ρ} {born : ε → List ρ}

/-- What is left of a row after these statements. -/
def life (turn : ε → ρ → Option ρ) : List ε → ρ → Option ρ
  | [], r => some r
  | e :: evs, r => (turn e r).bind (life turn evs)

@[simp] theorem life_nil (r : ρ) : life turn [] r = some r := rfl

theorem life_cons (e : ε) (evs : List ε) (r : ρ) :
    life turn (e :: evs) r = (turn e r).bind (life turn evs) := rfl

/-- All rows ever inserted, each with the statements after its own. -/
def births (born : ε → List ρ) : List ε → List (ρ × List ε)
  | [] => []
  | e :: evs => (born e).map (·, evs) ++ births born evs

/-- **A table holds the lives of the rows ever inserted**, in the order of insertion. -/
theorem table_runFrom {m : Machine σ ε} (table : σ → List ρ)
    (h : ∀ s e, table (m.step s e) = (table s).filterMap (turn e) ++ born e) (s : σ)
    (evs : List ε) : table (m.runFrom s evs) = (table s).filterMap (life turn evs)
      ++ (births born evs).filterMap fun b => life turn b.2 b.1 := by
  induction evs generalizing s with
  | nil =>
      have hall : (table s).filterMap (life turn []) = table s := List.filterMap_some
      rw [hall]
      exact (List.append_nil _).symm
  | cons e evs ih =>
      have hold : ((table s).filterMap (turn e)).filterMap (life turn evs)
          = (table s).filterMap (life turn (e :: evs)) := List.filterMap_filterMap ..
      have hnew : ((born e).map (·, evs)).filterMap (fun b => life turn b.2 b.1)
          = (born e).filterMap (life turn evs) := List.filterMap_map ..
      rw [Machine.runFrom_cons, ih, h, List.filterMap_append, hold, births,
        List.filterMap_append, hnew, List.append_assoc]

/-- Some statements drop a row, all others rewrite it, but not what the drops look at. -/
structure Rewrites (turn : ε → ρ → Option ρ) (drops : ε → ρ → Bool) (rewrite : ε → ρ → ρ) :
    Prop where
  turn : ∀ e r, turn e r = if drops e r then none else some (rewrite e r)
  drops : ∀ e e' r, drops e (rewrite e' r) = drops e r

/-- **A row lives until it is dropped.** -/
theorem Rewrites.life_eq {drops : ε → ρ → Bool} {rewrite : ε → ρ → ρ}
    (h : Rewrites turn drops rewrite) (evs : List ε) (r : ρ) :
    life turn evs r = if evs.any (drops · r) then none
      else some (evs.foldl (fun r e => rewrite e r) r) := by
  induction evs generalizing r with
  | nil => rfl
  | cons e evs ih =>
      rw [life_cons, h.turn, List.any_cons, List.foldl_cons]
      cases hdrop : drops e r with
      | true => rfl
      | false =>
          have hsame : (fun e' => drops e' (rewrite e r)) = fun e' => drops e' r :=
            funext fun e' => h.drops e' e r
          rw [Bool.false_or, if_neg Bool.false_ne_true, Option.bind_some, ih, hsame]

/-- Rows that are only ever dropped. -/
theorem life_of_drops {drops : ε → ρ → Bool}
    (h : ∀ e r, turn e r = if drops e r then none else some r) (evs : List ε) (r : ρ) :
    life turn evs r = if evs.any (drops · r) then none else some r := by
  have hrewrites : Rewrites turn drops fun _ r => r := ⟨h, fun _ _ _ => rfl⟩
  rw [hrewrites.life_eq, List.foldl_fixed]

theorem life_append (xs ys : List ε) (r : ρ) :
    life turn (xs ++ ys) r = (life turn xs r).bind (life turn ys) := by
  induction xs generalizing r with
  | nil => rfl
  | cons e xs ih =>
      rw [List.cons_append, life_cons, life_cons, Option.bind_assoc]
      exact Option.bind_congr fun r _ => ih r

/-! ## A single cell -/

/-- A place for one row: empty, it takes what a statement brings; full, its row takes turns. -/
structure Cell (m : Machine σ ε) (cell : σ → Option ρ) (bring : ε → Option ρ)
    (turn : ε → ρ → Option ρ) : Prop where
  empty : ∀ s e, cell s = none → cell (m.step s e) = bring e
  full : ∀ s e r, cell s = some r → cell (m.step s e) = turn e r

namespace Cell

variable {m : Machine σ ε} {cell : σ → Option ρ} {bring : ε → Option ρ}

/-- A row that lives on stays where it is. -/
theorem runFrom_of_life (h : Cell m cell bring turn) {s : σ} {r r' : ρ} {evs : List ε}
    (hs : cell s = some r) (hlife : life turn evs r = some r') :
    cell (m.runFrom s evs) = some r' := by
  induction evs generalizing s r with
  | nil => exact hs.trans hlife
  | cons e evs ih =>
      rw [life_cons, Option.bind_eq_some_iff] at hlife
      obtain ⟨r₁, hturn, hlife⟩ := hlife
      exact ih ((h.full s e r hs).trans hturn) hlife

/-- **A cell holds a row that a statement brought while it was empty, and that lived on.** -/
theorem run_iff (h : Cell m cell bring turn) (hinit : cell m.init = none) {evs : List ε} {r : ρ} :
    cell (m.run evs) = some r ↔ ∃ pre e post r₀, evs = pre ++ e :: post ∧
      cell (m.run pre) = none ∧ bring e = some r₀ ∧ life turn post r₀ = some r := by
  refine ⟨?_, ?_⟩
  · induction evs using List.reverseRecOn generalizing r with
    | nil => exact fun hr => absurd (hinit.symm.trans hr) (by simp)
    | append_singleton evs e ih =>
        rw [Machine.run_snoc]
        intro hr
        cases hbefore : cell (m.run evs) with
        | none =>
            rw [h.empty _ _ hbefore] at hr
            exact ⟨evs, e, [], r, rfl, hbefore, hr, rfl⟩
        | some r₁ =>
            rw [h.full _ _ _ hbefore] at hr
            obtain ⟨pre, e₀, post, r₀, rfl, hempty, hbring, hlife⟩ := ih hbefore
            refine ⟨pre, e₀, post ++ [e], r₀, by simp, hempty, hbring, ?_⟩
            rw [life_append, hlife, Option.bind_some, life_cons, hr]
            rfl
  · intro hex
    obtain ⟨pre, e, post, r₀, rfl, hempty, hbring, hlife⟩ := hex
    rw [Machine.run_append, Machine.runFrom_cons]
    exact h.runFrom_of_life ((h.empty _ _ hempty).trans hbring) hlife

end Cell

/-- Where rows are told apart by a key, rewriting the row of one key changes one at most. -/
theorem countP_rewrite_le {κ : Type} [DecidableEq κ] {key : ρ → κ} {l : List ρ}
    (hkeys : (l.map key).Nodup) (k : κ) (f : ρ → ρ) (p : ρ → Bool) :
    (l.map fun r => if key r = k then f r else r).countP p ≤ l.countP p + 1 := by
  induction l with
  | nil => exact Nat.zero_le _
  | cons r l ih =>
      obtain ⟨hfresh, hrest⟩ := List.nodup_cons.mp hkeys
      rw [List.map_cons]
      split
      · rename_i hkey
        have hother : (l.map fun r => if key r = k then f r else r) = l := by
          refine (List.map_congr_left fun r' hr' => if_neg fun heq => ?_).trans (List.map_id' l)
          exact hfresh (List.mem_map.mpr ⟨r', hr', heq.trans hkey.symm⟩)
        rw [hother, List.countP_cons, List.countP_cons]
        split
        · omega
        · omega
      · have hle := ih hrest
        rw [List.countP_cons, List.countP_cons]
        omega

/-! ## The row that an update picks -/

/-- Rewrite the `n`-th of the rows that pass the test. -/
def modifyNth (p : ρ → Bool) (f : ρ → ρ) : Nat → List ρ → List ρ
  | _, [] => []
  | n, r :: l =>
      if p r then
        match n with
        | 0 => f r :: l
        | n + 1 => r :: modifyNth p f n l
      else r :: modifyNth p f n l

section ModifyNth

variable {p : ρ → Bool} {f : ρ → ρ}

theorem modifyNth_zero {r : ρ} (hr : p r = true) (l : List ρ) :
    modifyNth p f 0 (r :: l) = f r :: l := if_pos hr

theorem modifyNth_succ {r : ρ} (hr : p r = true) (n : Nat) (l : List ρ) :
    modifyNth p f (n + 1) (r :: l) = r :: modifyNth p f n l := if_pos hr

theorem modifyNth_skip {r : ρ} (hr : p r = false) (n : Nat) (l : List ρ) :
    modifyNth p f n (r :: l) = r :: modifyNth p f n l := if_neg (Bool.eq_false_iff.mp hr)

theorem modifyNth_of_none {n : Nat} {l : List ρ} (h : (l.filter p)[n]? = none) :
    modifyNth p f n l = l := by
  induction l generalizing n with
  | nil => rfl
  | cons r l ih =>
      cases hr : p r with
      | false =>
          rw [List.filter_cons_of_neg (Bool.eq_false_iff.mp hr)] at h
          rw [modifyNth_skip hr, ih h]
      | true =>
          rw [List.filter_cons_of_pos hr] at h
          cases n with
          | zero => exact absurd h (by simp)
          | succ n => rw [modifyNth_succ hr, ih (List.getElem?_cons_succ.symm.trans h)]

/-- Where rows are told apart by a key, the picked row can be found again by its own. -/
theorem map_eq_modifyNth {κ : Type} [DecidableEq κ] {key : ρ → κ} {n : Nat} {l : List ρ} {a : ρ}
    (hkeys : (l.map key).Nodup) (h : (l.filter p)[n]? = some a) :
    (l.map fun r => if key r = key a then f r else r) = modifyNth p f n l := by
  induction l generalizing n with
  | nil => rfl
  | cons r l ih =>
      obtain ⟨hfresh, hrest⟩ := List.nodup_cons.mp hkeys
      -- a row that is picked further on has another key
      have hlater : ∀ {n}, (l.filter p)[n]? = some a → key r ≠ key a := fun hn heq =>
        hfresh (heq ▸ List.mem_map_of_mem (List.mem_filter.mp (List.mem_of_getElem? hn)).1)
      rw [List.map_cons]
      cases hr : p r with
      | false =>
          rw [List.filter_cons_of_neg (Bool.eq_false_iff.mp hr)] at h
          rw [if_neg (hlater h), ih hrest h, modifyNth_skip hr]
      | true =>
          rw [List.filter_cons_of_pos hr] at h
          cases n with
          | zero =>
              obtain rfl : r = a := Option.some.inj h
              have hother : (l.map fun r' => if key r' = key r then f r' else r') = l := by
                refine (List.map_congr_left fun r' hr' => if_neg fun heq => ?_).trans (List.map_id' l)
                exact hfresh (List.mem_map.mpr ⟨r', hr', heq⟩)
              rw [if_pos rfl, hother, modifyNth_zero hr]
          | succ n =>
              have hn : (l.filter p)[n]? = some a := List.getElem?_cons_succ.symm.trans h
              rw [if_neg (hlater hn), ih hrest hn, modifyNth_succ hr]

/-- Among the rows of a kind that takes in all that pass the test, the pick is the same. -/
theorem filter_modifyNth {q : ρ → Bool} (hp : ∀ r, p r = true → q r = true)
    (hf : ∀ r, q (f r) = q r) (n : Nat) (l : List ρ) :
    (modifyNth p f n l).filter q = modifyNth p f n (l.filter q) := by
  induction l generalizing n with
  | nil => rfl
  | cons r l ih =>
      cases hr : p r with
      | false =>
          rw [modifyNth_skip hr, List.filter_cons, List.filter_cons, ih]
          split
          · rw [modifyNth_skip hr]
          · rfl
      | true =>
          have hq : q r = true := hp r hr
          rw [List.filter_cons_of_pos hq]
          cases n with
          | zero =>
              have hqf : q (f r) = true := (hf r).trans hq
              rw [modifyNth_zero hr, modifyNth_zero hr, List.filter_cons_of_pos hqf]
          | succ n => rw [modifyNth_succ hr, modifyNth_succ hr, List.filter_cons_of_pos hq, ih]

/-- Rows of a kind that fails the test are left alone. -/
theorem filter_modifyNth_of_apart {q : ρ → Bool} (hp : ∀ r, p r = true → q r = false)
    (hf : ∀ r, q (f r) = q r) (n : Nat) (l : List ρ) :
    (modifyNth p f n l).filter q = l.filter q := by
  induction l generalizing n with
  | nil => rfl
  | cons r l ih =>
      cases hr : p r with
      | false => rw [modifyNth_skip hr, List.filter_cons, List.filter_cons, ih]
      | true =>
          have hq : ¬ q r = true := Bool.eq_false_iff.mp (hp r hr)
          have hqf : ¬ q (f r) = true := (hf r).symm ▸ hq
          rw [List.filter_cons_of_neg hq]
          cases n with
          | zero => rw [modifyNth_zero hr, List.filter_cons_of_neg hqf]
          | succ n => rw [modifyNth_succ hr, List.filter_cons_of_neg hq, ih]

/-- The pick does not depend on what neither the test nor the rewriting looks at. -/
theorem map_modifyNth {ρ' : Type} {g : ρ → ρ'} {p' : ρ' → Bool} {f' : ρ' → ρ'}
    (hp : ∀ r, p' (g r) = p r) (hf : ∀ r, f' (g r) = g (f r)) (n : Nat) (l : List ρ) :
    (modifyNth p f n l).map g = modifyNth p' f' n (l.map g) := by
  induction l generalizing n with
  | nil => rfl
  | cons r l ih =>
      rw [List.map_cons]
      cases hr : p r with
      | false => rw [modifyNth_skip hr, modifyNth_skip ((hp r).trans hr), List.map_cons, ih]
      | true =>
          have hr' : p' (g r) = true := (hp r).trans hr
          cases n with
          | zero => rw [modifyNth_zero hr, modifyNth_zero hr', List.map_cons, hf]
          | succ n => rw [modifyNth_succ hr, modifyNth_succ hr', List.map_cons, ih]

end ModifyNth

end Lib
