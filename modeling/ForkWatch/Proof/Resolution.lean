import ForkWatch.Proof.Step

/-!
# Which hash a resolved fork names

One notification resolves every recorded fork at or below the finalized height,
and writes the finalized hash into each of them. That hash is the winner of a
fork only at the finalized height itself; for a fork below, the winner is an
*ancestor* of the finalized block, which is never looked up here.

So the ring buffer names the right winners along a run exactly as long as no
notification finds a fork below its own height still unresolved
(`resolvedRight_iff`).
-/

namespace ForkWatch.Proof

open Lib ChainContext

/-! ## The ring buffer entry of a height -/

/-- The ring buffer still has an entry for this height. -/
def OnRing (d : ForkDetector) (height : Nat) : Prop :=
  ∃ f ∈ d.recentForks, f.blockNumber = height

theorem findLast_eq_some {α : Type} {p : α → Bool} {l : List α} {x : α}
    (h : findLast p l = some x) : x ∈ l ∧ p x = true := by
  unfold findLast at h
  exact ⟨List.mem_reverse.mp (List.mem_of_find?_eq_some h), List.find?_some h⟩

theorem recentEntry_eq_some {d : ForkDetector} {height : Nat} {f : RecentFork}
    (h : d.recentEntry height = some f) : OnRing d height ∧ f.blockNumber = height := by
  obtain ⟨hm, hp⟩ := findLast_eq_some h
  have hn : f.blockNumber = height := by simpa using hp
  exact ⟨⟨f, hm, hn⟩, hn⟩

theorem recentEntry_of_onRing {d : ForkDetector} {height : Nat} (h : OnRing d height) :
    ∃ f, d.recentEntry height = some f ∧ f.blockNumber = height := by
  obtain ⟨g, hg, hn⟩ := h
  have hs : (d.recentEntry height).isSome := by
    unfold ForkDetector.recentEntry findLast
    rw [List.find?_isSome]
    exact ⟨g, List.mem_reverse.mpr hg, by simpa using hn⟩
  obtain ⟨f, hf⟩ := Option.isSome_iff_exists.mp hs
  exact ⟨f, hf, (recentEntry_eq_some hf).2⟩

theorem onRing_iff {d : ForkDetector} {height : Nat} :
    OnRing d height ↔ height ∈ d.recentForks.map RecentFork.blockNumber := by
  rw [List.mem_map]
  rfl

/-- Resolving one height leaves the heights on the ring as they are. -/
theorem onRing_resolveHeight (x : Hash) (acc : ForkDetector × List Report) (h n : Nat) :
    OnRing (ForkDetector.resolveHeight x acc h).1 n ↔ OnRing acc.1 n := by
  have hmap : (ForkDetector.resolveHeight x acc h).1.recentForks.map RecentFork.blockNumber
      = acc.1.recentForks.map RecentFork.blockNumber := map_modifyLast _ fun _ => rfl
  rw [onRing_iff, onRing_iff, hmap]

/-! ## One notification -/

/-- What a list of heights being resolved reports. -/
theorem resolveHeights_reports (x : Hash) (heights : List Nat) :
    ∀ acc : ForkDetector × List Report,
      (∀ f y, .resolved f y ∈ (heights.foldl (ForkDetector.resolveHeight x) acc).2 →
        .resolved f y ∈ acc.2 ∨
          y = x ∧ f.resolvedHash = some x ∧ f.blockNumber ∈ heights ∧ OnRing acc.1 f.blockNumber) ∧
      (∀ r ∈ acc.2, r ∈ (heights.foldl (ForkDetector.resolveHeight x) acc).2) ∧
      ∀ n ∈ heights, OnRing acc.1 n →
        ∃ f, .resolved f x ∈ (heights.foldl (ForkDetector.resolveHeight x) acc).2 ∧
          f.resolvedHash = some x ∧ f.blockNumber = n := by
  induction heights with
  | nil => intro acc; exact ⟨fun f y h => Or.inl h, fun r h => h, fun n h => absurd h (by simp)⟩
  | cons h heights ih =>
      intro acc
      obtain ⟨h1, h2, h3⟩ := ih (ForkDetector.resolveHeight x acc h)
      rw [List.foldl_cons]
      refine ⟨?_, ?_, ?_⟩
      · intro f y hf
        rcases h1 f y hf with hf | ⟨rfl, hr, hm, hring⟩
        · -- reported at this height, or before
          unfold ForkDetector.resolveHeight at hf
          simp only [List.mem_append, List.mem_singleton, reduceCtorEq, or_false,
            Option.mem_toList, Option.map_eq_some_iff] at hf
          rcases hf with hf | ⟨g, hg, he⟩
          · exact Or.inl hf
          · obtain ⟨hring, hn⟩ := recentEntry_eq_some hg
            simp only [Report.resolved.injEq] at he
            obtain ⟨rfl, rfl⟩ := he
            exact Or.inr ⟨rfl, rfl, by simp [hn], by rw [← hn] at hring; exact hring⟩
        · exact Or.inr ⟨rfl, hr, List.mem_cons_of_mem _ hm, (onRing_resolveHeight ..).mp hring⟩
      · intro r hr
        refine h2 r ?_
        unfold ForkDetector.resolveHeight
        simp [hr]
      · intro n hn hring
        rcases List.mem_cons.mp hn with rfl | hn
        · obtain ⟨f, hf, hfn⟩ := recentEntry_of_onRing hring
          refine ⟨{ f with resolved := true, resolvedHash := some x }, h2 _ ?_, rfl, hfn⟩
          unfold ForkDetector.resolveHeight
          simp [hf]
        · exact h3 n hn ((onRing_resolveHeight ..).mpr hring)

/-- The heights being resolved are no longer recorded. -/
theorem recordedForks_resolveHeights (x : Hash) (heights : List Nat)
    (acc : ForkDetector × List Report) :
    (heights.foldl (ForkDetector.resolveHeight x) acc).1.recordedForks
      = acc.1.recordedForks.filter fun n _ => n ∉ heights := by
  induction heights generalizing acc with
  | nil => exact (OrdMap.filter_eq_self fun _ _ _ => by simp).symm
  | cons h heights ih =>
      rw [List.foldl_cons, ih]
      unfold ForkDetector.resolveHeight OrdMap.erase
      dsimp only
      rw [OrdMap.filter_filter]
      refine OrdMap.filter_congr fun n _ _ => ?_
      rw [← Bool.decide_and]
      exact decide_eq_decide.mpr (by rw [List.mem_cons, not_or])

theorem recordedForks_onHeightFinalized (d : ForkDetector) (finalizedHeight : Nat) (x : Hash) :
    (d.onHeightFinalized finalizedHeight x).1.recordedForks
      = d.recordedForks.filter fun n _ => finalizedHeight < n := by
  refine (recordedForks_resolveHeights x _ (d, [])).trans (OrdMap.filter_congr fun n v hn => ?_)
  have hkey : n ∈ d.recordedForks.keys := OrdMap.mem_keys_iff.mpr ⟨v, hn⟩
  refine decide_eq_decide.mpr ?_
  rw [List.mem_filter, decide_eq_true_eq]
  exact ⟨fun h => Nat.lt_of_not_le fun hle => h ⟨hkey, hle⟩, fun h hin => absurd hin.2 (by omega)⟩

/-- A recorded fork that this notification reaches and whose ring buffer entry is still there. -/
def Resolves (d : ForkDetector) (finalizedHeight n : Nat) : Prop :=
  d.recordedForks.has n = true ∧ n ≤ finalizedHeight ∧ OnRing d n

theorem mem_onHeightFinalized {d : ForkDetector} {finalizedHeight : Nat} {x y : Hash}
    {f : RecentFork} (h : .resolved f y ∈ (d.onHeightFinalized finalizedHeight x).2) :
    y = x ∧ f.resolvedHash = some x ∧ Resolves d finalizedHeight f.blockNumber := by
  rcases (resolveHeights_reports x _ (d, [])).1 f y h with h | ⟨rfl, hr, hm, hring⟩
  · exact absurd h (by simp)
  · obtain ⟨hk, hle⟩ := List.mem_filter.mp hm
    exact ⟨rfl, hr, OrdMap.has_iff.mpr (OrdMap.mem_keys_iff.mp hk), by simpa using hle, hring⟩

theorem exists_mem_onHeightFinalized {d : ForkDetector} {finalizedHeight n : Nat} (x : Hash)
    (h : Resolves d finalizedHeight n) :
    ∃ f, .resolved f x ∈ (d.onHeightFinalized finalizedHeight x).2 ∧
      f.resolvedHash = some x ∧ f.blockNumber = n := by
  obtain ⟨hk, hle, hring⟩ := h
  refine (resolveHeights_reports x _ (d, [])).2.2 n (List.mem_filter.mpr ⟨?_, ?_⟩) hring
  · exact OrdMap.mem_keys_iff.mpr (OrdMap.has_iff.mp hk)
  · simpa using hle

/-! ## Runs -/

/-- Every fork resolved so far names the finalized block's ancestor at its own height. -/
def ResolvedRight (L : Lineage Hash) (c : ChainContext) : Prop :=
  ∀ f x, .resolved f x ∈ c.history → f.resolvedHash = some (L.ancestorAt x f.blockNumber)

/-- A notification resolves forks at its own height only. -/
def ResolvesAtHeight (c : ChainContext) : Event → Prop
  | .finalizedHeads _ number _ => ∀ n, Resolves c.forkDetector number n → n = number
  | _ => True

theorem ancestorAt_eq_self_iff {L : Lineage Hash} {x : Hash} {h : Nat} (hx : h ≤ L.number x) :
    L.ancestorAt x h = x ↔ h = L.number x := by
  refine ⟨?_, ?_⟩
  · intro he
    have := Lineage.number_ancestorAt hx
    rw [he] at this
    omega
  · rintro rfl
    exact Lineage.ancestorAt_self x

theorem not_mem_resolved_of_fromTask {rs : List Report} (h : ∀ r ∈ rs, FromTask r)
    {f : RecentFork} {x : Hash} : .resolved f x ∉ rs := fun hm => h _ hm

/-- Only notifications resolve forks. -/
theorem resolved_step {c : ChainContext} {e : Event} (he : ∀ node n x, e ≠ .finalizedHeads node n x)
    (f : RecentFork) (x : Hash) :
    .resolved f x ∈ (c.step e).history ↔ .resolved f x ∈ c.history := by
  cases e with
  | finalizedHeads node n x => exact absurd rfl (he node n x)
  | allHeads node header =>
      cases h : c.blockTree.getBlock header.hash with
      | some r =>
          rw [step_allHeads_of_known h]
          simp [seenAgain, report]
      | none =>
          rw [step_allHeads_of_new h]
          -- entering a header resolves nothing, and neither does what the detector reports of it
          have hentered : .resolved f x ∈ (entered c node header).history ↔
              .resolved f x ∈ c.history := by simp [entered, report]
          rw [← hentered]
          generalize entered c node header = c'
          unfold importNew detectFork insertForkBlocks
          dsimp only
          split
          · split
            · unfold ForkDetector.onForkUpdated ForkDetector.authorReport
              simp only [await, report, List.mem_append]
              split
              · simp
              · simp [Option.map_eq_some_iff]
            · split <;>
                simp [await, report, ForkDetector.onForkDetected, ForkDetector.authorReport]
          · rfl
  | resume i a =>
      rcases resume_cases c i a with ⟨y, n, body, -, -, heq⟩ | ⟨F, -, -, heq⟩ | hq
      · rw [heq]; rfl
      · rw [heq]; rfl
      · obtain ⟨rs, hrs, hp⟩ := hq.history
        rw [hrs, List.mem_append]
        exact ⟨fun h => h.resolve_right (not_mem_resolved_of_fromTask hp), Or.inl⟩
  | _ => rfl

/-- **Exactly when the ring buffer names the right winners.** -/
theorem resolvedRight_iff (L : Lineage Hash) (config : ChainConfig) (opts : TxOptions)
    (evs : List Event) (h : ∀ e ∈ evs, FromLineage L e) :
    (∀ pre, pre <+: evs → ResolvedRight L ((machine config opts).run pre))
      ↔ (machine config opts).Guarded ResolvesAtHeight (machine config opts).init evs := by
  refine Machine.always_iff_guarded (A := fun _ => FromLineage L) (I := fun _ => True)
    trivial (fun _ _ _ _ => trivial) ?_ ?_ (Machine.guarded_of_forall h)
  · intro f x hm
    exact absurd hm (by simp [machine])
  · intro c e _ he hc
    by_cases hfin : ∃ node n x, e = .finalizedHeads node n x
    · obtain ⟨node, number, x, rfl⟩ := hfin
      have hx : number = L.number x := he
      have hhist : (c.step (.finalizedHeads node number x)).history
          = c.history ++ ((c.forkDetector.onHeightFinalized number x).2
            ++ [.resolveForkEvent number x]) := rfl
      refine ⟨?_, ?_⟩
      · intro hstep n hn
        -- an entry further down is resolved with `x` too, not with the ancestor of `x` there
        obtain ⟨f, hf, hr, rfl⟩ := exists_mem_onHeightFinalized x hn
        have hle := hn.2.1
        have hright := hstep f x (by
          show _ ∈ (c.step _).history
          rw [hhist]; simp [hf])
        rw [hr, Option.some.injEq, eq_comm, ancestorAt_eq_self_iff (by omega)] at hright
        omega
      · intro hguard f y hm
        change _ ∈ (c.step _).history at hm
        rw [hhist] at hm
        simp only [List.mem_append, List.mem_singleton, reduceCtorEq, or_false] at hm
        rcases hm with hm | hm
        · exact hc f y hm
        · obtain ⟨rfl, hr, hres⟩ := mem_onHeightFinalized hm
          have hn := hguard _ hres
          rw [hr, hn, hx, Lineage.ancestorAt_self]
    · push Not at hfin
      have hguard : ResolvesAtHeight c e := by
        cases e with
        | finalizedHeads node n x => exact absurd rfl (hfin node n x)
        | _ => trivial
      refine ⟨fun _ => hguard, fun _ f x hm => hc f x ?_⟩
      exact (resolved_step hfin f x).mp hm

/-- A fork at height 1, resolved by the notification of its winner. -/
def oneByOneRun : List Event :=
  [reports smallLineage "n" "a1", reports smallLineage "n" "a2", finalizes smallLineage "n" "a1"]

/-- The winner is the block notified. -/
theorem resolvedRight_oneByOne :
    ResolvedRight smallLineage ((machine {} {}).run oneByOneRun) := by
  refine (resolvedRight_iff smallLineage {} {} oneByOneRun ?_).mpr ⟨trivial, trivial, ?_, trivial⟩
    _ (List.prefix_refl _)
  · intro e he
    simp only [oneByOneRun, List.mem_cons, List.not_mem_nil, or_false] at he
    rcases he with rfl | rfl | rfl
    · exact fromLineage_reports ..
    · exact fromLineage_reports ..
    · exact fromLineage_finalizes ..
  · intro n hn
    have hle : n ≤ 1 := hn.2.1
    interval_cases n
    · exact absurd hn.1 (by decide)
    · rfl

/-- A fork at height 1, resolved by the notification of the winner's child. -/
def jumpRun : List Event :=
  [reports smallLineage "n" "a1", reports smallLineage "n" "a2", reports smallLineage "n" "b1",
    finalizes smallLineage "n" "b1"]

/-- The finalized block's ancestors are all there, and yet the fork is told to be won by `b1`. -/
theorem not_resolvedRight_jumpRun :
    (∀ e ∈ jumpRun, FromLineage smallLineage e) ∧
      smallLineage.HeldDownTo (Holds ((machine {} {}).run (jumpRun.take 3)).blockTree) "b1" 1 ∧
      ¬ ResolvedRight smallLineage ((machine {} {}).run jumpRun) := by
  refine ⟨?_, ?_, ?_⟩
  · intro e he
    simp only [jumpRun, List.mem_cons, List.not_mem_nil, or_false] at he
    rcases he with rfl | rfl | rfl | rfl
    · exact fromLineage_reports ..
    · exact fromLineage_reports ..
    · exact fromLineage_reports ..
    · exact fromLineage_finalizes ..
  · intro k hk hk'
    have hle : k ≤ 2 := hk'
    unfold Holds
    rw [← Option.isSome_iff_exists]
    interval_cases k
    · decide
    · decide
  · intro h
    have hm := h ⟨1, 2, ["unknown", "unknown"], none, none, 1, none, none, none, true, some "b1"⟩ "b1"
      (by decide)
    exact absurd hm (by decide)

end ForkWatch.Proof
