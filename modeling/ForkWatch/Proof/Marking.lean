import ForkWatch.Proof.Links

/-!
# Which blocks the canonical walk marks

The walk of a notification covers the heights between its floor and the notified
one, and leaves the floor at the notified height — whether or not it got there,
and whether or not the bodies it met had been captured. Floors never go down, so
each block has one notification that can mark it: the one that carries the floor
past its number. `enteredInTime_iff` says that what the tree and the captured
bodies hold at that moment decides for good.
-/

namespace ForkWatch.Proof

open Lib ChainContext TxTracker

variable {L : Lineage Hash}

/-! ## The blocks on the path -/

/-- The walk stays between its floor and its start. -/
theorem walkPath_bounds {t : BlockTree} (ha : Authentic L t) {floor : Int} :
    ∀ {fuel : Nat} {x : Hash} {r : BlockRecord}, r ∈ walkPath t floor fuel (t.getBlock x) →
      floor < L.number r.hash ∧ L.number r.hash ≤ L.number x := by
  intro fuel
  induction fuel with
  | zero =>
      intro x r h
      cases hx : t.getBlock x with
      | none => rw [hx] at h; exact absurd h (by simp [walkPath])
      | some top => rw [hx] at h; exact absurd h (by simp [walkPath])
  | succ fuel ih =>
      intro x r h
      cases hx : t.getBlock x with
      | none => rw [hx] at h; exact absurd h (by simp [walkPath])
      | some top =>
          obtain ⟨hhash, hnum, hpar⟩ := ha x top hx
          rw [hx, walkPath] at h
          split at h
          · rename_i hfloor
            rcases List.mem_cons.mp h with rfl | h
            · rw [hhash, ← hnum]
              exact ⟨hfloor, Nat.le_refl _⟩
            · rw [hpar] at h
              obtain ⟨hlow, hhigh⟩ := ih h
              have hp := L.number_parent x
              exact ⟨hlow, by omega⟩
          · exact absurd h (by simp)

/--
**What the walk visits.** From `x` down to a floor below the number of its
ancestor `b`, with enough fuel, the walk meets `b` exactly if it holds every
header from `x` down to it.
-/
theorem mem_walkPath_iff {t : BlockTree} (ha : Authentic L t) {floor : Int} {b : Hash}
    (hb : floor < L.number b) :
    ∀ {fuel : Nat} {x : Hash}, L.IsAncestor b x →
      (L.HeldDownTo (Holds t) x (L.number b) → L.number x - L.number b < fuel) →
      ((∃ r ∈ walkPath t floor fuel (t.getBlock x), r.hash = b)
        ↔ L.HeldDownTo (Holds t) x (L.number b)) := by
  intro fuel
  induction fuel with
  | zero =>
      intro x hanc hfuel
      -- without fuel, the walk was not meant to reach `b`
      have hno : ¬ L.HeldDownTo (Holds t) x (L.number b) := fun hh => by
        have hlt := hfuel hh
        omega
      refine ⟨?_, ?_⟩
      · intro h
        obtain ⟨r, hr, -⟩ := h
        cases hx : t.getBlock x with
        | none => rw [hx] at hr; exact absurd hr (by simp [walkPath])
        | some top => rw [hx] at hr; exact absurd hr (by simp [walkPath])
      · intro h
        exact absurd h hno
  | succ fuel ih =>
      intro x hanc hfuel
      have hle := hanc.1
      cases hx : t.getBlock x with
      | none =>
          have hno : ¬ L.HeldDownTo (Holds t) x (L.number b) := fun hh => by
            obtain ⟨r, hr⟩ := hh.self hle
            rw [hx] at hr
            exact absurd hr (by simp)
          simp [walkPath, hno]
      | some top =>
          obtain ⟨hhash, hnum, hpar⟩ := ha x top hx
          rw [walkPath, if_pos (by omega), hpar]
          rcases Nat.eq_or_lt_of_le hle with heq | hlt
          · -- `b` is where the walk stands
            obtain rfl : b = x := Lineage.isAncestor_unique hanc (Lineage.isAncestor_refl x) heq
            rw [Lineage.heldDownTo_number_iff]
            exact ⟨fun _ => ⟨top, hx⟩, fun _ => ⟨top, by simp, hhash⟩⟩
          · -- `b` is further down
            have hp := L.number_parent x
            have hne : top.hash ≠ b := fun h => by
              rw [← h, hhash] at hlt
              omega
            have hrest := ih (x := L.parent x) ((Lineage.isAncestor_parent_iff hlt).mp hanc) fun hh => by
              have hfar := hfuel ((Lineage.heldDownTo_parent_iff hlt).mpr ⟨⟨top, hx⟩, hh⟩)
              omega
            rw [Lineage.heldDownTo_parent_iff hlt, ← hrest]
            simp only [List.mem_cons, exists_eq_or_imp, hne, false_or]
            exact ⟨fun h => ⟨⟨top, hx⟩, h⟩, fun h => h.2⟩

/-- The stored blocks are fuel enough for every walk along held headers. -/
theorem HeldDownTo.fuel {t : BlockTree} {x : Hash} {h : Nat} (hh : L.HeldDownTo (Holds t) x h)
    (hx : h ≤ L.number x) : L.number x - h < t.blocksByHash.size := by
  rw [OrdMap.size_eq_length_keys]
  exact hh.lt_length hx fun y hy => OrdMap.mem_keys_iff.mpr hy

/-- The blocks a notification marks, above its floor. -/
theorem mem_newlyFinal_iff {c : ChainContext} (hc : TrueTree L c) {F : Nat} {H b : Hash}
    (hb : walkFloor c.txTracker F < L.number b) (hanc : L.IsAncestor b H) :
    (∃ r ∈ newlyFinal c.txTracker F H c.blockTree, r.hash = b)
      ↔ L.HeldDownTo (Holds c.blockTree) H (L.number b) :=
  mem_walkPath_iff hc.authentic hb hanc fun hh => HeldDownTo.fuel hh hanc.1

/-! ## The floor -/

/-- The floor after a step. -/
theorem floor_step (c : ChainContext) (e : Event) :
    (∃ node F H, e = .finalizedHeads node F H ∧ (c.step e).txTracker.lastCanonicalWalkHeight
      = some (max (c.txTracker.lastCanonicalWalkHeight.getD 0) F)) ∨
    ((∀ node F H, e ≠ .finalizedHeads node F H) ∧
      (c.step e).txTracker.lastCanonicalWalkHeight = c.txTracker.lastCanonicalWalkHeight) := by
  rcases tx_step_cases c e with ⟨node, F, H, rfl, hfin⟩ | ⟨i, x, n, body, rfl, -, hcap⟩ |
    ⟨i, F, rfl, -, heq⟩ | ⟨hno, hkept⟩
  · exact Or.inl ⟨node, F, H, rfl, hfin.lastCanonicalWalkHeight⟩
  · exact Or.inr ⟨by simp, hcap.lastCanonicalWalkHeight⟩
  · exact Or.inr ⟨by simp, by rw [heq]; rfl⟩
  · exact Or.inr ⟨hno, hkept.lastCanonicalWalkHeight⟩

/-- The floor has reached this height. -/
def FloorAt (n : Nat) (c : ChainContext) : Prop :=
  ∃ f, c.txTracker.lastCanonicalWalkHeight = some f ∧ n ≤ f

theorem floorAt_step {n : Nat} {c : ChainContext} (h : FloorAt n c) (e : Event) :
    FloorAt n (c.step e) := by
  obtain ⟨f, hf, hn⟩ := h
  rcases floor_step c e with ⟨node, F, H, -, heq⟩ | ⟨-, heq⟩
  · rw [hf] at heq
    exact ⟨_, heq, Nat.le_trans hn (Nat.le_max_left ..)⟩
  · exact ⟨f, heq.trans hf, hn⟩

/-- A block was marked. -/
def Marked (b : Hash) (c : ChainContext) : Prop := ∃ txs, .marked b txs ∈ c.txTracker.history

/-- Only blocks the floor has reached are marked. -/
theorem markedBelow_step {c : ChainContext} (hc : TrueTree L c) {b : Hash} {e : Event}
    (he : FromLineage L e) (h : Marked b c → FloorAt (L.number b) c) :
    Marked b (c.step e) → FloorAt (L.number b) (c.step e) := by
  intro hm
  obtain ⟨txs, hm⟩ := hm
  rcases mem_history_step hm with hold | ⟨node, F, H, r, captured, rfl, hpath, rfl, -⟩
  · exact floorAt_step (h ⟨txs, hold⟩) e
  · have hF : F = L.number H := he
    obtain ⟨-, hhigh⟩ := walkPath_bounds hc.authentic hpath
    refine ⟨_, (finalized_step c node F H).lastCanonicalWalkHeight, ?_⟩
    omega

/-- Once the floor has reached a block, it is marked only if it was before. -/
theorem marked_step_iff_of_floorAt {c : ChainContext} (hc : TrueTree L c) {b : Hash} {e : Event}
    (h : FloorAt (L.number b) c) : Marked b (c.step e) ↔ Marked b c := by
  refine ⟨?_, ?_⟩
  · intro hm
    obtain ⟨txs, hm⟩ := hm
    rcases mem_history_step hm with hold | ⟨node, F, H, r, captured, rfl, hpath, rfl, -⟩
    · exact ⟨txs, hold⟩
    · obtain ⟨f, hf, hn⟩ := h
      obtain ⟨hlow, -⟩ := walkPath_bounds hc.authentic hpath
      have hfloor : walkFloor c.txTracker F = f := by
        unfold walkFloor
        rw [hf]
      omega
  · intro hm
    obtain ⟨txs, hm⟩ := hm
    obtain ⟨rs, hrs, -⟩ := history_step c e
    exact ⟨txs, by rw [hrs]; exact List.mem_append_left _ hm⟩

/-! ## Bodies and inclusions -/

/-- A fetched body is the one its hash stands for. -/
def TrueBody (bodyOf : Hash → List Extrinsic) (c : ChainContext) (e : Event) : Prop :=
  ∀ i body x n, e = .resume i (.body (some body)) → c.tasks[i]? = some (.getBlock x n) →
    body = bodyOf x

/-- Every captured body is the true one. -/
def TrueBodies (bodyOf : Hash → List Extrinsic) (c : ChainContext) : Prop :=
  ∀ x captured, c.txTracker.blockExtrinsics.get? x = some captured →
    ∃ n, captured.extrinsics = extractTrackedExtrinsics (bodyOf x) n

theorem trueBodies_step {bodyOf : Hash → List Extrinsic} {c : ChainContext}
    (h : TrueBodies bodyOf c) {e : Event} (he : TrueBody bodyOf c e) :
    TrueBodies bodyOf (c.step e) := by
  intro y captured hy
  rcases tx_step_cases c e with ⟨node, F, H, rfl, hfin⟩ | ⟨i, x, n, body, rfl, ht, hcap⟩ |
    ⟨i, F, rfl, -, heq⟩ | ⟨-, hkept⟩
  · rw [hfin.blockExtrinsics] at hy
    exact h y captured hy
  · rw [hcap.blockExtrinsics, OrdMap.get?_set] at hy
    split at hy
    · rename_i hyx
      obtain rfl := Option.some.inj hy
      exact ⟨n, by rw [hyx, he i body x n rfl ht]⟩
    · exact h y captured hy
  · rw [heq] at hy
    exact h y captured (body_pruneBlocks hy).1
  · rw [hkept.blockExtrinsics] at hy
    exact h y captured hy

/-- Signer and nonce do not depend on the height an extrinsic is read at. -/
theorem extractTracked_names {ext : Extrinsic} {n m : Nat} {tx : Tx}
    (h : extractTracked n ext = some tx) :
    ∃ tx', extractTracked m ext = some tx' ∧ tx'.signer = tx.signer ∧ tx'.nonce = tx.nonce := by
  cases ext with
  | unreadable => exact absurd h (by simp [extractTracked])
  | signed signer nonce hash pallet method era raw =>
      obtain rfl := Option.some.inj h
      exact ⟨_, rfl, rfl, rfl⟩
  | transact hash raw recovered =>
      obtain rfl := Option.some.inj h
      exact ⟨_, rfl, rfl, rfl⟩
  | other => exact absurd h (by simp [extractTracked])

/-- Every transaction of the body with known signer and nonce has an inclusion. -/
def HasInclusions (body : List Extrinsic) (c : ChainContext) : Prop :=
  ∀ n, ∀ tx ∈ extractTrackedExtrinsics body n, ∀ s k, tx.signer = some s → tx.nonce = some k →
    c.txTracker.latestBySignerNonce.has (s, k) = true

/-- **A marked block has an inclusion for each of its transactions.** -/
def MarkedHasInclusions (bodyOf : Hash → List Extrinsic) (b : Hash) (c : ChainContext) : Prop :=
  Marked b c → HasInclusions (bodyOf b) c

theorem markedHasInclusions_step {bodyOf : Hash → List Extrinsic} {b : Hash} {c : ChainContext}
    (hbodies : TrueBodies bodyOf c) (h : MarkedHasInclusions bodyOf b c) (e : Event) :
    MarkedHasInclusions bodyOf b (c.step e) := by
  intro hm n tx htx s k hs hk
  obtain ⟨txs, hm⟩ := hm
  rcases mem_history_step hm with hold | ⟨node, F, H, r, captured, rfl, hpath, rfl, hcap, -⟩
  · exact latest_step_mono c e (h ⟨txs, hold⟩ n tx htx s k hs hk)
  · obtain ⟨m, hm⟩ := hbodies r.hash captured hcap
    obtain ⟨ext, hext, htx⟩ := List.mem_filterMap.mp htx
    obtain ⟨tx', htx', hs', hk'⟩ := extractTracked_names (m := m) htx
    rw [(finalized_step c node F H).latestBySignerNonce, has_foldl_markInto]
    refine Or.inr ⟨r, hpath, captured, hcap, tx', ?_, hs'.trans hs, hk'.trans hk⟩
    rw [hm]
    exact List.mem_filterMap.mpr ⟨ext, hext, htx'⟩

/-! ## One block, one notification -/

/-- What holds of every reachable state. -/
structure MarkingInv (L : Lineage Hash) (bodyOf : Hash → List Extrinsic) (b : Hash)
    (c : ChainContext) : Prop where
  tree : TrueTree L c
  bodies : TrueBodies bodyOf c
  below : Marked b c → FloorAt (L.number b) c
  inclusions : MarkedHasInclusions bodyOf b c

theorem markingInv_init (L : Lineage Hash) (bodyOf : Hash → List Extrinsic) (b : Hash)
    (config : ChainConfig) (opts : TxOptions) :
    MarkingInv L bodyOf b (machine config opts).init where
  tree := trueTree_init L config opts
  bodies := by intro x captured hx; exact absurd hx (by simp [machine])
  below := by intro hm; obtain ⟨txs, hm⟩ := hm; exact absurd hm (by simp [machine])
  inclusions := by intro hm; obtain ⟨txs, hm⟩ := hm; exact absurd hm (by simp [machine])

theorem markingInv_step {bodyOf : Hash → List Extrinsic} {b : Hash} {c : ChainContext} {e : Event}
    (h : MarkingInv L bodyOf b c) (he : FromLineage L e) (hbody : TrueBody bodyOf c e) :
    MarkingInv L bodyOf b (c.step e) where
  tree := trueTree_step h.tree he
  bodies := trueBodies_step h.bodies hbody
  below := markedBelow_step h.tree he h.below
  inclusions := markedHasInclusions_step h.bodies h.inclusions e

theorem markingInv_runFrom {bodyOf : Hash → List Extrinsic} {b : Hash} {config : ChainConfig}
    {opts : TxOptions} {c : ChainContext} {evs : List Event} (h : MarkingInv L bodyOf b c)
    (hL : ∀ e ∈ evs, FromLineage L e)
    (hbody : (machine config opts).Guarded (TrueBody bodyOf) c evs) :
    MarkingInv L bodyOf b ((machine config opts).runFrom c evs) :=
  Machine.guarded_invariant_from (m := machine config opts)
    (G := fun c e => FromLineage L e ∧ TrueBody bodyOf c e)
    (fun _ _ hi hg => markingInv_step hi hg.1 hg.2) h
    (Machine.guarded_and (Machine.guarded_of_forall hL) hbody)

/-- Once the floor has reached a block, no run changes whether it is marked. -/
theorem marked_runFrom_iff {b : Hash} (config : ChainConfig) (opts : TxOptions)
    (evs : List Event) :
    ∀ {c : ChainContext}, TrueTree L c → FloorAt (L.number b) c → (∀ e ∈ evs, FromLineage L e) →
      (Marked b ((machine config opts).runFrom c evs) ↔ Marked b c) := by
  induction evs with
  | nil => intro c _ _ _; rfl
  | cons e evs ih =>
      intro c hc hf hL
      rw [Machine.runFrom_cons]
      have hrest := ih (trueTree_step hc (hL e (by simp))) (floorAt_step hf e)
        fun e' he' => hL e' (by simp [he'])
      exact hrest.trans (marked_step_iff_of_floorAt hc hf)

/--
The block has been marked, and each of its transactions with signer and nonce has an
inclusion. It is that of a transaction with this signer and nonce in a captured final
block: this one, or one that was marked after it.
-/
structure Entered (bodyOf : Hash → List Extrinsic) (config : ChainConfig) (opts : TxOptions)
    (b : Hash) (evs : List Event) : Prop where
  marked : Marked b ((machine config opts).run evs)
  inclusions : HasInclusions (bodyOf b) ((machine config opts).run evs)
  origin : ∀ s k incl, ((machine config opts).run evs).txTracker.latestBySignerNonce.get? (s, k)
    = some incl → IncludedFinal config opts evs s k incl

/-- Marking is all there is to it: the inclusions follow. -/
theorem entered_iff_marked {bodyOf : Hash → List Extrinsic} {config : ChainConfig}
    {opts : TxOptions} {b : Hash} {evs : List Event}
    (h : MarkingInv L bodyOf b ((machine config opts).run evs)) :
    Entered bodyOf config opts b evs ↔ Marked b ((machine config opts).run evs) :=
  ⟨fun hentered => hentered.marked,
    fun hm => ⟨hm, h.inclusions hm, latest_includedFinal config opts evs⟩⟩

/--
**A canonical block is marked by one notification or never.**

Take the notification that carries the floor past the block `b`, an ancestor of
the notified `H`. In every later state, `b` has been marked and each of its
transactions has an inclusion exactly if, when that notification came, the tree
held every header from `H` down to `b` and the body of `b` had been captured.
-/
theorem enteredInTime_iff (L : Lineage Hash) (bodyOf : Hash → List Extrinsic)
    (config : ChainConfig) (opts : TxOptions) (pre post : List Event) (node : NodeName)
    (F f : Nat) (H b : Hash)
    (hL : ∀ e ∈ pre ++ .finalizedHeads node F H :: post, FromLineage L e)
    (hbody : (machine config opts).Guarded (TrueBody bodyOf) (machine config opts).init
      (pre ++ .finalizedHeads node F H :: post))
    (hfloor : ((machine config opts).run pre).txTracker.lastCanonicalWalkHeight = some f)
    (hf : f < L.number b) (hanc : L.IsAncestor b H) :
    Entered bodyOf config opts b (pre ++ .finalizedHeads node F H :: post)
      ↔ L.HeldDownTo (Holds ((machine config opts).run pre).blockTree) H (L.number b) ∧
        ((machine config opts).run pre).txTracker.blockExtrinsics.has b = true := by
  have hend : MarkingInv L bodyOf b
      ((machine config opts).run (pre ++ .finalizedHeads node F H :: post)) :=
    markingInv_runFrom (markingInv_init L bodyOf b config opts) hL hbody
  rw [entered_iff_marked hend]
  obtain ⟨hbody, -⟩ := Machine.guarded_append.mp hbody
  have hinv : MarkingInv L bodyOf b ((machine config opts).run pre) :=
    markingInv_runFrom (markingInv_init L bodyOf b config opts)
      (fun e he => hL e (List.mem_append_left _ he)) hbody
  rw [Machine.run_append, Machine.runFrom_cons]
  generalize (machine config opts).run pre = c at *
  have hF : F = L.number H := hL (.finalizedHeads node F H) (by simp)
  have hstep : MarkingInv L bodyOf b (c.step (.finalizedHeads node F H)) :=
    markingInv_step hinv (hL _ (by simp)) (by intro i body x n he; exact absurd he (by simp))
  have hreached : FloorAt (L.number b) (c.step (.finalizedHeads node F H)) := by
    refine ⟨_, (finalized_step c node F H).lastCanonicalWalkHeight, ?_⟩
    have hle := hanc.1
    omega
  have hmarked : Marked b ((machine config opts).runFrom
      (c.step (.finalizedHeads node F H)) post) ↔ Marked b (c.step (.finalizedHeads node F H)) :=
    marked_runFrom_iff config opts post hstep.tree hreached fun e he => hL e (by simp [he])
  have hbefore : ¬ Marked b c := fun hm => by
    obtain ⟨f', hf', hn⟩ := hinv.below hm
    rw [hfloor, Option.some.injEq] at hf'
    omega
  have hlow : walkFloor c.txTracker F < L.number b := by
    unfold walkFloor
    rw [hfloor]
    dsimp only
    omega
  refine hmarked.trans ?_
  rw [← mem_newlyFinal_iff hinv.tree hlow hanc, OrdMap.has_iff]
  refine ⟨?_, ?_⟩
  · intro hm
    obtain ⟨txs, hm⟩ := hm
    rcases mem_history_step hm with hold | ⟨node', F', H', r, captured, he, hpath, rfl, hcap, -⟩
    · exact absurd ⟨txs, hold⟩ hbefore
    · obtain ⟨-, rfl, rfl⟩ := Event.finalizedHeads.inj he
      exact ⟨⟨r, hpath, rfl⟩, captured, hcap⟩
  · intro h
    obtain ⟨⟨r, hpath, rfl⟩, captured, hcap⟩ := h
    obtain ⟨review, resolution, hhist, -⟩ := (finalized_step c node F H).history
    refine ⟨captured.extrinsics, ?_⟩
    rw [hhist]
    have hm := mem_markReports.mpr ⟨r, hpath, captured, hcap, rfl⟩
    simp [hm]

/-- Only `a1` has a transaction. -/
def transferInA1 (x : Hash) : List Extrinsic := if x = "a1" then [transfer] else []

/-- Header and body of `a1` are there when it becomes final, right above the floor. -/
theorem entered_inTime :
    Entered transferInA1 {} {} "a1"
      ([finalizes smallLineage "n" "g", reports smallLineage "n" "a1", .resume 1 .done,
        .resume 1 (.body (some [transfer]))] ++ finalizes smallLineage "n" "a1" :: []) := by
  refine (enteredInTime_iff smallLineage transferInA1 {} {} _ _ "n" 1 0 "a1" "a1" ?_ ?_ rfl
    (by decide) (by decide)).mpr ⟨?_, by decide⟩
  · intro e he
    simp only [List.cons_append, List.nil_append, List.mem_cons, List.not_mem_nil, or_false] at he
    rcases he with rfl | rfl | rfl | rfl | rfl
    · exact fromLineage_finalizes ..
    · exact fromLineage_reports ..
    · trivial
    · trivial
    · exact fromLineage_finalizes smallLineage "n" "a1"
  · refine ⟨?_, ?_, ?_, ?_, ?_, trivial⟩
    all_goals
      intro i body x n he ht
      cases he
    cases ht
    rfl
  · exact Lineage.heldDownTo_number_iff.mpr ⟨_, rfl⟩

/-- `a1` becomes final while its body is still being fetched. -/
def lateCaptureRun : List Event :=
  [finalizes smallLineage "n" "g", reports smallLineage "n" "a1", .resume 1 .done,
    finalizes smallLineage "n" "a1", .resume 1 (.body (some [transfer]))]

/-- Header, body and notification are all there in the end, and yet there is no inclusion. -/
theorem not_hasInclusions_lateCaptureRun :
    (∀ e ∈ lateCaptureRun, FromLineage smallLineage e) ∧
      (machine {} {}).Guarded (TrueBody transferInA1) (machine {} {}).init lateCaptureRun ∧
      ((machine {} {}).run (lateCaptureRun.take 1)).txTracker.lastCanonicalWalkHeight = some 0 ∧
      Holds ((machine {} {}).run lateCaptureRun).blockTree "a1" ∧
      ((machine {} {}).run lateCaptureRun).txTracker.blockExtrinsics.has "a1" = true ∧
      ¬ HasInclusions (transferInA1 "a1") ((machine {} {}).run lateCaptureRun) := by
  refine ⟨?_, ?_, rfl, ⟨_, rfl⟩, by decide, ?_⟩
  · intro e he
    simp only [lateCaptureRun, List.mem_cons, List.not_mem_nil, or_false] at he
    rcases he with rfl | rfl | rfl | rfl | rfl
    · exact fromLineage_finalizes ..
    · exact fromLineage_reports ..
    · trivial
    · exact fromLineage_finalizes ..
    · trivial
  · refine ⟨?_, ?_, ?_, ?_, ?_, trivial⟩
    all_goals
      intro i body x n he ht
      cases he
    cases ht
    rfl
  · intro h
    have hhas := h 1 ⟨.substrate, some "alice", some 0, "t", "balances", "transfer", none, "0x00"⟩
      (List.mem_singleton_self _) "alice" 0 rfl rfl
    exact absurd hhas (by decide)

end ForkWatch.Proof
