import ForkWatch.Proof.TxStep

/-!
# What a finality notification does to the transaction tracker

Three passes over three kinds of state, in this order: the canonical walk marks
the bodies of what has become final (`walkFinalized_eq`), each forked height
below is reviewed once (`reviewed_heights`), and the entries whose grace window
has ended are resolved (`kept_resolveDue`). `finalized_spec` puts them together;
it is all that later files know of `onHeightFinalized`.
-/

namespace ForkWatch.Proof

open Lib ChainContext TxTracker

/-! ## The canonical walk -/

/-- The records a canonical walk visits, from the top down. -/
def walkPath (tree : BlockTree) (floor : Int) : Nat → Option BlockRecord → List BlockRecord
  | _, none => []
  | 0, some _ => []
  | fuel + 1, some r =>
      if floor < r.number then r :: walkPath tree floor fuel (tree.getBlock r.parentHash) else []

/-- The inclusions once a block is marked. -/
def markInto (bodies : OrdMap Hash Captured) (latest : OrdMap (Address × Nat) Inclusion)
    (r : BlockRecord) : OrdMap (Address × Nat) Inclusion :=
  match bodies.get? r.hash with
  | none => latest
  | some captured => captured.extrinsics.foldl (recordInclusion r.hash r.number) latest

/-- What marking a block reports. -/
def markReports (bodies : OrdMap Hash Captured) (r : BlockRecord) : List TxReport :=
  match bodies.get? r.hash with
  | none => []
  | some captured => [.marked r.hash captured.extrinsics]

theorem markCanonical_eq (t : TxTracker) (r : BlockRecord) :
    t.markCanonical r.hash r.number = { t with
      latestBySignerNonce := markInto t.blockExtrinsics t.latestBySignerNonce r
      history := t.history ++ markReports t.blockExtrinsics r } := by
  unfold markCanonical markInto markReports
  cases t.blockExtrinsics.get? r.hash with
  | none => rw [List.append_nil]
  | some captured => rfl

theorem canonicalWalk_eq (tree : BlockTree) (floor : Int) (fuel : Nat) :
    ∀ (cursor : Option BlockRecord) (t : TxTracker),
      canonicalWalk tree floor fuel cursor t = { t with
        latestBySignerNonce := (walkPath tree floor fuel cursor).foldl
          (markInto t.blockExtrinsics) t.latestBySignerNonce
        history := t.history
          ++ (walkPath tree floor fuel cursor).flatMap (markReports t.blockExtrinsics) } := by
  induction fuel with
  | zero =>
      intro cursor t
      cases cursor with
      | none => simp [canonicalWalk, walkPath]
      | some r => simp [canonicalWalk, walkPath]
  | succ fuel ih =>
      intro cursor t
      cases cursor with
      | none => simp [canonicalWalk, walkPath]
      | some r =>
          unfold canonicalWalk walkPath
          split
          · rw [ih, markCanonical_eq, List.foldl_cons, List.flatMap_cons, List.append_assoc]
          · simp

/-- The floor of the next walk. -/
def walkFloor (t : TxTracker) (finalizedHeight : Nat) : Int :=
  match t.lastCanonicalWalkHeight with
  | some h => h
  | none => finalizedHeight - 1

/-- The records a notification marks. -/
def newlyFinal (t : TxTracker) (F : Nat) (H : Hash) (tree : BlockTree) : List BlockRecord :=
  walkPath tree (walkFloor t F) tree.blocksByHash.size (tree.getBlock H)

theorem walkFinalized_eq (t : TxTracker) (F : Nat) (H : Hash) (tree : BlockTree) :
    t.walkFinalized F H tree = { t with
      lastCanonicalWalkHeight := some (max (t.lastCanonicalWalkHeight.getD 0) F)
      latestBySignerNonce := (newlyFinal t F H tree).foldl (markInto t.blockExtrinsics)
        t.latestBySignerNonce
      history := t.history
        ++ (newlyFinal t F H tree).flatMap (markReports t.blockExtrinsics) } := by
  unfold walkFinalized
  dsimp only
  rw [canonicalWalk_eq]
  rfl

/-- Which signers and nonces have an inclusion once a block is marked. -/
theorem has_foldl_recordInclusion (x : Hash) (n : Nat) (txs : List Tx)
    (latest : OrdMap (Address × Nat) Inclusion) (s : Address) (k : Nat) :
    (txs.foldl (recordInclusion x n) latest).has (s, k) = true
      ↔ latest.has (s, k) = true ∨ ∃ tx ∈ txs, tx.signer = some s ∧ tx.nonce = some k := by
  induction txs generalizing latest with
  | nil => simp
  | cons tx txs ih =>
      have hone : (recordInclusion x n latest tx).has (s, k) = true
          ↔ latest.has (s, k) = true ∨ (tx.signer = some s ∧ tx.nonce = some k) := by
        unfold recordInclusion
        cases hs : tx.signer with
        | none => simp
        | some s' =>
            cases hk : tx.nonce with
            | none => simp
            | some k' =>
                dsimp only
                rw [OrdMap.has_set]
                simp only [Bool.or_eq_true, decide_eq_true_eq, Prod.mk.injEq, Option.some.injEq]
                refine ⟨?_, ?_⟩
                · intro h
                  rcases h with ⟨rfl, rfl⟩ | h
                  · exact Or.inr ⟨rfl, rfl⟩
                  · exact Or.inl h
                · intro h
                  rcases h with h | ⟨rfl, rfl⟩
                  · exact Or.inr h
                  · exact Or.inl ⟨rfl, rfl⟩
      rw [List.foldl_cons, ih, hone]
      simp only [List.mem_cons, exists_eq_or_imp, or_assoc]

/-- Which signers and nonces have an inclusion after a walk. -/
theorem has_foldl_markInto (bodies : OrdMap Hash Captured) (path : List BlockRecord)
    (latest : OrdMap (Address × Nat) Inclusion) (s : Address) (k : Nat) :
    (path.foldl (markInto bodies) latest).has (s, k) = true
      ↔ latest.has (s, k) = true ∨ ∃ r ∈ path, ∃ captured, bodies.get? r.hash = some captured ∧
        ∃ tx ∈ captured.extrinsics, tx.signer = some s ∧ tx.nonce = some k := by
  induction path generalizing latest with
  | nil => simp
  | cons r path ih =>
      have hone : (markInto bodies latest r).has (s, k) = true ↔ latest.has (s, k) = true ∨
          ∃ captured, bodies.get? r.hash = some captured ∧
            ∃ tx ∈ captured.extrinsics, tx.signer = some s ∧ tx.nonce = some k := by
        unfold markInto
        cases bodies.get? r.hash with
        | none => simp
        | some captured => simp [has_foldl_recordInclusion]
      rw [List.foldl_cons, ih, hone]
      simp only [List.mem_cons, exists_eq_or_imp, or_assoc]

/-! ## The review of forked heights -/

/-- The entries a list of reports says were queued, each with its notification. -/
def queuedOf (rs : List TxReport) : List (ReorgEntry × Hash) :=
  rs.filterMap fun r => match r with
    | .queued entry H => some (entry, H)
    | _ => none

@[simp] theorem queuedOf_append (rs rs' : List TxReport) :
    queuedOf (rs ++ rs') = queuedOf rs ++ queuedOf rs' := List.filterMap_append

theorem mem_queuedOf {rs : List TxReport} {e : ReorgEntry} {H : Hash} :
    (e, H) ∈ queuedOf rs ↔ .queued e H ∈ rs := by
  unfold queuedOf
  rw [List.mem_filterMap]
  refine ⟨?_, ?_⟩
  · intro h
    obtain ⟨r, hr, he⟩ := h
    cases r with
    | queued e' H' =>
        obtain ⟨rfl, rfl⟩ := Prod.mk.inj (Option.some.inj he)
        exact hr
    | _ => exact absurd he (by simp)
  · intro h
    exact ⟨_, h, rfl⟩

/-- Reports that never speak of the queue. -/
theorem queuedOf_eq_nil {p : TxReport → Prop} {rs : List TxReport} (h : ∀ r ∈ rs, p r)
    (hp : ∀ e H, ¬ p (.queued e H)) : queuedOf rs = [] := by
  refine List.eq_nil_iff_forall_not_mem.mpr ?_
  intro q hq
  obtain ⟨e, H⟩ := q
  exact hp e H (h _ (mem_queuedOf.mp hq))

/-- Reports of the review of these entries. -/
def OfReview (l : List ReorgEntry) : TxReport → Prop
  | .queued .. | .attempted _ | .resubmitAttempt _ => True
  | .loopStarted record => ∃ e ∈ l, record = e.retry
  | _ => False

theorem OfReview.mono {l l' : List ReorgEntry} (hl : ∀ e ∈ l, e ∈ l') {r : TxReport}
    (h : OfReview l r) : OfReview l' r := by
  cases r with
  | loopStarted record =>
      obtain ⟨e, he, hr⟩ := h
      exact ⟨e, hl e he, hr⟩
  | _ => exact h

/-- These heights were reviewed on a notification of `H`, and these entries queued. -/
structure Reviewed (H : Hash) (hs : List Nat) (l : List ReorgEntry) (t t' : TxTracker) :
    Prop where
  opts : t'.opts = t.opts
  blockExtrinsics : t'.blockExtrinsics = t.blockExtrinsics
  processed : ∀ k, t'.processedForkHeights.has k = true
    ↔ t.processedForkHeights.has k = true ∨ k ∈ hs
  lastCanonicalWalkHeight : t'.lastCanonicalWalkHeight = t.lastCanonicalWalkHeight
  latestBySignerNonce : t'.latestBySignerNonce = t.latestBySignerNonce
  includedHashes : t'.includedHashes = t.includedHashes
  pending : t'.pendingReorgReview = t.pendingReorgReview ++ l
  history : ∃ rs, t'.history = t.history ++ rs ∧ queuedOf rs = l.map (·, H) ∧
    ∀ r ∈ rs, OfReview l r

theorem Reviewed.refl (H : Hash) (t : TxTracker) : Reviewed H [] [] t t where
  opts := rfl
  blockExtrinsics := rfl
  processed := by simp
  lastCanonicalWalkHeight := rfl
  latestBySignerNonce := rfl
  includedHashes := rfl
  pending := by simp
  history := ⟨[], by simp, rfl, by simp⟩

theorem Reviewed.trans {H : Hash} {hs hs' : List Nat} {l l' : List ReorgEntry}
    {t t' t'' : TxTracker} (h : Reviewed H hs l t t') (h' : Reviewed H hs' l' t' t'') :
    Reviewed H (hs ++ hs') (l ++ l') t t'' where
  opts := h'.opts.trans h.opts
  blockExtrinsics := h'.blockExtrinsics.trans h.blockExtrinsics
  processed := by
    intro k
    rw [h'.processed, h.processed, List.mem_append, or_assoc]
  lastCanonicalWalkHeight := h'.lastCanonicalWalkHeight.trans h.lastCanonicalWalkHeight
  latestBySignerNonce := h'.latestBySignerNonce.trans h.latestBySignerNonce
  includedHashes := h'.includedHashes.trans h.includedHashes
  pending := by rw [h'.pending, h.pending, List.append_assoc]
  history := by
    obtain ⟨rs, hrs, hq, hp⟩ := h.history
    obtain ⟨rs', hrs', hq', hp'⟩ := h'.history
    refine ⟨rs ++ rs', by rw [hrs', hrs, List.append_assoc], ?_, fun r hr => ?_⟩
    · rw [queuedOf_append, hq, hq', List.map_append]
    · rcases List.mem_append.mp hr with hr | hr
      · exact (hp r hr).mono fun e he => List.mem_append_left l' he
      · exact (hp' r hr).mono fun e he => List.mem_append_right l he

theorem reviewed_queueEntry (t : TxTracker) (H : Hash) (e : ReorgEntry) :
    Reviewed H [] [e] t (t.queueEntry H e) := by
  unfold queueEntry
  have hstart := kept_startResubmitRetry
    ({ t with pendingReorgReview := t.pendingReorgReview ++ [e] }.emit (.queued e H)) e.retry
  exact {
    opts := hstart.opts
    blockExtrinsics := hstart.blockExtrinsics
    processed := by
      intro k
      rw [hstart.processedForkHeights]
      simp [emit]
    lastCanonicalWalkHeight := hstart.lastCanonicalWalkHeight
    latestBySignerNonce := hstart.latestBySignerNonce
    includedHashes := hstart.includedHashes
    pending := hstart.pendingReorgReview
    history := by
      obtain ⟨rs, hrs, hp⟩ := hstart.history
      refine ⟨.queued e H :: rs, by rw [hrs]; simp [emit], ?_, ?_⟩
      · have hnone : queuedOf rs = [] := queuedOf_eq_nil hp fun _ _ h => h
        have hcons : queuedOf (.queued e H :: rs) = (e, H) :: queuedOf rs := rfl
        rw [hcons, hnone]
        rfl
      · intro r hr
        rcases List.mem_cons.mp hr with rfl | hr
        · trivial
        · have hr := hp r hr
          cases r with
          | loopStarted record => exact ⟨e, by simp, hr⟩
          | attempted _ => trivial
          | resubmitAttempt _ => trivial
          | _ => exact absurd hr id }

/-- A loop each turn of which reviews what only the options and the bodies decide. -/
theorem reviewed_foldl {α : Type} {H : Hash} {f : TxTracker → α → TxTracker}
    {g : α → List ReorgEntry} {t : TxTracker}
    (hf : ∀ u, u.opts = t.opts → u.blockExtrinsics = t.blockExtrinsics →
      ∀ a, Reviewed H [] (g a) u (f u a)) (l : List α) :
    Reviewed H [] (l.flatMap g) t (l.foldl f t) := by
  suffices key : ∀ u, u.opts = t.opts → u.blockExtrinsics = t.blockExtrinsics →
      Reviewed H [] (l.flatMap g) u (l.foldl f u) from key t rfl rfl
  induction l with
  | nil => intro u _ _; exact Reviewed.refl H u
  | cons a l ih =>
      intro u ho hb
      have ha := hf u ho hb a
      exact ha.trans (ih (f u a) (ha.opts.trans ho) (ha.blockExtrinsics.trans hb))

/-- The entries one competing block gives, unless it is the canonical one. -/
def lossesOf (opts : TxOptions) (bodies : OrdMap Hash Captured) (height : Nat)
    (canonical : Option BlockRecord) (x : Hash) : List ReorgEntry :=
  if canonical.map BlockRecord.hash = some x then []
  else match bodies.get? x with
    | none => []
    | some losing => losing.extrinsics.map (lostEntry opts height x)

/-- The entries one forked height gives. -/
def lossesAt (t : TxTracker) (H : Hash) (tree : BlockTree) (height : Nat) : List ReorgEntry :=
  match tree.getBlocksAtHeight height with
  | none => []
  | some blocks => blocks.keys.flatMap
      (lossesOf t.opts t.blockExtrinsics height (tree.getCanonicalAncestorAt H height))

theorem reviewed_queueLosing (t : TxTracker) (height : Nat) (H : Hash)
    (canonical : Option BlockRecord) (x : Hash) :
    Reviewed H [] (lossesOf t.opts t.blockExtrinsics height canonical x) t
      (queueLosing height H canonical t x) := by
  unfold queueLosing lossesOf
  split
  · exact Reviewed.refl H t
  · cases t.blockExtrinsics.get? x with
    | none => exact Reviewed.refl H t
    | some losing =>
        dsimp only
        rw [List.map_eq_flatMap]
        refine reviewed_foldl (fun u ho _ tx => ?_) losing.extrinsics
        rw [← ho]
        exact reviewed_queueEntry u H _

theorem reviewed_queueReorgReview (t : TxTracker) (height : Nat) (H : Hash) (tree : BlockTree) :
    Reviewed H [] (lossesAt t H tree height) t (t.queueReorgReview height H tree) := by
  unfold queueReorgReview lossesAt
  cases tree.getBlocksAtHeight height with
  | none => exact Reviewed.refl H t
  | some blocks =>
      refine reviewed_foldl (fun u ho hb x => ?_) blocks.keys
      rw [← ho, ← hb]
      exact reviewed_queueLosing u height H _ x

/-- The height is forked, final, and has not been reviewed. -/
def IsDue (t : TxTracker) (F h : Nat) : Bool := h ≤ F && !t.processedForkHeights.has h

/-- The forked heights a notification reviews. -/
def dueHeights (t : TxTracker) (F : Nat) (tree : BlockTree) : List Nat :=
  tree.getForkedHeights.filter (IsDue t F)

theorem mem_dueHeights {t : TxTracker} {F h : Nat} {tree : BlockTree} :
    h ∈ dueHeights t F tree ↔
      h ∈ tree.getForkedHeights ∧ h ≤ F ∧ t.processedForkHeights.has h = false := by
  unfold dueHeights IsDue
  rw [List.mem_filter]
  simp

theorem reviewed_reviewHeight (t : TxTracker) (F : Nat) (H : Hash) (tree : BlockTree) (h : Nat) :
    Reviewed H ([h].filter (IsDue t F)) (([h].filter (IsDue t F)).flatMap (lossesAt t H tree)) t
      (reviewHeight F H tree t h) := by
  unfold reviewHeight
  split
  · rename_i hskip
    -- a height that was processed, or is not final yet, is skipped
    have hdue : IsDue t F h = false := by
      unfold IsDue
      simp only [Bool.or_eq_true, decide_eq_true_eq] at hskip
      rcases hskip with hlt | hdone
      · rw [decide_eq_false (by omega)]
        rfl
      · rw [hdone]
        simp
    rw [List.filter_singleton, hdue]
    exact Reviewed.refl H t
  · rename_i hgo
    have hdue : IsDue t F h = true := by
      unfold IsDue
      simp only [Bool.or_eq_true, decide_eq_true_eq, not_or, Bool.not_eq_true] at hgo
      rw [hgo.2, decide_eq_true (by omega)]
      rfl
    rw [List.filter_singleton, hdue]
    have hq := reviewed_queueReorgReview
      { t with processedForkHeights := t.processedForkHeights.add h } h H tree
    exact {
      opts := hq.opts
      blockExtrinsics := hq.blockExtrinsics
      processed := by
        intro k
        rw [hq.processed]
        simp [or_comm]
      lastCanonicalWalkHeight := hq.lastCanonicalWalkHeight
      latestBySignerNonce := hq.latestBySignerNonce
      includedHashes := hq.includedHashes
      pending := by rw [hq.pending]; simp [lossesAt]
      history := by
        obtain ⟨rs, hrs, hq, hp⟩ := hq.history
        refine ⟨rs, hrs, ?_, ?_⟩
        · rw [hq]; simp [lossesAt]
        · simpa [lossesAt] using hp }

/-- What a height gives does not depend on which heights were reviewed before it. -/
theorem lossesAt_congr {t u : TxTracker} (ho : u.opts = t.opts)
    (hb : u.blockExtrinsics = t.blockExtrinsics) (H : Hash) (tree : BlockTree) :
    lossesAt u H tree = lossesAt t H tree := by
  funext h
  unfold lossesAt
  rw [ho, hb]

/-- **The review of one notification.** Each height occurs once in the list, so
reviewing one does not change whether another is due. -/
theorem reviewed_heights (t : TxTracker) (F : Nat) (H : Hash) (tree : BlockTree) :
    Reviewed H (dueHeights t F tree) ((dueHeights t F tree).flatMap (lossesAt t H tree)) t
      (tree.getForkedHeights.foldl (reviewHeight F H tree) t) := by
  unfold dueHeights
  have hnodup := getForkedHeights_nodup tree
  generalize tree.getForkedHeights = hs at hnodup ⊢
  induction hs generalizing t with
  | nil => exact Reviewed.refl H t
  | cons h hs ih =>
      obtain ⟨hh, hnodup⟩ := List.nodup_cons.mp hnodup
      have hone := reviewed_reviewHeight t F H tree h
      have hrest := ih (reviewHeight F H tree t h) hnodup
      have hdue : hs.filter (IsDue (reviewHeight F H tree t h) F) = hs.filter (IsDue t F) := by
        refine List.filter_congr ?_
        intro k hk
        have hkh : k ≠ h := fun e => hh (e ▸ hk)
        have hiff : (reviewHeight F H tree t h).processedForkHeights.has k = true
            ↔ t.processedForkHeights.has k = true := by
          rw [hone.processed]
          simp [hkh]
        unfold IsDue
        rw [Bool.eq_iff_iff.mpr hiff]
      rw [hdue, lossesAt_congr hone.opts hone.blockExtrinsics] at hrest
      have happ : (h :: hs).filter (IsDue t F) = [h].filter (IsDue t F) ++ hs.filter (IsDue t F) := by
        rw [← List.filter_append]
        rfl
      rw [happ, List.flatMap_append]
      exact hone.trans hrest

/-! ## The end of the grace window -/

/-- Reports of the resolution of one of these entries: lost means not seen since. -/
def OfResolution (latestFor : Option Address → Option Nat → Option Inclusion)
    (due : List ReorgEntry) : TxReport → Prop
  | .submitted row => ∃ e ∈ due, row.firstHash = e.hash ∧ row.lostAtHeight = some e.lostAtHeight ∧
      (row.status = .reorgedLost ∨ row.status = .expired → latestFor e.signer e.nonce = none)
  | _ => False

theorem kept_resolveReorgEntry (t : TxTracker) (e : ReorgEntry) :
    Kept (OfResolution t.latestFor [e]) t (t.resolveReorgEntry e) := by
  unfold resolveReorgEntry
  split
  · rename_i resubmission _
    refine (kept_finalize t e.toTx e.hash _ _).mono ?_
    intro r hr
    cases r with
    | submitted row =>
        obtain ⟨hfirst, hstatus, hlost⟩ := hr
        refine ⟨e, by simp, hfirst, hlost, fun h => ?_⟩
        rw [hstatus] at h
        exact absurd h (by simp)
    | _ => exact absurd hr id
  · rename_i hnone
    split
    · exact Kept.refl t
    · rename_i hother
      -- no other hash is canonical, and this one is not either
      have hlatest : t.latestFor e.signer e.nonce = none := by
        cases hl : t.latestFor e.signer e.nonce with
        | none => rfl
        | some latest =>
            unfold findResubmission at hnone
            rw [hl, Option.filter_eq_none_iff] at hnone
            rw [hl] at hother
            exact absurd (by simpa using hnone latest rfl) (by simpa using hother)
      refine (kept_finalize t e.toTx e.hash _ _).mono ?_
      intro r hr
      cases r with
      | submitted row => exact ⟨e, by simp, hr.1, hr.2.2, fun _ => hlatest⟩
      | _ => exact absurd hr id

/-- The entries a notification resolves. -/
def dueEntries (F : Nat) (pending : List ReorgEntry) : List ReorgEntry :=
  pending.filter fun e => e.dueAtHeight ≤ F

/-- Everything but the queue is kept. -/
theorem kept_resolveDue (t : TxTracker) (F : Nat) :
    Kept (OfResolution t.latestFor (dueEntries F t.pendingReorgReview)) t
      { t.resolveDue F with pendingReorgReview := t.pendingReorgReview } := by
  unfold resolveDue
  have hloop : Kept (OfResolution t.latestFor (dueEntries F t.pendingReorgReview)) t
      (t.pendingReorgReview.foldl (fun t entry =>
        if F < entry.dueAtHeight then t else t.resolveReorgEntry entry) t) := by
    refine kept_foldl fun u hu e he => ?_
    split
    · exact Kept.refl u
    · rename_i hdue
      have hmem : e ∈ dueEntries F t.pendingReorgReview := by
        refine List.mem_filter.mpr ⟨he, ?_⟩
        simpa using hdue
      refine (kept_resolveReorgEntry u e).mono fun r hr => ?_
      cases r with
      | submitted row =>
          obtain ⟨e', he', hfirst, hlost, hstatus⟩ := hr
          obtain rfl := List.mem_singleton.mp he'
          refine ⟨e', hmem, hfirst, hlost, fun h => ?_⟩
          have hlatest := hstatus h
          unfold latestFor at hlatest ⊢
          rw [← hu.latestBySignerNonce]
          exact hlatest
      | _ => exact absurd hr id
  exact { hloop with pendingReorgReview := rfl }

/-! ## The whole notification -/

/-- The entries a notification queues. -/
def losses (t : TxTracker) (F : Nat) (H : Hash) (tree : BlockTree) : List ReorgEntry :=
  (dueHeights t F tree).flatMap (lossesAt t H tree)

/-- Who is queued: the transactions of captured bodies at due heights, the winner's apart. -/
theorem mem_losses {t : TxTracker} {F : Nat} {H : Hash} {tree : BlockTree} (hi : TreeInv tree)
    {e : ReorgEntry} :
    e ∈ losses t F H tree ↔ ∃ x r captured tx, tree.getBlock x = some r ∧
      r.number ∈ dueHeights t F tree ∧
      (tree.getCanonicalAncestorAt H r.number).map BlockRecord.hash ≠ some x ∧
      t.blockExtrinsics.get? x = some captured ∧ tx ∈ captured.extrinsics ∧
      e = lostEntry t.opts r.number x tx := by
  unfold losses lossesAt lossesOf
  rw [List.mem_flatMap]
  refine ⟨?_, ?_⟩
  · intro h
    obtain ⟨n, hn, he⟩ := h
    split at he
    · exact absurd he (by simp)
    · rename_i blocks hblocks
      obtain ⟨x, hx, he⟩ := List.mem_flatMap.mp he
      obtain ⟨r, hr, rfl⟩ := hi.mem_keysAt_iff.mp ⟨blocks, hblocks, hx⟩
      split at he
      · exact absurd he (by simp)
      · rename_i hcanon
        cases hcap : t.blockExtrinsics.get? x with
        | none => rw [hcap] at he; exact absurd he (by simp)
        | some captured =>
            rw [hcap] at he
            obtain ⟨tx, htx, rfl⟩ := List.mem_map.mp he
            exact ⟨x, r, captured, tx, hr, hn, hcanon, hcap, htx, rfl⟩
  · intro h
    obtain ⟨x, r, captured, tx, hr, hn, hcanon, hcap, htx, rfl⟩ := h
    obtain ⟨blocks, hblocks, hx⟩ := hi.mem_keysAt_iff.mpr ⟨r, hr, rfl⟩
    refine ⟨r.number, hn, ?_⟩
    rw [hblocks]
    refine List.mem_flatMap.mpr ⟨x, hx, ?_⟩
    rw [if_neg hcanon, hcap]
    exact List.mem_map.mpr ⟨tx, htx, rfl⟩

/-- What a notification of `H` at height `F` does to what belongs to the blocks. -/
structure Finalized (F : Nat) (H : Hash) (tree : BlockTree) (t t' : TxTracker) : Prop where
  opts : t'.opts = t.opts
  blockExtrinsics : t'.blockExtrinsics = t.blockExtrinsics
  processed : ∀ k, t'.processedForkHeights.has k = true
    ↔ t.processedForkHeights.has k = true ∨ k ∈ dueHeights t F tree
  lastCanonicalWalkHeight :
    t'.lastCanonicalWalkHeight = some (max (t.lastCanonicalWalkHeight.getD 0) F)
  latestBySignerNonce : t'.latestBySignerNonce
    = (newlyFinal t F H tree).foldl (markInto t.blockExtrinsics) t.latestBySignerNonce
  includedHashes : t'.includedHashes = t.includedHashes
  pending : t'.pendingReorgReview
    = (t.pendingReorgReview ++ losses t F H tree).filter (fun e => F < e.dueAtHeight)
  history : ∃ review resolution,
    t'.history = t.history ++ (newlyFinal t F H tree).flatMap (markReports t.blockExtrinsics)
      ++ review ++ resolution ∧
    queuedOf review = (losses t F H tree).map (·, H) ∧
    (∀ r ∈ review, OfReview (losses t F H tree) r) ∧
    ∀ r ∈ resolution, OfResolution t'.latestFor
      (dueEntries F (t.pendingReorgReview ++ losses t F H tree)) r

/-- **What a finality notification does.** -/
theorem finalized_spec (t : TxTracker) (F : Nat) (H : Hash) (tree : BlockTree) :
    Finalized F H tree t (t.onHeightFinalized F H tree) := by
  unfold onHeightFinalized
  dsimp only
  generalize hwalked :
    ({ t with lastKnownHeight := max t.lastKnownHeight F } : TxTracker).walkFinalized F H tree = walked
  rw [walkFinalized_eq] at hwalked
  -- the walk changes nothing a review looks at
  have hrev : Reviewed H (dueHeights t F tree) (losses t F H tree) walked
      (tree.getForkedHeights.foldl (reviewHeight F H tree) walked) := by
    have hdue : dueHeights walked F tree = dueHeights t F tree := by
      subst hwalked
      rfl
    have hloss : lossesAt walked H tree = lossesAt t H tree := by
      subst hwalked
      exact lossesAt_congr rfl rfl H tree
    have hall := reviewed_heights walked F H tree
    rw [hdue, hloss] at hall
    exact hall
  generalize tree.getForkedHeights.foldl (reviewHeight F H tree) walked = u at hrev ⊢
  subst hwalked
  have hres := kept_resolveDue u F
  have hlatest : (u.resolveDue F).latestFor = u.latestFor := by
    funext signer nonce
    unfold latestFor
    rw [show (u.resolveDue F).latestBySignerNonce = u.latestBySignerNonce from
      hres.latestBySignerNonce]
  exact {
    opts := hres.opts.trans hrev.opts
    blockExtrinsics := hres.blockExtrinsics.trans hrev.blockExtrinsics
    processed := by
      intro k
      rw [show (u.resolveDue F).processedForkHeights = u.processedForkHeights from
        hres.processedForkHeights]
      exact hrev.processed k
    lastCanonicalWalkHeight := hres.lastCanonicalWalkHeight.trans hrev.lastCanonicalWalkHeight
    latestBySignerNonce := hres.latestBySignerNonce.trans hrev.latestBySignerNonce
    includedHashes := hres.includedHashes.trans hrev.includedHashes
    pending := by
      have hpending : (u.resolveDue F).pendingReorgReview
          = u.pendingReorgReview.filter (fun e => F < e.dueAtHeight) := rfl
      rw [hpending, hrev.pending]
    history := by
      obtain ⟨review, hreview, hqueued, hofReview⟩ := hrev.history
      obtain ⟨resolution, hresolution, hofResolution⟩ := hres.history
      rw [hrev.pending] at hofResolution
      rw [hlatest]
      exact ⟨review, resolution, hresolution.trans (congrArg (· ++ resolution) hreview), hqueued,
        hofReview, hofResolution⟩ }

/-! ## One step of the program -/

/-- The tree with its finalized height raised, as the notification is handled on. -/
def noted (t : BlockTree) (F : Nat) : BlockTree :=
  { t with finalizedHeight := max t.finalizedHeight F }

theorem ancestorWalk_noted (t : BlockTree) (F h : Nat) :
    ∀ fuel cursor, (noted t F).ancestorWalk h fuel cursor = t.ancestorWalk h fuel cursor := by
  intro fuel
  induction fuel with
  | zero => intro cursor; cases cursor <;> rfl
  | succ fuel ih =>
      intro cursor
      cases cursor with
      | none => rfl
      | some r =>
          unfold BlockTree.ancestorWalk
          rw [ih]
          rfl

theorem walkPath_noted (t : BlockTree) (F : Nat) (floor : Int) :
    ∀ fuel cursor, walkPath (noted t F) floor fuel cursor = walkPath t floor fuel cursor := by
  intro fuel
  induction fuel with
  | zero => intro cursor; cases cursor <;> rfl
  | succ fuel ih =>
      intro cursor
      cases cursor with
      | none => rfl
      | some r =>
          unfold walkPath
          rw [ih]
          rfl

theorem losses_noted (t : TxTracker) (F : Nat) (H : Hash) (tree : BlockTree) :
    losses t F H (noted tree F) = losses t F H tree := by
  have hcanon : (noted tree F).getCanonicalAncestorAt H = tree.getCanonicalAncestorAt H := by
    funext h
    exact ancestorWalk_noted tree F h _ _
  unfold losses lossesAt
  rw [hcanon]
  rfl

/-- **A finality notification, as a step of the program.** -/
theorem finalized_step (c : ChainContext) (node : NodeName) (F : Nat) (H : Hash) :
    Finalized F H c.blockTree c.txTracker (c.step (.finalizedHeads node F H)).txTracker := by
  have hspec := finalized_spec c.txTracker F H (noted c.blockTree F)
  have hnewly : newlyFinal c.txTracker F H (noted c.blockTree F)
      = newlyFinal c.txTracker F H c.blockTree := walkPath_noted ..
  have hlosses := losses_noted c.txTracker F H c.blockTree
  exact {
    opts := hspec.opts
    blockExtrinsics := hspec.blockExtrinsics
    processed := hspec.processed
    lastCanonicalWalkHeight := hspec.lastCanonicalWalkHeight
    latestBySignerNonce := by rw [← hnewly]; exact hspec.latestBySignerNonce
    includedHashes := hspec.includedHashes
    pending := by rw [← hlosses]; exact hspec.pending
    history := by rw [← hnewly, ← hlosses]; exact hspec.history }

/-- A body was captured, and nothing else that belongs to the blocks has changed. -/
structure BodyCaptured (x : Hash) (n : Nat) (txs : List Tx) (t t' : TxTracker) : Prop where
  opts : t'.opts = t.opts
  blockExtrinsics : t'.blockExtrinsics = t.blockExtrinsics.set x ⟨n, txs⟩
  processedForkHeights : t'.processedForkHeights = t.processedForkHeights
  lastCanonicalWalkHeight : t'.lastCanonicalWalkHeight = t.lastCanonicalWalkHeight
  latestBySignerNonce : t'.latestBySignerNonce = t.latestBySignerNonce
  pendingReorgReview : t'.pendingReorgReview = t.pendingReorgReview
  history : ∃ rs, t'.history = t.history ++ .captured x n txs :: rs ∧
    ∀ r ∈ rs, ∃ k, r = .tracked k

theorem captureBody_spec (t : TxTracker) (x : Hash) (n : Nat) (body : List Extrinsic) :
    BodyCaptured x n (extractTrackedExtrinsics body n) t (t.captureBody x n body) := by
  unfold TxTracker.captureBody
  dsimp only
  split
  · exact ⟨rfl, rfl, rfl, rfl, rfl, rfl, [], rfl, by simp⟩
  · refine ⟨rfl, rfl, rfl, rfl, rfl, rfl,
      [.tracked (extractTrackedExtrinsics body n).length], by simp [emit], ?_⟩
    intro r hr
    exact ⟨_, List.mem_singleton.mp hr⟩

/-- A prune forgets bodies and learns none. -/
theorem body_pruneBlocks {t : TxTracker} {k : Int} {x : Hash} {captured : Captured}
    (h : (t.pruneBlocks k).blockExtrinsics.get? x = some captured) :
    t.blockExtrinsics.get? x = some captured ∧ k < captured.number := by
  unfold pruneBlocks at h
  dsimp only at h
  rw [OrdMap.get?_filter, Option.filter_eq_some_iff] at h
  exact ⟨h.1, by simpa using h.2⟩

/-- **What one step of the program does to what belongs to the blocks.** -/
theorem tx_step_cases (c : ChainContext) (e : Event) :
    (∃ node F H, e = .finalizedHeads node F H ∧
      Finalized F H c.blockTree c.txTracker (c.step e).txTracker) ∨
    (∃ i x n body, e = .resume i (.body (some body)) ∧ c.tasks[i]? = some (.getBlock x n) ∧
      BodyCaptured x n (extractTrackedExtrinsics body n) c.txTracker (c.step e).txTracker) ∨
    (∃ i F, e = .resume i .done ∧ c.tasks[i]? = some (.resolveForkEvent F) ∧
      (c.step e).txTracker = c.txTracker.pruneBlocks (F - c.config.pruneAfter)) ∨
    ((∀ node F H, e ≠ .finalizedHeads node F H) ∧ Kept Plain c.txTracker (c.step e).txTracker) := by
  cases e with
  | allHeads node header =>
      refine Or.inr (Or.inr (Or.inr ⟨by simp, ?_⟩))
      rw [(allHeads_frame c node header).2]
      exact Kept.refl c.txTracker
  | finalizedHeads node F H => exact Or.inl ⟨node, F, H, rfl, finalized_step c node F H⟩
  | resume i a =>
      rcases resume_cases c i a with ⟨x, n, body, ht, rfl, heq⟩ | ⟨F, ht, rfl, heq⟩ | hq
      · refine Or.inr (Or.inl ⟨i, x, n, body, rfl, ht, ?_⟩)
        rw [heq]
        exact captureBody_spec c.txTracker x n body
      · exact Or.inr (Or.inr (Or.inl ⟨i, F, rfl, ht, by rw [heq]; rfl⟩))
      · refine Or.inr (Or.inr (Or.inr ⟨by simp, ?_⟩))
        obtain ⟨k, -, hk⟩ := hq.txTracker
        rw [hk]
        exact { Kept.refl c.txTracker with }
  | poll node answer =>
      exact Or.inr (Or.inr (Or.inr ⟨by simp, kept_pollPendingPool c.txTracker node answer⟩))
  | retryTick hash =>
      refine Or.inr (Or.inr (Or.inr ⟨by simp, (kept_retryTick c.txTracker hash).mono ?_⟩))
      intro r hr
      obtain ⟨loop, -, hr⟩ := hr
      exact plain_of_ofTick hr
  | resubmitSettled call results =>
      exact Or.inr (Or.inr (Or.inr ⟨by simp, kept_resubmitSettled c.txTracker call results⟩))
  | connections connected =>
      exact Or.inr (Or.inr (Or.inr ⟨by simp, { Kept.refl c.txTracker with }⟩))
  | setupCausation => exact Or.inr (Or.inr (Or.inr ⟨by simp, Kept.refl c.txTracker⟩))
  | identities entries => exact Or.inr (Or.inr (Or.inr ⟨by simp, Kept.refl c.txTracker⟩))

/-- Inclusions may be replaced, but none is forgotten. -/
theorem latest_step_mono (c : ChainContext) (e : Event) {s : Address} {k : Nat}
    (h : c.txTracker.latestBySignerNonce.has (s, k) = true) :
    (c.step e).txTracker.latestBySignerNonce.has (s, k) = true := by
  rcases tx_step_cases c e with ⟨node, F, H, rfl, hfin⟩ | ⟨i, x, n, body, rfl, -, hcap⟩ |
    ⟨i, F, rfl, -, heq⟩ | ⟨-, hkept⟩
  · rw [hfin.latestBySignerNonce, has_foldl_markInto]
    exact Or.inl h
  · rw [hcap.latestBySignerNonce]
    exact h
  · rw [heq]
    exact h
  · rw [hkept.latestBySignerNonce]
    exact h

theorem opts_step (c : ChainContext) (e : Event) :
    (c.step e).txTracker.opts = c.txTracker.opts := by
  rcases tx_step_cases c e with ⟨node, F, H, rfl, hfin⟩ | ⟨i, x, n, body, rfl, -, hcap⟩ |
    ⟨i, F, rfl, ht, heq⟩ | ⟨-, hkept⟩
  · exact hfin.opts
  · exact hcap.opts
  · rw [heq]
    rfl
  · exact hkept.opts

theorem opts_run (config : ChainConfig) (opts : TxOptions) (evs : List Event) :
    ((machine config opts).run evs).txTracker.opts = opts :=
  Machine.run_invariant (A := fun _ => True) (I := fun c => c.txTracker.opts = opts) rfl
    (fun c e h _ => (opts_step c e).trans h) fun _ _ => trivial

/-! ## The reports of one step -/

/-- What marking reports. -/
theorem mem_markReports {bodies : OrdMap Hash Captured} {path : List BlockRecord} {r : TxReport} :
    r ∈ path.flatMap (markReports bodies) ↔ ∃ b ∈ path, ∃ captured,
      bodies.get? b.hash = some captured ∧ r = .marked b.hash captured.extrinsics := by
  rw [List.mem_flatMap]
  unfold markReports
  refine ⟨?_, ?_⟩
  · intro h
    obtain ⟨b, hb, hr⟩ := h
    cases hcap : bodies.get? b.hash with
    | none => rw [hcap] at hr; exact absurd hr (by simp)
    | some captured =>
        rw [hcap] at hr
        exact ⟨b, hb, captured, hcap, List.mem_singleton.mp hr⟩
  · intro h
    obtain ⟨b, hb, captured, hcap, rfl⟩ := h
    refine ⟨b, hb, ?_⟩
    rw [hcap]
    exact List.mem_singleton_self _

theorem marked_of_mem {bodies : OrdMap Hash Captured} {path : List BlockRecord} {r : TxReport}
    (h : r ∈ path.flatMap (markReports bodies)) : ∃ x txs, r = .marked x txs := by
  obtain ⟨b, -, captured, -, hr⟩ := mem_markReports.mp h
  exact ⟨_, _, hr⟩

/-- What a step may newly report about blocks, loops and incidents. -/
def NewReport (c : ChainContext) (e : Event) : TxReport → Prop
  | .captured x n txs => ∃ i body, e = .resume i (.body (some body)) ∧
      c.tasks[i]? = some (.getBlock x n) ∧ txs = extractTrackedExtrinsics body n
  | .marked x txs => ∃ node F H b captured, e = .finalizedHeads node F H ∧
      b ∈ newlyFinal c.txTracker F H c.blockTree ∧ b.hash = x ∧
      c.txTracker.blockExtrinsics.get? x = some captured ∧ captured.extrinsics = txs
  | .queued entry H => ∃ node F, e = .finalizedHeads node F H ∧
      entry ∈ losses c.txTracker F H c.blockTree
  | .loopStarted record => record.trigger = .mempoolDrop ∨ ∃ node F H, ∃ entry,
      e = .finalizedHeads node F H ∧ entry ∈ losses c.txTracker F H c.blockTree ∧
      record = entry.retry
  | .submitted row => row.lostAtHeight = none ∨ ∃ node F H, ∃ entry,
      e = .finalizedHeads node F H ∧
      entry ∈ dueEntries F (c.txTracker.pendingReorgReview ++ losses c.txTracker F H c.blockTree) ∧
      row.firstHash = entry.hash ∧ row.lostAtHeight = some entry.lostAtHeight ∧
      (row.status = .reorgedLost ∨ row.status = .expired →
        (c.step e).txTracker.latestFor entry.signer entry.nonce = none)
  | _ => True

theorem newReport_of_plain {c : ChainContext} {e : Event} {r : TxReport} (h : Plain r) :
    NewReport c e r := by
  cases r with
  | captured | marked | queued => exact absurd h id
  | loopStarted record => exact Or.inl h
  | submitted row => exact Or.inl h
  | _ => trivial

/-- **What one step reports.** Reports are only ever added. -/
theorem history_step (c : ChainContext) (e : Event) :
    ∃ rs, (c.step e).txTracker.history = c.txTracker.history ++ rs ∧ ∀ r ∈ rs, NewReport c e r := by
  rcases tx_step_cases c e with ⟨node, F, H, rfl, hfin⟩ | ⟨i, x, n, body, rfl, ht, hcap⟩ |
    ⟨i, F, rfl, -, heq⟩ | ⟨-, hkept⟩
  · obtain ⟨review, resolution, hhist, hqueued, hreview, hresolution⟩ := hfin.history
    refine ⟨_, by rw [hhist, List.append_assoc, List.append_assoc], ?_⟩
    intro r hr
    simp only [List.mem_append] at hr
    rcases hr with hr | hr | hr
    · obtain ⟨b, hb, captured, hcap, rfl⟩ := mem_markReports.mp hr
      exact ⟨node, F, H, b, captured, rfl, hb, rfl, hcap, rfl⟩
    · cases r with
      | queued entry H' =>
          rw [← mem_queuedOf, hqueued, List.mem_map] at hr
          obtain ⟨entry', hentry, heq⟩ := hr
          obtain ⟨rfl, rfl⟩ := Prod.mk.inj heq
          exact ⟨node, F, rfl, hentry⟩
      | loopStarted record =>
          obtain ⟨entry, hentry, hrec⟩ := hreview _ hr
          exact Or.inr ⟨node, F, H, entry, rfl, hentry, hrec⟩
      | captured | marked | submitted => exact absurd (hreview _ hr) id
      | _ => trivial
    · cases r with
      | submitted row =>
          obtain ⟨entry, hentry, hfirst, hheight, hlatest⟩ := hresolution _ hr
          exact Or.inr ⟨node, F, H, entry, rfl, hentry, hfirst, hheight, hlatest⟩
      | _ => exact absurd (hresolution _ hr) id
  · obtain ⟨rs, hrs, htracked⟩ := hcap.history
    refine ⟨_, hrs, ?_⟩
    intro r hr
    rcases List.mem_cons.mp hr with rfl | hr
    · exact ⟨i, body, rfl, ht, rfl⟩
    · obtain ⟨k, rfl⟩ := htracked r hr
      trivial
  · exact ⟨[], by rw [heq]; simp [pruneBlocks], by simp⟩
  · obtain ⟨rs, hrs, hplain⟩ := hkept.history
    exact ⟨rs, hrs, fun r hr => newReport_of_plain (hplain r hr)⟩

/-- A report is an old one or one a step may newly make. -/
theorem mem_history_step {c : ChainContext} {e : Event} {r : TxReport}
    (h : r ∈ (c.step e).txTracker.history) : r ∈ c.txTracker.history ∨ NewReport c e r := by
  obtain ⟨rs, hrs, hnew⟩ := history_step c e
  rw [hrs] at h
  exact (List.mem_append.mp h).imp id (hnew r)

/-- The entries one step queues. -/
def queuedBy (c : ChainContext) : Event → List (ReorgEntry × Hash)
  | .finalizedHeads _ F H => (losses c.txTracker F H c.blockTree).map (·, H)
  | _ => []

/-- **What one step queues.** -/
theorem queuedOf_step (c : ChainContext) (e : Event) :
    queuedOf (c.step e).txTracker.history = queuedOf c.txTracker.history ++ queuedBy c e := by
  rcases tx_step_cases c e with ⟨node, F, H, rfl, hfin⟩ | ⟨i, x, n, body, rfl, -, hcap⟩ |
    ⟨i, F, rfl, -, heq⟩ | ⟨hno, hkept⟩
  · obtain ⟨review, resolution, hhist, hqueued, -, hresolution⟩ := hfin.history
    have hmark : queuedOf ((newlyFinal c.txTracker F H c.blockTree).flatMap
        (markReports c.txTracker.blockExtrinsics)) = [] :=
      queuedOf_eq_nil (p := fun r => ∃ x txs, r = .marked x txs) (fun _ hr => marked_of_mem hr)
        (by simp)
    have hres : queuedOf resolution = [] := queuedOf_eq_nil hresolution fun _ _ h => h
    rw [hhist, queuedOf_append, queuedOf_append, queuedOf_append, hmark, hres, hqueued]
    simp [queuedBy]
  · obtain ⟨rs, hrs, htracked⟩ := hcap.history
    have hnone : queuedOf rs = [] := queuedOf_eq_nil htracked (by simp)
    have hcons : queuedOf (.captured x n (extractTrackedExtrinsics body n) :: rs) = queuedOf rs :=
      rfl
    rw [hrs, queuedOf_append, hcons, hnone]
    rfl
  · rw [heq]
    simp [pruneBlocks, queuedBy]
  · obtain ⟨rs, hrs, hplain⟩ := hkept.history
    have hnone : queuedOf rs = [] := queuedOf_eq_nil hplain fun _ _ h => h
    have hby : queuedBy c e = [] := by
      cases e with
      | finalizedHeads node F H => exact absurd rfl (hno node F H)
      | _ => rfl
    rw [hrs, queuedOf_append, hnone, hby]

end ForkWatch.Proof
