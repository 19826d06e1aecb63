import ForkWatch.Proof.Tree

/-!
# What one turn of the event loop can do

Handlers are long and cut into pieces by their awaits, but each piece touches
the state in few ways. This file says once which ways those are, so that no
later proof has to open a handler again:

* a header enters the tree, or is seen again (`allHeads_tree`);
* a finality notification runs the detector and the transaction tracker on the
  tree as it stands;
* a resumed task is a body capture, a prune, or **quiet**: it refreshes records
  without touching their headers, annotates the ring buffer, writes database
  rows, and leaves everything else alone (`resume_cases`).
-/

namespace ForkWatch.Proof

open Lib ChainContext

/-! ## Refreshing records -/

/-- The tree was reached by updates of records that leave their headers alone. -/
inductive Refreshed (t : BlockTree) : BlockTree → Prop where
  | refl : Refreshed t t
  | update {t' : BlockTree} (h : Refreshed t t') (x : Hash) {f : BlockRecord → BlockRecord}
      (hf : KeepsHeader f) : Refreshed t (t'.updateRecord x f)

theorem Refreshed.trans {t t' t'' : BlockTree} (h : Refreshed t t') (h' : Refreshed t' t'') :
    Refreshed t t'' := by
  induction h' with
  | refl => exact h
  | update _ x hf ih => exact ih.update x hf

theorem Refreshed.treeInv {t t' : BlockTree} (h : Refreshed t t') (ht : TreeInv t) :
    TreeInv t' := by
  induction h with
  | refl => exact ht
  | update _ x hf ih => exact treeInv_updateRecord ih x hf

theorem Refreshed.authentic {t t' : BlockTree} {L : Lineage Hash} (h : Refreshed t t')
    (ht : Authentic L t) : Authentic L t' := by
  induction h with
  | refl => exact ht
  | update _ x hf ih => exact authentic_updateRecord ih x hf

/-- Which hashes are stored does not change. -/
theorem Refreshed.holds {t t' : BlockTree} (h : Refreshed t t') (x : Hash) :
    Holds t' x ↔ Holds t x := by
  induction h with
  | refl => exact Iff.rfl
  | @update t' _ y f _ ih =>
      rw [← ih]
      unfold Holds
      rw [getBlock_updateRecord]
      by_cases hxy : x = y
      · subst hxy
        rw [if_pos rfl]
        simp only [Option.map_eq_some_iff]
        refine ⟨?_, ?_⟩
        · rintro ⟨r, s, hs, -⟩; exact ⟨s, hs⟩
        · rintro ⟨s, hs⟩; exact ⟨_, s, hs, rfl⟩
      · rw [if_neg hxy]

/-! ## Annotating the ring buffer -/

/-- What of a ring buffer entry only detection and resolution set. -/
def RecentFork.settled (f : RecentFork) : Nat × Bool × Option Hash :=
  (f.blockNumber, f.resolved, f.resolvedHash)

theorem map_modifyLast {α β : Type} {g : α → β} {p : α → Bool} {f : α → α} (l : List α)
    (h : ∀ x, g (f x) = g x) : (modifyLast p f l).map g = l.map g := by
  induction l with
  | nil => rfl
  | cons x l ih =>
      unfold modifyLast
      split
      · rw [List.map_cons, ih, List.map_cons]
      · split
        · rw [List.map_cons, h, List.map_cons]
        · rfl

/-! ## What the detector reports -/

/-- The reports about the competing blocks themselves. -/
def AboutBlocks : Report → Prop
  | .authorForkBlock .. | .insertForkBlock _ => True
  | _ => False

theorem aboutBlocks_authorReport {b : BlockRecord} {r : Report}
    (h : ForkDetector.authorReport b = some r) : AboutBlocks r := by
  obtain ⟨a, -, rfl⟩ := Option.map_eq_some_iff.mp h
  trivial

theorem aboutBlocks_onForkUpdated {blocks : List BlockRecord} {r : Report}
    (h : r ∈ ForkDetector.onForkUpdated blocks) : AboutBlocks r := by
  unfold ForkDetector.onForkUpdated at h
  split at h
  · exact absurd h (by simp)
  · rcases List.mem_append.mp h with hauthor | hrow
    · exact aboutBlocks_authorReport (Option.mem_toList.mp hauthor)
    · obtain rfl := List.mem_singleton.mp hrow
      trivial

/-- Besides its fork event, a detection reports its shape and its blocks. -/
theorem mem_onForkDetected (d : ForkDetector) {tree : BlockTree} {height : Nat}
    {blocks : List BlockRecord} {r : Report}
    (h : r ∈ (d.onForkDetected tree height blocks).2) :
    r = .forkEvent height ∨ r = .forkDepth height (tree.measureForkDepth height) ∨
      r = .forkActive height ∨ AboutBlocks r := by
  rcases List.mem_append.mp h with hshape | hauthor
  · simp only [List.mem_cons, List.not_mem_nil, or_false] at hshape
    rcases hshape with rfl | rfl | rfl
    · exact Or.inl rfl
    · exact Or.inr (Or.inl rfl)
    · exact Or.inr (Or.inr (Or.inl rfl))
  · obtain ⟨b, -, hb⟩ := List.mem_filterMap.mp hauthor
    exact Or.inr (Or.inr (Or.inr (aboutBlocks_authorReport hb)))

/-- The entry as it was before it was resolved. -/
def RecentFork.unresolved (f : RecentFork) : RecentFork :=
  { f with resolved := false, resolvedHash := none }

/-- What resolving forks on a notification of `x` leaves alone, and what it reports. -/
structure Resolving (x : Hash) (d d' : ForkDetector) (rs : List Report) : Prop where
  totalForkCount : d'.totalForkCount = d.totalForkCount
  recordedForks : ∀ m, d'.recordedForks.has m = true → d.recordedForks.has m = true
  recentForks : d'.recentForks.map RecentFork.unresolved = d.recentForks.map RecentFork.unresolved
  reports : ∀ r ∈ rs, (∃ n, r = .forkInactive n) ∨ ∃ f, r = .resolved f x

theorem onHeightFinalized_spec (d : ForkDetector) (finalizedHeight : Nat) (x : Hash) :
    Resolving x d (d.onHeightFinalized finalizedHeight x).1
      (d.onHeightFinalized finalizedHeight x).2 := by
  refine List.foldlRecOn
    (motive := fun acc : ForkDetector × List Report => Resolving x d acc.1 acc.2) _ _
    ⟨rfl, fun m hm => hm, rfl, by simp⟩ fun acc hacc height _ => ?_
  refine ⟨hacc.totalForkCount, fun m hm => hacc.recordedForks m ?_, ?_, ?_⟩
  · rw [ForkDetector.resolveHeight, OrdMap.erase, OrdMap.has_filter, Bool.and_eq_true] at hm
    exact hm.1
  · have hsame : (ForkDetector.resolveHeight x acc height).1.recentForks.map RecentFork.unresolved
        = acc.1.recentForks.map RecentFork.unresolved := map_modifyLast _ fun _ => rfl
    exact hsame.trans hacc.recentForks
  · intro r hr
    rcases List.mem_append.mp hr with hr | hr
    · rcases List.mem_append.mp hr with hr | hr
      · exact hacc.reports r hr
      · exact Or.inl ⟨height, List.mem_singleton.mp hr⟩
    · obtain ⟨f, -, rfl⟩ := Option.map_eq_some_iff.mp (Option.mem_toList.mp hr)
      exact Or.inr ⟨_, rfl⟩

/-! ## Quiet steps -/

/-- The reports of a resumed task: database rows and what is known about causes and authors. -/
def FromTask : Report → Prop
  | .insertForkBlock _ | .insertForkEvent _ | .forkCause .. | .relayCaused _
  | .authorForkBlock .. => True
  | _ => False

/-- The step only adds to what is known about blocks and forks that were there already. -/
structure Quiet (c c' : ChainContext) : Prop where
  config : c'.config = c.config
  hooked : c'.hooked = c.hooked
  tree : Refreshed c.blockTree c'.blockTree
  recordedForks : c'.forkDetector.recordedForks = c.forkDetector.recordedForks
  totalForkCount : c'.forkDetector.totalForkCount = c.forkDetector.totalForkCount
  recentForks : c'.forkDetector.recentForks.map RecentFork.settled
    = c.forkDetector.recentForks.map RecentFork.settled
  txTracker : ∃ k, c.txTracker.lastKnownHeight ≤ k ∧
    c'.txTracker = { c.txTracker with lastKnownHeight := k }
  history : ∃ rs, c'.history = c.history ++ rs ∧ ∀ r ∈ rs, FromTask r

theorem Quiet.refl (c : ChainContext) : Quiet c c where
  config := rfl
  hooked := rfl
  tree := Refreshed.refl
  recordedForks := rfl
  totalForkCount := rfl
  recentForks := rfl
  txTracker := ⟨c.txTracker.lastKnownHeight, Nat.le_refl _, rfl⟩
  history := ⟨[], by simp, by simp⟩

/-- What is appended twice over is appended. -/
theorem appended_trans {ρ : Type} {p : ρ → Prop} {l l' l'' : List ρ}
    (h : ∃ rs, l' = l ++ rs ∧ ∀ r ∈ rs, p r) (h' : ∃ rs, l'' = l' ++ rs ∧ ∀ r ∈ rs, p r) :
    ∃ rs, l'' = l ++ rs ∧ ∀ r ∈ rs, p r := by
  obtain ⟨rs, hrs, hp⟩ := h
  obtain ⟨rs', hrs', hp'⟩ := h'
  refine ⟨rs ++ rs', by rw [hrs', hrs, List.append_assoc], fun r hr => ?_⟩
  rcases List.mem_append.mp hr with hr | hr
  · exact hp r hr
  · exact hp' r hr

theorem Quiet.trans {c c' c'' : ChainContext} (h : Quiet c c') (h' : Quiet c' c'') :
    Quiet c c'' where
  config := h'.config.trans h.config
  hooked := h'.hooked.trans h.hooked
  tree := h.tree.trans h'.tree
  recordedForks := h'.recordedForks.trans h.recordedForks
  totalForkCount := h'.totalForkCount.trans h.totalForkCount
  recentForks := h'.recentForks.trans h.recentForks
  txTracker := by
    obtain ⟨k, hle, hk⟩ := h.txTracker
    obtain ⟨k', hle', hk'⟩ := h'.txTracker
    rw [hk] at hle'
    exact ⟨k', hle.trans hle', by rw [hk', hk]⟩
  history := appended_trans h.history h'.history

theorem quiet_await (c : ChainContext) (t : Task) : Quiet c (c.await t) :=
  { Quiet.refl c with }

theorem quiet_report (c : ChainContext) {rs : List Report} (h : ∀ r ∈ rs, FromTask r) :
    Quiet c (c.report rs) :=
  { Quiet.refl c with history := ⟨rs, rfl, h⟩ }

/-- A write touches records only. -/
theorem writeHeld_frame (c : ChainContext) (n epoch : Nat) (x : Hash)
    (f : BlockRecord → BlockRecord) :
    (c.writeHeld n epoch x f).tasks = c.tasks ∧ (c.writeHeld n epoch x f).history = c.history ∧
      (c.writeHeld n epoch x f).forkDetector = c.forkDetector := by
  unfold writeHeld
  split
  · exact ⟨rfl, rfl, rfl⟩
  · exact ⟨rfl, rfl, rfl⟩

theorem storeRelayParents_frame (c : ChainContext) (n epoch : Nat) (blocks : List BlockRecord)
    (rps : List (Option RelayParent)) :
    (c.storeRelayParents n epoch blocks rps).tasks = c.tasks ∧
      (c.storeRelayParents n epoch blocks rps).history = c.history ∧
      (c.storeRelayParents n epoch blocks rps).forkDetector = c.forkDetector := by
  refine List.foldlRecOn (motive := fun d : ChainContext =>
    d.tasks = c.tasks ∧ d.history = c.history ∧ d.forkDetector = c.forkDetector) _ _
    ⟨rfl, rfl, rfl⟩ fun u hu e _ => ?_
  split
  · exact hu
  · obtain ⟨htasks, hhist, hdetector⟩ := writeHeld_frame u n epoch e.1.hash _
    exact ⟨htasks.trans hu.1, hhist.trans hu.2.1, hdetector.trans hu.2.2⟩

/-- A write goes into the tree, or into a map the tree no longer has. -/
theorem quiet_writeHeld (c : ChainContext) (n epoch : Nat) (x : Hash)
    {f : BlockRecord → BlockRecord} (hf : KeepsHeader f) :
    Quiet c (c.writeHeld n epoch x f) := by
  unfold writeHeld
  split
  · exact { Quiet.refl c with tree := Refreshed.refl.update x hf }
  · exact { Quiet.refl c with }

theorem quiet_storeRelayParents (c : ChainContext) (n epoch : Nat) (blocks : List BlockRecord)
    (rps : List (Option RelayParent)) : Quiet c (c.storeRelayParents n epoch blocks rps) := by
  refine List.foldlRecOn (motive := Quiet c) _ _ (Quiet.refl c) fun u hu e _ => ?_
  split
  · exact hu
  · exact hu.trans (quiet_writeHeld u n epoch e.1.hash fun _ => ⟨rfl, rfl, rfl⟩)

theorem quiet_updateRecent (c : ChainContext) (height : Nat) {f : RecentFork → RecentFork}
    (hf : ∀ e, RecentFork.settled (f e) = RecentFork.settled e) :
    Quiet c { c with forkDetector := c.forkDetector.updateRecent height f } :=
  { Quiet.refl c with recentForks := map_modifyLast _ hf }

theorem quiet_insertForkBlocks (c : ChainContext) (header : Header) (epoch : Nat)
    (rest : List BlockRecord) (event : ForkEventRow) (hooked : Bool) :
    Quiet c (c.insertForkBlocks header epoch rest event hooked) := by
  unfold insertForkBlocks
  cases rest with
  | nil =>
      refine (quiet_report c ?_).trans (quiet_await _ _)
      intro r hr
      rw [List.mem_singleton] at hr
      subst hr
      trivial
  | cons b rest =>
      refine (quiet_report c ?_).trans (quiet_await _ _)
      intro r hr
      rw [List.mem_singleton] at hr
      subst hr
      trivial

theorem quiet_analyzeForkCause (c : ChainContext) (header : Header) (epoch : Nat) :
    Quiet c (c.analyzeForkCause header epoch) := by
  unfold analyzeForkCause
  dsimp only
  split
  · exact quiet_await _ _
  · exact quiet_await _ _

theorem quiet_recordCause (c : ChainContext) (header : Header) (epoch : Nat)
    (blocks : List BlockRecord) (rps : List (Option RelayParent)) :
    Quiet c (c.recordCause header epoch blocks rps) := by
  unfold ChainContext.recordCause
  dsimp only
  split
  · exact quiet_await _ _
  · rename_i verdict _
    have hrecent := quiet_updateRecent c header.number
      (f := fun f => { f with
        cause := some verdict.cause
        relayHeight := verdict.relayHeight
        sameAuthor := some verdict.sameAuthor
        sameRelay := some (verdict.sameRelayNumber && verdict.sameRelayHash)
        sameParent := some verdict.sameParent
        authors := verdict.authors }) fun _ => rfl
    refine (hrecent.trans (quiet_report _ ?_)).trans (quiet_await _ _)
    intro r hr
    rcases List.mem_cons.mp hr with rfl | hr
    · trivial
    · split at hr
      · rw [List.mem_singleton] at hr
        subst hr
        trivial
      · exact absurd hr (by simp)

theorem quiet_captureBody (c : ChainContext) (header : Header) : Quiet c (c.captureBody header) :=
  { Quiet.refl c with txTracker := ⟨_, Nat.le_max_left .., rfl⟩ }

theorem quiet_enrichForkAuthors (c : ChainContext) (header : Header) (epoch : Nat)
    (visited : List Hash) : Quiet c (c.enrichForkAuthors header epoch visited) := by
  unfold enrichForkAuthors
  split
  · refine Quiet.trans ?_ (quiet_captureBody _ header)
    unfold updateForkAuthors
    split
    · exact Quiet.refl c
    · exact quiet_updateRecent c header.number fun _ => rfl
  · exact quiet_await _ _

theorem quiet_afterImport (c : ChainContext) (header : Header) (forked : Bool) :
    Quiet c (c.afterImport header forked) := by
  unfold afterImport
  split
  · split
    · exact quiet_captureBody c header
    · exact quiet_enrichForkAuthors c header _ []
  · exact quiet_captureBody c header

theorem quiet_onAuthor (c : ChainContext) (header : Header) (epoch : Nat)
    (visited : List Hash) (block : BlockRecord) (author : Option Address) :
    Quiet c (c.onAuthor header epoch visited block author) := by
  unfold onAuthor
  split
  · exact quiet_enrichForkAuthors c header epoch visited
  · rename_i author _
    have hwrite := quiet_writeHeld c header.number epoch block.hash
      (f := fun r => { r with author := some author }) fun _ => ⟨rfl, rfl, rfl⟩
    exact hwrite.trans (quiet_await _ _)

theorem quiet_onIdentity (c : ChainContext) (header : Header) (epoch : Nat)
    (visited : List Hash) (block : BlockRecord) (author : Address) :
    Quiet c (c.onIdentity header epoch visited block author) := by
  have hwrite := quiet_writeHeld c header.number epoch block.hash
    (f := fun r => { r with authorName := c.resolveAuthorName author }) fun _ => ⟨rfl, rfl, rfl⟩
  refine Quiet.trans (hwrite.trans (quiet_report _ ?_))
    (quiet_enrichForkAuthors _ header epoch visited)
  intro r hr
  rw [List.mem_singleton] at hr
  subst hr
  trivial

/-! ## One event -/

/-- The task waits for an answer of this kind. -/
def expects : Task → Answer → Bool
  | .insertForkBlocks .., .done | .insertForkEvent .., .done | .relayParents .., .relayParents _
  | .retryRelayParents .., .relayParents _ | .updateCause .., .done | .forkUpdated _, .done
  | .imported .., .done | .extractAuthor .., .author _
  | .resolveIdentity _ _ _ _ _ none, .done | .getBlock .., .body _
  | .resolveForkEvent _, .done => true
  | .resolveIdentity _ _ _ _ _ (some lookup), .identity answer => lookup.expects answer
  | _, _ => false

/-- How a task goes on with an answer; one it does not wait for puts it back. -/
inductive Resumed (c : ChainContext) : Task → Answer → ChainContext → Prop where
  | insertForkBlocks (header : Header) (epoch : Nat) (rest : List BlockRecord)
      (event : ForkEventRow) (hooked : Bool) :
      Resumed c (.insertForkBlocks header epoch rest event hooked) .done
        (c.insertForkBlocks header epoch rest event hooked)
  | unhooked (header : Header) (epoch : Nat) :
      Resumed c (.insertForkEvent header epoch false) .done (c.await (.imported header true))
  | hooked (header : Header) (epoch : Nat) :
      Resumed c (.insertForkEvent header epoch true) .done (c.analyzeForkCause header epoch)
  | relayParents (header : Header) (epoch : Nat) (blocks : List BlockRecord)
      (parent : Hash → Option RelayParent) :
      Resumed c (.relayParents header epoch blocks) (.relayParents parent)
        (c.onRelayParents header epoch blocks parent)
  | retryRelayParents (header : Header) (epoch : Nat) (blocks : List BlockRecord)
      (known : List (Option RelayParent)) (parent : Hash → Option RelayParent) :
      Resumed c (.retryRelayParents header epoch blocks known) (.relayParents parent)
        (c.onRetryRelayParents header epoch blocks known parent)
  | updateCause (header : Header) (epoch : Nat) (blocks : List BlockRecord)
      (rps : List (Option RelayParent)) :
      Resumed c (.updateCause header epoch blocks rps) .done
        ((c.storeRelayParents header.number epoch blocks rps).await (.imported header true))
  | forkUpdated (header : Header) :
      Resumed c (.forkUpdated header) .done (c.await (.imported header true))
  | imported (header : Header) (forked : Bool) :
      Resumed c (.imported header forked) .done (c.afterImport header forked)
  | extractAuthor (header : Header) (epoch : Nat) (visited : List Hash)
      (block : BlockRecord) (author : Option Address) :
      Resumed c (.extractAuthor header epoch visited block) (.author author)
        (c.onAuthor header epoch visited block author)
  | lookup (header : Header) (epoch : Nat) (visited : List Hash) (block : BlockRecord)
      (author : Address) (lookup : Lookup) (answer : IdentityAnswer)
      (h : lookup.expects answer = true) :
      Resumed c (.resolveIdentity header epoch visited block author (some lookup))
        (.identity answer) (c.onLookup header epoch visited block author lookup answer)
  | resolveIdentity (header : Header) (epoch : Nat) (visited : List Hash)
      (block : BlockRecord) (author : Address) :
      Resumed c (.resolveIdentity header epoch visited block author none) .done
        (c.onIdentity header epoch visited block author)
  | body (x : Hash) (n : Nat) (body : List Extrinsic) :
      Resumed c (.getBlock x n) (.body (some body))
        { c with txTracker := c.txTracker.captureBody x n body }
  | noBody (x : Hash) (n : Nat) : Resumed c (.getBlock x n) (.body none) c
  | resolveForkEvent (F : Nat) : Resumed c (.resolveForkEvent F) .done (c.prune F)
  | other (task : Task) (a : Answer) (h : expects task a = false) :
      Resumed c task a (c.await task)

/-- An answer to another query than the one that is out changes nothing. -/
theorem Lookup.resume_of_unexpected {l : Lookup} {answer : IdentityAnswer}
    (h : l.expects answer = false) (cache : IdentityCache) :
    l.resume cache answer = (cache, some l) := by
  obtain ⟨address, query, callers⟩ := l
  cases query with
  | identityOf =>
      cases answer with
      | identityOf => exact absurd h (by simp [Lookup.expects])
      | superOf => rfl
  | superOf =>
      cases answer with
      | identityOf => rfl
      | superOf => exact absurd h (by simp [Lookup.expects])

theorem resumed (c : ChainContext) (task : Task) (a : Answer) :
    Resumed c task a (c.resumeTask task a) := by
  cases task with
  | insertForkBlocks header epoch rest event hooked =>
      cases a with
      | done => exact .insertForkBlocks ..
      | _ => exact .other _ _ rfl
  | insertForkEvent header epoch hooked =>
      cases a with
      | done =>
          cases hooked with
          | true => exact .hooked ..
          | false => exact .unhooked ..
      | _ => exact .other _ _ rfl
  | relayParents header epoch blocks =>
      cases a with
      | relayParents parent => exact .relayParents ..
      | _ => exact .other _ _ rfl
  | retryRelayParents header epoch blocks known =>
      cases a with
      | relayParents parent => exact .retryRelayParents ..
      | _ => exact .other _ _ rfl
  | updateCause header epoch blocks rps =>
      cases a with
      | done => exact .updateCause ..
      | _ => exact .other _ _ rfl
  | forkUpdated header =>
      cases a with
      | done => exact .forkUpdated ..
      | _ => exact .other _ _ rfl
  | imported header forked =>
      cases a with
      | done => exact .imported ..
      | _ => exact .other _ _ rfl
  | extractAuthor header epoch visited block =>
      cases a with
      | author author => exact .extractAuthor ..
      | _ => exact .other _ _ rfl
  | resolveIdentity header epoch visited block author lookup =>
      cases lookup with
      | none =>
          cases a with
          | done => exact .resolveIdentity ..
          | _ => exact .other _ _ rfl
      | some lookup =>
          cases a with
          | identity answer =>
              cases h : lookup.expects answer with
              | true => exact .lookup _ _ _ _ _ _ _ h
              | false =>
                  have hsame : c.resumeTask (.resolveIdentity header epoch visited block author
                      (some lookup)) (.identity answer)
                        = c.await (.resolveIdentity header epoch visited block author
                          (some lookup)) := by
                    change c.onLookup .. = _
                    unfold onLookup
                    rw [Lookup.resume_of_unexpected h]
                  rw [hsame]
                  exact .other _ _ h
          | _ => exact .other _ _ rfl
  | getBlock x n =>
      cases a with
      | body body =>
          cases body with
          | none => exact .noBody ..
          | some body => exact .body ..
      | _ => exact .other _ _ rfl
  | resolveForkEvent F =>
      cases a with
      | done => exact .resolveForkEvent ..
      | _ => exact .other _ _ rfl

/-- A task that goes on is a capture, a prune, or quiet. -/
theorem Resumed.cases {c c' : ChainContext} {task : Task} {a : Answer} (h : Resumed c task a c') :
    (∃ x n body, task = .getBlock x n ∧ a = .body (some body) ∧
      c' = { c with txTracker := c.txTracker.captureBody x n body }) ∨
    (∃ F, task = .resolveForkEvent F ∧ a = .done ∧ c' = c.prune F) ∨ Quiet c c' := by
  cases h with
  | body x n body => exact Or.inl ⟨x, n, body, rfl, rfl, rfl⟩
  | resolveForkEvent F => exact Or.inr (Or.inl ⟨F, rfl, rfl, rfl⟩)
  | insertForkBlocks => exact Or.inr (Or.inr (quiet_insertForkBlocks ..))
  | unhooked => exact Or.inr (Or.inr (quiet_await _ _))
  | hooked => exact Or.inr (Or.inr (quiet_analyzeForkCause ..))
  | relayParents header epoch blocks parent =>
      refine Or.inr (Or.inr ?_)
      unfold onRelayParents
      dsimp only
      split
      · exact quiet_await _ _
      · exact quiet_recordCause ..
  | retryRelayParents => exact Or.inr (Or.inr (quiet_recordCause ..))
  | updateCause header epoch blocks rps =>
      exact Or.inr (Or.inr ((quiet_storeRelayParents ..).trans (quiet_await _ _)))
  | forkUpdated => exact Or.inr (Or.inr (quiet_await _ _))
  | imported => exact Or.inr (Or.inr (quiet_afterImport ..))
  | extractAuthor => exact Or.inr (Or.inr (quiet_onAuthor ..))
  | lookup => exact Or.inr (Or.inr { Quiet.refl c with })
  | resolveIdentity => exact Or.inr (Or.inr (quiet_onIdentity ..))
  | noBody => exact Or.inr (Or.inr (Quiet.refl c))
  | other => exact Or.inr (Or.inr (quiet_await _ _))

/-- The context a resumed task runs in: the task itself is gone. -/
def taken (c : ChainContext) (i : Nat) : ChainContext := { c with tasks := c.tasks.eraseIdx i }

theorem step_resume_of_none {c : ChainContext} {i : Nat} (h : c.tasks[i]? = none) (a : Answer) :
    c.step (.resume i a) = c := by
  simp only [step, h]

theorem step_resume_of_some {c : ChainContext} {i : Nat} {task : Task}
    (h : c.tasks[i]? = some task) (a : Answer) :
    c.step (.resume i a) = (taken c i).resumeTask task a := by
  simp only [step, h]
  rfl

/-- **What a `resume` can do.** -/
theorem resume_cases (c : ChainContext) (i : Nat) (a : Answer) :
    (∃ x n body, c.tasks[i]? = some (.getBlock x n) ∧ a = .body (some body) ∧
      c.step (.resume i a)
        = { taken c i with txTracker := c.txTracker.captureBody x n body }) ∨
    (∃ F, c.tasks[i]? = some (.resolveForkEvent F) ∧ a = .done ∧
      c.step (.resume i a) = (taken c i).prune F) ∨
    Quiet c (c.step (.resume i a)) := by
  unfold step
  dsimp only
  cases ht : c.tasks[i]? with
  | none => exact Or.inr (Or.inr (Quiet.refl c))
  | some task =>
      have hq : Quiet c (taken c i) := { Quiet.refl c with }
      rcases (resumed (taken c i) task a).cases with
        ⟨x, n, body, rfl, rfl, h⟩ | ⟨F, rfl, rfl, h⟩ | h
      · exact Or.inl ⟨x, n, body, rfl, rfl, h⟩
      · exact Or.inr (Or.inl ⟨F, rfl, rfl, h⟩)
      · exact Or.inr (Or.inr (hq.trans h))

/-! ## A header arrives -/

/-- The record a header becomes. -/
def recordOf (node : NodeName) (header : Header) : BlockRecord :=
  BlockTree.newRecord header.hash header.number header.parentHash none none none node
    { stateRoot := some header.stateRoot, extrinsicsRoot := some header.extrinsicsRoot }

/-- The context once a header has been entered into the tree. -/
def entered (c : ChainContext) (node : NodeName) (header : Header) : ChainContext :=
  { c with blockTree := c.blockTree.insertRecord (recordOf node header) }.report
    [.delivered node header.hash header.number, .blocksImported node]

/-- The context once a header it knows already has come from one more node. -/
def seenAgain (c : ChainContext) (node : NodeName) (header : Header) : ChainContext :=
  { c with
    blockTree := c.blockTree.updateRecord header.hash
      (fun r => { r with seenByNodes := r.seenByNodes.add node }) }.report
    [.delivered node header.hash header.number]

theorem step_allHeads_of_known {c : ChainContext} {header : Header} {r : BlockRecord}
    (h : c.blockTree.getBlock header.hash = some r) (node : NodeName) :
    c.step (.allHeads node header) = seenAgain c node header := by
  rw [BlockTree.getBlock] at h
  simp only [step, onAllHeads, BlockTree.addBlock, h, Bool.false_eq_true, if_false]
  rfl

theorem step_allHeads_of_new {c : ChainContext} {header : Header}
    (h : c.blockTree.getBlock header.hash = none) (node : NodeName) :
    c.step (.allHeads node header) = (entered c node header).importNew header := by
  rw [BlockTree.getBlock] at h
  simp only [step, onAllHeads, BlockTree.addBlock, h, report, List.append_assoc, if_true]
  rfl

/-- Importing a new header goes on with the detector, and touches nothing else. -/
theorem importNew_frame (c : ChainContext) (header : Header) :
    (c.importNew header).config = c.config ∧ (c.importNew header).blockTree = c.blockTree ∧
      (c.importNew header).txTracker = c.txTracker := by
  unfold importNew detectFork insertForkBlocks
  dsimp only
  split
  · split
    · exact ⟨rfl, rfl, rfl⟩
    · split <;> exact ⟨rfl, rfl, rfl⟩
  · exact ⟨rfl, rfl, rfl⟩

/-- **What a header does to the tree.** -/
theorem allHeads_tree (c : ChainContext) (node : NodeName) (header : Header) :
    (c.blockTree.getBlock header.hash = none ∧
      (c.step (.allHeads node header)).blockTree = c.blockTree.insertRecord (recordOf node header)) ∨
    ((∃ r, c.blockTree.getBlock header.hash = some r) ∧
      Refreshed c.blockTree (c.step (.allHeads node header)).blockTree) := by
  cases h : c.blockTree.getBlock header.hash with
  | none =>
      refine Or.inl ⟨rfl, ?_⟩
      rw [step_allHeads_of_new h, (importNew_frame _ header).2.1]
      rfl
  | some r =>
      refine Or.inr ⟨⟨r, rfl⟩, ?_⟩
      rw [step_allHeads_of_known h]
      have key : Refreshed c.blockTree (c.blockTree.updateRecord header.hash
          (fun r => { r with seenByNodes := r.seenByNodes.add node })) :=
        Refreshed.refl.update header.hash fun _ => ⟨rfl, rfl, rfl⟩
      exact key

theorem allHeads_frame (c : ChainContext) (node : NodeName) (header : Header) :
    (c.step (.allHeads node header)).config = c.config ∧
      (c.step (.allHeads node header)).txTracker = c.txTracker := by
  cases h : c.blockTree.getBlock header.hash with
  | none =>
      rw [step_allHeads_of_new h]
      exact ⟨(importNew_frame _ header).1, (importNew_frame _ header).2.2⟩
  | some r =>
      rw [step_allHeads_of_known h]
      exact ⟨rfl, rfl⟩

/-! ## Invariants of every run -/

/-- What nodes say about headers is what the hashes stand for. -/
def FromLineage (L : Lineage Hash) : Event → Prop
  | .allHeads _ header => header.number = L.number header.hash ∧ header.parentHash = L.parent header.hash
  | .finalizedHeads _ number hash => number = L.number hash
  | _ => True

/-- The tree stays consistent, whatever the nodes say. -/
theorem treeInv_step {c : ChainContext} (h : TreeInv c.blockTree) (e : Event) :
    TreeInv (c.step e).blockTree := by
  cases e with
  | allHeads node header =>
      rcases allHeads_tree c node header with ⟨hnone, heq⟩ | ⟨-, href⟩
      · rw [heq]; exact treeInv_insertRecord h hnone
      · exact href.treeInv h
  | resume i a =>
      rcases resume_cases c i a with ⟨x, n, body, -, -, heq⟩ | ⟨F, -, -, heq⟩ | hq
      · rw [heq]; exact h
      · rw [heq]; exact treeInv_prune h _
      · exact hq.tree.treeInv h
  | finalizedHeads => exact ⟨h.byHash, h.byHeight, h.inhabited, h.best⟩
  | _ => exact h

theorem treeInv_run (config : ChainConfig) (opts : TxOptions) (evs : List Event) :
    TreeInv ((machine config opts).run evs).blockTree :=
  Machine.run_invariant (m := machine config opts) (A := fun _ => True)
    (I := fun c => TreeInv c.blockTree) treeInv_init (fun _ e h _ => treeInv_step h e)
    fun _ _ => trivial

theorem authentic_step {L : Lineage Hash} {c : ChainContext} (hi : TreeInv c.blockTree)
    (h : Authentic L c.blockTree) {e : Event} (he : FromLineage L e) :
    Authentic L (c.step e).blockTree := by
  cases e with
  | allHeads node header =>
      rcases allHeads_tree c node header with ⟨-, heq⟩ | ⟨-, href⟩
      · rw [heq]; exact authentic_insertRecord h he.1 he.2
      · exact href.authentic h
  | resume i a =>
      rcases resume_cases c i a with ⟨x, n, body, -, -, heq⟩ | ⟨F, -, -, heq⟩ | hq
      · rw [heq]; exact h
      · rw [heq]; exact authentic_prune hi h _
      · exact hq.tree.authentic h
  | finalizedHeads => exact h
  | _ => exact h

/-- The tree is consistent and holds true headers only. -/
structure TrueTree (L : Lineage Hash) (c : ChainContext) : Prop where
  inv : TreeInv c.blockTree
  authentic : Authentic L c.blockTree

theorem trueTree_init (L : Lineage Hash) (config : ChainConfig) (opts : TxOptions) :
    TrueTree L (machine config opts).init := ⟨treeInv_init, authentic_init L⟩

theorem trueTree_step {L : Lineage Hash} {c : ChainContext} {e : Event} (h : TrueTree L c)
    (he : FromLineage L e) : TrueTree L (c.step e) :=
  ⟨treeInv_step h.inv e, authentic_step h.inv h.authentic he⟩

/-- **In every run, the tree is consistent and holds true headers only.** -/
theorem trueTree_run {L : Lineage Hash} {config : ChainConfig} {opts : TxOptions}
    {evs : List Event} (h : ∀ e ∈ evs, FromLineage L e) :
    TrueTree L ((machine config opts).run evs) :=
  Machine.run_invariant (trueTree_init L config opts) (fun _ _ => trueTree_step) h

/-! ## A small lineage

Two blocks at height 1, and on the first of them a chain of two more. The runs
that later files single out are made of its headers. -/

/-- `a1` and `a2` compete on top of `g`; `b1` extends `a1`, `c1` extends `b1`. -/
def smallLineage : Lineage Hash where
  number := fun x =>
    if x = "c1" then 3 else if x = "b1" then 2
    else if x = "a1" ∨ x = "a2" ∨ x = "a3" then 1 else 0
  parent := fun x => if x = "c1" then "b1" else if x = "b1" then "a1" else "g"
  number_parent := by
    intro x
    by_cases hc : x = "c1"
    · subst hc; decide
    · by_cases hb : x = "b1"
      · subst hb; decide
      · by_cases ha : x = "a1" ∨ x = "a2" ∨ x = "a3"
        · simp [hc, hb, ha]
        · simp [hc, hb, ha]

/-- A node reports the header of a hash. -/
def reports (L : Lineage Hash) (node : NodeName) (x : Hash) : Event :=
  .allHeads node ⟨x, L.number x, L.parent x, "", ""⟩

/-- A node reports that a hash is finalized. -/
def finalizes (L : Lineage Hash) (node : NodeName) (x : Hash) : Event :=
  .finalizedHeads node (L.number x) x

/-- A transfer signed by alice. -/
def transfer : Extrinsic := .signed "alice" 0 "t" "balances" "transfer" none "0x00"

/-- The first header of its height arrives, and its body is fetched before anything else happens. -/
def captures (L : Lineage Hash) (node : NodeName) (x : Hash) (body : List Extrinsic) : List Event :=
  [reports L node x, .resume 0 .done, .resume 0 (.body (some body))]

theorem fromLineage_captures {L : Lineage Hash} {node : NodeName} {x : Hash}
    {body : List Extrinsic} {e : Event} (h : e ∈ captures L node x body) : FromLineage L e := by
  simp only [captures, List.mem_cons, List.not_mem_nil, or_false] at h
  rcases h with rfl | rfl | rfl
  · exact ⟨rfl, rfl⟩
  · trivial
  · trivial

theorem fromLineage_reports (L : Lineage Hash) (node : NodeName) (x : Hash) :
    FromLineage L (reports L node x) := ⟨rfl, rfl⟩

theorem fromLineage_finalizes (L : Lineage Hash) (node : NodeName) (x : Hash) :
    FromLineage L (finalizes L node x) := rfl

end ForkWatch.Proof
