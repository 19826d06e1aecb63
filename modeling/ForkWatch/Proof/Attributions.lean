import ForkWatch.Proof.Dues

/-!
# Is a forked block counted once for its author?

Three places count a block for its author: the detection of a fork and the later
competing block, if the record already has an author, and the loop that fills
authors in. The loop looks whether the author is missing before it asks the
network, and not again when the answer comes. Two handlers of one height run the
same loop over the same map, so both may ask for the same block, and each counts
it.

A prune does not stop either of them: it takes the map out of the tree and leaves it in
their hands, and a block that arrives again gets a new record without an author.

`countedOnce_iff` says when nothing is counted twice: when an author comes back only
while no record of its block has one, be it in the tree or in a pruned map, and a
height is detected again only while none of its blocks has an author.
-/

namespace ForkWatch.Proof

open Lib ChainContext

/-! ## What is counted -/

/-- The block a report counts for its author. -/
def attributed : Report → Option Hash
  | .authorForkBlock x _ => some x
  | _ => none

/-- The block whose author a suspended handler is about to count. -/
def attribution : Task → List Hash
  | .resolveIdentity _ _ _ block _ _ => [block.hash]
  | _ => []

/-- How often a block has been counted, or is about to be. -/
def attributions : ChainContext → Hash → Nat := ledger attributed attribution

/-- The record has an author, as the code tests for it. -/
def authored (b : BlockRecord) : Bool := (orNull b.author).isSome

/-- The blocks whose author a step takes into account. -/
def crediting (c : ChainContext) : Event → List Hash
  | .allHeads _ header =>
      if c.blockTree.getBlock header.hash = none ∧
          c.forkDetector.recordedForks.has header.number = false then
        ((c.blockTree.currentAt header.number).filter authored).map BlockRecord.hash
      else []
  | e => (entering c e).toList.map Prod.fst

theorem attributed_authorReports (blocks : List BlockRecord) :
    (blocks.filterMap ForkDetector.authorReport).filterMap attributed
      = (blocks.filter authored).map BlockRecord.hash := by
  induction blocks with
  | nil => rfl
  | cons b blocks ih =>
      unfold ForkDetector.authorReport authored at ih ⊢
      cases hb : orNull b.author with
      | none => simp [hb, ih]
      | some a => simp [hb, ih, attributed]

theorem attribution_of_free {t : Task} (h : Free t) : attribution t = [] := by
  cases t <;> first | rfl | exact absurd h id

theorem attributed_of_unowed {r : Report} (h : Unowed r) : attributed r = none := by
  cases r <;> first | rfl | exact absurd h id

theorem taskAuthor_of_unexpected {task : Task} {a : Answer} (h : expects task a = false) :
    taskAuthor task a = none := by
  unfold taskAuthor
  split
  · exact absurd h (by simp [expects])
  · rfl

/-- A handler that goes on takes one author into account, or none. -/
theorem Proceeds.attributions {c : ChainContext} {task : Task} {a : Answer} {rs : List Report}
    {ts : List Task} (h : Proceeds c task a rs ts) (x : Hash) :
    (rs.filterMap attributed).count x + (ts.flatMap attribution).count x
      = (attribution task).count x + ((taskAuthor task a).toList.map Prod.fst).count x := by
  cases h with
  | row => rfl
  | noRow => rfl
  | found header epoch visited block answer author lookup h =>
      rw [taskAuthor, h]
      simp [attribution]
  | lookup => exact Nat.zero_add _
  | counted header epoch visited block author name ts hts =>
      have hnone : ts.flatMap attribution = [] :=
        List.flatMap_eq_nil_iff.mpr fun t ht => attribution_of_free (hts t ht)
      rw [hnone]
      rfl
  | pruned => rfl
  | free task a rs ts htask hauthor hrs hts =>
      have hreported : rs.filterMap attributed = [] :=
        List.filterMap_eq_nil_iff.mpr fun r hr => attributed_of_unowed (hrs r hr)
      have howed : ts.flatMap attribution = [] :=
        List.flatMap_eq_nil_iff.mpr fun t ht => attribution_of_free (hts t ht)
      rw [hreported, howed, hauthor, attribution_of_free htask]
      rfl
  | back task a h =>
      rw [taskAuthor_of_unexpected h]
      simp

theorem attributions_resume (c : ChainContext) (i : Nat) (a : Answer) (x : Hash) :
    attributions (c.step (.resume i a)) x
      = attributions c x + (crediting c (.resume i a)).count x := by
  have hledger : attributions (c.step (.resume i a)) x = attributions c x + (c.tasks[i]?).elim 0
      fun task => ((taskAuthor task a).toList.map Prod.fst).count x :=
    ledger_resume _ fun task rs ts hproceeds => hproceeds.attributions (c := taken c i) x
  have hcrediting : crediting c (.resume i a)
      = ((c.tasks[i]?).bind fun task => taskAuthor task a).toList.map Prod.fst := rfl
  rw [hledger, hcrediting]
  cases c.tasks[i]? <;> rfl

/-- A header that is stored already counts nothing. -/
theorem crediting_of_known {c : ChainContext} {header : Header} {r : BlockRecord}
    (h : c.blockTree.getBlock header.hash = some r) (node : NodeName) :
    crediting c (.allHeads node header) = [] := if_neg (by simp [h])

/-- A detection counts the blocks that already have an author. -/
theorem Brings.attributions {c : ChainContext} {node : NodeName} {header : Header}
    {rs : List Report} {ts : List Task} (hnew : c.blockTree.getBlock header.hash = none)
    (h : Brings c node header rs ts) : rs.filterMap attributed = crediting c (.allHeads node header)
      ∧ ts.flatMap attribution = [] := by
  unfold crediting
  dsimp only
  cases h with
  | alone hnone =>
      rw [hnone]
      exact ⟨(ite_self _).symm, rfl⟩
  | later hsome hrec => exact ⟨(if_neg (by simp [hrec])).symm, rfl⟩
  | second b rest hat hrec =>
      refine ⟨?_, rfl⟩
      rw [if_pos ⟨hnew, hrec⟩, hat, List.filterMap_append, List.filterMap_append,
        attributed_authorReports]
      exact List.append_nil _

theorem attributions_allHeads {c : ChainContext} (hi : TreeInv c.blockTree) (node : NodeName)
    (header : Header) (x : Hash) : attributions (c.step (.allHeads node header)) x
      = attributions c x + (crediting c (.allHeads node header)).count x := by
  cases hget : c.blockTree.getBlock header.hash with
  | some r =>
      have hadds : Adds c (seenAgain c node header) [.delivered node header.hash header.number] [] :=
        ⟨rfl, (List.append_nil _).symm⟩
      rw [step_allHeads_of_known hget, crediting_of_known hget]
      exact hadds.ledger x
  | none =>
      obtain ⟨rs, ts, hadds, hbrings⟩ := brings node hi hget
      obtain ⟨hreported, howed⟩ := hbrings.attributions hget
      have hledger : attributions (c.step (.allHeads node header)) x
          = attributions c x + (rs.filterMap attributed ++ ts.flatMap attribution).count x :=
        ledger_newHeader hadds rfl rfl x
      rw [hledger, hreported, howed, List.append_nil]

theorem attributed_onHeightFinalized (d : ForkDetector) (F : Nat) (y : Hash) :
    (d.onHeightFinalized F y).2.filterMap attributed = [] := by
  refine List.filterMap_eq_nil_iff.mpr fun r hr => ?_
  rcases (onHeightFinalized_spec d F y).reports r hr with ⟨n, rfl⟩ | ⟨f, rfl⟩
  · rfl
  · rfl

/-- **What one step counts.** -/
theorem attributions_step {c : ChainContext} (hi : TreeInv c.blockTree) (e : Event) (x : Hash) :
    attributions (c.step e) x = attributions c x + (crediting c e).count x := by
  cases e with
  | allHeads node header => exact attributions_allHeads hi node header x
  | resume i a => exact attributions_resume c i a x
  | finalizedHeads node F y =>
      refine ((adds_finalizedHeads c node F y).ledger x).trans ?_
      rw [List.filterMap_append, attributed_onHeightFinalized]
      rfl
  | poll => rfl
  | retryTick => rfl
  | resubmitSettled => rfl
  | connections => rfl
  | setupCausation => rfl
  | identities => rfl

/-! ## The blocks handlers ask about -/

/-- The block a handler asks about is in the map it holds. -/
def TaskHolds (c : ChainContext) : Task → Prop
  | .extractAuthor header epoch _ block => Holding c header.number epoch block.hash
  | .resolveIdentity header epoch _ block _ _ => Holding c header.number epoch block.hash
  | _ => True

theorem TaskHolds.step {c : ChainContext} {task : Task} (h : TaskHolds c task) (e : Event) :
    TaskHolds (c.step e) task := by
  cases task with
  | extractAuthor => exact Holding.step h e
  | resolveIdentity => exact Holding.step h e
  | _ => trivial

theorem Holding.congr {c c' : ChainContext} {n epoch : Nat} {x : Hash} (h : Holding c n epoch x)
    (hkeys : heldHashes c' n epoch = heldHashes c n epoch) (hepoch : c'.epochAt n = c.epochAt n) :
    Holding c' n epoch x :=
  ⟨hepoch ▸ h.taken, hkeys ▸ h.has⟩

theorem TaskHolds.congr {c c' : ChainContext} {task : Task} (h : TaskHolds c task)
    (htree : c'.blockTree = c.blockTree) (hmaps : c'.detached = c.detached) :
    TaskHolds c' task := by
  have hkeys : ∀ n epoch, heldHashes c' n epoch = heldHashes c n epoch := by
    intro n epoch
    unfold heldHashes
    rw [htree, hmaps]
  have hepoch : ∀ n, c'.epochAt n = c.epochAt n := by
    intro n
    unfold epochAt
    rw [hmaps]
  cases task with
  | extractAuthor => exact Holding.congr h (hkeys _ _) (hepoch _)
  | resolveIdentity => exact Holding.congr h (hkeys _ _) (hepoch _)
  | _ => trivial

/-- The loop goes on to a block of the map it holds. -/
theorem holds_enrichForkAuthors {c : ChainContext} (hi : TreeInv c.blockTree) (hd : DetachedInv c)
    (header : Header) {epoch : Nat} (hepoch : epoch ≤ c.epochAt header.number)
    (visited : List Hash) :
    ∃ ts, (c.enrichForkAuthors header epoch visited).tasks = c.tasks ++ ts ∧
      ∀ t ∈ ts, TaskHolds (c.enrichForkAuthors header epoch visited) t := by
  unfold enrichForkAuthors
  split
  · refine ⟨[.getBlock header.hash header.number], ?_, by simp [TaskHolds]⟩
    unfold updateForkAuthors
    split
    · rfl
    · rfl
  · rename_i b hfind
    refine ⟨_, rfl, fun t ht => ?_⟩
    rw [List.mem_singleton.mp ht]
    exact ⟨hepoch, (mem_heldAt hi hd (List.mem_of_find?_eq_some hfind)).2.1⟩

theorem holds_recordCause (c : ChainContext) (header : Header) (epoch : Nat)
    (blocks : List BlockRecord) (rps : List (Option RelayParent)) :
    ∃ ts, (c.recordCause header epoch blocks rps).tasks = c.tasks ++ ts ∧
      ∀ t ∈ ts, TaskHolds (c.recordCause header epoch blocks rps) t := by
  unfold ChainContext.recordCause
  dsimp only
  split
  · exact ⟨_, rfl, by simp [TaskHolds]⟩
  · exact ⟨_, rfl, by simp [TaskHolds]⟩

/-- A handler that goes on asks about a block of the map it holds. -/
theorem Resumed.holds {c c' : ChainContext} {task : Task} {a : Answer} (h : Resumed c task a c')
    (hi : TreeInv c.blockTree) (hd : DetachedInv c) (htask : TaskHolds c task) :
    ∃ ts, c'.tasks = c.tasks ++ ts ∧ ∀ t ∈ ts, TaskHolds c' t := by
  have waits : ∀ {d : ChainContext} {t : Task}, d.tasks = c.tasks ++ [t] → TaskHolds d t →
      ∃ ts, d.tasks = c.tasks ++ ts ∧ ∀ t ∈ ts, TaskHolds d t :=
    fun htasks ht => ⟨_, htasks, fun t' ht' => List.mem_singleton.mp ht' ▸ ht⟩
  cases h with
  | insertForkBlocks header epoch rest =>
      unfold ChainContext.insertForkBlocks
      cases rest with
      | nil => exact waits rfl trivial
      | cons => exact waits rfl trivial
  | unhooked => exact waits rfl trivial
  | hooked =>
      unfold analyzeForkCause
      dsimp only
      split
      · exact waits rfl trivial
      · exact waits rfl trivial
  | relayParents =>
      unfold onRelayParents
      dsimp only
      split
      · exact waits rfl trivial
      · exact holds_recordCause ..
  | retryRelayParents => exact holds_recordCause ..
  | updateCause header epoch blocks rps =>
      obtain ⟨htasks, -⟩ := storeRelayParents_frame c header.number epoch blocks rps
      exact waits (congrArg (· ++ _) htasks) trivial
  | forkUpdated => exact waits rfl trivial
  | imported header forked =>
      unfold afterImport
      split
      · split
        · exact waits rfl trivial
        · exact holds_enrichForkAuthors hi hd header (Nat.le_refl _) []
      · exact waits rfl trivial
  | extractAuthor header epoch visited block answer =>
      have hholds : Holding c header.number epoch block.hash := htask
      unfold onAuthor
      split
      · exact holds_enrichForkAuthors hi hd header hholds.taken visited
      · rename_i author _
        obtain ⟨htasks, -⟩ := writeHeld_frame c header.number epoch block.hash
          fun r => { r with author := some author }
        refine waits (congrArg (· ++ _) htasks) ?_
        exact hholds.congr (heldHashes_writeHeld ..) (epochAt_writeHeld ..)
  | lookup => exact waits rfl (Holding.congr htask rfl rfl)
  | resolveIdentity header epoch visited block author =>
      have hholds : Holding c header.number epoch block.hash := htask
      obtain ⟨named, heq, htasks, hinv, hmaps, -, hepoch⟩ :=
        exists_named hi hd header epoch visited block author
      have htaken : epoch ≤ named.epochAt header.number := (hepoch _).symm ▸ hholds.taken
      obtain ⟨ts, hnext, hts⟩ := holds_enrichForkAuthors hinv hmaps header htaken visited
      rw [heq]
      exact ⟨ts, hnext.trans (congrArg (· ++ ts) htasks), hts⟩
  | body => exact ⟨[], (List.append_nil _).symm, by simp⟩
  | noBody => exact ⟨[], (List.append_nil _).symm, by simp⟩
  | resolveForkEvent => exact ⟨[], (List.append_nil _).symm, by simp⟩
  | other => exact waits rfl (htask.congr rfl rfl)

/-! ## Authors of records -/

theorem mem_crediting_of_entering {c : ChainContext} {e : Event} {x : Hash} {a : Address}
    (h : entering c e = some (x, a)) : x ∈ crediting c e := by
  cases e with
  | resume i a' =>
      exact List.mem_map_of_mem (Option.mem_toList.mpr h)
  | _ => exact absurd h (by simp [entering])

/-- The author that is entered is one. -/
theorem orNull_of_entering {c : ChainContext} {e : Event} {x : Hash} {a : Address}
    (h : entering c e = some (x, a)) : orNull (some a) = some a := by
  cases e with
  | resume i a' =>
      obtain ⟨task, -, htask⟩ := Option.bind_eq_some_iff.mp h
      unfold taskAuthor at htask
      split at htask
      · obtain ⟨author, hauthor, heq⟩ := Option.map_eq_some_iff.mp htask
        obtain ⟨-, rfl⟩ := Prod.mk.inj heq
        obtain ⟨hsome, htest⟩ := Option.filter_eq_some_iff.mp hauthor
        exact Option.filter_eq_some_iff.mpr ⟨rfl, htest⟩
      · exact absurd htask (by simp)
  | _ => exact absurd h (by simp [entering])

theorem Change.authored {c : ChainContext} {e : Event} {x : Hash} {f : BlockRecord → BlockRecord}
    {r : BlockRecord} (h : Change (entering c e) x f) (hr : authored r = true) :
    authored (f r) = true := by
  cases h with
  | name => exact hr
  | relay => exact hr
  | author a hfound => simp [Proof.authored, orNull_of_entering hfound]

/-- The author of a record has been taken into account, and stays on record. -/
structure Credited (c : ChainContext) : Prop where
  inv : TreeInv c.blockTree
  detached : DetachedInv c
  tasks : ∀ t ∈ c.tasks, TaskHolds c t
  records : ∀ x, (∃ r, Recorded c x r ∧ authored r = true) ↔ 0 < attributions c x

/-- A block that a detection counts is on record with its author. -/
theorem Credited.of_crediting {c : ChainContext} (h : Credited c) {node : NodeName}
    {header : Header} {x : Hash} (hx : x ∈ crediting c (.allHeads node header)) :
    ∃ r, Recorded c x r ∧ authored r = true := by
  unfold crediting at hx
  dsimp only at hx
  split at hx
  · obtain ⟨b, hb, rfl⟩ := List.mem_map.mp hx
    obtain ⟨hb, hauthored⟩ := List.mem_filter.mp hb
    exact ⟨b, Or.inl (h.inv.mem_currentAt_iff.mp hb).1, hauthored⟩
  · exact absurd hx (by simp)

/-- What a step counts is on record with its author afterwards. -/
theorem Credited.recorded_of_crediting {c : ChainContext} (h : Credited c) {e : Event} {x : Hash}
    (hx : x ∈ crediting c e) : ∃ r, Recorded (c.step e) x r ∧ authored r = true := by
  cases e with
  | allHeads node header =>
      exact keeps_step_of h.inv _ (fun _ _ hf hr => hf.authored hr) (fun _ _ hr => hr)
        (h.of_crediting hx)
  | resume i a =>
      obtain ⟨⟨y, author⟩, hentering, rfl⟩ := List.mem_map.mp hx
      have hfound : entering c (.resume i a) = some (y, author) := Option.mem_toList.mp hentering
      have hauthor := orNull_of_entering hfound
      obtain ⟨task, htask, hwrites⟩ := Option.bind_eq_some_iff.mp hfound
      unfold taskAuthor at hwrites
      split at hwrites
      · rename_i header epoch visited block answer
        obtain ⟨author', hanswer, heq⟩ := Option.map_eq_some_iff.mp hwrites
        obtain ⟨rfl, rfl⟩ := Prod.mk.inj heq
        -- the record is in the map that the handler holds
        have hholds : Holding c header.number epoch block.hash :=
          h.tasks _ (List.mem_of_getElem? htask)
        have htaken : Holding (taken c i) header.number epoch block.hash := hholds.congr rfl rfl
        obtain ⟨r, hr⟩ := htaken.written h.inv fun r => { r with author := some author' }
        refine ⟨{ r with author := some author' }, ?_, by simp [authored, hauthor]⟩
        rw [step_resume_of_some htask]
        change Recorded ((taken c i).onAuthor header epoch visited block answer) _ _
        rw [onAuthor, hanswer]
        exact hr
      · exact absurd hwrites (by simp)
  | _ => exact absurd hx (by simp [crediting, entering])

theorem holds_step {c : ChainContext} (h : Credited c) (e : Event) :
    ∀ t ∈ (c.step e).tasks, TaskHolds (c.step e) t := by
  have hadded : ∀ {ts : List Task}, (c.step e).tasks = c.tasks ++ ts →
      (∀ t ∈ ts, TaskHolds (c.step e) t) → ∀ t ∈ (c.step e).tasks, TaskHolds (c.step e) t := by
    intro ts htasks hts t ht
    rw [htasks] at ht
    exact (List.mem_append.mp ht).elim (fun hold => (h.tasks t hold).step e) (hts t)
  cases e with
  | allHeads node header =>
      cases hget : c.blockTree.getBlock header.hash with
      | some r =>
          rw [step_allHeads_of_known hget] at hadded ⊢
          exact hadded (List.append_nil _).symm (by simp)
      | none =>
          obtain ⟨rs, ts, hadds, hbrings⟩ := brings node h.inv hget
          refine hadded hadds.tasks ?_
          cases hbrings with
          | alone => simp [TaskHolds]
          | later => simp [TaskHolds]
          | second => simp [TaskHolds]
  | finalizedHeads node F x =>
      exact hadded (adds_finalizedHeads c node F x).tasks (by simp [TaskHolds])
  | resume i a =>
      cases hti : c.tasks[i]? with
      | none =>
          rw [step_resume_of_none hti]
          exact h.tasks
      | some task =>
          have hstep := step_resume_of_some hti a
          have htask : TaskHolds (taken c i) task :=
            (h.tasks task (List.mem_of_getElem? hti)).congr rfl rfl
          obtain ⟨ts, htasks, hts⟩ := (resumed (taken c i) task a).holds h.inv h.detached htask
          intro t ht
          rw [hstep, htasks] at ht
          rcases List.mem_append.mp ht with hold | hnew
          · exact (h.tasks t (List.mem_of_mem_eraseIdx hold)).step _
          · rw [hstep]
            exact hts t hnew
  | _ => exact hadded (List.append_nil _).symm (by simp)

theorem credited_step {c : ChainContext} (h : Credited c) (e : Event) : Credited (c.step e) where
  inv := treeInv_step h.inv e
  detached := detachedInv_step h.inv h.detached e
  tasks := holds_step h e
  records := by
    intro x
    rw [attributions_step h.inv]
    refine ⟨?_, ?_⟩
    · -- an author on record was there before, or is the one that comes back
      have hcounted : ∀ y r, Recorded (c.step e) y r → authored r = true →
          0 < attributions c y + (crediting c e).count y := by
        refine records_step_of h.inv e ?_ ?_ ?_ ?_
        · intro y f r hf hr hauthored
          cases hf with
          | name => exact hr hauthored
          | relay => exact hr hauthored
          | author a hfound =>
              exact Nat.lt_add_left _ (List.count_pos_iff.mpr (mem_crediting_of_entering hfound))
        · exact fun node header _ r hr hauthored => hr hauthored
        · intro node header _ hauthored
          exact absurd hauthored (by simp [authored, recordOf, BlockTree.newRecord, orNull])
        · exact fun y r hr hauthored => Nat.lt_add_right _ ((h.records y).mp ⟨r, hr, hauthored⟩)
      rintro ⟨r, hr, hauthored⟩
      exact hcounted x r hr hauthored
    · intro hpos
      rcases Nat.eq_zero_or_pos (attributions c x) with hzero | hold
      · exact h.recorded_of_crediting (List.count_pos_iff.mp (by omega))
      · exact keeps_step_of h.inv e (fun _ _ hf hr => hf.authored hr) (fun _ _ hr => hr)
          ((h.records x).mpr hold)

/-! ## Every run -/

/--
A height is detected while none of its blocks has an author, and an author comes back
while no record of its block has one: not the tree's, and none that a prune has taken
out of it.
-/
def FirstAuthor (c : ChainContext) : Event → Prop
  | .allHeads _ header =>
      c.blockTree.getBlock header.hash = none →
        c.forkDetector.recordedForks.has header.number = false →
          ∀ b ∈ c.blockTree.currentAt header.number, authored b = false
  | e => ∀ q ∈ entering c e, ∀ r, Recorded c q.1 r → authored r = false

/-- No block is counted twice, nor counted and about to be counted again. -/
def CountedOnce (c : ChainContext) : Prop := ∀ x, attributions c x ≤ 1

theorem crediting_allHeads_eq_nil_iff {c : ChainContext} (node : NodeName) (header : Header) :
    crediting c (.allHeads node header) = [] ↔ FirstAuthor c (.allHeads node header) := by
  unfold crediting FirstAuthor
  dsimp only
  split
  · rename_i h
    rw [List.map_eq_nil_iff, List.filter_eq_nil_iff]
    exact ⟨fun hall _ _ b hb => by simpa using hall b hb, fun hall b hb => by simp [hall h.1 h.2 b hb]⟩
  · rename_i h
    exact ⟨fun _ hnew hrec => absurd ⟨hnew, hrec⟩ h, fun _ => rfl⟩

/-- A block is counted as soon as a record of it has an author. -/
theorem Credited.attributions_eq_zero_iff {c : ChainContext} (h : Credited c) (x : Hash) :
    attributions c x = 0 ↔ ∀ r, Recorded c x r → authored r = false := by
  have hiff := h.records x
  refine ⟨?_, ?_⟩
  · intro hzero r hr
    by_contra hauthored
    have := hiff.mp ⟨r, hr, by simpa using hauthored⟩
    omega
  · intro hnone
    refine Nat.eq_zero_of_not_pos fun hpos => ?_
    obtain ⟨r, hr, hauthored⟩ := hiff.mpr hpos
    rw [hnone r hr] at hauthored
    exact absurd hauthored (by simp)

/-- Counting one more block is right if it has not been counted. -/
theorem countedOnce_entering {c : ChainContext} (hi : Credited c) (h : CountedOnce c) (e : Event) :
    (∀ x, attributions c x + ((entering c e).toList.map Prod.fst).count x ≤ 1)
      ↔ ∀ q ∈ entering c e, ∀ r, Recorded c q.1 r → authored r = false := by
  cases entering c e with
  | none =>
      refine iff_of_true (fun x => ?_) (fun q hq => absurd hq (by simp))
      exact h x
  | some q =>
      have hall : (∀ p ∈ some q, ∀ r, Recorded c p.1 r → authored r = false)
          ↔ attributions c q.1 = 0 := by
        rw [hi.attributions_eq_zero_iff]
        simp
      rw [hall, Option.toList_some, List.map_singleton]
      refine ⟨fun hle => ?_, fun hzero x => ?_⟩
      · have := hle q.1
        rw [List.count_singleton_self] at this
        omega
      · have := h x
        rw [List.count_singleton]
        split
        · rename_i hx
          rw [beq_iff_eq] at hx
          subst hx
          omega
        · omega

/-- **One step counts nothing twice, or finds an author that was there already.** -/
theorem countedOnce_step {c : ChainContext} (hi : Credited c) (h : CountedOnce c) (e : Event) :
    CountedOnce (c.step e) ↔ FirstAuthor c e := by
  have hstep : CountedOnce (c.step e) ↔ ∀ x, attributions c x + (crediting c e).count x ≤ 1 := by
    unfold CountedOnce
    simp only [attributions_step hi.inv]
  rw [hstep]
  cases e with
  | allHeads node header =>
      rw [← crediting_allHeads_eq_nil_iff node header, List.eq_nil_iff_forall_not_mem]
      refine ⟨?_, ?_⟩
      · intro hle x hx
        have hbefore := (hi.records x).mp (hi.of_crediting hx)
        have hnow := List.count_pos_iff.mpr hx
        have := hle x
        omega
      · intro hnone x
        rw [List.count_eq_zero_of_not_mem (hnone x)]
        exact h x
  | resume i a => exact countedOnce_entering hi h (.resume i a)
  | _ => exact iff_of_true h fun q hq => absurd hq (by simp [entering])

theorem credited_init (config : ChainConfig) (opts : TxOptions) :
    Credited (machine config opts).init where
  inv := treeInv_init
  detached := fun _ _ hm => absurd hm (by simp [machine])
  tasks := fun _ ht => absurd ht (by simp [machine])
  records := by
    intro x
    refine iff_of_false ?_ (Nat.lt_irrefl 0)
    rintro ⟨r, hx | ⟨n, m, hm, -⟩, -⟩
    · exact absurd hx (by simp [machine, BlockTree.getBlock])
    · exact absurd hm (by simp [machine])

/--
**When no block is counted twice.** If every step of a run meets the condition,
every block is counted at most once in every state of it; and the condition is
exact, as soon as what is about to be counted is taken as counted.
-/
theorem countedOnce_iff (config : ChainConfig) (opts : TxOptions) (evs : List Event) :
    ((machine config opts).Guarded FirstAuthor (machine config opts).init evs →
      ∀ pre, pre <+: evs → ∀ x,
        (((machine config opts).run pre).history.filterMap attributed).count x ≤ 1) ∧
    ((∀ pre, pre <+: evs → CountedOnce ((machine config opts).run pre)) ↔
      (machine config opts).Guarded FirstAuthor (machine config opts).init evs) := by
  have hiff := Machine.always_iff_guarded (m := machine config opts) (A := fun _ _ => True)
    (I := Credited) (P := CountedOnce) (credited_init config opts)
    (fun _ e h _ => credited_step h e) (fun _ => Nat.zero_le _)
    (fun _ e hi _ h => countedOnce_step hi h e)
    (Machine.guarded_of_forall fun (_ : Event) (_ : _ ∈ evs) => trivial)
  refine ⟨fun hg pre hpre x => ?_, hiff⟩
  exact Nat.le_trans (Nat.le_add_right _ _) (hiff.mpr hg pre hpre x)

/-! ## Three blocks close together

`a1` is alone, then `a2` and `a3` arrive. The handlers of both find `a1` without an
author, and ask for it one after the other. -/

/-- Both handlers wait for the author of `a1`, and both get it. -/
def askedTwiceRun : List Event :=
  captures smallLineage "n" "a1" [] ++ [reports smallLineage "n" "a2", reports smallLineage "n" "a3",
    .resume 1 .done, .resume 1 .done, .resume 0 .done, .resume 1 .done, .resume 1 .done,
    .resume 1 .done, .resume 0 (.author (some "alice")), .resume 0 (.author (some "alice")),
    .resume 0 (.identity (.identityOf none)), .resume 0 (.identity (.identityOf none)),
    .resume 0 .done, .resume 0 .done]

theorem not_countedOnce_askedTwiceRun :
    ¬ ∀ x, (((machine {} {}).run askedTwiceRun).history.filterMap attributed).count x ≤ 1 := by
  intro h
  exact absurd (h "a1") (by decide)

end ForkWatch.Proof
