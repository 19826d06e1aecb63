import ForkWatch.Proof.Blame

/-!
# What suspended handlers owe

A handler often reports in a later turn what it decided in an earlier one: the
rows of the blocks it saw, the count of an author it found. `Proceeds` says which
reports a resumed task makes and which tasks it leaves behind, and a `ledger`
counts what has been reported together with what is still owed, so that it only
moves when something new is taken on.
-/

namespace ForkWatch.Proof

open Lib ChainContext

/-! ## How a task goes on -/

/-- The task owes neither the row of a block nor the count of an author nor a prune. -/
def Free : Task → Prop
  | .insertForkBlocks .. | .resolveIdentity .. | .resolveForkEvent _ => False
  | _ => True

/-- The report is neither the row of a block nor the count of an author. -/
def Unowed : Report → Prop
  | .insertForkEvent _ | .forkCause .. | .relayCaused _ => True
  | _ => False

/-- What a task reports when it goes on with an answer, and the tasks it leaves. -/
inductive Proceeds (c : ChainContext) : Task → Answer → List Report → List Task → Prop where
  /-- One more row. -/
  | row (header : Header) (epoch : Nat) (b : BlockRecord) (rest : List BlockRecord)
      (event : ForkEventRow) (hooked : Bool) :
      Proceeds c (.insertForkBlocks header epoch (b :: rest) event hooked) .done
        [.insertForkBlock (ForkDetector.forkBlockRow (c.held header.number epoch b))]
        [.insertForkBlocks header epoch rest event hooked]
  /-- No row is left. -/
  | noRow (header : Header) (epoch : Nat) (event : ForkEventRow) (hooked : Bool) :
      Proceeds c (.insertForkBlocks header epoch [] event hooked) .done [.insertForkEvent event]
        [.insertForkEvent header epoch hooked]
  /-- An author is found; the count waits for its name. -/
  | found (header : Header) (epoch : Nat) (visited : List Hash) (block : BlockRecord)
      (answer : Option Address) (author : Address) (lookup : Option Lookup)
      (h : orNull answer = some author) :
      Proceeds c (.extractAuthor header epoch visited block) (.author answer) []
        [.resolveIdentity header epoch visited { block with author := some author } author lookup]
  /-- The lookup of the name goes on. -/
  | lookup (header : Header) (epoch : Nat) (visited : List Hash) (block : BlockRecord)
      (author : Address) (lookup : Lookup) (answer : IdentityAnswer) (next : Option Lookup) :
      Proceeds c (.resolveIdentity header epoch visited block author (some lookup))
        (.identity answer) [] [.resolveIdentity header epoch visited block author next]
  /-- The author has a name and is counted. -/
  | counted (header : Header) (epoch : Nat) (visited : List Hash) (block : BlockRecord)
      (author : Address) (name : String) (ts : List Task) (hts : ∀ t ∈ ts, Free t) :
      Proceeds c (.resolveIdentity header epoch visited block author none) .done
        [.authorForkBlock block.hash name] ts
  /-- The tree is pruned. -/
  | pruned (F : Nat) : Proceeds c (.resolveForkEvent F) .done [] []
  /-- Everything else. -/
  | free (task : Task) (a : Answer) (rs : List Report) (ts : List Task) (htask : Free task)
      (hauthor : taskAuthor task a = none) (hrs : ∀ r ∈ rs, Unowed r) (hts : ∀ t ∈ ts, Free t) :
      Proceeds c task a rs ts
  /-- The task does not wait for this answer. -/
  | back (task : Task) (a : Answer) (h : expects task a = false) : Proceeds c task a [] [task]

/-- A context reports `rs` and is left with `ts` in addition. -/
structure Adds (c c' : ChainContext) (rs : List Report) (ts : List Task) : Prop where
  history : c'.history = c.history ++ rs
  tasks : c'.tasks = c.tasks ++ ts

theorem adds_nothing {c c' : ChainContext} (hhist : c'.history = c.history)
    (htasks : c'.tasks = c.tasks) : Adds c c' [] [] := by
  refine ⟨?_, ?_⟩
  · rw [hhist, List.append_nil]
  · rw [htasks, List.append_nil]

theorem adds_await (c : ChainContext) (t : Task) : Adds c (c.await t) [] [t] :=
  ⟨(List.append_nil _).symm, rfl⟩

theorem adds_captureBody (c : ChainContext) (header : Header) :
    Adds c (c.captureBody header) [] [.getBlock header.hash header.number] :=
  ⟨(List.append_nil _).symm, rfl⟩

theorem adds_enrichForkAuthors (c : ChainContext) (header : Header) (epoch : Nat)
    (visited : List Hash) :
    ∃ ts, Adds c (c.enrichForkAuthors header epoch visited) [] ts ∧ ∀ t ∈ ts, Free t := by
  unfold enrichForkAuthors
  split
  · refine ⟨[.getBlock header.hash header.number], ?_, by simp [Free]⟩
    unfold updateForkAuthors
    split
    · exact adds_captureBody c header
    · exact ⟨(List.append_nil _).symm, rfl⟩
  · exact ⟨_, adds_await c _, by simp [Free]⟩

theorem adds_onIdentity (c : ChainContext) (header : Header) (epoch : Nat)
    (visited : List Hash) (block : BlockRecord) (author : Address) :
    ∃ name ts, Adds c (c.onIdentity header epoch visited block author)
      [.authorForkBlock block.hash name] ts ∧ ∀ t ∈ ts, Free t := by
  unfold onIdentity
  dsimp only
  generalize BlockRecord.authorLabel _ = name
  generalize hnamed : ChainContext.report _ [Report.authorForkBlock _ name] = named
  obtain ⟨ts, hadds, hts⟩ := adds_enrichForkAuthors named header epoch visited
  obtain ⟨htasks, hhist, -⟩ := writeHeld_frame c header.number epoch block.hash
    (fun r => { r with authorName := c.resolveAuthorName author })
  refine ⟨name, ts, ⟨?_, ?_⟩, hts⟩
  · rw [hadds.history, ← hnamed, List.append_nil, report, hhist]
  · rw [hadds.tasks, ← hnamed, report, htasks]

theorem adds_recordCause (c : ChainContext) (header : Header) (epoch : Nat)
    (blocks : List BlockRecord) (rps : List (Option RelayParent)) :
    ∃ rs ts, Adds c (c.recordCause header epoch blocks rps) rs ts ∧ (∀ r ∈ rs, Unowed r) ∧
      ∀ t ∈ ts, Free t := by
  unfold ChainContext.recordCause
  dsimp only
  split
  · exact ⟨[], _, adds_await c _, by simp, by simp [Free]⟩
  · rename_i verdict _
    refine ⟨_, _, ⟨rfl, rfl⟩, ?_, by simp [Free]⟩
    intro r hr
    rcases List.mem_cons.mp hr with rfl | hr
    · trivial
    · split at hr
      · rw [List.mem_singleton.mp hr]
        trivial
      · exact absurd hr (by simp)

/-- **How a task goes on.** -/
theorem Resumed.proceeds {c c' : ChainContext} {task : Task} {a : Answer}
    (h : Resumed c task a c') : ∃ rs ts, Adds c c' rs ts ∧ Proceeds c task a rs ts := by
  -- a task that owes no row and writes no author
  have free : ∀ {d : ChainContext} {rs : List Report} {ts : List Task}, Adds c d rs ts →
      Free task → taskAuthor task a = none → (∀ r ∈ rs, Unowed r) → (∀ t ∈ ts, Free t) →
      ∃ rs ts, Adds c d rs ts ∧ Proceeds c task a rs ts :=
    fun hadds htask hauthor hrs hts => ⟨_, _, hadds, .free _ _ _ _ htask hauthor hrs hts⟩
  cases h with
  | insertForkBlocks header epoch rest event hooked =>
      unfold ChainContext.insertForkBlocks
      cases rest with
      | nil => exact ⟨_, _, ⟨rfl, rfl⟩, .noRow header epoch event hooked⟩
      | cons b rest => exact ⟨_, _, ⟨rfl, rfl⟩, .row header epoch b rest event hooked⟩
  | unhooked => exact free (adds_await c _) trivial rfl (by simp) (by simp [Free])
  | hooked header epoch =>
      unfold analyzeForkCause
      dsimp only
      split
      · exact free (adds_await c _) trivial rfl (by simp) (by simp [Free])
      · exact free (adds_await c _) trivial rfl (by simp) (by simp [Free])
  | relayParents header epoch blocks parent =>
      unfold onRelayParents
      dsimp only
      split
      · exact free (adds_await c _) trivial rfl (by simp) (by simp [Free])
      · obtain ⟨rs, ts, hadds, hrs, hts⟩ := adds_recordCause c header epoch blocks
          (blocks.map fun b => parent b.hash)
        exact free hadds trivial rfl hrs hts
  | retryRelayParents header epoch blocks known parent =>
      obtain ⟨rs, ts, hadds, hrs, hts⟩ := adds_recordCause c header epoch blocks
        (List.zipWith (fun (b : BlockRecord) known => known.or (parent b.hash)) blocks known)
      exact free hadds trivial rfl hrs hts
  | updateCause header epoch blocks rps =>
      obtain ⟨htasks, hhist, -⟩ := storeRelayParents_frame c header.number epoch blocks rps
      have hadds : Adds c ((c.storeRelayParents header.number epoch blocks rps).await
          (.imported header true)) [] [.imported header true] :=
        ⟨hhist.trans (List.append_nil _).symm, congrArg (· ++ [Task.imported header true]) htasks⟩
      exact free hadds trivial rfl (by simp) (by simp [Free])
  | forkUpdated => exact free (adds_await c _) trivial rfl (by simp) (by simp [Free])
  | imported header forked =>
      unfold afterImport
      split
      · split
        · exact free (adds_captureBody c header) trivial rfl (by simp) (by simp [Free])
        · obtain ⟨ts, hadds, hts⟩ := adds_enrichForkAuthors c header
            (c.epochAt header.number) []
          exact free hadds trivial rfl (by simp) hts
      · exact free (adds_captureBody c header) trivial rfl (by simp) (by simp [Free])
  | extractAuthor header epoch visited block answer =>
      unfold onAuthor
      cases hanswer : orNull answer with
      | none =>
          obtain ⟨ts, hadds, hts⟩ := adds_enrichForkAuthors c header epoch visited
          exact free hadds trivial (by rw [taskAuthor, hanswer]; rfl) (by simp) hts
      | some author =>
          obtain ⟨htasks, hhist, -⟩ := writeHeld_frame c header.number epoch block.hash
            (fun r => { r with author := some author })
          exact ⟨_, _, ⟨hhist.trans (List.append_nil _).symm, congrArg (· ++ [_]) htasks⟩,
            .found header epoch visited block answer author _ hanswer⟩
  | lookup header epoch visited block author lookup answer =>
      exact ⟨_, _, ⟨(List.append_nil _).symm, rfl⟩, .lookup _ _ _ _ _ _ _ _⟩
  | resolveIdentity header epoch visited block author =>
      obtain ⟨name, ts, hadds, hts⟩ := adds_onIdentity c header epoch visited block author
      exact ⟨_, ts, hadds, .counted header epoch visited block author name ts hts⟩
  | body => exact free (adds_nothing rfl rfl) trivial rfl (by simp) (by simp)
  | noBody => exact free (adds_nothing rfl rfl) trivial rfl (by simp) (by simp)
  | resolveForkEvent F => exact ⟨_, _, adds_nothing rfl rfl, .pruned F⟩
  | other _ _ hexp => exact ⟨[], [task], adds_await c task, .back task a hexp⟩

/-! ## What a task does to the records -/

/-- `g` sees neither the name of an author nor the relay parent. -/
structure Overlooks {α : Type} (g : BlockRecord → α) : Prop where
  name : ∀ r n, g { r with authorName := n } = g r
  relay : ∀ r p n, g { r with relayParent := p, relayNumber := n } = g r

theorem map_getBlock_updateRecord {α : Type} {g : BlockRecord → α} {x y : Hash}
    {f : BlockRecord → BlockRecord} (hf : x = y → ∀ r, g (f r) = g r) (t : BlockTree) :
    ((t.updateRecord y f).getBlock x).map g = (t.getBlock x).map g := by
  rw [getBlock_updateRecord]
  split
  · rename_i hxy
    subst hxy
    rw [Option.map_map]
    exact congrArg (fun k => (t.getBlock x).map k) (funext (hf rfl))
  · rfl

/-- A change that is no author of the block itself is overlooked. -/
theorem Change.overlooked {α : Type} {g : BlockRecord → α} (hg : Overlooks g)
    {found : Option (Hash × Address)} {x : Hash}
    (hauthor : ∀ q ∈ found, x = q.1 → ∀ r, g { r with author := some q.2 } = g r)
    {f : BlockRecord → BlockRecord} (hf : Change found x f) (r : BlockRecord) : g (f r) = g r := by
  cases hf with
  | name n => exact hg.name r n
  | relay p n => exact hg.relay r p n
  | author a h => exact hauthor (x, a) h rfl r

/-- Names and relay parents apart, a record of the tree only changes when its author is found. -/
theorem Writes.map_getBlock {found : Option (Hash × Address)} {c d : ChainContext}
    (h : Writes found c d) {α : Type} {g : BlockRecord → α} (hg : Overlooks g) {x : Hash}
    (hauthor : ∀ q ∈ found, x = q.1 → ∀ r, g { r with author := some q.2 } = g r) :
    (d.blockTree.getBlock x).map g = (c.blockTree.getBlock x).map g := by
  induction h with
  | same htree => rw [htree]
  | @write d e _ n epoch y f hf htree hmaps ih =>
      rw [htree, ← ih]
      unfold writeHeld
      split
      · refine map_getBlock_updateRecord (fun hxy r => ?_) d.blockTree
        subst hxy
        exact hf.overlooked hg hauthor r
      · rfl

/-! ## How a new header arrives -/

/-- Once entered, a header is the last of its height. -/
theorem currentAt_entered {c : ChainContext} (node : NodeName) {header : Header}
    (hi : TreeInv c.blockTree) (hnew : c.blockTree.getBlock header.hash = none) :
    (entered c node header).blockTree.currentAt header.number
      = c.blockTree.currentAt header.number ++ [recordOf node header] := by
  have hat := (getBlocksAtHeight_insertRecord c.blockTree (recordOf node header) header.number).trans
    (if_pos rfl)
  have hnone : ((c.blockTree.getBlocksAtHeight header.number).getD ∅).get? header.hash = none := by
    cases hm : c.blockTree.getBlocksAtHeight header.number with
    | none => rfl
    | some m =>
        rw [Option.getD_some]
        cases hr : m.get? header.hash with
        | none => rfl
        | some r =>
            rw [(hi.byHeight _ m _ r hm hr).2.2] at hnew
            exact absurd hnew (by simp)
  unfold BlockTree.currentAt entered report
  dsimp only
  rw [hat]
  dsimp only
  unfold OrdMap.values
  change List.map Prod.snd (OrdMap.set _ header.hash _).entries = _
  rw [OrdMap.entries_set_of_not_mem hnone, List.map_append]
  cases c.blockTree.getBlocksAtHeight header.number <;> rfl

/-- The context once a header has been entered and its height is on record. -/
def onRecord (c : ChainContext) (node : NodeName) (header : Header) : ChainContext :=
  { entered c node header with
    forkDetector := { c.forkDetector with
      recordedForks := c.forkDetector.recordedForks.add header.number } }

/-- What a header that is not stored yet does: it is alone, or the second at its height, or later. -/
inductive Arrives (c : ChainContext) (node : NodeName) (header : Header) : ChainContext → Prop where
  | alone (hnone : c.blockTree.currentAt header.number = []) :
      Arrives c node header ((entered c node header).await (.imported header false))
  | later (hsome : c.blockTree.currentAt header.number ≠ [])
      (hrec : c.forkDetector.recordedForks.has header.number = true) :
      Arrives c node header (((entered c node header).report
        [.insertForkBlock (ForkDetector.updatedForkBlockRow (recordOf node header))]).await
          (.forkUpdated header))
  | second (hsome : c.blockTree.currentAt header.number ≠ [])
      (hrec : c.forkDetector.recordedForks.has header.number = false) :
      Arrives c node header ((onRecord c node header).detectFork header
        (c.blockTree.currentAt header.number ++ [recordOf node header]))

theorem arrives {c : ChainContext} (node : NodeName) {header : Header} (hi : TreeInv c.blockTree)
    (hnew : c.blockTree.getBlock header.hash = none) :
    Arrives c node header (c.step (.allHeads node header)) := by
  rw [step_allHeads_of_new hnew]
  unfold importNew
  dsimp only
  rw [currentAt_entered node hi hnew]
  -- the record of a header has no author, so only its row is reported
  have hupdated : ForkDetector.onForkUpdated
      (c.blockTree.currentAt header.number ++ [recordOf node header])
        = [.insertForkBlock (ForkDetector.updatedForkBlockRow (recordOf node header))] := by
    unfold ForkDetector.onForkUpdated
    rw [List.getLast?_concat]
    rfl
  rw [hupdated, List.length_append, List.length_singleton]
  by_cases hnone : c.blockTree.currentAt header.number = []
  · rw [if_neg (by rw [hnone]; simp)]
    exact .alone hnone
  · have hpos := List.length_pos_of_ne_nil hnone
    rw [if_pos (by omega)]
    split
    · rename_i hrec
      exact .later hnone hrec
    · rename_i hrec
      exact .second hnone (Bool.eq_false_iff.mpr hrec)

/-- What stands at a height is what the tree holds. -/
theorem TreeInv.mem_currentAt_iff {t : BlockTree} (hi : TreeInv t) {n : Nat} {b : BlockRecord} :
    b ∈ t.currentAt n ↔ t.getBlock b.hash = some b ∧ b.number = n := by
  unfold BlockTree.currentAt
  refine ⟨?_, ?_⟩
  · intro hb
    cases hm : t.getBlocksAtHeight n with
    | none =>
        rw [hm] at hb
        exact absurd hb (by simp)
    | some m =>
        rw [hm] at hb
        obtain ⟨e, he, rfl⟩ := List.mem_map.mp hb
        obtain ⟨hn, hhash, hget⟩ := hi.byHeight n m e.1 e.2 hm (OrdMap.mem_entries_iff.mp he)
        rw [hhash]
        exact ⟨hget, hn⟩
  · intro hboth
    obtain ⟨hget, rfl⟩ := hboth
    obtain ⟨m, hm, hb⟩ := hi.byHash _ b hget
    rw [hm]
    exact List.mem_map.mpr ⟨(b.hash, b), OrdMap.mem_entries_iff.mpr hb, rfl⟩

theorem TreeInv.current_of_mem {t : BlockTree} (hi : TreeInv t) {n : Nat} {b : BlockRecord}
    (hb : b ∈ t.currentAt n) : t.current b = b := by
  unfold BlockTree.current
  rw [(hi.mem_currentAt_iff.mp hb).1]
  rfl

theorem adds_detectFork (c : ChainContext) (header : Header) (b : BlockRecord)
    (rest : List BlockRecord) :
    Adds c (c.detectFork header (b :: rest))
      ((c.forkDetector.onForkDetected c.blockTree header.number (b :: rest)).2
        ++ [.insertForkBlock (ForkDetector.forkBlockRow (c.blockTree.current b))])
      [.insertForkBlocks header (c.epochAt header.number) rest
        (ForkDetector.forkEventRow c.blockTree header.number (b :: rest)) c.hooked] := by
  refine ⟨?_, rfl⟩
  rw [← held_epochAt c header.number b]
  exact List.append_assoc ..

/-- What a header that is not stored yet reports, and the task it leaves. -/
inductive Brings (c : ChainContext) (node : NodeName) (header : Header) :
    List Report → List Task → Prop where
  | alone (hnone : c.blockTree.currentAt header.number = []) :
      Brings c node header [] [.imported header false]
  | later (hsome : c.blockTree.currentAt header.number ≠ [])
      (hrec : c.forkDetector.recordedForks.has header.number = true) :
      Brings c node header
        [.insertForkBlock (ForkDetector.updatedForkBlockRow (recordOf node header))]
        [.forkUpdated header]
  | second (b : BlockRecord) (rest : List BlockRecord)
      (hat : c.blockTree.currentAt header.number = b :: rest)
      (hrec : c.forkDetector.recordedForks.has header.number = false) (depth : Nat)
      (epoch : Nat) (event : ForkEventRow) (hooked : Bool) :
      Brings c node header
        ([.forkEvent header.number, .forkDepth header.number depth, .forkActive header.number]
          ++ (b :: rest).filterMap ForkDetector.authorReport
          ++ [.insertForkBlock (ForkDetector.forkBlockRow b)])
        [.insertForkBlocks header epoch (rest ++ [recordOf node header]) event hooked]

/-- **What a new header adds.** -/
theorem brings {c : ChainContext} (node : NodeName) {header : Header} (hi : TreeInv c.blockTree)
    (hnew : c.blockTree.getBlock header.hash = none) :
    ∃ rs ts, Adds c (c.step (.allHeads node header))
      ([.delivered node header.hash header.number, .blocksImported node] ++ rs) ts ∧
        Brings c node header rs ts := by
  have harrives := arrives node hi hnew
  generalize c.step (.allHeads node header) = c' at harrives
  cases harrives with
  | alone hnone => exact ⟨_, _, ⟨rfl, rfl⟩, .alone hnone⟩
  | later hsome hrec => exact ⟨_, _, ⟨List.append_assoc .., rfl⟩, .later hsome hrec⟩
  | second hsome hrec =>
      obtain ⟨b, rest, hold⟩ := List.exists_cons_of_ne_nil hsome
      have hcurrent : (onRecord c node header).blockTree.current b = b := by
        have htree : TreeInv (onRecord c node header).blockTree := treeInv_insertRecord hi hnew
        refine htree.current_of_mem (n := header.number) ?_
        change b ∈ (entered c node header).blockTree.currentAt header.number
        rw [currentAt_entered node hi hnew, hold]
        exact List.mem_cons_self
      have hadds := adds_detectFork (onRecord c node header) header b (rest ++ [recordOf node header])
      rw [hcurrent] at hadds
      rw [hold]
      refine ⟨_, _, ⟨?_, hadds.tasks⟩, .second b rest hold hrec
        ((onRecord c node header).blockTree.measureForkDepth header.number) _ _ _⟩
      -- the new block is the last one, and has no author
      have hauthors : (b :: (rest ++ [recordOf node header])).filterMap ForkDetector.authorReport
          = (b :: rest).filterMap ForkDetector.authorReport := by
        rw [← List.cons_append, List.filterMap_append]
        exact List.append_nil _
      have hreports : ((onRecord c node header).forkDetector.onForkDetected (onRecord c node header).blockTree
          header.number (b :: (rest ++ [recordOf node header]))).2
            = [.forkEvent header.number, .forkDepth header.number
                ((onRecord c node header).blockTree.measureForkDepth header.number),
              .forkActive header.number] ++ (b :: rest).filterMap ForkDetector.authorReport := by
        rw [← hauthors]
        rfl
      rw [List.cons_append, hadds.history, hreports]
      exact List.append_assoc ..

theorem adds_finalizedHeads (c : ChainContext) (node : NodeName) (F : Nat) (x : Hash) :
    Adds c (c.step (.finalizedHeads node F x))
      ((c.forkDetector.onHeightFinalized F x).2 ++ [.resolveForkEvent F x])
      [.resolveForkEvent F] := ⟨rfl, rfl⟩

/--
**What a step does to a record.** Apart from names and relay parents a record stays
what it was, unless its author comes back, a node reports its block once more, it
is new, or it is pruned.
-/
theorem records_step {c : ChainContext} (hi : TreeInv c.blockTree) (e : Event) {α : Type}
    {g : BlockRecord → α} (hg : Overlooks g) {x : Hash}
    (hauthor : ∀ q ∈ entering c e, x = q.1 → ∀ r, g { r with author := some q.2 } = g r)
    (hseen : ∀ node header, e = .allHeads node header → x = header.hash → ∀ r,
      g { r with seenByNodes := r.seenByNodes.add node } = g r) :
    ((c.step e).blockTree.getBlock x).map g = (c.blockTree.getBlock x).map g ∨
    (∃ node header, e = .allHeads node header ∧ c.blockTree.getBlock header.hash = none ∧
      x = header.hash ∧ (c.step e).blockTree.getBlock x = some (recordOf node header)) ∨
    ∃ i F, e = .resume i .done ∧ c.tasks[i]? = some (.resolveForkEvent F) ∧
      (c.step e).blockTree.getBlock x = (c.blockTree.getBlock x).filter
        fun r => !decide ((r.number : Int) ≤ F - c.config.pruneAfter) := by
  have hstep := recordsStep c e
  generalize c.step e = d at hstep
  cases hstep with
  | writes hwrites => exact Or.inl (hwrites.map_getBlock hg hauthor)
  | @seen node header =>
      -- a block that is known is only seen by one more node
      exact Or.inl (map_getBlock_updateRecord (hseen node header rfl) _)
  | @new node header d hget htree =>
      have hinsert := getBlock_insertRecord c.blockTree (recordOf node header) x
      rw [htree]
      split at hinsert
      · rename_i hx
        exact Or.inr (Or.inl ⟨node, header, rfl, hget, hx, hinsert⟩)
      · exact Or.inl (congrArg (Option.map g) hinsert)
  | notified htree => exact Or.inl (by rw [htree]; rfl)
  | @pruned i F d ht htree =>
      refine Or.inr (Or.inr ⟨i, F, rfl, ht, ?_⟩)
      rw [htree]
      exact getBlock_prune hi _ x

/-! ## Runs without finality -/

/-- The event is no notification of finality. -/
def Unfinal : Event → Prop
  | .finalizedHeads .. => False
  | _ => True

instance : DecidablePred Unfinal
  | .finalizedHeads .. => isFalse id
  | .allHeads .. | .resume .. | .poll .. | .retryTick .. | .resubmitSettled .. | .connections ..
  | .setupCausation | .identities .. => isTrue trivial

/-- No handler waits to prune the tree. -/
def NoPrune (c : ChainContext) : Prop := ∀ F, .resolveForkEvent F ∉ c.tasks

theorem Proceeds.noPrune {c : ChainContext} {task : Task} {a : Answer} {rs : List Report}
    {ts : List Task} (h : Proceeds c task a rs ts) (htask : ∀ F, task ≠ .resolveForkEvent F) :
    ∀ F, .resolveForkEvent F ∉ ts := by
  intro F hF
  cases h with
  | row => exact absurd hF (by simp)
  | noRow => exact absurd hF (by simp)
  | found => exact absurd hF (by simp)
  | lookup => exact absurd hF (by simp)
  | counted header epoch visited block author name ts hts => exact hts _ hF
  | pruned F' => exact htask F' rfl
  | free task a rs ts htask hauthor hrs hts => exact hts _ hF
  | back task a hexp => exact htask F (List.mem_singleton.mp hF).symm

theorem noPrune_adds {c c' : ChainContext} {rs : List Report} {ts : List Task} (h : NoPrune c)
    (hadds : Adds c c' rs ts) (hts : ∀ F, .resolveForkEvent F ∉ ts) : NoPrune c' := by
  intro F hF
  rw [hadds.tasks] at hF
  rcases List.mem_append.mp hF with hold | hnew
  · exact h F hold
  · exact hts F hnew

/-- **Only finality prunes.** -/
theorem noPrune_step {c : ChainContext} (hi : TreeInv c.blockTree) (h : NoPrune c) {e : Event}
    (he : Unfinal e) : NoPrune (c.step e) := by
  cases e with
  | allHeads node header =>
      cases hget : c.blockTree.getBlock header.hash with
      | some r =>
          rw [step_allHeads_of_known hget]
          exact h
      | none =>
          obtain ⟨rs, ts, hadds, hbrings⟩ := brings node hi hget
          refine noPrune_adds h hadds fun F hF => ?_
          cases hbrings <;> exact absurd hF (by simp)
  | resume i a =>
      unfold step
      dsimp only
      cases ht : c.tasks[i]? with
      | none => exact h
      | some task =>
          obtain ⟨rs, ts, hadds, hproceeds⟩ := (resumed (taken c i) task a).proceeds
          have htask : ∀ F, task ≠ .resolveForkEvent F := by
            rintro F rfl
            exact h F (List.mem_of_getElem? ht)
          have htaken : NoPrune (taken c i) := fun F hF => h F (List.mem_of_mem_eraseIdx hF)
          exact noPrune_adds htaken hadds (hproceeds.noPrune htask)
  | finalizedHeads => exact absurd he id
  | _ => exact h

/-- No map has been pruned. -/
def Attached (c : ChainContext) : Prop := ∀ n, c.detached n = []

theorem Attached.detachedInv {c : ChainContext} (h : Attached c) : DetachedInv c := by
  intro n m hm
  rw [h n] at hm
  exact absurd hm (by simp)

/-- **Only a prune takes maps out of the tree.** -/
theorem attached_step {c : ChainContext} (h : Attached c) (hn : NoPrune c) (e : Event) :
    Attached (c.step e) := by
  have hstep := recordsStep c e
  generalize c.step e = d at hstep
  intro n
  cases hstep with
  | writes hwrites =>
      have hlen : (d.detached n).length = (c.detached n).length := hwrites.epochAt n
      rw [h n] at hlen
      exact List.eq_nil_of_length_eq_zero hlen
  | seen => exact h n
  | new _ _ hmaps => rw [hmaps]; exact h n
  | notified _ hmaps => rw [hmaps]; exact h n
  | @pruned i F _ ht => exact absurd (List.mem_of_getElem? ht) (hn F)

/-! ## Ledgers -/

section Ledger

variable {κ : Type} [DecidableEq κ]

/-- How often a thing has been reported, or is owed. -/
def ledger (reported : Report → Option κ) (owed : Task → List κ) (c : ChainContext) (x : κ) : Nat :=
  (c.history.filterMap reported).count x + (c.tasks.flatMap owed).count x

variable {reported : Report → Option κ} {owed : Task → List κ}

theorem Adds.ledger {c c' : ChainContext} {rs : List Report} {ts : List Task}
    (h : Adds c c' rs ts) (x : κ) :
    ledger reported owed c' x = ledger reported owed c x
      + (rs.filterMap reported).count x + (ts.flatMap owed).count x := by
  unfold Proof.ledger
  rw [h.history, h.tasks, List.filterMap_append, List.count_append, List.flatMap_append,
    List.count_append]
  omega

/-- What a task owes leaves the ledger with it. -/
theorem ledger_taken {c : ChainContext} {i : Nat} {task : Task} (h : c.tasks[i]? = some task)
    (x : κ) : ledger reported owed c x = ledger reported owed (taken c i) x
      + (owed task).count x := by
  obtain ⟨hi, ht⟩ := List.getElem?_eq_some_iff.mp h
  have hperm := (List.getElem_cons_eraseIdx_perm hi).flatMap_right owed
  have hcount := hperm.count_eq x
  rw [ht, List.flatMap_cons, List.count_append] at hcount
  unfold ledger taken
  dsimp only
  omega

/-- A resumed task passes on what it owed, and takes on `n` more. -/
theorem ledger_resume {c : ChainContext} {i : Nat} {a : Answer} {x : κ} (n : Task → Nat)
    (h : ∀ task rs ts, Proceeds (taken c i) task a rs ts →
      (rs.filterMap reported).count x + (ts.flatMap owed).count x
        = (owed task).count x + n task) :
    ledger reported owed (c.step (.resume i a)) x
      = ledger reported owed c x + (c.tasks[i]?).elim 0 n := by
  cases ht : c.tasks[i]? with
  | none =>
      rw [step_resume_of_none ht]
      rfl
  | some task =>
      obtain ⟨rs, ts, hadds, hproceeds⟩ := (resumed (taken c i) task a).proceeds
      have hsame := h task rs ts hproceeds
      rw [step_resume_of_some ht, hadds.ledger, ledger_taken ht, Option.elim_some]
      omega

/-- What a new header reports and leaves to its tasks. -/
theorem ledger_newHeader {c : ChainContext} {node : NodeName} {header : Header} {rs : List Report}
    {ts : List Task} (hadds : Adds c (c.step (.allHeads node header))
      ([.delivered node header.hash header.number, .blocksImported node] ++ rs) ts)
    (hdelivered : reported (.delivered node header.hash header.number) = none)
    (himported : reported (.blocksImported node) = none) (x : κ) :
    ledger reported owed (c.step (.allHeads node header)) x
      = ledger reported owed c x + (rs.filterMap reported ++ ts.flatMap owed).count x := by
  rw [hadds.ledger, List.count_append, List.filterMap_append]
  simp only [List.filterMap_cons, List.filterMap_nil, hdelivered, himported, List.nil_append]
  omega

end Ledger

end ForkWatch.Proof
