import ForkWatch.Proof.ForkReport

/-!
# Is `fork_blocks` complete and uniform?

Each block at a forked height is handed to `insertForkBlock` once: the first two by
the handler that detects the fork, the later ones by their own. What is handed over
differs. The row of a later block has no roots; and a node that reports a block
whose row has been handed over goes into the record, and not into the row.
`forkRows_iff` says that the table holds the right blocks in any case, and that
these two are the only ways for a row to differ from its record.
-/

namespace ForkWatch.Proof

open Lib ChainContext

/-! ## The table -/

/-- `insertForkBlock`: on a conflict the nodes are appended, and nothing else changes. -/
def insertForkBlock (table : OrdMap Hash ForkBlockRow) (row : ForkBlockRow) :
    OrdMap Hash ForkBlockRow :=
  table.upsert (fun old new => { old with seenBy := old.seenBy ++ new.seenBy }) row.blockHash row

/-- The row a report hands over. -/
def blockRow : Report → Option ForkBlockRow
  | .insertForkBlock row => some row
  | _ => none

/-- The block whose row a report hands over. -/
def rowHash (r : Report) : Option Hash := (blockRow r).map ForkBlockRow.blockHash

/-- `fork_blocks`, after the calls of a history. -/
def forkBlocks (rs : List Report) : OrdMap Hash ForkBlockRow :=
  (rs.filterMap blockRow).foldl insertForkBlock ∅

/-- The blocks whose rows a suspended handler is still going to hand over. -/
def owedBlocks : Task → List Hash
  | .insertForkBlocks _ _ rest _ _ => rest.map BlockRecord.hash
  | _ => []

theorem rowHashes_eq (rs : List Report) :
    rs.filterMap rowHash = (rs.filterMap blockRow).map ForkBlockRow.blockHash := by
  unfold rowHash
  rw [List.map_filterMap]

theorem has_forkBlocks (rs : List Report) (x : Hash) :
    (forkBlocks rs).has x = true ↔ x ∈ rs.filterMap rowHash := by
  rw [rowHashes_eq]
  unfold forkBlocks
  generalize rs.filterMap blockRow = rows
  induction rows using List.reverseRecOn with
  | nil => exact iff_of_false Bool.false_ne_true (by simp)
  | append_singleton rows row ih =>
      rw [List.foldl_append, List.map_append, List.mem_append, List.foldl_cons, List.foldl_nil,
        insertForkBlock, OrdMap.has_upsert, Bool.or_eq_true, decide_eq_true_eq, List.map_singleton,
        List.mem_singleton]
      exact or_comm.trans (or_congr ih Iff.rfl)

/-! ## Rows and records -/

/-- The stored row says of a block what its record says. -/
structure Mirrors (row : ForkBlockRow) (r : BlockRecord) : Prop where
  parentHash : row.parentHash = r.parentHash
  stateRoot : row.stateRoot = r.stateRoot
  extrinsicsRoot : row.extrinsicsRoot = r.extrinsicsRoot
  seenBy : ∀ node, node ∈ row.seenBy ↔ r.seenByNodes.has node = true

/-- What of a record goes into its row. -/
def facts (r : BlockRecord) : Hash × Option String × Option String × OrdSet NodeName :=
  (r.parentHash, r.stateRoot, r.extrinsicsRoot, r.seenByNodes)

theorem overlooks_facts : Overlooks facts := ⟨fun _ _ => rfl, fun _ _ _ => rfl⟩

theorem Mirrors.congr {row : ForkBlockRow} {r r' : BlockRecord} (hr : Mirrors row r)
    (h : facts r' = facts r) : Mirrors row r' := by
  obtain ⟨hparent, hstate, hextrinsics, hseen⟩ : r'.parentHash = r.parentHash ∧
      r'.stateRoot = r.stateRoot ∧ r'.extrinsicsRoot = r.extrinsicsRoot ∧
        r'.seenByNodes = r.seenByNodes := by simpa [facts] using h
  refine ⟨?_, ?_, ?_, ?_⟩
  · rw [hparent]
    exact hr.parentHash
  · rw [hstate]
    exact hr.stateRoot
  · rw [hextrinsics]
    exact hr.extrinsicsRoot
  · rw [hseen]
    exact hr.seenBy

/-- The row names only nodes that have seen the block. -/
def Witnessed (row : ForkBlockRow) (r : BlockRecord) : Prop :=
  ∀ node ∈ row.seenBy, r.seenByNodes.has node = true

theorem Mirrors.witnessed {row : ForkBlockRow} {r : BlockRecord} (h : Mirrors row r) :
    Witnessed row r := fun node hnode => (h.seenBy node).mp hnode

/-- Every stored row stands in this relation to its record. -/
def Rowwise (R : ForkBlockRow → BlockRecord → Prop) (table : OrdMap Hash ForkBlockRow)
    (t : BlockTree) : Prop :=
  ∀ x row r, table.get? x = some row → t.getBlock x = some r → R row r

/-- The relation only looks at what goes into a row. -/
def Factual (R : ForkBlockRow → BlockRecord → Prop) : Prop :=
  ∀ row r r', R row r → facts r' = facts r → R row r'

theorem factual_mirrors : Factual Mirrors := fun _ _ _ hr h => hr.congr h

theorem factual_witnessed : Factual Witnessed := by
  intro row r r' hr h node hnode
  have hseen : r'.seenByNodes = r.seenByNodes := congrArg (fun q => q.2.2.2) h
  rw [hseen]
  exact hr node hnode

section Rowwise

variable {R : ForkBlockRow → BlockRecord → Prop} {table : OrdMap Hash ForkBlockRow}
  {t t' : BlockTree}

theorem Rowwise.of_same (hR : Factual R) (hu : Rowwise R table t)
    (h : ∀ x, table.has x = true → (t'.getBlock x).map facts = (t.getBlock x).map facts) :
    Rowwise R table t' := by
  intro x row r' hrow hr'
  have hsame := h x (OrdMap.has_iff.mpr ⟨row, hrow⟩)
  rw [hr', Option.map_some] at hsame
  obtain ⟨r, hr, heq⟩ := Option.map_eq_some_iff.mp hsame.symm
  exact hR row r r' (hu x row r hrow hr) heq.symm

theorem rowwise_iff_of_same (hR : Factual R)
    (h : ∀ x, table.has x = true → (t'.getBlock x).map facts = (t.getBlock x).map facts) :
    Rowwise R table t' ↔ Rowwise R table t :=
  ⟨fun hu => hu.of_same hR fun x hx => (h x hx).symm, fun hu => hu.of_same hR h⟩

/-- A new row is one more that has to stand in the relation to its record. -/
theorem rowwise_insertForkBlock {row : ForkBlockRow} {r : BlockRecord}
    (hnone : table.get? row.blockHash = none) (hr : t.getBlock row.blockHash = some r) :
    Rowwise R (insertForkBlock table row) t ↔ Rowwise R table t ∧ R row r := by
  have hget := OrdMap.get?_upsert_of_not_mem hnone
    (fun old new : ForkBlockRow => { old with seenBy := old.seenBy ++ new.seenBy }) row
  refine ⟨?_, ?_⟩
  · intro hu
    refine ⟨fun x row' r' hrow' hr' => hu x row' r' ?_ hr', hu row.blockHash row r ?_ hr⟩
    · refine (hget x).trans ?_
      rw [if_neg ?_]
      · exact hrow'
      · rintro rfl
        rw [hnone] at hrow'
        exact absurd hrow' (by simp)
    · exact (hget _).trans (if_pos rfl)
  · rintro ⟨hu, hnew⟩ x row' r' hrow' hr'
    have hcases := (hget x).symm.trans hrow'
    split at hcases
    · rename_i hx
      subst hx
      obtain rfl := Option.some.inj hcases
      obtain rfl := Option.some.inj (hr.symm.trans hr')
      exact hnew
    · exact hu x row' r' hcases hr'

end Rowwise

/-- The row of a record mirrors it. -/
theorem mirrors_forkBlockRow (r : BlockRecord) : Mirrors (ForkDetector.forkBlockRow r) r where
  parentHash := rfl
  stateRoot := rfl
  extrinsicsRoot := rfl
  seenBy := fun node => by
    rw [OrdMap.has_iff]
    exact OrdMap.mem_keys_iff

/-- The row of a later block mirrors its record if that has no roots. -/
theorem mirrors_updatedForkBlockRow_iff (r : BlockRecord) :
    Mirrors (ForkDetector.updatedForkBlockRow r) r
      ↔ r.stateRoot = none ∧ r.extrinsicsRoot = none := by
  refine ⟨fun h => ⟨h.stateRoot.symm, h.extrinsicsRoot.symm⟩, fun h => ?_⟩
  exact ⟨rfl, h.1.symm, h.2.symm, (mirrors_forkBlockRow r).seenBy⟩

/-! ## Which blocks are handed over -/

/-- The block stands at a forked height. -/
def Competes (c : ChainContext) (x : Hash) : Prop :=
  ∃ r, c.blockTree.getBlock x = some r ∧ c.blockTree.isForked r.number = true

/-- The rows of a block that have been handed over, or are going to be. -/
def blockRows : ChainContext → Hash → Nat := ledger rowHash owedBlocks

/-- Without finality, every block at a forked height has one row, and no other block has. -/
structure Booked (c : ChainContext) : Prop extends Standing c where
  one : ∀ x, Competes c x → blockRows c x = 1
  zero : ∀ x, ¬ Competes c x → blockRows c x = 0
  seen : Rowwise Witnessed (forkBlocks c.history) c.blockTree

theorem rowHash_of_unowed {r : Report} (h : Unowed r) : rowHash r = none := by
  cases r <;> first | rfl | exact absurd h id

theorem owedBlocks_of_free {t : Task} (h : Free t) : owedBlocks t = [] := by
  cases t <;> first | rfl | exact absurd h id

/-- The row a task hands over when it goes on with an answer. -/
def taskRow (c : ChainContext) : Task → Answer → Option ForkBlockRow
  | .insertForkBlocks header epoch (b :: _) _ _, .done =>
      some (ForkDetector.forkBlockRow (c.held header.number epoch b))
  | _, _ => none

/-- The row a step hands over. -/
def handed (c : ChainContext) : Event → Option ForkBlockRow
  | .allHeads node header =>
      if c.blockTree.getBlock header.hash = none then
        match c.blockTree.currentAt header.number with
        | [] => none
        | b :: _ =>
            if c.forkDetector.recordedForks.has header.number then
              some (ForkDetector.updatedForkBlockRow (recordOf node header))
            else some (ForkDetector.forkBlockRow b)
      else none
  | .resume i a => (c.tasks[i]?).bind fun task => taskRow c task a
  | _ => none

theorem handed_of_known {c : ChainContext} {header : Header} {r : BlockRecord}
    (h : c.blockTree.getBlock header.hash = some r) (node : NodeName) :
    handed c (.allHeads node header) = none := if_neg (by simp [h])

/-- Reports about authors hand no row over. -/
theorem blockRows_authorReports (blocks : List BlockRecord) :
    (blocks.filterMap ForkDetector.authorReport).filterMap blockRow = [] := by
  refine List.filterMap_eq_nil_iff.mpr fun r hr => ?_
  obtain ⟨b, -, hb⟩ := List.mem_filterMap.mp hr
  obtain ⟨a, -, rfl⟩ := Option.map_eq_some_iff.mp hb
  rfl

theorem blockRow_of_unowed {r : Report} (h : Unowed r) : blockRow r = none := by
  cases r <;> first | rfl | exact absurd h id

theorem Proceeds.blockRows {c : ChainContext} {task : Task} {a : Answer} {rs : List Report}
    {ts : List Task} (hi : TreeInv c.blockTree) (hd : DetachedInv c)
    (h : Proceeds c task a rs ts) : ((rs.filterMap rowHash ++ ts.flatMap owedBlocks : List Hash) = owedBlocks task) := by
  cases h with
  | row header epoch b rest =>
      simp [rowHash, blockRow, owedBlocks, ForkDetector.forkBlockRow, held_hash hi hd]
  | noRow => rfl
  | found => rfl
  | lookup => rfl
  | counted header epoch visited block author name ts hts =>
      exact List.flatMap_eq_nil_iff.mpr fun t ht => owedBlocks_of_free (hts t ht)
  | pruned => rfl
  | free task a rs ts htask hauthor hrs hts =>
      have hreported : rs.filterMap rowHash = [] :=
        List.filterMap_eq_nil_iff.mpr fun r hr => rowHash_of_unowed (hrs r hr)
      rw [hreported, owedBlocks_of_free htask]
      exact List.flatMap_eq_nil_iff.mpr fun t ht => owedBlocks_of_free (hts t ht)
  | back => simp

theorem blockRows_resume {c : ChainContext} (hi : TreeInv c.blockTree) (hd : DetachedInv c)
    (i : Nat) (a : Answer) (x : Hash) : blockRows (c.step (.resume i a)) x = blockRows c x := by
  have hledger : blockRows (c.step (.resume i a)) x
      = blockRows c x + (c.tasks[i]?).elim 0 fun _ => 0 := by
    refine ledger_resume _ fun task rs ts hproceeds => ?_
    rw [← List.count_append, hproceeds.blockRows (c := taken c i) hi hd, Nat.add_zero]
  rw [hledger]
  cases c.tasks[i]? <;> rfl

theorem taskRow_of_free (c : ChainContext) {task : Task} (h : Free task) (a : Answer) :
    taskRow c task a = none := by
  cases task <;> first | rfl | exact absurd h id

theorem taskRow_of_unexpected (c : ChainContext) {task : Task} {a : Answer}
    (h : expects task a = false) : taskRow c task a = none := by
  unfold taskRow
  split
  · exact absurd h (by simp [expects])
  · rfl

theorem Proceeds.handed {c : ChainContext} {task : Task} {a : Answer} {rs : List Report}
    {ts : List Task} (h : Proceeds c task a rs ts) :
    rs.filterMap blockRow = (taskRow c task a).toList := by
  cases h with
  | row => rfl
  | noRow => rfl
  | found => rfl
  | lookup => rfl
  | counted => rfl
  | pruned => rfl
  | free task a rs ts htask hauthor hrs hts =>
      rw [taskRow_of_free _ htask]
      exact List.filterMap_eq_nil_iff.mpr fun r hr => blockRow_of_unowed (hrs r hr)
  | back task a h =>
      rw [taskRow_of_unexpected _ h]
      rfl

theorem Brings.handed {c : ChainContext} {node : NodeName} {header : Header} {rs : List Report}
    {ts : List Task} (hnew : c.blockTree.getBlock header.hash = none)
    (h : Brings c node header rs ts) :
    rs.filterMap blockRow = (handed c (.allHeads node header)).toList := by
  unfold Proof.handed
  dsimp only
  rw [if_pos hnew]
  cases h with
  | alone hnone =>
      rw [hnone]
      rfl
  | later hsome hrec =>
      obtain ⟨b, rest, hat⟩ := List.exists_cons_of_ne_nil hsome
      rw [hat]
      dsimp only
      rw [if_pos hrec]
      rfl
  | second b rest hat hrec =>
      rw [hat]
      dsimp only
      rw [hrec, List.filterMap_append, List.filterMap_append, blockRows_authorReports]
      rfl

/-- **The row a step hands over, and no other.** -/
theorem handed_step {c : ChainContext} (hi : TreeInv c.blockTree) {e : Event} (he : Unfinal e) :
    (c.step e).history.filterMap blockRow
      = c.history.filterMap blockRow ++ (handed c e).toList := by
  cases e with
  | allHeads node header =>
      cases hget : c.blockTree.getBlock header.hash with
      | some r =>
          rw [step_allHeads_of_known hget, handed_of_known hget]
          exact List.filterMap_append
      | none =>
          obtain ⟨rs, ts, hadds, hbrings⟩ := brings node hi hget
          rw [hadds.history, List.filterMap_append, List.filterMap_append, hbrings.handed hget]
          rfl
  | resume i a =>
      unfold handed step
      dsimp only
      cases ht : c.tasks[i]? with
      | none => exact (List.append_nil _).symm
      | some task =>
          obtain ⟨rs, ts, hadds, hproceeds⟩ := (resumed (taken c i) task a).proceeds
          refine (congrArg (List.filterMap blockRow) hadds.history).trans ?_
          rw [List.filterMap_append, hproceeds.handed]
          rfl
  | finalizedHeads => exact absurd he id
  | _ => exact (List.append_nil _).symm

/-! ## One step -/

theorem competes_iff {c : ChainContext} {x : Hash} :
    Competes c x ↔ ∃ n, (c.blockTree.getBlock x).map BlockRecord.number = some n ∧
      c.blockTree.isForked n = true := by
  refine ⟨?_, ?_⟩
  · intro hex
    obtain ⟨r, hr, hforked⟩ := hex
    exact ⟨r.number, by rw [hr]; rfl, hforked⟩
  · intro hex
    obtain ⟨n, hn, hforked⟩ := hex
    obtain ⟨r, hr, rfl⟩ := Option.map_eq_some_iff.mp hn
    exact ⟨r, hr, hforked⟩

theorem competes_of_same {c c' : ChainContext} {x : Hash}
    (hnumber : (c'.blockTree.getBlock x).map BlockRecord.number
      = (c.blockTree.getBlock x).map BlockRecord.number)
    (hcount : ∀ n, competitors c'.blockTree n = competitors c.blockTree n) :
    Competes c' x ↔ Competes c x := by
  simp only [competes_iff, hnumber, isForked_eq, hcount]

theorem resume_ne_allHeads {i : Nat} {a : Answer} {node : NodeName} {header : Header} :
    Event.resume i a ≠ .allHeads node header := by
  simp

/-- A record keeps what `g` sees of it, unless its block is reported anew. -/
theorem records_unfinal {c : ChainContext} (hi : Standing c) {e : Event} {α : Type}
    {g : BlockRecord → α} (hg : Overlooks g)
    (hauthor : ∀ r a, g { r with author := some a } = g r) {x : Hash}
    (hseen : ∀ node header, e = .allHeads node header → x ≠ header.hash) :
    ((c.step e).blockTree.getBlock x).map g = (c.blockTree.getBlock x).map g := by
  rcases records_step hi.inv e hg (fun q _ _ r => hauthor r q.2)
    (fun node header he hx => absurd hx (hseen node header he)) with
    heq | ⟨node, header, he, -, hx, -⟩ | ⟨i, F, -, ht, -⟩
  · exact heq
  · exact absurd hx (hseen node header he)
  · exact absurd (List.mem_of_getElem? ht) (hi.noPrune F)

/-- A header that is stored already changes neither rows nor competing blocks. -/
theorem booked_seenAgain (c : ChainContext) (node : NodeName)
    (header : Header) (x : Hash) :
    (Competes (seenAgain c node header) x ↔ Competes c x) ∧
      blockRows (seenAgain c node header) x = blockRows c x := by
  refine ⟨competes_of_same ?_ (competitors_refreshed (seenAgain_refreshed c node header)), ?_⟩
  · exact map_getBlock_updateRecord (g := BlockRecord.number)
      (f := fun r => { r with seenByNodes := r.seenByNodes.add node }) (fun _ _ => rfl) c.blockTree
  · have hadds : Adds c (seenAgain c node header) [.delivered node header.hash header.number] [] :=
      ⟨rfl, (List.append_nil _).symm⟩
    exact hadds.ledger x

section NewHeader

variable {c : ChainContext} {node : NodeName} {header : Header}

theorem getBlock_newHeader (hnew : c.blockTree.getBlock header.hash = none) (x : Hash) :
    (c.step (.allHeads node header)).blockTree.getBlock x
      = if x = header.hash then some (recordOf node header) else c.blockTree.getBlock x := by
  rw [step_allHeads_of_new hnew, (importNew_frame _ header).2.1]
  exact getBlock_insertRecord ..

theorem competes_newHeader (hnew : c.blockTree.getBlock header.hash = none) (x : Hash) :
    Competes (c.step (.allHeads node header)) x ↔
      if x = header.hash then (c.step (.allHeads node header)).blockTree.isForked header.number = true
      else ∃ r, c.blockTree.getBlock x = some r ∧
        (c.step (.allHeads node header)).blockTree.isForked r.number = true := by
  unfold Competes
  rw [getBlock_newHeader hnew]
  split
  · refine ⟨?_, fun hforked => ⟨_, rfl, hforked⟩⟩
    intro hex
    obtain ⟨r, hr, hforked⟩ := hex
    obtain rfl := Option.some.inj hr
    exact hforked
  · exact Iff.rfl

/-- Nobody has a row for a block that is new. -/
theorem Booked.zero_of_new (hi : Booked c) (hnew : c.blockTree.getBlock header.hash = none) :
    blockRows c header.hash = 0 := by
  refine hi.zero _ ?_
  intro hex
  obtain ⟨r, hr, -⟩ := hex
  rw [hnew] at hr
  exact absurd hr (by simp)

/-- A block that makes no fork has a row if its height is forked. -/
theorem booked_of_no_fork (hi : Booked c) (hnew : c.blockTree.getBlock header.hash = none)
    (hno : (c.step (.allHeads node header)).blockTree.isForked header.number
      = c.blockTree.isForked header.number)
    (hsame : ∀ n, n ≠ header.number → (c.step (.allHeads node header)).blockTree.isForked n
      = c.blockTree.isForked n)
    (hrows : ∀ x, blockRows (c.step (.allHeads node header)) x = blockRows c x
      + if x = header.hash ∧ c.blockTree.isForked header.number = true then 1 else 0) (x : Hash) :
    (Competes (c.step (.allHeads node header)) x → blockRows (c.step (.allHeads node header)) x = 1)
      ∧ (¬ Competes (c.step (.allHeads node header)) x →
        blockRows (c.step (.allHeads node header)) x = 0) := by
  have hforked : ∀ n, (c.step (.allHeads node header)).blockTree.isForked n
      = c.blockTree.isForked n := by
    intro n
    by_cases hn : n = header.number
    · rw [hn]
      exact hno
    · exact hsame n hn
  rw [competes_newHeader hnew, hrows]
  by_cases hx : x = header.hash
  · rw [if_pos hx, hno, hx, hi.zero_of_new hnew]
    refine ⟨fun h => ?_, fun h => ?_⟩
    · rw [if_pos ⟨rfl, h⟩]
    · rw [if_neg fun hboth => h hboth.2]
  · simp only [hforked]
    rw [if_neg hx, if_neg fun hboth => hx hboth.1]
    exact ⟨hi.one x, hi.zero x⟩

/-- A block that makes a fork brings the rows of both blocks at its height. -/
theorem booked_of_fork (hi : Booked c) (hnew : c.blockTree.getBlock header.hash = none)
    {b : BlockRecord} (hat : c.blockTree.currentAt header.number = [b])
    (hbefore : c.blockTree.isForked header.number = false)
    (hafter : (c.step (.allHeads node header)).blockTree.isForked header.number = true)
    (hsame : ∀ n, n ≠ header.number → (c.step (.allHeads node header)).blockTree.isForked n
      = c.blockTree.isForked n)
    (hrows : ∀ x, blockRows (c.step (.allHeads node header)) x
      = blockRows c x + [b.hash, header.hash].count x) (x : Hash) :
    (Competes (c.step (.allHeads node header)) x → blockRows (c.step (.allHeads node header)) x = 1)
      ∧ (¬ Competes (c.step (.allHeads node header)) x →
        blockRows (c.step (.allHeads node header)) x = 0) := by
  have hb : b ∈ c.blockTree.currentAt header.number := by rw [hat]; simp
  obtain ⟨hget, hnumber⟩ := hi.inv.mem_currentAt_iff.mp hb
  have hne : b.hash ≠ header.hash := by
    intro heq
    rw [heq, hnew] at hget
    exact absurd hget (by simp)
  -- no block but `b` stood at the height
  have halone : ∀ r, c.blockTree.getBlock x = some r → x ≠ b.hash → r.number ≠ header.number := by
    intro r hr hx hn
    have hhash := hi.inv.hash_eq hr
    have hin : r ∈ c.blockTree.currentAt header.number :=
      hi.inv.mem_currentAt_iff.mpr ⟨by rw [hhash]; exact hr, hn⟩
    rw [hat] at hin
    exact hx (hhash.symm.trans (congrArg BlockRecord.hash (List.mem_singleton.mp hin)))
  rw [competes_newHeader hnew, hrows]
  by_cases hx : x = header.hash
  · rw [if_pos hx, hx, hi.zero_of_new hnew]
    refine ⟨fun _ => ?_, fun h => absurd hafter h⟩
    simp [hne]
  · rw [if_neg hx]
    by_cases hxb : x = b.hash
    · -- the first block of the height has no row before
      have hzero : blockRows c b.hash = 0 := by
        refine hi.zero _ ?_
        intro hex
        obtain ⟨r, hr, hforked⟩ := hex
        obtain rfl := Option.some.inj (hget.symm.trans hr)
        rw [hnumber, hbefore] at hforked
        exact absurd hforked (by simp)
      rw [hxb, hzero]
      refine ⟨fun _ => by simp [hne.symm], fun h => absurd ⟨b, hget, ?_⟩ h⟩
      rw [hnumber]
      exact hafter
    -- of every other block nothing changes, neither row nor rivals
    · have hcompetes : (∃ r, c.blockTree.getBlock x = some r ∧
          (c.step (.allHeads node header)).blockTree.isForked r.number = true) ↔ Competes c x := by
        refine exists_congr fun r => and_congr_right fun hr => ?_
        rw [hsame _ (halone r hr hxb)]
      have hcount : [b.hash, header.hash].count x = 0 :=
        List.count_eq_zero_of_not_mem (by simp [hx, hxb])
      rw [hcompetes, hcount]
      exact ⟨hi.one x, hi.zero x⟩

theorem booked_newHeader (hi : Booked c) (hnew : c.blockTree.getBlock header.hash = none)
    (x : Hash) :
    (Competes (c.step (.allHeads node header)) x → blockRows (c.step (.allHeads node header)) x = 1)
      ∧ (¬ Competes (c.step (.allHeads node header)) x →
        blockRows (c.step (.allHeads node header)) x = 0) := by
  obtain ⟨ht, hcases⟩ := newHeader_cases node hi.toStanding hnew rfl
  obtain ⟨rs, ts, hadds, hbrings⟩ := brings node hi.inv hnew
  have hledger : ∀ y, blockRows (c.step (.allHeads node header)) y
      = blockRows c y + (rs.filterMap rowHash ++ ts.flatMap owedBlocks).count y :=
    fun y => ledger_newHeader hadds rfl rfl y
  have hlen := length_currentAt c.blockTree header.number
  have hrecorded := (hi.recorded header.number).trans (isForked_eq c.blockTree header.number)
  have hsame : ∀ n, n ≠ header.number → (c.step (.allHeads node header)).blockTree.isForked n
      = c.blockTree.isForked n := by
    intro n hn
    rw [ht]
    exact isForked_insertRecord node hi.inv hnew hn
  have hkeeps : competitors c.blockTree header.number ≠ 1 →
      (c.step (.allHeads node header)).blockTree.isForked header.number
        = c.blockTree.isForked header.number := by
    intro hne
    rcases hcases with ⟨-, hno, -⟩ | ⟨hone, -⟩
    · exact hno
    · exact absurd hone hne
  -- rows are owed once a height has a second block, and then for every block of it
  cases hbrings with
  | alone hnone =>
      rw [hnone] at hlen
      have hunforked : c.blockTree.isForked header.number = false := by
        rw [isForked_eq, ← hlen]
        rfl
      have hnot : competitors c.blockTree header.number ≠ 1 := by
        rw [← hlen]
        exact Nat.zero_ne_one
      refine booked_of_no_fork hi hnew (hkeeps hnot) hsame (fun y => ?_) x
      rw [hledger, hunforked]
      simp [owedBlocks]
  | later hsome hrec =>
      rw [hrec] at hrecorded
      have htwo := of_decide_eq_true hrecorded.symm
      refine booked_of_no_fork hi hnew (hkeeps (by omega)) hsame (fun y => ?_) x
      have hlist : [Report.insertForkBlock (ForkDetector.updatedForkBlockRow
          (recordOf node header))].filterMap rowHash ++ [Task.forkUpdated header].flatMap owedBlocks
            = [header.hash] := rfl
      rw [hledger, hlist, ← hi.recorded, hrec, List.count_singleton]
      simp only [beq_iff_eq, and_true, eq_comm (a := y)]
  | second b rest hat hrec depth event hooked =>
      rw [hrec] at hrecorded
      have hfew := of_decide_eq_false hrecorded.symm
      have hbefore := (hi.recorded header.number).symm.trans hrec
      rw [hat, List.length_cons] at hlen
      -- the record says the height was not forked, so there was one block before
      obtain rfl : rest = [] := List.eq_nil_of_length_eq_zero (by omega)
      rcases hcases with ⟨hne, -⟩ | ⟨-, hafter, -⟩
      · exact absurd hlen (by rw [List.length_nil]; omega)
      · refine booked_of_fork hi hnew hat hbefore hafter hsame (fun y => ?_) x
        have hauthors : ([b].filterMap ForkDetector.authorReport).filterMap rowHash = [] := by
          rw [rowHashes_eq, blockRows_authorReports]
          rfl
        rw [hledger, List.filterMap_append, List.filterMap_append, hauthors]
        rfl

end NewHeader

/-- **Every step leaves one row for every competing block, and none for others.** -/
theorem blockRows_step {c : ChainContext} (hi : Booked c) {e : Event} (he : Unfinal e) (x : Hash) :
    (Competes (c.step e) x → blockRows (c.step e) x = 1) ∧
      (¬ Competes (c.step e) x → blockRows (c.step e) x = 0) := by
  cases e with
  | allHeads node header =>
      cases hget : c.blockTree.getBlock header.hash with
      | some r =>
          obtain ⟨hcompetes, hrows⟩ := booked_seenAgain c node header x
          rw [step_allHeads_of_known hget, hcompetes, hrows]
          exact ⟨hi.one x, hi.zero x⟩
      | none => exact booked_newHeader hi hget x
  | resume i a =>
      have hnumber := records_unfinal hi.toStanding (e := .resume i a) (g := BlockRecord.number)
        ⟨fun _ _ => rfl, fun _ _ _ => rfl⟩ (fun _ _ => rfl) (x := x) fun _ _ h => absurd h resume_ne_allHeads
      rw [competes_of_same hnumber (resume_reports hi.noPrune i a).1, blockRows_resume hi.inv hi.attached.detachedInv]
      exact ⟨hi.one x, hi.zero x⟩
  | finalizedHeads => exact absurd he id
  | _ => exact ⟨hi.one x, hi.zero x⟩

theorem blockRows_le {c : ChainContext} (hi : Booked c) {e : Event} (he : Unfinal e) (x : Hash) :
    blockRows (c.step e) x ≤ 1 := by
  obtain ⟨hone, hzero⟩ := blockRows_step hi he x
  by_cases h : Competes (c.step e) x
  · exact Nat.le_of_eq (hone h)
  · rw [hzero h]
    exact Nat.zero_le _

theorem forkBlocks_step {c : ChainContext} (hi : TreeInv c.blockTree) {e : Event}
    (he : Unfinal e) : forkBlocks (c.step e).history
      = (handed c e).toList.foldl insertForkBlock (forkBlocks c.history) := by
  unfold forkBlocks
  rw [handed_step hi he, List.foldl_append]

/-- Whatever is handed over has not been handed over before. -/
theorem fresh_of_handed {c : ChainContext} (hi : Booked c) {e : Event} (he : Unfinal e)
    {row : ForkBlockRow} (h : handed c e = some row) :
    (forkBlocks c.history).get? row.blockHash = none := by
  refine OrdMap.has_eq_false_iff.mp (Bool.eq_false_iff.mpr fun hhas => ?_)
  have hbefore := List.count_pos_iff.mpr ((has_forkBlocks _ _).mp hhas)
  have hafter : (c.step e).history.filterMap rowHash
      = c.history.filterMap rowHash ++ [row.blockHash] := by
    rw [rowHashes_eq, rowHashes_eq, handed_step hi.inv he, h, List.map_append]
    rfl
  have hle := blockRows_le hi he row.blockHash
  unfold blockRows ledger at hle
  rw [hafter, List.count_append, List.count_singleton_self] at hle
  omega

/-- What is handed over is a row of a block that is stored. -/
theorem stored_of_handed {c : ChainContext} (hi : Booked c) {e : Event} (he : Unfinal e)
    {row : ForkBlockRow} (h : handed c e = some row) :
    ∃ r, (c.step e).blockTree.getBlock row.blockHash = some r := by
  have hin : row.blockHash ∈ (c.step e).history.filterMap rowHash := by
    rw [rowHashes_eq, handed_step hi.inv he, h]
    simp
  have hpos := List.count_pos_iff.mpr hin
  by_contra hnone
  have hzero := (blockRows_step hi he row.blockHash).2 fun ⟨r, hr, _⟩ => hnone ⟨r, hr⟩
  unfold blockRows ledger at hzero
  omega

/-- Only blocks that are stored have rows. -/
theorem Booked.stored {c : ChainContext} (hi : Booked c) {x : Hash}
    (h : (forkBlocks c.history).has x = true) : ∃ r, c.blockTree.getBlock x = some r := by
  have hpos := List.count_pos_iff.mpr ((has_forkBlocks _ _).mp h)
  by_contra hnone
  have hzero := hi.zero x fun ⟨r, hr, _⟩ => hnone ⟨r, hr⟩
  unfold blockRows ledger at hzero
  omega

/-- Unless a block is reported once more, rows and records only change by the row handed over. -/
theorem rowwise_step {R : ForkBlockRow → BlockRecord → Prop} (hR : Factual R) {c : ChainContext}
    (hi : Booked c) {e : Event} (he : Unfinal e)
    (hnew : ∀ node header, e = .allHeads node header → c.blockTree.getBlock header.hash = none) :
    Rowwise R (forkBlocks (c.step e).history) (c.step e).blockTree ↔
      Rowwise R (forkBlocks c.history) c.blockTree ∧ ∀ row ∈ handed c e,
        ∀ r, (c.step e).blockTree.getBlock row.blockHash = some r → R row r := by
  have hsame : Rowwise R (forkBlocks c.history) (c.step e).blockTree
      ↔ Rowwise R (forkBlocks c.history) c.blockTree := by
    refine rowwise_iff_of_same hR fun x hx => ?_
    refine records_unfinal hi.toStanding overlooks_facts (fun _ _ => rfl) fun node header heq => ?_
    rintro rfl
    obtain ⟨r, hr⟩ := hi.stored hx
    rw [hnew node header heq] at hr
    exact absurd hr (by simp)
  rw [forkBlocks_step hi.inv he]
  cases hh : handed c e with
  | none =>
      rw [← hsame]
      exact ⟨fun h => ⟨h, by simp⟩, fun h => h.1⟩
  | some row =>
      obtain ⟨r, hr⟩ := stored_of_handed hi he hh
      have hinsert := rowwise_insertForkBlock (R := R) (fresh_of_handed hi he hh) hr
      rw [hsame] at hinsert
      refine hinsert.trans (and_congr_right fun _ => ⟨?_, ?_⟩)
      · rintro hrow row' hrow' r' hr'
        obtain rfl := Option.some.inj hrow'
        obtain rfl := Option.some.inj (hr.symm.trans hr')
        exact hrow
      · intro hall
        exact hall row rfl r hr

/-! ## One more node reports a block -/

section SeenAgain

variable {table : OrdMap Hash ForkBlockRow} {t : BlockTree} {y : Hash} {r : BlockRecord}
  {node : NodeName}

theorem mirrors_add_iff {row : ForkBlockRow} (h : r.seenByNodes.has node = true) :
    Mirrors row { r with seenByNodes := r.seenByNodes.add node } ↔ Mirrors row r := by
  have hsame : ∀ m, (r.seenByNodes.add node).has m = r.seenByNodes.has m := by
    intro m
    rw [OrdMap.has_add]
    by_cases hm : m = node
    · rw [hm, h]
      exact Bool.or_true _
    · simp [hm]
  refine ⟨fun hr => ⟨hr.parentHash, hr.stateRoot, hr.extrinsicsRoot, fun m => ?_⟩,
    fun hr => ⟨hr.parentHash, hr.stateRoot, hr.extrinsicsRoot, fun m => ?_⟩⟩
  · exact (hr.seenBy m).trans (by rw [hsame])
  · exact (hr.seenBy m).trans (by rw [hsame])

theorem getBlock_seenAgain (hr : t.getBlock y = some r) (x : Hash) :
    (t.updateRecord y fun r => { r with seenByNodes := r.seenByNodes.add node }).getBlock x
      = if x = y then some { r with seenByNodes := r.seenByNodes.add node } else t.getBlock x := by
  rw [getBlock_updateRecord, hr]
  rfl

theorem witnessed_seenAgain (hr : t.getBlock y = some r) (h : Rowwise Witnessed table t) :
    Rowwise Witnessed table
      (t.updateRecord y fun r => { r with seenByNodes := r.seenByNodes.add node }) := by
  intro x row r' hrow hr' m hm
  rw [getBlock_seenAgain hr] at hr'
  split at hr'
  · rename_i hx
    subst hx
    obtain rfl := Option.some.inj hr'
    rw [OrdMap.has_add, h x row r hrow hr m hm]
    exact Bool.or_true _
  · exact h x row r' hrow hr' m hm

/-- A row that is there stays right only if it names the node already. -/
theorem mirrors_seenAgain (hr : t.getBlock y = some r) (h : Rowwise Witnessed table t) :
    Rowwise Mirrors table
        (t.updateRecord y fun r => { r with seenByNodes := r.seenByNodes.add node }) ↔
      Rowwise Mirrors table t ∧ (table.has y = true → r.seenByNodes.has node = true) := by
  have hat : ∀ {row}, Rowwise Mirrors table
      (t.updateRecord y fun r => { r with seenByNodes := r.seenByNodes.add node }) →
      table.get? y = some row → Mirrors row { r with seenByNodes := r.seenByNodes.add node } :=
    fun hu hrow => hu y _ _ hrow ((getBlock_seenAgain hr y).trans (if_pos rfl))
  refine ⟨fun hu => ?_, ?_⟩
  · have hnamed : table.has y = true → r.seenByNodes.has node = true := by
      intro hhas
      obtain ⟨row, hrow⟩ := OrdMap.has_iff.mp hhas
      refine h y row r hrow hr node (((hat hu hrow).seenBy node).mpr ?_)
      simp
    refine ⟨fun x row r' hrow hr' => ?_, hnamed⟩
    by_cases hx : x = y
    · subst hx
      obtain rfl := Option.some.inj (hr.symm.trans hr')
      exact (mirrors_add_iff (hnamed (OrdMap.has_iff.mpr ⟨row, hrow⟩))).mp (hat hu hrow)
    · exact hu x row r' hrow ((getBlock_seenAgain hr x).trans ((if_neg hx).trans hr'))
  · rintro ⟨hu, hnamed⟩ x row r' hrow hr'
    rw [getBlock_seenAgain hr] at hr'
    split at hr'
    · rename_i hx
      subst hx
      obtain rfl := Option.some.inj hr'
      exact (mirrors_add_iff (hnamed (OrdMap.has_iff.mpr ⟨row, hrow⟩))).mpr (hu x row r hrow hr)
    · exact hu x row r' hrow hr'

end SeenAgain

/-! ## Every run -/

/-- Every row of `fork_blocks` mirrors the record of its block. -/
def RowsMirror (c : ChainContext) : Prop := Rowwise Mirrors (forkBlocks c.history) c.blockTree

/--
A header that is stored comes from a node its row names, if it has one; and a new
header at a forked height has no roots to lose.
-/
def RowsStay (c : ChainContext) : Event → Prop
  | .allHeads node header =>
      (∀ r ∈ c.blockTree.getBlock header.hash,
        (forkBlocks c.history).has header.hash = true → r.seenByNodes.has node = true) ∧
      (c.blockTree.getBlock header.hash = none → c.blockTree.isForked header.number = true →
        header.stateRoot = "" ∧ header.extrinsicsRoot = "")
  | _ => True

instance (c : ChainContext) : ∀ e, Decidable (RowsStay c e)
  | .allHeads node header =>
      inferInstanceAs (Decidable ((∀ r ∈ c.blockTree.getBlock header.hash,
        _ → r.seenByNodes.has node = true) ∧ _))
  | .finalizedHeads .. | .resume .. | .poll .. | .retryTick .. | .resubmitSettled ..
  | .connections .. | .setupCausation | .identities .. => isTrue trivial

theorem roots_recordOf (node : NodeName) (header : Header) :
    (recordOf node header).stateRoot = none ∧ (recordOf node header).extrinsicsRoot = none
      ↔ header.stateRoot = "" ∧ header.extrinsicsRoot = "" := by
  simp [recordOf, BlockTree.newRecord, orNull, Option.filter_some]

/-- A new header hands over the row of the first block of its height, or a later one's own. -/
theorem handed_newHeader {R : ForkBlockRow → BlockRecord → Prop}
    (hR : ∀ r, R (ForkDetector.forkBlockRow r) r) {c : ChainContext} (hi : Booked c)
    {node : NodeName} {header : Header} (hnew : c.blockTree.getBlock header.hash = none) :
    (∀ row ∈ handed c (.allHeads node header), ∀ r,
      (c.step (.allHeads node header)).blockTree.getBlock row.blockHash = some r → R row r) ↔
      (c.blockTree.isForked header.number = true →
        R (ForkDetector.updatedForkBlockRow (recordOf node header)) (recordOf node header)) := by
  have hlen := length_currentAt c.blockTree header.number
  have hrecorded := hi.recorded header.number
  cases hat : c.blockTree.currentAt header.number with
  | nil =>
      have hnone : handed c (.allHeads node header) = none := by
        unfold handed
        dsimp only
        rw [if_pos hnew, hat]
      have hunforked : c.blockTree.isForked header.number = false := by
        rw [isForked_eq, ← hlen, hat]
        rfl
      rw [hnone, hunforked]
      exact iff_of_true (by simp) (by simp)
  | cons b rest =>
      have hsome : handed c (.allHeads node header)
          = if c.forkDetector.recordedForks.has header.number then
              some (ForkDetector.updatedForkBlockRow (recordOf node header))
            else some (ForkDetector.forkBlockRow b) := by
        unfold handed
        dsimp only
        rw [if_pos hnew, hat]
      rw [hsome, hrecorded]
      cases c.blockTree.isForked header.number with
      | true =>
          have hget : (c.step (.allHeads node header)).blockTree.getBlock header.hash
              = some (recordOf node header) := (getBlock_newHeader hnew _).trans (if_pos rfl)
          refine ⟨fun hall _ => hall _ rfl _ hget, fun hrow row hr r hx => ?_⟩
          obtain rfl := Option.some.inj hr
          obtain rfl := Option.some.inj (hget.symm.trans hx)
          exact hrow rfl
      | false =>
          refine iff_of_true (fun row hr r hx => ?_) (by simp)
          obtain rfl := Option.some.inj hr
          have hb : b ∈ c.blockTree.currentAt header.number := by rw [hat]; simp
          have hget := (hi.inv.mem_currentAt_iff.mp hb).1
          rw [getBlock_newHeader hnew, if_neg ?_] at hx
          · obtain rfl := Option.some.inj (hget.symm.trans hx)
            exact hR b
          · intro heq
            rw [show b.hash = header.hash from heq, hnew] at hget
            exact absurd hget (by simp)

/-- The handler that detects a fork hands its rows over as the records are by then. -/
theorem handed_resume {R : ForkBlockRow → BlockRecord → Prop}
    (hR : ∀ r, R (ForkDetector.forkBlockRow r) r) {c : ChainContext} (hi : TreeInv c.blockTree)
    (hattached : Attached c) {i : Nat} {a : Answer} {row : ForkBlockRow} (h : row ∈ handed c (.resume i a))
    {r : BlockRecord} (hr : (c.step (.resume i a)).blockTree.getBlock row.blockHash = some r) :
    R row r := by
  obtain ⟨task, ht, hrow⟩ := Option.bind_eq_some_iff.mp h
  unfold taskRow at hrow
  split at hrow
  · rename_i header epoch b rest event hooked
    rw [held_of_attached (hattached header.number)] at hrow
    obtain rfl := Option.some.inj hrow
    have htree : (c.step (.resume i .done)).blockTree = c.blockTree := by
      simp only [step, ht]
      rfl
    have hget : c.blockTree.getBlock b.hash = some r := by
      rw [htree] at hr
      rw [← hi.current_hash b]
      exact hr
    have hcurrent : c.blockTree.current b = r := by
      unfold BlockTree.current
      rw [hget]
      rfl
    rw [hcurrent]
    exact hR r
  · exact absurd hrow (by simp)

theorem onlyNew {c : ChainContext} {node : NodeName} {header : Header}
    (hnew : c.blockTree.getBlock header.hash = none) :
    ∀ node' header', Event.allHeads node header = .allHeads node' header' →
      c.blockTree.getBlock header'.hash = none := by
  intro node' header' heq
  obtain ⟨rfl, rfl⟩ := Event.allHeads.inj heq
  exact hnew

/-- **One step keeps the rows right, or is one of the two that do not.** -/
theorem rowsMirror_step {c : ChainContext} (hi : Booked c) {e : Event} (he : Unfinal e) :
    RowsMirror (c.step e) ↔ RowsMirror c ∧ RowsStay c e := by
  unfold RowsMirror
  cases e with
  | allHeads node header =>
      unfold RowsStay
      dsimp only
      cases hget : c.blockTree.getBlock header.hash with
      | some r =>
          rw [forkBlocks_step hi.inv he, handed_of_known hget, step_allHeads_of_known hget]
          simp only [Option.mem_some_iff, forall_eq', reduceCtorEq, false_imp_iff, and_true]
          exact mirrors_seenAgain hget hi.seen
      | none =>
          simp only [Option.mem_def, reduceCtorEq, false_imp_iff, implies_true, true_and,
            true_imp_iff]
          rw [← roots_recordOf node, ← mirrors_updatedForkBlockRow_iff,
            ← handed_newHeader mirrors_forkBlockRow hi hget]
          exact rowwise_step factual_mirrors hi he (onlyNew hget)
  | resume i a =>
      rw [rowwise_step factual_mirrors hi he fun _ _ h => absurd h resume_ne_allHeads]
      exact and_congr_right fun _ =>
        iff_of_true (fun row hrow r hr => handed_resume mirrors_forkBlockRow hi.inv hi.attached hrow hr) trivial
  | finalizedHeads => exact absurd he id
  | _ => exact (and_iff_left trivial).symm

theorem booked_step {c : ChainContext} (hi : Booked c) {e : Event} (he : Unfinal e) :
    Booked (c.step e) where
  toStanding := standing_step hi.toStanding he
  one := fun x => (blockRows_step hi he x).1
  zero := fun x => (blockRows_step hi he x).2
  seen := by
    have hfirst : ∀ r, Witnessed (ForkDetector.forkBlockRow r) r :=
      fun r => (mirrors_forkBlockRow r).witnessed
    cases e with
    | allHeads node header =>
        cases hget : c.blockTree.getBlock header.hash with
        | some r =>
            rw [forkBlocks_step hi.inv he, handed_of_known hget, step_allHeads_of_known hget]
            exact witnessed_seenAgain hget hi.seen
        | none =>
            refine (rowwise_step factual_witnessed hi he (onlyNew hget)).mpr ⟨hi.seen, ?_⟩
            exact (handed_newHeader hfirst hi hget).mpr fun _ => hfirst (recordOf node header)
    | resume i a =>
        refine (rowwise_step factual_witnessed hi he
          fun _ _ h => absurd h resume_ne_allHeads).mpr ⟨hi.seen, ?_⟩
        exact fun row hrow r hr => handed_resume hfirst hi.inv hi.attached hrow hr
    | finalizedHeads => exact absurd he id
    | _ => exact hi.seen

theorem booked_init (config : ChainConfig) (opts : TxOptions) :
    Booked (machine config opts).init where
  toStanding := standing_init config opts
  one := by
    rintro x ⟨r, hr, -⟩
    exact absurd hr (by simp [machine, BlockTree.getBlock])
  zero := fun _ _ => rfl
  seen := fun _ _ _ hrow => nomatch hrow

/-- No handler is still going to hand a row over. -/
def RowsDone (c : ChainContext) : Prop := ∀ task ∈ c.tasks, owedBlocks task = []

instance (c : ChainContext) : Decidable (RowsDone c) :=
  inferInstanceAs (Decidable (∀ task ∈ c.tasks, _))

/-- The table holds the blocks at forked heights, and no others. -/
theorem Booked.complete {c : ChainContext} (hi : Booked c) (hd : RowsDone c) (x : Hash) :
    (forkBlocks c.history).has x = true ↔ Competes c x := by
  have hcount : blockRows c x = (c.history.filterMap rowHash).count x := by
    have howed : c.tasks.flatMap owedBlocks = [] := List.flatMap_eq_nil_iff.mpr hd
    unfold blockRows ledger
    rw [howed]
    rfl
  rw [has_forkBlocks, ← List.count_pos_iff, ← hcount]
  by_cases hx : Competes c x
  · exact iff_of_true (by rw [hi.one x hx]; exact Nat.one_pos) hx
  · exact iff_of_false (by rw [hi.zero x hx]; exact Nat.lt_irrefl 0) hx

/--
**When `fork_blocks` is complete and uniform.** Once the handlers are done, a run
without finality has handed over the blocks at forked heights and no others. Their
rows mirror the records exactly if no later competing block had roots to lose, and
no node was late to report a block whose row was there.
-/
theorem forkRows_iff (config : ChainConfig) (opts : TxOptions) (evs : List Event)
    (hu : ∀ e ∈ evs, Unfinal e) (hd : RowsDone ((machine config opts).run evs)) :
    (∀ x, (forkBlocks ((machine config opts).run evs).history).has x = true ↔
      Competes ((machine config opts).run evs) x) ∧
    (RowsMirror ((machine config opts).run evs) ↔
      (machine config opts).Guarded RowsStay (machine config opts).init evs) := by
  have hbooked : Booked ((machine config opts).run evs) :=
    Machine.run_invariant (A := Unfinal) (booked_init config opts)
      (fun _ _ hi he => booked_step hi he) hu
  refine ⟨hbooked.complete hd, ?_⟩
  exact Machine.run_iff_guarded (m := machine config opts) (A := fun _ e => Unfinal e)
    (I := Booked) (P := RowsMirror) (booked_init config opts) (fun _ _ hi he => booked_step hi he)
    (fun _ _ _ hrow => nomatch hrow) (fun _ _ hi he => rowsMirror_step hi he)
    (Machine.guarded_of_forall hu)

/-! ## Two blocks, and a third one -/

/-- A node reports a block at height 1, with its roots. -/
def rooted (node : NodeName) (x : Hash) : Event := .allHeads node ⟨x, 1, "g", "state", "extrinsics"⟩

/-- A second node reports both blocks before their rows are handed over. -/
def seenInTimeRun : List Event :=
  [rooted "n1" "a1", rooted "n2" "a1", rooted "n1" "a2", rooted "n2" "a2", .resume 1 .done,
    .resume 1 .done]

theorem rowsMirror_seenInTimeRun :
    (∀ x, (forkBlocks ((machine {} {}).run seenInTimeRun).history).has x = true ↔
      Competes ((machine {} {}).run seenInTimeRun) x) ∧
    RowsMirror ((machine {} {}).run seenInTimeRun) := by
  obtain ⟨hcomplete, huniform⟩ := forkRows_iff {} {} seenInTimeRun (by decide) (by decide)
  exact ⟨hcomplete, huniform.mpr (by decide)⟩

/-- The handlers of three blocks run to their ends, one turn of each at a time. -/
def thirdBlockRowRun : List Event :=
  [rooted "n1" "a1", rooted "n1" "a2", rooted "n1" "a3"] ++
    resumes 0 [.done, .done, .done, .body none, .done, .done, .done, .author none, .done,
      .author none, .author none, .author none, .author none, .body none, .author none, .body none]

/-- The row of the third block has no roots. -/
theorem not_rowsMirror_thirdBlockRowRun :
    (∀ e ∈ thirdBlockRowRun, Unfinal e) ∧
      ((machine {} {}).run thirdBlockRowRun).tasks = [] ∧
      ¬ RowsMirror ((machine {} {}).run thirdBlockRowRun) := by
  refine ⟨by decide, List.eq_nil_of_length_eq_zero (by decide), fun h => ?_⟩
  have hrow : (forkBlocks ((machine {} {}).run thirdBlockRowRun).history).get? "a3"
      = some ⟨1, "a3", "g", none, none, none, none, none, none, ["n1"]⟩ := by decide
  obtain ⟨r, hr, hroot⟩ : ∃ r, ((machine {} {}).run thirdBlockRowRun).blockTree.getBlock "a3"
      = some r ∧ r.stateRoot = some "state" := ⟨_, rfl, rfl⟩
  exact absurd ((h "a3" _ r hrow hr).stateRoot.trans hroot) (by simp)

/-- A node that reports `a1` once its row is there is missing from the row. -/
example : ¬ (machine {} {}).Guarded RowsStay (machine {} {}).init
    [rooted "n1" "a1", rooted "n1" "a2", rooted "n2" "a1"] := by decide

end ForkWatch.Proof
