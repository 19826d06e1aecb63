import ForkWatch.Lib.LastWriter
import ForkWatch.Lib.Table
import ForkWatch.Db.Queries

/-!
# The rows of `fork_blocks`

There is one row for a hash at most. `fork_block_table` says what it holds after any
order of statements: the columns of the insertion that came in when there was no row,
the nodes of that and of every later insertion, one after the other and with their
repetitions, the author and the relay parent of the last update of each, if there was
one since; and it is there until a cleanup finds that first insertion outdated. What is
inserted after that starts a new row, without what the old one had.
-/

namespace ForkWatch.Proof

open Lib Database

/-- The row a statement brings for a hash that has none. -/
def insertsBlock (hash : Hash) (s : Statement) : Option ForkBlock :=
  match s.query with
  | .insertForkBlock chain row =>
      if row.blockHash = hash then some { row with chain, importedAt := s.now } else none
  | _ => none

/-- The nodes a statement adds. -/
def seenOf (hash : Hash) (s : Statement) : List NodeName :=
  match s.query with
  | .insertForkBlock _ row => if row.blockHash = hash then row.seenBy else []
  | _ => []

/-- The author a statement writes. -/
def authorOf (hash : Hash) (s : Statement) : Option (Address × Option String) :=
  match s.query with
  | .updateBlockAuthor h author authorName => if h = hash then some (author, authorName) else none
  | _ => none

/-- The relay parent a statement writes. -/
def relayParentOf (hash : Hash) (s : Statement) : Option RelayParent :=
  match s.query with
  | .updateRelayParent h relayParent => if h = hash then some relayParent else none
  | _ => none

/-- A cleanup finds the row outdated. -/
def dropsBlock (s : Statement) (r : ForkBlock) : Bool :=
  match s.query with
  | .deleteForkBlocks days => outdated s.now days r.importedAt
  | _ => false

/-- The row with these nodes more, and this author and relay parent if there are any. -/
def grown (seen : List NodeName) (author : Option (Address × Option String))
    (relayParent : Option RelayParent) (r : ForkBlock) : ForkBlock :=
  { r with
    seenBy := r.seenBy ++ seen
    author := (author.map fun a => some a.1).getD r.author
    authorName := (author.map Prod.snd).getD r.authorName
    relayParent := (relayParent.map RelayParent.hash).getD r.relayParent
    relayNumber := (relayParent.map RelayParent.number).getD r.relayNumber }

theorem grown_nothing (r : ForkBlock) : grown [] none none r = r := by
  unfold grown
  rw [List.append_nil]
  rfl

theorem grown_grown (seen seen' : List NodeName) (author author' : Option (Address × Option String))
    (relayParent relayParent' : Option RelayParent) (r : ForkBlock) :
    grown seen' author' relayParent' (grown seen author relayParent r)
      = grown (seen ++ seen') (author'.or author) (relayParent'.or relayParent) r := by
  unfold grown
  cases author' with
  | none => cases relayParent' <;> simp
  | some a => cases relayParent' <;> simp

def growBlock (hash : Hash) (s : Statement) (r : ForkBlock) : ForkBlock :=
  grown (seenOf hash s) (authorOf hash s) (relayParentOf hash s) r

def turnBlock (hash : Hash) (s : Statement) (r : ForkBlock) : Option ForkBlock :=
  if dropsBlock s r then none else some (growBlock hash s r)

theorem rewrites_turnBlock (hash : Hash) :
    Rewrites (turnBlock hash) dropsBlock (growBlock hash) where
  turn := fun _ _ => rfl
  drops := fun _ _ _ => rfl

/-- A statement that is not about the hash. -/
theorem turnBlock_quiet {hash : Hash} {s : Statement} (hseen : seenOf hash s = [])
    (hauthor : authorOf hash s = none) (hrelay : relayParentOf hash s = none)
    (hdrops : ∀ r, dropsBlock s r = false) : turnBlock hash s = some := by
  funext r
  unfold turnBlock growBlock
  rw [hdrops, hseen, hauthor, hrelay, grown_nothing]
  rfl

/-- **What a statement does to the row of a hash.** -/
theorem get?_execute (db : Database) (s : Statement) (hash : Hash) :
    (db.execute s).forkBlocks.get? hash = match db.forkBlocks.get? hash with
      | none => insertsBlock hash s
      | some r => turnBlock hash s r := by
  -- a statement that says nothing of the hash
  have hquiet : insertsBlock hash s = none → turnBlock hash s = some →
      db.forkBlocks.get? hash = match db.forkBlocks.get? hash with
        | none => insertsBlock hash s
        | some r => turnBlock hash s r := by
    intro hinserts hturn
    rw [hinserts, hturn]
    cases db.forkBlocks.get? hash <;> rfl
  have hupdate : ∀ h (f : ForkBlock → ForkBlock),
      (db.updateForkBlock h f).forkBlocks.get? hash
        = if hash = h then (db.forkBlocks.get? hash).map f else db.forkBlocks.get? hash := by
    intro h f
    refine (OrdMap.get?_modify ..).trans ?_
    split
    · rename_i heq
      rw [heq]
    · rfl
  obtain ⟨now, query⟩ := s
  cases query with
  | insertForkBlock chain row =>
      refine (OrdMap.get?_set ..).trans ?_
      by_cases hhash : hash = row.blockHash
      · subst hhash
        rw [if_pos rfl]
        cases db.forkBlocks.get? row.blockHash with
        | none => simp [insertsBlock]
        | some r =>
            simp [turnBlock, dropsBlock, growBlock, grown, seenOf, authorOf, relayParentOf]
      · rw [if_neg hhash]
        have hhash' : ¬ row.blockHash = hash := fun heq => hhash heq.symm
        exact hquiet (if_neg hhash') (turnBlock_quiet (if_neg hhash') rfl rfl fun _ => rfl)
  | updateRelayParent h relayParent =>
      refine (hupdate h _).trans ?_
      by_cases hhash : hash = h
      · subst hhash
        rw [if_pos rfl]
        cases db.forkBlocks.get? hash with
        | none => rfl
        | some r =>
            simp [turnBlock, dropsBlock, growBlock, grown, seenOf, authorOf, relayParentOf]
      · rw [if_neg hhash]
        have hhash' : ¬ h = hash := fun heq => hhash heq.symm
        exact hquiet rfl (turnBlock_quiet rfl rfl (if_neg hhash') fun _ => rfl)
  | updateBlockAuthor h author authorName =>
      refine (hupdate h _).trans ?_
      by_cases hhash : hash = h
      · subst hhash
        rw [if_pos rfl]
        cases db.forkBlocks.get? hash with
        | none => rfl
        | some r =>
            simp [turnBlock, dropsBlock, growBlock, grown, seenOf, authorOf, relayParentOf]
      · rw [if_neg hhash]
        have hhash' : ¬ h = hash := fun heq => hhash heq.symm
        exact hquiet rfl (turnBlock_quiet rfl (if_neg hhash') rfl fun _ => rfl)
  | deleteForkBlocks days =>
      refine (OrdMap.get?_filter ..).trans ?_
      cases db.forkBlocks.get? hash with
      | none => rfl
      | some r =>
          dsimp only
          unfold turnBlock growBlock
          rw [Option.filter_some]
          cases hout : outdated now days r.importedAt with
          | true => simp [dropsBlock, hout]
          | false =>
              have hgrown : grown (seenOf hash ⟨now, .deleteForkBlocks days⟩)
                  (authorOf hash ⟨now, .deleteForkBlocks days⟩)
                  (relayParentOf hash ⟨now, .deleteForkBlocks days⟩) r = r := grown_nothing r
              rw [hgrown]
              simp [dropsBlock, hout]
  | updateCause chain height verdict pick =>
      -- an update of `fork_events`
      refine Eq.trans ?_ (hquiet rfl (turnBlock_quiet rfl rfl rfl fun _ => rfl))
      change (db.updateLatest _ pick (writeCause verdict)).forkBlocks.get? hash = _
      unfold updateLatest
      split
      · rfl
      · rfl
  | updateForkAuthors chain height authors pick =>
      refine Eq.trans ?_ (hquiet rfl (turnBlock_quiet rfl rfl rfl fun _ => rfl))
      change (db.updateLatest _ pick _).forkBlocks.get? hash = _
      unfold updateLatest
      split
      · rfl
      · rfl
  | insertForkEvent | resolveForkEvent | insertFinalityLog | insertSubmittedTx
  | insertResubmitAttempt | deleteFinalityLog | deleteForkEvents | deleteSubmittedTxs
  | deleteResubmitAttempts => exact hquiet rfl (turnBlock_quiet rfl rfl rfl fun _ => rfl)

theorem cell_forkBlocks (hash : Hash) : Cell machine (fun db => db.forkBlocks.get? hash)
    (insertsBlock hash) (turnBlock hash) where
  empty := by
    intro db s hnone
    have hstep := get?_execute db s hash
    rw [hnone] at hstep
    exact hstep
  full := by
    intro db s r hsome
    have hstep := get?_execute db s hash
    rw [hsome] at hstep
    exact hstep

/-- What all the statements after its insertion make of a row. -/
def blockNow (hash : Hash) (later : List Statement) (r : ForkBlock) : ForkBlock :=
  grown (later.flatMap (seenOf hash)) (latestOf (authorOf hash) later)
    (latestOf (relayParentOf hash) later) r

theorem foldl_growBlock (hash : Hash) (later : List Statement) (r : ForkBlock) :
    later.foldl (fun r s => growBlock hash s r) r = blockNow hash later r := by
  induction later using List.reverseRecOn with
  | nil => exact (grown_nothing r).symm
  | append_singleton later s ih =>
      rw [List.foldl_append, ih, List.foldl_cons, List.foldl_nil]
      unfold growBlock blockNow
      rw [grown_grown, List.flatMap_append, latestOf_snoc, latestOf_snoc, List.flatMap_singleton]

/-- **The row of a hash.** -/
theorem fork_block_table (evs : List Statement) (hash : Hash) (r : ForkBlock) :
    (machine.run evs).forkBlocks.get? hash = some r ↔
      ∃ before insertion later r₀, evs = before ++ insertion :: later ∧
        (machine.run before).forkBlocks.get? hash = none ∧
        insertsBlock hash insertion = some r₀ ∧
        (∀ s ∈ later, dropsBlock s r₀ = false) ∧ r = blockNow hash later r₀ := by
  rw [(cell_forkBlocks hash).run_iff rfl]
  simp only [(rewrites_turnBlock hash).life_eq, foldl_growBlock]
  refine ⟨?_, ?_⟩
  · intro hex
    obtain ⟨before, insertion, later, r₀, hevs, hnone, hinserts, hlife⟩ := hex
    refine ⟨before, insertion, later, r₀, hevs, hnone, hinserts, ?_⟩
    split at hlife
    · exact absurd hlife (by simp)
    · rename_i hdrops
      refine ⟨fun s hs => ?_, (Option.some.inj hlife).symm⟩
      cases hs' : dropsBlock s r₀ with
      | false => rfl
      | true => exact absurd (List.any_eq_true.mpr ⟨s, hs, hs'⟩) hdrops
  · intro hex
    obtain ⟨before, insertion, later, r₀, hevs, hnone, hinserts, hdrops, rfl⟩ := hex
    refine ⟨before, insertion, later, r₀, hevs, hnone, hinserts, if_neg fun hany => ?_⟩
    obtain ⟨s, hs, hdrop⟩ := List.any_eq_true.mp hany
    rw [hdrops s hs] at hdrop
    exact Bool.false_ne_true hdrop

end ForkWatch.Proof
