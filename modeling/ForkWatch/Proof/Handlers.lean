import ForkWatch.Lib.Account
import ForkWatch.Proof.Dues
import ForkWatch.Proof.Identities

/-!
# Handlers come to their end

A handler is a chain of tasks about one block: each answer it waited for replaces its
task by the next, until the body of the block is fetched or the tree is pruned
(`Advances`). Two things follow for every order in which answers, headers and
notifications arrive.

What is `left` of a handler falls with each answer, as long as the identities on the
chain have no cycles: neither the loop over a map that is iterated live nor the queries
for a name keep it busy, and a chain left to itself finishes (`handlers_finish`). On an
account that is its own parent a handler may stay for ever (`not_comesToEnd_ownParent`).
And no block is lost on the way or fetched twice: `imports_accounted`.
-/

namespace ForkWatch.Proof

open Lib ChainContext

/-! ## The maps while a handler waits -/

/-- No captured map gained a block, nor did the tree's. -/
structure NoMore (c c' : ChainContext) : Prop where
  held : ∀ n epoch, ∀ x ∈ heldHashes c' n epoch, x ∈ heldHashes c n epoch
  now : ∀ n, ∀ x ∈ heldHashes c' n (c'.epochAt n), x ∈ heldHashes c n (c.epochAt n)

theorem NoMore.of_eq {c c' : ChainContext}
    (hheld : ∀ n epoch, heldHashes c' n epoch = heldHashes c n epoch)
    (hepoch : ∀ n, c'.epochAt n = c.epochAt n) : NoMore c c' where
  held := by
    intro n epoch x hx
    rwa [hheld] at hx
  now := by
    intro n x hx
    rwa [hheld, hepoch] at hx

theorem noMore_prune (c : ChainContext) (F : Nat) : NoMore c (c.prune F) where
  held := by
    intro n epoch x hx
    rcases Nat.lt_or_ge (c.epochAt n) epoch with hlate | htaken
    · -- there is no such map, before or after
      have hnone : ((c.prune F).detached n)[epoch]? = none := by
        refine List.getElem?_eq_none ?_
        change (c.prune F).epochAt n ≤ epoch
        rw [epochAt_prune]
        split
        · have := Option.length_toList_le (o := c.blockTree.getBlocksAtHeight n)
          omega
        · omega
      have hbefore : (c.detached n)[epoch]? = none := List.getElem?_eq_none (Nat.le_of_lt hlate)
      unfold heldHashes at hx ⊢
      rw [hnone] at hx
      rw [hbefore]
      exact mem_keysAt_of_prune hx
    · rwa [heldHashes_prune c F htaken] at hx
  now := by
    intro n x hx
    rw [heldHashes_epochAt] at hx ⊢
    exact mem_keysAt_of_prune hx

/-- A handler that goes on adds no block. -/
theorem Resumed.noMore {c c' : ChainContext} {task : Task} {a : Answer}
    (h : Resumed c task a c') : NoMore c c' := by
  rcases h.writes with hwrites | ⟨F, -, -, rfl⟩
  · exact .of_eq hwrites.heldHashes hwrites.epochAt
  · exact noMore_prune c F

/-! ## What is left to do -/

/-- The blocks an enrichment may still visit. -/
def unvisited (c : ChainContext) (n epoch : Nat) (visited : List Hash) : Finset Hash :=
  (heldHashes c n epoch).toFinset \ visited.toFinset

theorem mem_unvisited {c : ChainContext} {n epoch : Nat} {visited : List Hash} {x : Hash} :
    x ∈ unvisited c n epoch visited ↔ x ∈ heldHashes c n epoch ∧ x ∉ visited := by
  unfold unvisited
  rw [Finset.mem_sdiff, List.mem_toFinset, List.mem_toFinset]

theorem NoMore.unvisited {c c' : ChainContext} (h : NoMore c c') (n epoch : Nat)
    (visited : List Hash) :
    (unvisited c' n epoch visited).card ≤ (unvisited c n epoch visited).card := by
  refine Finset.card_le_card fun x hx => ?_
  rw [mem_unvisited] at hx ⊢
  exact ⟨h.held n epoch x hx.1, hx.2⟩

/-- **A visit leaves one block less.** -/
theorem unvisited_visit {c : ChainContext} {n epoch : Nat} {visited : List Hash} {x : Hash}
    (hx : x ∈ heldHashes c n epoch) (hnew : x ∉ visited) :
    (unvisited c n epoch (visited ++ [x])).card < (unvisited c n epoch visited).card := by
  refine Finset.card_lt_card ⟨fun y hy => ?_, fun hall => ?_⟩
  · rw [mem_unvisited, List.mem_append] at hy
    exact mem_unvisited.mpr ⟨hy.1, fun hv => hy.2 (Or.inl hv)⟩
  · -- the block itself has been visited by now
    have hmem := hall (mem_unvisited.mpr ⟨hx, hnew⟩)
    rw [mem_unvisited] at hmem
    exact hmem.2 (by simp)

/-- The blocks at a height, for a handler that has not begun to visit them. -/
def toVisit (c : ChainContext) (n : Nat) : Nat := (unvisited c n (c.epochAt n) []).card

theorem NoMore.toVisit {c c' : ChainContext} (h : NoMore c c') (n : Nat) :
    toVisit c' n ≤ toVisit c n := by
  refine Finset.card_le_card fun x hx => ?_
  rw [mem_unvisited] at hx ⊢
  exact ⟨h.now n x hx.1, hx.2⟩

/-- The answers that the author of one block takes at most, with the queries for its name. -/
def visitCost (state : IdentityState) : Nat := 2 * (state.superOf.size + 1) + 2

/-- The answers to the end of the loop and of the fetch after it. -/
def loopCost (state : IdentityState) (blocks : Nat) : Nat := 1 + visitCost state * blocks

theorem loopCost_lt (state : IdentityState) {m n : Nat} (h : m < n) :
    visitCost state + loopCost state m ≤ loopCost state n := by
  have hmul := Nat.mul_le_mul_left (visitCost state) (Nat.succ_le_of_lt h)
  rw [Nat.mul_succ] at hmul
  unfold loopCost
  omega

theorem loopCost_mono (state : IdentityState) {m n : Nat} (h : m ≤ n) :
    loopCost state m ≤ loopCost state n :=
  Nat.add_le_add_left (Nat.mul_le_mul_left _ h) 1

theorem loopCost_pos (state : IdentityState) (n : Nat) : 0 < loopCost state n :=
  Nat.lt_add_right _ Nat.one_pos

/-- How many answers a handler still needs at most. -/
def left (state : IdentityState) (c : ChainContext) : Task → Nat
  | .insertForkBlocks header _ rest _ _ =>
      rest.length + 6 + loopCost state (toVisit c header.number)
  | .insertForkEvent header .. => 5 + loopCost state (toVisit c header.number)
  | .relayParents header .. => 4 + loopCost state (toVisit c header.number)
  | .retryRelayParents header .. => 3 + loopCost state (toVisit c header.number)
  | .updateCause header .. => 2 + loopCost state (toVisit c header.number)
  | .forkUpdated header => 2 + loopCost state (toVisit c header.number)
  | .imported header _ => 1 + loopCost state (toVisit c header.number)
  | .extractAuthor header epoch visited _ =>
      visitCost state + loopCost state (unvisited c header.number epoch visited).card
  | .resolveIdentity header epoch visited _ _ lookup =>
      lookup.elim 0 (queriesLeft state) + 1
        + loopCost state (unvisited c header.number epoch visited).card
  | .getBlock .. => 1
  | .resolveForkEvent _ => 1

theorem NoMore.left {c c' : ChainContext} (h : NoMore c c') (state : IdentityState)
    (task : Task) : left state c' task ≤ left state c task := by
  cases task with
  | insertForkBlocks header | insertForkEvent header | relayParents header
  | retryRelayParents header | updateCause header | forkUpdated header | imported header =>
      exact Nat.add_le_add_left (loopCost_mono state (h.toVisit header.number)) _
  | extractAuthor header epoch visited | resolveIdentity header epoch visited =>
      exact Nat.add_le_add_left (loopCost_mono state (h.unvisited header.number epoch visited)) _
  | getBlock => exact Nat.le_refl _
  | resolveForkEvent => exact Nat.le_refl _

theorem left_pos (state : IdentityState) (c : ChainContext) (task : Task) :
    0 < left state c task := by
  cases task with
  | getBlock => exact Nat.one_pos
  | resolveForkEvent => exact Nat.one_pos
  | _ => exact Nat.lt_of_lt_of_le (loopCost_pos state _) (Nat.le_add_left _ _)

/-- The block a handler is about, and whose body it fetches in the end. -/
def about : Task → Option Hash
  | .insertForkBlocks header .. | .insertForkEvent header .. | .relayParents header ..
  | .retryRelayParents header .. | .updateCause header .. | .forkUpdated header
  | .imported header _ | .extractAuthor header .. | .resolveIdentity header .. =>
      some header.hash
  | .getBlock hash _ => some hash
  | .resolveForkEvent _ => none

/-- The block whose body the task fetches. -/
def fetches : Task → Option Hash
  | .getBlock hash _ => some hash
  | _ => none

/-- An answer about identities is one of a node whose chain has this state. -/
def Served (state : IdentityState) : Task → Answer → Prop
  | .resolveIdentity _ _ _ _ _ (some lookup), .identity answer => Answers state lookup answer
  | _, _ => True

/--
With the answer it waited for, a handler has its next task about the same block, or is
done. Less is left of it then, if the chain's identities have no cycles.
-/
inductive Advances (c c' : ChainContext) (task : Task) (a : Answer) : Prop where
  | next (t : Task) (htasks : c'.tasks = c.tasks ++ [t]) (habout : about t = about task)
      (hfetch : fetches task = none)
      (hleft : ∀ state, Acyclic state → Served state task a →
        left state c t < left state c task)
  | done (htasks : c'.tasks = c.tasks) (hfetch : fetches task = about task)

/-- The enrichment goes on to a block it has not visited, or to the body. -/
theorem enrichForkAuthors_next {c : ChainContext} (hi : TreeInv c.blockTree) (hd : DetachedInv c)
    (header : Header) (epoch : Nat) (visited : List Hash) :
    ∃ t : Task, (c.enrichForkAuthors header epoch visited).tasks = c.tasks ++ [t] ∧
      about t = some header.hash ∧ ∀ state,
        left state c t ≤ loopCost state (unvisited c header.number epoch visited).card := by
  unfold enrichForkAuthors
  split
  · refine ⟨.getBlock header.hash header.number, ?_, rfl, fun state => loopCost_pos state _⟩
    unfold updateForkAuthors
    split
    · rfl
    · rfl
  · rename_i b hfind
    have hb := (mem_heldAt hi hd (List.mem_of_find?_eq_some hfind)).2.1
    have hnew : b.hash ∉ visited := by
      have htest := List.find?_some hfind
      simp only [Bool.and_eq_true, Bool.not_eq_true', List.contains_eq_mem,
        decide_eq_false_iff_not] at htest
      exact htest.1
    exact ⟨_, rfl, rfl, fun state => loopCost_lt state (unvisited_visit hb hnew)⟩

/-- The verdict leads to the database or straight to the end of the import. -/
theorem recordCause_next (c : ChainContext) (header : Header) (epoch : Nat)
    (blocks : List BlockRecord) (rps : List (Option RelayParent)) :
    ∃ t : Task, (c.recordCause header epoch blocks rps).tasks = c.tasks ++ [t] ∧
      about t = some header.hash ∧ ∀ state,
        left state c t ≤ 2 + loopCost state (toVisit c header.number) := by
  unfold ChainContext.recordCause
  dsimp only
  split
  · refine ⟨_, rfl, rfl, fun state => ?_⟩
    simp only [left]
    omega
  · exact ⟨_, rfl, rfl, fun state => Nat.le_refl _⟩

theorem afterImport_next {c : ChainContext} (hi : TreeInv c.blockTree) (hd : DetachedInv c)
    (header : Header) (forked : Bool) :
    ∃ t : Task, (c.afterImport header forked).tasks = c.tasks ++ [t] ∧
      about t = some header.hash ∧ ∀ state,
        left state c t ≤ loopCost state (toVisit c header.number) := by
  unfold afterImport
  split
  · split
    · exact ⟨_, rfl, rfl, fun state => loopCost_pos state _⟩
    · exact enrichForkAuthors_next hi hd header (c.epochAt header.number) []
  · exact ⟨_, rfl, rfl, fun state => loopCost_pos state _⟩

/-- The name of an author needs no more queries than a visit allows for. -/
theorem queriesLeft_resolveAuthorIdentity {state : IdentityState} (hac : Acyclic state)
    (c : ChainContext) (author : Address) :
    (c.resolveAuthorIdentity author).elim 0 (queriesLeft state) + 2 ≤ visitCost state := by
  unfold resolveAuthorIdentity visitCost
  split
  · exact Nat.le_add_left _ _
  · cases hstart : (startLookup c.identityCache author []).2 with
    | none => exact Nat.le_add_left _ _
    | some l =>
        have hqueries := queriesLeft_start hac hstart
        have hrank : lookups state author ≤ state.superOf.size + 1 := Chase.rank_le ..
        rw [Option.elim_some]
        omega

/-- **An answer takes a handler one task further.** -/
theorem Resumed.advances {c c' : ChainContext} {task : Task} {a : Answer} (h : Resumed c task a c')
    (hi : TreeInv c.blockTree) (hd : DetachedInv c) (ha : expects task a = true) :
    Advances c c' task a := by
  cases h with
  | insertForkBlocks header epoch rest =>
      unfold ChainContext.insertForkBlocks
      cases rest with
      | nil => exact .next _ rfl rfl rfl fun state _ _ => by simp only [left]; omega
      | cons b rest =>
          refine .next _ rfl rfl rfl fun state _ _ => ?_
          simp only [left, List.length_cons]
          omega
  | unhooked => exact .next _ rfl rfl rfl fun state _ _ => by simp only [left]; omega
  | hooked =>
      unfold analyzeForkCause
      dsimp only
      split
      · exact .next _ rfl rfl rfl fun state _ _ => by simp only [left]; omega
      · exact .next _ rfl rfl rfl fun state _ _ => by simp only [left]; omega
  | relayParents header epoch blocks parent =>
      unfold onRelayParents
      dsimp only
      split
      · exact .next _ rfl rfl rfl fun state _ _ => by simp only [left]; omega
      · obtain ⟨t, htasks, habout, hleft⟩ := recordCause_next c header epoch blocks
          (blocks.map fun b => parent b.hash)
        refine .next t htasks habout rfl fun state _ _ => ?_
        exact Nat.lt_of_le_of_lt (hleft state) (by simp only [left]; omega)
  | retryRelayParents header epoch blocks known parent =>
      obtain ⟨t, htasks, habout, hleft⟩ := recordCause_next c header epoch blocks
        (List.zipWith (fun (b : BlockRecord) known => known.or (parent b.hash)) blocks known)
      refine .next t htasks habout rfl fun state _ _ => ?_
      exact Nat.lt_of_le_of_lt (hleft state) (by simp only [left]; omega)
  | updateCause header epoch blocks rps =>
      obtain ⟨htasks, -⟩ := storeRelayParents_frame c header.number epoch blocks rps
      refine .next (.imported header true) (congrArg (· ++ _) htasks) rfl rfl fun state _ _ => ?_
      simp only [left]
      omega
  | forkUpdated =>
      exact .next _ rfl rfl rfl fun state _ _ => by simp only [left]; omega
  | imported header forked =>
      obtain ⟨t, htasks, habout, hleft⟩ := afterImport_next hi hd header forked
      refine .next t htasks habout rfl fun state _ _ => ?_
      exact Nat.lt_of_le_of_lt (hleft state) (by simp only [left]; omega)
  | extractAuthor header epoch visited block author =>
      unfold onAuthor
      split
      · obtain ⟨t, htasks, habout, hleft⟩ := enrichForkAuthors_next hi hd header epoch visited
        refine .next t htasks habout rfl fun state _ _ => ?_
        have hcost : 0 < visitCost state := Nat.succ_pos _
        exact Nat.lt_of_le_of_lt (hleft state) (by simp only [left]; omega)
      · rename_i author _
        obtain ⟨htasks, -⟩ := writeHeld_frame c header.number epoch block.hash
          fun r => { r with author := some author }
        refine .next _ (congrArg (· ++ _) htasks) rfl rfl fun state hac _ => ?_
        have hqueries := queriesLeft_resolveAuthorIdentity hac c author
        simp only [left]
        omega
  | lookup header epoch visited block author lookup answer hexp =>
      refine .next (.resolveIdentity header epoch visited block author
        (lookup.resume c.identityCache answer).2) rfl rfl rfl fun state hac hserved => ?_
      have hfewer := queriesLeft_resume hac hserved hexp c.identityCache
      simp only [left, Option.elim_some]
      omega
  | resolveIdentity header epoch visited block author =>
      obtain ⟨named, heq, htasks, hinv, hmaps, hheld, hepoch⟩ :=
        exists_named hi hd header epoch visited block author
      obtain ⟨t, hnext, habout, hleft⟩ := enrichForkAuthors_next hinv hmaps header epoch visited
      rw [heq]
      refine .next t (hnext.trans (congrArg (· ++ [t]) htasks)) habout rfl fun state _ _ => ?_
      -- naming the block has changed no map
      have hless : left state c t ≤ left state named t :=
        (NoMore.of_eq (fun n epoch => (hheld n epoch).symm) fun n => (hepoch n).symm).left state t
      have hcard := loopCost_mono state
        ((NoMore.of_eq hheld hepoch).unvisited header.number epoch visited)
      have hnamed : left state named t
          ≤ loopCost state (unvisited named header.number epoch visited).card := hleft state
      refine Nat.lt_of_le_of_lt (hless.trans (hnamed.trans hcard)) ?_
      simp only [left, Option.elim_none]
      omega
  | body => exact .done rfl rfl
  | noBody => exact .done rfl rfl
  | resolveForkEvent => exact .done rfl rfl
  | other _ _ hexp =>
      rw [hexp] at ha
      exact absurd ha (by simp)

/-! ## Answers -/

/-- The answer reaches a task that waits for it. -/
def answered (c : ChainContext) : Event → Bool
  | .resume i a => (c.tasks[i]?).any fun task => expects task a
  | _ => false

theorem Resumed.unexpected {c c' : ChainContext} {task : Task} {a : Answer}
    (h : Resumed c task a c') (ha : expects task a = false) : c' = c.await task := by
  cases h with
  | other => rfl
  | lookup _ _ _ _ _ _ _ hexp => exact absurd ha (by simp [expects, hexp])
  | _ => exact absurd ha (by simp [expects])

/-- An answer that is not awaited puts the task back; one that is takes it further. -/
theorem resume_advances {c : ChainContext} (hi : TreeInv c.blockTree) (hd : DetachedInv c)
    (i : Nat) (a : Answer) :
    (c.tasks[i]? = none ∧ c.step (.resume i a) = c) ∨
    (∃ task, c.tasks[i]? = some task ∧ expects task a = false ∧
      c.step (.resume i a) = (taken c i).await task) ∨
    ∃ task, c.tasks[i]? = some task ∧ expects task a = true ∧
      Advances (taken c i) (c.step (.resume i a)) task a := by
  unfold step
  dsimp only
  cases ht : c.tasks[i]? with
  | none => exact Or.inl ⟨rfl, rfl⟩
  | some task =>
      have hresumed := resumed (taken c i) task a
      cases hexp : expects task a with
      | true => exact Or.inr (Or.inr ⟨task, rfl, hexp, hresumed.advances hi hd hexp⟩)
      | false => exact Or.inr (Or.inl ⟨task, rfl, hexp, hresumed.unexpected hexp⟩)

theorem noMore_resume (c : ChainContext) (i : Nat) (a : Answer) :
    NoMore c (c.step (.resume i a)) := by
  cases hti : c.tasks[i]? with
  | none =>
      rw [step_resume_of_none hti]
      exact .of_eq (fun _ _ => rfl) fun _ => rfl
  | some task =>
      rw [step_resume_of_some hti]
      have hnoMore := (resumed (taken c i) task a).noMore
      exact ⟨hnoMore.held, hnoMore.now⟩

/-! ## Coming to an end -/

/-- Neither a header nor a notification, and the chain has this identity state. -/
def Undisturbed (state : IdentityState) (c : ChainContext) : Event → Prop
  | .allHeads .. | .finalizedHeads .. => False
  | .resume i a => ∀ task ∈ c.tasks[i]?, Served state task a
  | _ => True

/-- How many answers the handlers still need at most. -/
def toDo (state : IdentityState) (c : ChainContext) : Nat := (c.tasks.map (left state c)).sum

theorem toDo_taken (state : IdentityState) {c : ChainContext} {i : Nat} {task : Task}
    (h : c.tasks[i]? = some task) : toDo state c = toDo state (taken c i) + left state c task := by
  obtain ⟨hi, ht⟩ := List.getElem?_eq_some_iff.mp h
  have hsum := ((List.getElem_cons_eraseIdx_perm hi).map (left state c)).sum_eq
  rw [ht, List.map_cons, List.sum_cons] at hsum
  have htaken : (c.tasks.eraseIdx i).map (left state c)
      = (c.tasks.eraseIdx i).map (left state (taken c i)) := rfl
  rw [htaken] at hsum
  unfold toDo
  rw [← hsum]
  exact Nat.add_comm ..

theorem NoMore.toDo_le {c c' : ChainContext} (h : NoMore c c') (state : IdentityState)
    (tasks : List Task) :
    (tasks.map (Proof.left state c')).sum ≤ (tasks.map (Proof.left state c)).sum :=
  List.sum_le_sum fun task _ => h.left state task

/-- **Every awaited answer leaves less to do, and nothing but a header adds to it.** -/
theorem handlers_runDown {state : IdentityState} (hac : Acyclic state) (config : ChainConfig)
    (opts : TxOptions) :
    Machine.RunsDown (machine config opts) (fun c => TreeInv c.blockTree ∧ DetachedInv c)
      (Undisturbed state) answered (toDo state) where
  keeps := fun _ e hi _ => ⟨treeInv_step hi.1 e, detachedInv_step hi.1 hi.2 e⟩
  falls := by
    intro c e hi he hanswered
    cases e with
    | resume i a =>
        rcases resume_advances hi.1 hi.2 i a with
          ⟨ht, -⟩ | ⟨task, ht, hexp, -⟩ | ⟨task, ht, -, hadvances⟩
        · simp [answered, ht] at hanswered
        · simp [answered, ht, hexp] at hanswered
        · have hnoMore := noMore_resume c i a
          have hless := hnoMore.toDo_le state (taken c i).tasks
          rw [toDo_taken state ht]
          change toDo state (c.step (.resume i a)) < _
          cases hadvances with
          | next t htasks _ _ hleft =>
              have hnext := Nat.lt_of_le_of_lt (hnoMore.left state t)
                (hleft state hac (he task ht))
              unfold toDo
              rw [htasks, List.map_append, List.sum_append, List.map_singleton,
                List.sum_singleton]
              exact Nat.add_lt_add_of_le_of_lt hless hnext
          | done htasks _ =>
              unfold toDo
              rw [htasks]
              exact Nat.lt_of_le_of_lt hless (Nat.lt_add_of_pos_right (left_pos state c task))
    | _ => exact absurd hanswered (by simp [answered])
  rests := by
    intro c e hi he hanswered
    cases e with
    | resume i a =>
        rcases resume_advances hi.1 hi.2 i a with
          ⟨-, heq⟩ | ⟨task, ht, -, heq⟩ | ⟨task, ht, hexp, -⟩
        · exact Nat.le_of_eq (congrArg (toDo state) heq)
        -- an answer of the wrong kind puts the task back
        · have hsame : toDo state ((taken c i).await task) = toDo state c := by
            rw [toDo_taken state ht]
            unfold toDo await
            rw [List.map_append, List.sum_append, List.map_singleton, List.sum_singleton]
            rfl
          exact Nat.le_of_eq ((congrArg (toDo state) heq).trans hsame)
        · simp [answered, ht, hexp] at hanswered
    | allHeads => exact absurd he id
    | finalizedHeads => exact absurd he id
    | _ => exact Nat.le_refl _

/-- What a waiting task is answered with; a query about identities, by the chain. -/
def anAnswer (state : IdentityState) : Task → Answer
  | .relayParents .. | .retryRelayParents .. => .relayParents fun _ => none
  | .extractAuthor .. => .author none
  | .resolveIdentity _ _ _ _ _ (some lookup) =>
      .identity (answerOf (state.api noFailures) lookup)
  | .getBlock .. => .body none
  | _ => .done

theorem expects_anAnswer (state : IdentityState) (task : Task) :
    expects task (anAnswer state task) = true := by
  cases task with
  | resolveIdentity _ _ _ _ _ lookup =>
      cases lookup with
      | none => rfl
      | some l =>
          obtain ⟨address, query, callers⟩ := l
          cases query with
          | _ => rfl
  | _ => rfl

theorem served_anAnswer (state : IdentityState) (task : Task) :
    Served state task (anAnswer state task) := by
  cases task with
  | resolveIdentity _ _ _ _ _ lookup =>
      cases lookup with
      | none => trivial
      | some l =>
          obtain ⟨address, query, callers⟩ := l
          cases query with
          | identityOf => exact fun found hfound => (Option.some.inj hfound).symm
          | superOf => exact fun found hfound => (Option.some.inj hfound).symm
  | _ => trivial

/-- From here on, the handlers need a bounded number of answers, and then are done. -/
structure ComesToEnd (config : ChainConfig) (opts : TxOptions) (state : IdentityState)
    (c : ChainContext) : Prop where
  /-- Whatever else goes on meanwhile, short of new headers and notifications. -/
  bounded : ∀ more : List Event, (machine config opts).Guarded (Undisturbed state) c more →
    Machine.RunsDown.served (machine config opts) answered c more ≤ toDo state c
  /-- Answers alone are enough to finish. -/
  ends : ∃ more : List Event, (machine config opts).Guarded (Undisturbed state) c more ∧
    (machine config opts).Guarded (fun c e => answered c e = true) c more ∧
    more.length ≤ toDo state c ∧ ((machine config opts).runFrom c more).tasks = []

/--
**Handlers come to an end.** From every reachable state, if the identities on the chain
have no cycles, only boundedly many answers can reach a waiting handler until the next
header or notification, and answering them leaves no handler behind.
-/
theorem handlers_finish (state : IdentityState) (hac : Acyclic state) (config : ChainConfig)
    (opts : TxOptions) (evs : List Event) :
    ComesToEnd config opts state ((machine config opts).run evs) where
  bounded := by
    intro more hmore
    have hle := (handlers_runDown hac config opts).tally_le (recordsInv_run config opts evs) hmore
    omega
  ends := by
    refine (handlers_runDown hac config opts).exists_end (D := fun c => c.tasks = [])
      (fun c _ hsome => ?_) (recordsInv_run config opts evs)
    obtain ⟨task, rest, htasks⟩ := List.exists_cons_of_ne_nil hsome
    refine ⟨.resume 0 (anAnswer state task), ?_, ?_⟩
    · intro task' htask'
      rw [htasks] at htask'
      obtain rfl := Option.some.inj htask'
      exact served_anAnswer state task
    · simp [answered, htasks, expects_anAnswer]

/-- The handler of `a2` has found an author for `a1`, and asks for its name. -/
def askingRun (account : Address) : List Event :=
  captures smallLineage "n" "a1" [] ++ [reports smallLineage "n" "a2", .resume 0 .done,
    .resume 0 .done, .resume 0 .done, .resume 0 .done, .resume 0 (.author (some account))]

theorem handlers_finish_askingRun :
    ComesToEnd {} {} aliceAndSub ((machine {} {}).run (askingRun "5Sub")) :=
  handlers_finish aliceAndSub acyclic_aliceAndSub {} {} (askingRun "5Sub")

/-! ## An account that is its own parent -/

/-- A handler that asks for the name of the account, which is not cached. -/
def Chasing (query : IdentityQuery) (c : ChainContext) : Prop :=
  c.identityCache.get? "5Self" = none ∧ ∃ header epoch visited block author callers,
    c.tasks = [.resolveIdentity header epoch visited block author (some ⟨"5Self", query, callers⟩)]

/-- It has no name of its own. -/
def nameless : Event := .resume 0 (.identity (.identityOf (some none)))

/-- Its parent is the account itself. -/
def sameAgain : Event := .resume 0 (.identity (.superOf (some (some ("5Self", none)))))

theorem chasing_nameless {c : ChainContext} (h : Chasing .identityOf c) :
    Undisturbed ownParent c nameless ∧ answered c nameless = true ∧
      Chasing .superOf (c.step nameless) := by
  obtain ⟨hcache, header, epoch, visited, block, author, callers, htasks⟩ := h
  refine ⟨?_, ?_, ?_, header, epoch, visited, block, author, callers, ?_⟩
  · intro task htask
    rw [htasks] at htask
    obtain rfl := Option.some.inj htask
    exact fun found hfound => (Option.some.inj hfound).symm
  · simp [answered, nameless, htasks, expects, Lookup.expects]
  · simpa [step, nameless, htasks, resumeTask, onLookup, Lookup.resume, await, orNull] using hcache
  · simp [step, nameless, htasks, resumeTask, onLookup, Lookup.resume, await, orNull]

theorem chasing_sameAgain {c : ChainContext} (h : Chasing .superOf c) :
    Undisturbed ownParent c sameAgain ∧ answered c sameAgain = true ∧
      Chasing .identityOf (c.step sameAgain) := by
  obtain ⟨hcache, header, epoch, visited, block, author, callers, htasks⟩ := h
  refine ⟨?_, ?_, ?_, header, epoch, visited, block, author, ("5Self", none) :: callers, ?_⟩
  · intro task htask
    rw [htasks] at htask
    obtain rfl := Option.some.inj htask
    exact fun found hfound => (Option.some.inj hfound).symm
  · simp [answered, sameAgain, htasks, expects, Lookup.expects]
  · simp [step, sameAgain, htasks, resumeTask, onLookup, Lookup.resume, startLookup, hcache, await]
  · simp [step, sameAgain, htasks, resumeTask, onLookup, Lookup.resume, startLookup, hcache, await]

/-- Any number of answers reach the handler, and it goes on asking. -/
theorem exists_served_of_chasing (n : Nat) {c : ChainContext} (h : Chasing .identityOf c) :
    ∃ more, (machine {} {}).Guarded (Undisturbed ownParent) c more ∧
      n ≤ Machine.RunsDown.served (machine {} {}) answered c more := by
  induction n generalizing c with
  | zero => exact ⟨[], trivial, Nat.zero_le _⟩
  | succ n ih =>
      obtain ⟨hfirst, hfirstServed, hparent⟩ := chasing_nameless h
      obtain ⟨hsecond, hsecondServed, hagain⟩ := chasing_sameAgain hparent
      obtain ⟨more, hmore, hserved⟩ := ih hagain
      refine ⟨nameless :: sameAgain :: more, ⟨hfirst, hsecond, hmore⟩, ?_⟩
      have hfirst' : (answered c nameless).toNat = 1 := by rw [hfirstServed]; rfl
      change n + 1 ≤ (answered c nameless).toNat + ((answered (c.step nameless) sameAgain).toNat
        + Machine.RunsDown.served (machine {} {}) answered _ more)
      rw [hfirst']
      exact (Nat.add_comm n 1).le.trans
        (Nat.add_le_add_left (hserved.trans (Nat.le_add_left _ _)) 1)

/-- **The name of such an account keeps a handler busy for ever.** -/
theorem not_comesToEnd_ownParent :
    ¬ ComesToEnd {} {} ownParent ((machine {} {}).run (askingRun "5Self")) := by
  intro hends
  have hchasing : Chasing .identityOf ((machine {} {}).run (askingRun "5Self")) :=
    ⟨by decide, _, _, _, _, _, _, rfl⟩
  obtain ⟨more, hmore, hserved⟩ := exists_served_of_chasing
    (toDo ownParent ((machine {} {}).run (askingRun "5Self")) + 1) hchasing
  have hbound := hends.bounded more hmore
  omega

/-! ## No block is lost on the way -/

section Imports

variable (x : Hash)

/-- The header of the block arrives, and the tree does not hold it. -/
def imported (c : ChainContext) : Event → Nat
  | .allHeads _ header =>
      if header.hash = x ∧ c.blockTree.getBlock header.hash = none then 1 else 0
  | _ => 0

/-- The fetch of its body comes back, with the body or without. -/
def fetched (c : ChainContext) : Event → Nat
  | .resume i (.body _) => if (c.tasks[i]?).bind fetches = some x then 1 else 0
  | _ => 0

/-- The handlers on their way to its body, and the fetches that are out. -/
def inFlight (c : ChainContext) : Nat := (c.tasks.filterMap about).count x

variable {x}

theorem inFlight_await {c c' : ChainContext} {t : Task} (h : c'.tasks = c.tasks ++ [t]) :
    inFlight x c' = inFlight x c + if about t = some x then 1 else 0 := by
  unfold inFlight
  rw [h, List.filterMap_append, List.count_append]
  cases ht : about t with
  | none => simp [ht]
  | some y => simp [ht, List.count_singleton]

theorem inFlight_taken {c : ChainContext} {i : Nat} {task : Task} (h : c.tasks[i]? = some task) :
    inFlight x c = inFlight x (taken c i) + if about task = some x then 1 else 0 := by
  obtain ⟨hi, ht⟩ := List.getElem?_eq_some_iff.mp h
  have hcount := ((List.getElem_cons_eraseIdx_perm hi).filterMap about).count_eq x
  unfold inFlight taken
  dsimp only
  rw [← hcount, ht]
  cases ho : about task with
  | none => simp [ho]
  | some y => simp [ho, List.count_cons]

/-- Only an awaited body ends a fetch. -/
theorem fetched_resume {c : ChainContext} {i : Nat} {a : Answer} {task : Task}
    (ht : c.tasks[i]? = some task) : fetched x c (.resume i a)
      = if fetches task = some x ∧ expects task a = true then 1 else 0 := by
  unfold fetched
  cases task with
  | getBlock =>
      cases a with
      | body => simp [ht, expects]
      | _ => simp [expects]
  | _ =>
      cases a with
      | body => simp [ht, fetches]
      | _ => simp [fetches]

/-- A turn that hands a handler on keeps it; the end of its fetch takes it out. -/
theorem inFlight_resume {c : ChainContext} (hi : TreeInv c.blockTree) (hd : DetachedInv c)
    (i : Nat) (a : Answer) :
    inFlight x (c.step (.resume i a)) + fetched x c (.resume i a) = inFlight x c := by
  rcases resume_advances hi hd i a with ⟨ht, heq⟩ | ⟨task, ht, hexp, heq⟩ | ⟨task, ht, hexp, hadvances⟩
  · have hfetched : fetched x c (.resume i a) = 0 := by
      cases a with
      | body => simp [fetched, ht]
      | _ => rfl
    rw [hfetched, heq]
    rfl
  · rw [fetched_resume ht, if_neg (by simp [hexp]), inFlight_taken ht, heq]
    exact inFlight_await rfl
  · rw [fetched_resume ht, inFlight_taken ht]
    cases hadvances with
    | next t htasks habout hfetch _ =>
        rw [hfetch, if_neg (by simp), inFlight_await htasks, habout]
        rfl
    | done htasks hfetch =>
        have hsame : inFlight x (c.step (.resume i a)) = inFlight x (taken c i) := by
          unfold inFlight
          rw [htasks]
        rw [hsame, hfetch]
        simp [hexp]

theorem inFlight_allHeads {c : ChainContext} (hi : TreeInv c.blockTree) (node : NodeName)
    (header : Header) : inFlight x (c.step (.allHeads node header))
      = inFlight x c + imported x c (.allHeads node header) := by
  unfold imported
  cases hget : c.blockTree.getBlock header.hash with
  | some r =>
      rw [step_allHeads_of_known hget]
      simp [inFlight, seenAgain, report, hget]
  | none =>
      obtain ⟨rs, ts, hadds, hbrings⟩ := brings node hi hget
      have hnew : ∃ t, ts = [t] ∧ about t = some header.hash := by
        cases hbrings with
        | alone => exact ⟨_, rfl, rfl⟩
        | later => exact ⟨_, rfl, rfl⟩
        | second => exact ⟨_, rfl, rfl⟩
      obtain ⟨t, rfl, habout⟩ := hnew
      rw [inFlight_await hadds.tasks, habout]
      simp [hget]

/--
**Every import is on its way to its body, or has been there.** For each block, the
times it entered the tree are the handlers and fetches that are out for it and the
fetches that have come back: none is lost between two awaits, and no report by
another node fetches a body again.
-/
theorem imports_accounted (config : ChainConfig) (opts : TxOptions) (evs : List Event)
    (x : Hash) :
    inFlight x ((machine config opts).run evs)
        + (machine config opts).tally (fetched x) (machine config opts).init evs
      = (machine config opts).tally (imported x) (machine config opts).init evs := by
  have hstep : ∀ (c : ChainContext) (e : Event), TreeInv c.blockTree ∧ DetachedInv c → True →
      inFlight x (c.step e) + fetched x c e = inFlight x c + imported x c e := by
    intro c e hi _
    cases e with
    | allHeads node header => exact inFlight_allHeads hi.1 node header
    | resume i a => exact inFlight_resume hi.1 hi.2 i a
    | finalizedHeads node F y =>
        exact inFlight_await (adds_finalizedHeads c node F y).tasks
    | _ => rfl
  have hbalance := Machine.tally_balance (m := machine config opts)
    (I := fun c => TreeInv c.blockTree ∧ DetachedInv c) (A := fun _ => True)
    (fun _ e hi _ => ⟨treeInv_step hi.1 e, detachedInv_step hi.1 hi.2 e⟩)
    hstep (recordsInv_run config opts []) fun (e : Event) (_ : e ∈ evs) => trivial
  exact hbalance.trans (Nat.zero_add _)

end Imports

end ForkWatch.Proof
