import ForkWatch.Proof.ActiveForks
import ForkWatch.Proof.Detection
import ForkWatch.Proof.Provenance
import ForkWatch.Proof.SharedHeads
import ForkWatch.Proof.SlotPartition

/-!
# The status of a chain

`getStatus` puts together what the parts of a chain hold. `status_faithful`: in every run
of the program, asked at any time, the status of a chain is an account of the heads it
heard. Its heights are the highest ones, its nodes are the configured ones with their own
latest heads, its forks are all that were counted, and those of the last hour are the ones
counted in that hour, as far back as the ring buffer goes.

The best height alone takes an assumption: that heads of one hash have one number. The
tree knows a block it has seen by its hash, and does not look at the number again.
-/

namespace ForkWatch.Proof

open Lib ChainContext

/-! ## Heights -/

/-- The highest number, and 0 if there is none. -/
def highest (l : List Nat) : Nat := l.foldl max 0

theorem highest_append_toList (l : List Nat) (o : Option Nat) :
    highest (l ++ o.toList) = max (highest l) (o.getD 0) := by
  unfold highest
  rw [List.foldl_append]
  cases o with
  | none => exact (Nat.max_zero _).symm
  | some n => rfl

theorem filterMap_snoc {α β : Type} (f : α → Option β) (l : List α) (a : α) :
    (l ++ [a]).filterMap f = l.filterMap f ++ (f a).toList := by
  rw [List.filterMap_append]
  cases h : f a with
  | none => rw [List.filterMap_cons_none h]; rfl
  | some b => rw [List.filterMap_cons_some h]; rfl

/-- The height a head finalizes. -/
def finalizedNumber : Event → Option Nat
  | .finalizedHeads _ F _ => some F
  | _ => none

/-- The height of a head that is imported. -/
def importedNumber : Event → Option Nat
  | .allHeads _ header => some header.number
  | _ => none

theorem bestHeight_refreshed {t t' : BlockTree} (h : Refreshed t t') :
    t'.bestHeight = t.bestHeight := by
  induction h with
  | refl => rfl
  | update _ x hf ih => rw [bestHeight_updateRecord, ih]

theorem bestHeight_insertRecord (t : BlockTree) (r : BlockRecord) :
    (t.insertRecord r).bestHeight = max t.bestHeight r.number := by
  unfold BlockTree.insertRecord
  dsimp only
  split
  · omega
  · omega

theorem finalizedHeight_step (c : ChainContext) (e : Event) :
    (c.step e).blockTree.finalizedHeight
      = max c.blockTree.finalizedHeight ((finalizedNumber e).getD 0) := by
  cases e with
  | allHeads node header =>
      change _ = max c.blockTree.finalizedHeight 0
      rw [Nat.max_zero]
      rcases allHeads_tree c node header with ⟨-, heq⟩ | ⟨-, href⟩
      · rw [heq]
        rfl
      · exact finalizedHeight_refreshed href
  | resume i a =>
      change _ = max c.blockTree.finalizedHeight 0
      rw [Nat.max_zero]
      rcases resume_cases c i a with ⟨x, n, body, -, -, heq⟩ | ⟨F, -, -, heq⟩ | hq
      · rw [heq]
        rfl
      · rw [heq]
        rfl
      · exact finalizedHeight_refreshed hq.tree
  | finalizedHeads => rfl
  | _ => exact (Nat.max_zero _).symm

/-- Only a header that is new raises the best height. -/
theorem bestHeight_step (c : ChainContext) (e : Event) :
    (c.step e).blockTree.bestHeight = c.blockTree.bestHeight ∧
        (∀ node header, e = .allHeads node header →
          ∃ r, c.blockTree.getBlock header.hash = some r) ∨
      ∃ node header, e = .allHeads node header ∧
        (c.step e).blockTree.bestHeight = max c.blockTree.bestHeight header.number := by
  cases e with
  | allHeads node header =>
      rcases allHeads_tree c node header with ⟨-, heq⟩ | ⟨hknown, href⟩
      · refine .inr ⟨node, header, rfl, ?_⟩
        rw [heq]
        exact bestHeight_insertRecord ..
      · refine .inl ⟨bestHeight_refreshed href, ?_⟩
        intro node' header' h
        cases h
        exact hknown
  | resume i a =>
      refine .inl ⟨?_, fun _ _ h => nomatch h⟩
      rcases resume_cases c i a with ⟨x, n, body, -, -, heq⟩ | ⟨F, -, -, heq⟩ | hq
      · rw [heq]
        rfl
      · rw [heq]
        rfl
      · exact bestHeight_refreshed hq.tree
  | _ => exact .inl ⟨rfl, fun _ _ h => nomatch h⟩

section Chain

variable (config : ChainConfig) (opts : TxOptions)

theorem finalizedHeight_run (evs : List Event) :
    ((machine config opts).run evs).blockTree.finalizedHeight
      = highest (evs.filterMap finalizedNumber) := by
  induction evs using List.reverseRecOn with
  | nil => rfl
  | append_singleton evs e ih =>
      rw [Machine.run_snoc, filterMap_snoc, highest_append_toList, ← ih]
      exact finalizedHeight_step _ e

/-- What a run has shown. -/
def shownBy (evs : List Event) : Shown where
  header node header := .allHeads node header ∈ evs
  best _ _ := True
  finalized node F x := .finalizedHeads node F x ∈ evs
  tx _ := True

theorem admits_shownBy {evs : List Event} {e : Event} (he : e ∈ evs) (c : ChainContext) :
    (shownBy evs).Admits c e where
  header := by
    intro node header heq
    rw [heq] at he
    exact he
  finalized := by
    intro node F x heq
    rw [heq] at he
    exact he
  tx := supplies_true c e

/-- A block in the tree came with a head of its number. -/
theorem exists_head_of_getBlock {evs : List Event} {x : Hash} {r : BlockRecord}
    (hr : ((machine config opts).run evs).blockTree.getBlock x = some r) :
    ∃ node header, .allHeads node header ∈ evs ∧ header.hash = x ∧ header.number = r.number := by
  have hshown : ChainShown (shownBy evs) ((machine config opts).run evs) :=
    Machine.run_invariant (m := machine config opts) (A := fun e => e ∈ evs)
      (chainShown_init config opts)
      (fun c e h he => chainShown_step h (admits_shownBy he c)) fun _ h => h
  obtain ⟨node, header, hheard, hhash, hnumber, -⟩ := (hshown.records x r (Or.inl hr)).header
  exact ⟨node, header, hheard, hhash.trans ((treeInv_run config opts evs).hash_eq hr), hnumber⟩

/-- Heads of one hash have one number. -/
def OneNumber (evs : List Event) : Prop :=
  ∀ node header node' header', .allHeads node header ∈ evs → .allHeads node' header' ∈ evs →
    header.hash = header'.hash → header.number = header'.number

theorem bestHeight_run {evs : List Event} (hone : OneNumber evs) :
    ((machine config opts).run evs).blockTree.bestHeight
      = highest (evs.filterMap importedNumber) := by
  induction evs using List.reverseRecOn with
  | nil => rfl
  | append_singleton evs e ih =>
      have hbefore : OneNumber evs := fun node header node' header' h h' =>
        hone node header node' header' (List.mem_append_left _ h) (List.mem_append_left _ h')
      rw [Machine.run_snoc, filterMap_snoc, highest_append_toList, ← ih hbefore]
      rcases bestHeight_step ((machine config opts).run evs) e with
        ⟨hsame, hknown⟩ | ⟨node, header, rfl, hmax⟩
      · refine hsame.trans ?_
        -- a block that is known came with this number before
        have hle : (importedNumber e).getD 0
            ≤ ((machine config opts).run evs).blockTree.bestHeight := by
          cases e with
          | allHeads node header =>
              obtain ⟨r, hr⟩ := hknown node header rfl
              obtain ⟨node', header', hheard, hhash, hnumber⟩ :=
                exists_head_of_getBlock config opts hr
              have hsame := hone node header node' header' (List.mem_append_right _ (by simp))
                (List.mem_append_left _ hheard) hhash.symm
              change header.number ≤ _
              rw [hsame, hnumber]
              exact (treeInv_run config opts evs).best _ r hr
          | _ => exact Nat.zero_le _
        omega
      · exact hmax

end Chain

/-! ## Forks -/

def forkCount (c : ChainContext) : Nat := c.forkDetector.totalForkCount

/-- Only a header counts a fork, and not more than one. -/
theorem forkCount_step {c : ChainContext} (hi : TreeInv c.blockTree) (e : Event) :
    forkCount (c.step e) = forkCount c ∨
      (∃ node header, e = .allHeads node header) ∧ forkCount (c.step e) = forkCount c + 1 := by
  cases e with
  | allHeads node header =>
      cases hget : c.blockTree.getBlock header.hash with
      | some r =>
          rw [step_allHeads_of_known hget]
          exact .inl rfl
      | none =>
          have harrives := arrives node hi hget
          generalize c.step (.allHeads node header) = c' at harrives ⊢
          cases harrives with
          | alone => exact .inl rfl
          | later => exact .inl rfl
          | second =>
              refine .inr ⟨⟨node, header, rfl⟩, ?_⟩
              exact (detectFork_spec (onRecord c node header) header _).2.2.1
  | resume i a =>
      rcases resume_cases c i a with ⟨x, n, body, -, -, heq⟩ | ⟨F, -, -, heq⟩ | hq
      · rw [heq]
        exact .inl rfl
      · rw [heq]
        exact .inl rfl
      · exact .inl hq.totalForkCount
  | finalizedHeads node F x => exact .inl (onHeightFinalized_spec c.forkDetector F x).totalForkCount
  | _ => exact .inl rfl

theorem forkCount_tick (p : PolledChain) (now : Int) (connections : List PollConnection) :
    forkCount (p.tick now connections).ctx = forkCount p.ctx := by
  obtain ⟨nodes, hctx⟩ := asked_tick (p := p) (c := p.ctx)
    ⟨p.ctx.txTracker.unsupportedNodes, rfl⟩ now connections
  rw [hctx]
  rfl

theorem forkCount_answer (p : PolledChain) (call : Nat) (answer : Option (List Extrinsic)) :
    forkCount (p.answer call answer).ctx = forkCount p.ctx := by
  unfold PolledChain.answer
  split
  · rfl
  · rfl

section Monitor

variable (config : MonitorConfig)

/-- When a step of a chain counts a fork. -/
def forkTimes (m : ChainMonitor) : Arrival → List Int
  | .setupCausation => []
  | .event e => if forkCount m.ctx < forkCount (m.step e).ctx then [e.now] else []

/-- What a step counts, it puts down. -/
structure PutDown (m m' : ChainMonitor) (times : List Int) : Prop where
  count : forkCount m'.ctx = forkCount m.ctx + times.length
  times : m'.detectedAt = times.foldl (SlotTracker.pushBounded MAX_RECENT_FORKS) m.detectedAt

theorem putDown_none {m : ChainMonitor} {e : MonitorEvent}
    (h : forkCount (m.step e).ctx = forkCount m.ctx ∧ (m.step e).detectedAt = m.detectedAt) :
    PutDown m (m.step e) (forkTimes m (.event e)) := by
  obtain ⟨hcount, htimes⟩ := h
  unfold forkTimes
  dsimp only
  rw [hcount, if_neg (by omega)]
  exact ⟨hcount, htimes⟩

/-- A head that is heard is imported before its fork is put down. -/
theorem putDown_allHeads {m : ChainMonitor} (hi : TreeInv m.ctx.blockTree) (now : Int)
    (up : Nat → Bool) (place : Place) (header : Header) :
    PutDown m (m.step ⟨now, up, .allHeads place header⟩)
      (forkTimes m (.event ⟨now, up, .allHeads place header⟩)) := by
  have hstep := step_allHeads m now up place header
  cases hnode : m.hears place .allHeads with
  | none =>
      rw [hnode] at hstep
      exact putDown_none (by rw [hstep]; exact ⟨rfl, rfl⟩)
  | some node =>
      rw [hnode] at hstep
      dsimp only at hstep
      have hctx : (m.step ⟨now, up, .allHeads place header⟩).ctx
          = (withConnections m up).ctx.step (.allHeads node header) := by
        rw [hstep]
        rfl
      have htimes : (m.step ⟨now, up, .allHeads place header⟩).detectedAt
          = if forkCount m.ctx
                < forkCount ((withConnections m up).ctx.step (.allHeads node header)) then
              SlotTracker.pushBounded MAX_RECENT_FORKS m.detectedAt now
            else m.detectedAt := by
        rw [hstep]
        rfl
      have hcount : forkCount (withConnections m up).ctx = forkCount m.ctx := rfl
      -- the count tells whether the head made a fork
      rcases forkCount_step (c := (withConnections m up).ctx) hi (.allHeads node header) with
        hsame | ⟨-, hmore⟩
      · rw [hcount] at hsame
        rw [hsame, if_neg (by omega)] at htimes
        exact putDown_none ⟨by rw [hctx, hsame], htimes⟩
      · rw [hcount] at hmore
        rw [hmore, if_pos (by omega)] at htimes
        unfold forkTimes
        dsimp only
        rw [hctx, hmore, if_pos (by omega)]
        exact ⟨by rw [hctx, hmore]; rfl, htimes⟩

theorem putDown_arrive {m : ChainMonitor} (hi : TreeInv m.ctx.blockTree) (arrival : Arrival) :
    PutDown m (arrive m arrival) (forkTimes m arrival) := by
  cases arrival with
  | setupCausation => exact ⟨rfl, rfl⟩
  | event e =>
      obtain ⟨now, up, what⟩ := e
      change PutDown m (m.step ⟨now, up, what⟩) _
      cases what with
      | allHeads place header => exact putDown_allHeads hi now up place header
      -- nothing else counts a fork
      | connection e =>
          cases e with
          | _ => exact putDown_none ⟨rfl, rfl⟩
      | newHeads place number =>
          refine putDown_none ?_
          rw [step_newHeads]
          split
          · exact ⟨rfl, rfl⟩
          · exact ⟨rfl, rfl⟩
      | finalizedHeads place api header =>
          refine putDown_none ?_
          rw [step_finalizedHeads]
          split
          · exact ⟨rfl, rfl⟩
          · exact ⟨(onHeightFinalized_spec m.ctx.forkDetector _ _).totalForkCount, rfl⟩
      | handler e =>
          refine putDown_none ?_
          rw [step_handler]
          split
          · rename_i hhandles
            refine ⟨?_, rfl⟩
            rcases forkCount_step (c := (withConnections m up).ctx) hi e with
              hsame | ⟨⟨node, header, rfl⟩, -⟩
            · cases e with
              | poll => exact absurd hhandles (by simp [handles])
              | _ => exact hsame
            · exact absurd hhandles (by simp [handles])
          · exact ⟨rfl, rfl⟩
      | slotTurn =>
          refine putDown_none ?_
          rw [step_slotTurn]
          split
          · exact ⟨rfl, rfl⟩
          · exact ⟨rfl, rfl⟩
      | pollTick => exact putDown_none ⟨forkCount_tick .., rfl⟩
      | pollAnswered => exact putDown_none ⟨forkCount_answer .., rfl⟩
      | authorities => exact putDown_none ⟨rfl, rfl⟩

theorem config_arrive (m : ChainMonitor) (arrival : Arrival) :
    (arrive m arrival).config = m.config := by
  cases arrival with
  | setupCausation => rfl
  | event e =>
      obtain ⟨now, up, what⟩ := e
      change (m.step ⟨now, up, what⟩).config = m.config
      cases what with
      | connection e =>
          cases e with
          | _ => rfl
      | allHeads =>
          rw [step_allHeads]
          split
          · rfl
          · rfl
      | newHeads =>
          rw [step_newHeads]
          split
          · rfl
          · rfl
      | finalizedHeads =>
          rw [step_finalizedHeads]
          split
          · rfl
          · rfl
      | handler =>
          rw [step_handler]
          split
          · rfl
          · rfl
      | slotTurn =>
          rw [step_slotTurn]
          split
          · rfl
          · rfl
      | _ => rfl

theorem foldl_pushBounded_newest {α : Type} (n : Nat) (l times : List α) :
    times.foldl (SlotTracker.pushBounded n) (newest n l) = newest n (l ++ times) := by
  induction times generalizing l with
  | nil => rw [List.append_nil, List.foldl_nil]
  | cons t times ih =>
      rw [List.foldl_cons, pushBounded_newest, ih, List.append_assoc, List.singleton_append]

theorem treeInv_of_chain (arrivals : List Arrival) :
    TreeInv ((monitorMachine config).run arrivals).ctx.blockTree := by
  obtain ⟨nodes, hctx⟩ := (partsAlone_run config arrivals).chain
  rw [hctx]
  exact treeInv_run config.chain config.opts _

/-- All forks are counted, and the times of the newest are kept. -/
theorem forkTimes_run (arrivals : List Arrival) :
    forkCount ((monitorMachine config).run arrivals).ctx = (fed config forkTimes arrivals).length ∧
      ((monitorMachine config).run arrivals).detectedAt
        = newest MAX_RECENT_FORKS (fed config forkTimes arrivals) := by
  induction arrivals using List.reverseRecOn with
  | nil => exact ⟨rfl, List.drop_nil.symm⟩
  | append_singleton arrivals arrival ih =>
      have hput := putDown_arrive (treeInv_of_chain config arrivals) arrival
      unfold fed at ih ⊢
      rw [Machine.run_snoc, Machine.transcript_snoc]
      refine ⟨?_, ?_⟩
      · rw [List.length_append, ← ih.1]
        exact hput.count
      · refine hput.times.trans ?_
        rw [ih.2]
        generalize forkTimes ((monitorMachine config).run arrivals) arrival = times
        exact foldl_pushBounded_newest MAX_RECENT_FORKS _ times

theorem config_run (arrivals : List Arrival) :
    ((monitorMachine config).run arrivals).config = config := by
  refine Machine.run_invariant (A := fun _ => True)
    (I := fun m : ChainMonitor => m.config = config) rfl ?_ fun _ _ => trivial
  intro m arrival h _
  exact (config_arrive m arrival).trans h

end Monitor

/-! ## The last hour -/

/-- Of times that go down, those that are late enough come first. -/
theorem length_takeWhile_of_descending {l : List Int} (h : l.Pairwise (· ≥ ·)) (since : Int) :
    (l.takeWhile fun t => !decide (t < since)).length = l.countP fun t => since ≤ t := by
  induction h with
  | nil => rfl
  | @cons t l hle _ ih =>
      by_cases hlate : since ≤ t
      · rw [List.takeWhile_cons_of_pos (by simpa using hlate), List.length_cons, ih,
          List.countP_cons_of_pos (by simpa using hlate)]
      · have hnone : l.countP (fun t => since ≤ t) = 0 := by
          refine List.countP_eq_zero.mpr fun t' ht' => ?_
          have hdown := hle t' ht'
          simp only [decide_eq_true_eq]
          omega
        rw [List.takeWhile_cons_of_neg (by simpa using hlate),
          List.countP_cons_of_neg (by simpa using hlate), hnone]
        rfl

/-- While the clock does not go back, forks are counted as far as the ring buffer goes. -/
theorem countForksSince_eq {m : ChainMonitor} {times : List Int}
    (hkept : m.detectedAt = newest MAX_RECENT_FORKS times) (hclock : times.Pairwise (· ≤ ·))
    (now windowMs : Int) :
    m.countForksSince now windowMs
      = min MAX_RECENT_FORKS (times.countP fun t => now - windowMs ≤ t) := by
  unfold ChainMonitor.countForksSince
  unfold newest at hkept
  rw [hkept, ← List.take_reverse, ← List.take_takeWhile, List.length_take,
    length_takeWhile_of_descending (List.pairwise_reverse.mpr hclock), List.countP_reverse]

/-! ## The status -/

/-- The heads for the handlers. -/
def headsHanded (config : MonitorConfig) (arrivals : List Arrival) : List Event :=
  (headsHeard config arrivals).filterMap Heard.event?

theorem filterMap_heads {β : Type} {f : Event → Option β}
    (hf : ∀ e, isHead e = false → f e = none) (evs : List Event) :
    (evs.filter isHead).filterMap f = evs.filterMap f := by
  rw [List.filterMap_filter]
  congr 1
  funext e
  cases hhead : isHead e with
  | true => rfl
  | false => exact (hf e hhead).symm

/-- The status says what was heard. -/
structure StatusFaithful (config : MonitorConfig) (arrivals : List Arrival) (now : Int)
    (s : ChainMonitor.Status) : Prop where
  finalizedHeight : s.finalizedHeight
    = highest ((headsHanded config arrivals).filterMap finalizedNumber)
  bestHeight : OneNumber (headsHanded config arrivals) →
    s.bestHeight = highest ((headsHanded config arrivals).filterMap importedNumber)
  forkCount : s.forkCount = (fed config forkTimes arrivals).length
  /-- While the clock does not go back. -/
  forksLastHour : (fed config forkTimes arrivals).Pairwise (· ≤ ·) →
    s.forksLastHour = min MAX_RECENT_FORKS
      ((fed config forkTimes arrivals).countP fun t => now - ChainMonitor.HOUR ≤ t)
  nodes : s.nodes.map ChainMonitor.NodeStatus.name = config.nodes
  heads : ∀ node ∈ s.nodes,
    node.bestHead = latestOf (bestOf node.name)
      ((headsHeard config arrivals).filterMap Heard.headEvent?) ∧
    node.finalizedHead = latestOf (finalizedOf node.name)
      ((headsHeard config arrivals).filterMap Heard.headEvent?)

theorem statusFaithful_run (config : MonitorConfig) (arrivals : List Arrival) (now : Int)
    (up : Nat → Bool) :
    StatusFaithful config arrivals now
      (((monitorMachine config).run arrivals).getStatus now up) where
  finalizedHeight := by
    obtain ⟨nodes, hctx⟩ := (partsAlone_run config arrivals).chain
    change ((monitorMachine config).run arrivals).ctx.blockTree.finalizedHeight = _
    rw [hctx]
    -- the chain was alone with its feed, and the heads in that feed are those heard
    refine (finalizedHeight_run config.chain config.opts _).trans ?_
    unfold headsHanded
    rw [← (headsShared_run config arrivals).handlers, filterMap_heads]
    intro e hhead
    cases e with
    | finalizedHeads => exact absurd hhead (by simp [isHead])
    | _ => rfl
  bestHeight := by
    intro hone
    obtain ⟨nodes, hctx⟩ := (partsAlone_run config arrivals).chain
    change ((monitorMachine config).run arrivals).ctx.blockTree.bestHeight = _
    rw [hctx]
    unfold headsHanded at hone ⊢
    rw [← (headsShared_run config arrivals).handlers] at hone ⊢
    have hone' : OneNumber (fed config (chainFeed config) arrivals) :=
      fun node header node' header' h h' => hone node header node' header'
        (List.mem_filter.mpr ⟨h, rfl⟩) (List.mem_filter.mpr ⟨h', rfl⟩)
    refine (bestHeight_run config.chain config.opts hone').trans ?_
    rw [filterMap_heads]
    intro e hhead
    cases e with
    | allHeads => exact absurd hhead (by simp [isHead])
    | _ => rfl
  forkCount := (forkTimes_run config arrivals).1
  forksLastHour hclock := countForksSince_eq (forkTimes_run config arrivals).2 hclock now _
  nodes := by
    change (((monitorMachine config).run arrivals).config.nodes.map _).map _ = _
    rw [config_run, List.map_map]
    exact List.map_id _
  heads := by
    intro node hnode
    obtain ⟨name, -, rfl⟩ := List.mem_map.mp hnode
    have hshown := (headsShared_run config arrivals).shown name
    exact ⟨hshown.bestHeads, hshown.finalizedHeads⟩

/-- **The status of a chain is an account of the heads it heard.** -/
theorem status_faithful (config : ProgramConfig) (evs : List ProgramEvent) (name : ChainName)
    (now : Int) (up : Nat → Bool) :
    Option.Rel (fun m cfg =>
        StatusFaithful cfg (arrivalsIn config evs name) now (m.getStatus now up))
      (((Program.machine config).run evs).chains.get? name)
      ((OrdMap.ofList config.chains).get? name) :=
  chains_rel config evs name fun cfg => statusFaithful_run cfg _ now up

end ForkWatch.Proof
