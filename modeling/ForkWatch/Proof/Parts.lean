import ForkWatch.Chain.Program
import ForkWatch.Proof.Asking

/-!
# The parts of the program

The connections of a chain, its handlers, its finality tracker and its slot tracker are
each shown to be right on their own, under whatever may reach them. In the program they
run together, next to other chains and to the poll timer, and what reaches one may come
from another. `parts_alone`: in every run of the program, each part of each chain is where
it would be had it been alone with what reached it.

What reaches a part is a transcript of the run. The heads are the same for all parts of a
chain: those that were heard over subscriptions which were live.
-/

namespace ForkWatch.Proof

open Lib

/-! ## A chain in the program -/

/-- What reaches a chain. -/
inductive Arrival where
  | event (e : MonitorEvent)
  | setupCausation

def arrive (m : ChainMonitor) : Arrival → ChainMonitor
  | .event e => m.step e
  | .setupCausation => m.chainEvent .setupCausation

def monitorMachine (config : MonitorConfig) : Machine ChainMonitor Arrival where
  init := (ChainMonitor.machine config).init
  step := arrive

/-- What of a step of the program reaches the chain of this name. -/
def arrivalsAt (name : ChainName) (p : Program) : ProgramEvent → List Arrival
  | .chain other e => if other = name then [.event e] else []
  | .setupCausation =>
      match p.chains.get? name with
      | none => []
      | some m =>
          if m.config.consensus = .aura ∧ (p.relayOf name).isSome then [.setupCausation] else []
  | _ => []

/-- A name that is not configured stays without a chain. -/
theorem unconfigured_step {p : Program} {name : ChainName} (h : p.chains.get? name = none)
    (e : ProgramEvent) : (p.step e).chains.get? name = none := by
  cases e with
  | chain other e =>
      change (p.onChain other e).chains.get? name = none
      unfold Program.onChain
      cases hother : p.chains.get? other with
      | none => exact h
      | some m =>
          refine (OrdMap.get?_set_ne _ _ fun heq => ?_).trans h
          rw [heq, hother] at h
          exact absurd h (by simp)
  | setupCausation =>
      have hall := OrdMap.get?_foldl_modify (fun name (m : ChainMonitor) =>
        if m.config.consensus = .aura ∧ (p.relayOf name).isSome then m.chainEvent .setupCausation
        else m) p.chains.keys_nodup p.chains name
      rw [h] at hall
      exact hall
  | takesEffect k now pick =>
      rcases p.takesEffect_cases k now pick with heq | ⟨q, -, heq⟩
      · rw [heq]
        exact h
      · rw [heq]
        exact h
  | fails => exact h
  | cleanup => exact h

/-- **A chain of the program is a chain.** -/
theorem monitor_of_program (config : ProgramConfig) {name : ChainName} {cfg : MonitorConfig}
    (hcfg : (OrdMap.ofList config.chains).get? name = some cfg) :
    Component (Program.machine config) (monitorMachine cfg)
      (fun p m => p.chains.get? name = some m) (arrivalsAt name) where
  init := by
    have hmap := OrdMap.get?_ofList_map (fun cfg => (ChainMonitor.machine cfg).init) config.chains
      name
    rw [hcfg] at hmap
    exact hmap
  step := by
    intro p m e h
    cases e with
    | chain other e =>
        change (p.onChain other e).chains.get? name
          = some ((monitorMachine cfg).runFrom m (if other = name then [.event e] else []))
        unfold Program.onChain
        by_cases hname : other = name
        · subst hname
          rw [h, if_pos rfl]
          exact OrdMap.get?_set_self ..
        · rw [if_neg hname]
          cases p.chains.get? other with
          | none => exact h
          | some m' => exact (OrdMap.get?_set_ne _ _ fun heq => hname heq.symm).trans h
    | setupCausation =>
        have hkey : name ∈ p.chains.keys := OrdMap.mem_keys_iff.mpr ⟨m, h⟩
        have hall := OrdMap.get?_foldl_modify (fun name (m : ChainMonitor) =>
          if m.config.consensus = .aura ∧ (p.relayOf name).isSome then m.chainEvent .setupCausation
          else m) p.chains.keys_nodup p.chains name
        refine hall.trans ?_
        unfold arrivalsAt
        rw [h]
        simp only [Option.map_some, if_pos hkey]
        split
        · rfl
        · rfl
    | takesEffect k now pick =>
        change (p.step (.takesEffect k now pick)).chains.get? name = some m
        rcases p.takesEffect_cases k now pick with heq | ⟨q, -, heq⟩
        · rw [heq]
          exact h
        · rw [heq]
          exact h
    | fails => exact h
    | cleanup => exact h

/-! ## What reaches the parts of a chain -/

/-- A head that was heard, and the time. -/
inductive Heard where
  | allHeads (node : NodeName) (header : Header)
  | newHeads (node : NodeName) (number : Nat)
  | finalizedHeads (now : Int) (node : NodeName) (api : SlotApi) (header : SlotHeader)

/-- A head is heard from its node while the subscription is live. -/
def heardOf (m : ChainMonitor) (e : MonitorEvent) : Option Heard :=
  match e.what with
  | .allHeads place header => (m.hears place .allHeads).map fun node => .allHeads node header
  | .newHeads place number => (m.hears place .newHeads).map fun node => .newHeads node number
  | .finalizedHeads place api header =>
      (m.hears place .finalizedHeads).map fun node => .finalizedHeads e.now node api header
  | _ => none

/-- The connections are told of every head that was heard. -/
def linkFeed (m : ChainMonitor) : Arrival → List ConnectionEvent
  | .setupCausation => []
  | .event e =>
      match e.what with
      | .connection (.head ..) => []
      | .connection e => [e]
      | .allHeads place _ => ((m.hears place .allHeads).map fun _ => .head place .allHeads).toList
      | .newHeads place _ => ((m.hears place .newHeads).map fun _ => .head place .newHeads).toList
      | .finalizedHeads place .. =>
          ((m.hears place .finalizedHeads).map fun _ => .head place .finalizedHeads).toList
      | _ => []

/-- What goes on in the handlers of a chain, besides heads and polls. -/
def handles : Event → Bool
  | .resume .. | .retryTick _ | .resubmitSettled .. | .identities _ => true
  | _ => false

/-- The handlers and the poll timer, which see the connections anew at every event. -/
def pollFeed (m : ChainMonitor) : Arrival → List PollEvent
  | .setupCausation => [.chain .setupCausation]
  | .event e =>
      .chain (.connections (m.connectedNodes e.up)) ::
        match heardOf m e, e.what with
        | some (.allHeads node header), _ => [.chain (.allHeads node header)]
        | some (.finalizedHeads _ node _ header), _ =>
            [.chain (.finalizedHeads node header.number header.hash)]
        | _, .handler e => if handles e then [.chain e] else []
        | _, .pollTick => [.tick e.now (m.pollConnections e.up)]
        | _, .pollAnswered call answer => [.answered call answer]
        | _, _ => []

/-- The heads the finality tracker gets. -/
def headFeed (m : ChainMonitor) : Arrival → List HeadEvent
  | .setupCausation => []
  | .event e =>
      match heardOf m e with
      | some (.newHeads node number) => [.newHead node number]
      | some (.finalizedHeads now node _ header) => [.finalizedHead node header.number now]
      | _ => []

/-- A call of the slot tracker whose turn has come, or another authorities list. -/
inductive SlotTurn where
  | header (roster : SlotTracker.Roster) (delivery : SlotTracker.Delivery)
  | authorities (l : Option (List Address))

def slotTurn (t : SlotTracker) : SlotTurn → SlotTracker
  | .header roster d => (t.holding roster).onFinalizedHeader d.api d.header d.lastFinalizedNumber
  | .authorities l => t.refreshAuthorities l

def slotMachine : Machine SlotTracker SlotTurn where
  init := {}
  step := slotTurn

def slotFeed (m : ChainMonitor) : Arrival → List SlotTurn
  | .setupCausation => []
  | .event e =>
      match e.what with
      | .slotTurn =>
          match m.slotTracker, m.slotQueue with
          | some t, d :: _ => [.header (m.roster t) d]
          | _, _ => []
      | .authorities l => [.authorities l]
      | _ => []

/-- The tracker of an aura chain. -/
def trackerOf (config : MonitorConfig) (t : SlotTracker) : Option SlotTracker :=
  if config.consensus = .aura then some t else none

/-! ## What a step of a chain does -/

/-- A chain whose handlers have been told which nodes are connected. -/
def withConnections (m : ChainMonitor) (up : Nat → Bool) : ChainMonitor :=
  m.chainEvent (.connections (m.connectedNodes up))

section Steps

variable (m : ChainMonitor) (now : Int) (up : Nat → Bool) (place : Place)

theorem step_allHeads (header : Header) :
    m.step ⟨now, up, .allHeads place header⟩ =
      match m.hears place .allHeads with
      | none => withConnections m up
      | some node =>
          let polled := (withConnections m up).polled.step (.chain (.allHeads node header))
          { withConnections m up with
            links := m.links.step (.head place .allHeads)
            polled
            detectedAt :=
              if m.ctx.forkDetector.totalForkCount < polled.ctx.forkDetector.totalForkCount then
                SlotTracker.pushBounded MAX_RECENT_FORKS m.detectedAt now
              else m.detectedAt } := by
  change (withConnections m up).onAllHeads now place header = _
  have hhears : (withConnections m up).hears place .allHeads = m.hears place .allHeads := rfl
  unfold ChainMonitor.onAllHeads
  rw [hhears]
  cases m.hears place .allHeads with
  | none => rfl
  | some node =>
      unfold ChainMonitor.noteDetection
      dsimp only
      by_cases hlt : m.ctx.forkDetector.totalForkCount
          < ((withConnections m up).polled.step
            (.chain (.allHeads node header))).ctx.forkDetector.totalForkCount
      · rw [if_pos hlt]
        exact if_pos hlt
      · rw [if_neg hlt]
        exact if_neg hlt

theorem step_newHeads (number : Nat) :
    m.step ⟨now, up, .newHeads place number⟩ =
      match m.hears place .newHeads with
      | none => withConnections m up
      | some node =>
          { withConnections m up with
            links := m.links.step (.head place .newHeads)
            finalityTracker := m.finalityTracker.onBestHead node number } := by
  change (withConnections m up).onNewHeads place number = _
  have hhears : (withConnections m up).hears place .newHeads = m.hears place .newHeads := rfl
  unfold ChainMonitor.onNewHeads
  rw [hhears]
  cases m.hears place .newHeads with
  | none => rfl
  | some node => rfl

/-- What is handed to the slot tracker with a finalized head. -/
def deliveryOf (m : ChainMonitor) (api : SlotApi) (header : SlotHeader) : SlotTracker.Delivery where
  api := api
  header := header
  lastFinalizedNumber := nonzero (some m.ctx.blockTree.finalizedHeight)

theorem step_finalizedHeads (api : SlotApi) (header : SlotHeader) :
    m.step ⟨now, up, .finalizedHeads place api header⟩ =
      match m.hears place .finalizedHeads with
      | none => withConnections m up
      | some node =>
          { withConnections m up with
            links := m.links.step (.head place .finalizedHeads)
            polled := (withConnections m up).polled.step
              (.chain (.finalizedHeads node header.number header.hash))
            finalityTracker := m.finalityTracker.onFinalizedHead node header.number now
            slotQueue :=
              if m.slotTracker.isSome && m.first node then m.slotQueue ++ [deliveryOf m api header]
              else m.slotQueue } := by
  change (withConnections m up).onFinalizedHeads now place api header = _
  have hhears : (withConnections m up).hears place .finalizedHeads
      = m.hears place .finalizedHeads := rfl
  unfold ChainMonitor.onFinalizedHeads
  rw [hhears]
  cases m.hears place .finalizedHeads with
  | none => rfl
  | some node => rfl

theorem step_handler (e : Event) :
    m.step ⟨now, up, .handler e⟩ =
      if handles e then (withConnections m up).chainEvent e else withConnections m up := by
  cases e with
  | _ => rfl

theorem step_slotTurn :
    m.step ⟨now, up, .slotTurn⟩ =
      match m.slotTracker, m.slotQueue with
      | some t, d :: rest =>
          { withConnections m up with
            slotTracker := some (slotTurn t (.header (m.roster t) d))
            slotQueue := rest }
      | _, _ => withConnections m up := by
  change ChainMonitor.slotTurn (withConnections m up) = _
  have htracker : (withConnections m up).slotTracker = m.slotTracker := rfl
  have hqueue : (withConnections m up).slotQueue = m.slotQueue := rfl
  unfold ChainMonitor.slotTurn
  rw [htracker, hqueue]
  cases m.slotTracker with
  | none => rfl
  | some t =>
      cases m.slotQueue with
      | nil => rfl
      | cons d rest => rfl

end Steps

/-! ## The parts of a chain -/

variable (config : MonitorConfig)

theorem links_of_monitor : Component (monitorMachine config) (Connections.machine config.nodes)
    (fun m links => m.links = links) linkFeed where
  init := rfl
  step := by
    intro m links arrival h
    subst h
    cases arrival with
    | setupCausation => rfl
    | event e =>
        obtain ⟨now, up, what⟩ := e
        change (m.step ⟨now, up, what⟩).links = _
        unfold linkFeed
        cases what with
        | connection e =>
            cases e with
            | _ => rfl
        | allHeads place header =>
            rw [step_allHeads]
            dsimp only
            cases m.hears place .allHeads with
            | none => rfl
            | some node => rfl
        | newHeads place number =>
            rw [step_newHeads]
            dsimp only
            cases m.hears place .newHeads with
            | none => rfl
            | some node => rfl
        | finalizedHeads place api header =>
            rw [step_finalizedHeads]
            dsimp only
            cases m.hears place .finalizedHeads with
            | none => rfl
            | some node => rfl
        | handler e =>
            rw [step_handler]
            split
            · rfl
            · rfl
        | slotTurn =>
            rw [step_slotTurn]
            split
            · rfl
            · rfl
        | pollTick => rfl
        | pollAnswered => rfl
        | authorities => rfl

theorem polled_of_monitor :
    Component (monitorMachine config) (PolledChain.machine config.chain config.opts)
      (fun m polled => m.polled = polled) pollFeed where
  init := rfl
  step := by
    intro m polled arrival h
    subst h
    cases arrival with
    | setupCausation => rfl
    | event e =>
        obtain ⟨now, up, what⟩ := e
        change (m.step ⟨now, up, what⟩).polled = _
        unfold pollFeed heardOf
        cases what with
        | connection e =>
            cases e with
            | _ => rfl
        | allHeads place header =>
            rw [step_allHeads]
            dsimp only
            cases m.hears place .allHeads with
            | none => rfl
            | some node => rfl
        | newHeads place number =>
            rw [step_newHeads]
            dsimp only
            cases m.hears place .newHeads with
            | none => rfl
            | some node => rfl
        | finalizedHeads place api header =>
            rw [step_finalizedHeads]
            dsimp only
            cases m.hears place .finalizedHeads with
            | none => rfl
            | some node => rfl
        | handler e =>
            rw [step_handler]
            dsimp only
            split
            · rfl
            · rfl
        | slotTurn =>
            rw [step_slotTurn]
            split
            · rfl
            · rfl
        | pollTick => rfl
        | pollAnswered => rfl
        | authorities => rfl

/-- What of this reaches the handlers. -/
def chainFeed (m : ChainMonitor) (arrival : Arrival) : List Event :=
  (PolledChain.machine config.chain config.opts).transcript eventsOfPoll m.polled
    (pollFeed m arrival)

theorem chain_of_monitor :
    Component (monitorMachine config) (ChainContext.machine config.chain config.opts)
      (fun m c => Asked m.polled c) (chainFeed config) :=
  (polled_of_monitor config).comp (chain_of_polled config.chain config.opts)

theorem finality_of_monitor :
    Component (monitorMachine config) (FinalityTracker.machine config.finalityLog)
      (fun m t => m.finalityTracker = t) headFeed where
  init := rfl
  step := by
    intro m t arrival h
    subst h
    cases arrival with
    | setupCausation => rfl
    | event e =>
        obtain ⟨now, up, what⟩ := e
        change (m.step ⟨now, up, what⟩).finalityTracker = _
        unfold headFeed heardOf
        cases what with
        | connection e =>
            cases e with
            | _ => rfl
        | allHeads place header =>
            rw [step_allHeads]
            dsimp only
            cases m.hears place .allHeads with
            | none => rfl
            | some node => rfl
        | newHeads place number =>
            rw [step_newHeads]
            dsimp only
            cases m.hears place .newHeads with
            | none => rfl
            | some node => rfl
        | finalizedHeads place api header =>
            rw [step_finalizedHeads]
            dsimp only
            cases m.hears place .finalizedHeads with
            | none => rfl
            | some node => rfl
        | handler e =>
            rw [step_handler]
            split
            · rfl
            · rfl
        | slotTurn =>
            rw [step_slotTurn]
            split
            · rfl
            · rfl
        | pollTick => rfl
        | pollAnswered => rfl
        | authorities => rfl

theorem slots_of_monitor : Component (monitorMachine config) slotMachine
    (fun m t => m.slotTracker = trackerOf config t) slotFeed where
  init := rfl
  step := by
    intro m t arrival h
    cases arrival with
    | setupCausation => exact h
    | event e =>
        obtain ⟨now, up, what⟩ := e
        change (m.step ⟨now, up, what⟩).slotTracker = _
        unfold slotFeed
        cases what with
        | connection e =>
            cases e with
            | _ => exact h
        | allHeads place header =>
            rw [step_allHeads]
            cases m.hears place .allHeads with
            | none => exact h
            | some node => exact h
        | newHeads place number =>
            rw [step_newHeads]
            cases m.hears place .newHeads with
            | none => exact h
            | some node => exact h
        | finalizedHeads place api header =>
            rw [step_finalizedHeads]
            cases m.hears place .finalizedHeads with
            | none => exact h
            | some node => exact h
        | handler e =>
            rw [step_handler]
            split
            · exact h
            · exact h
        | slotTurn =>
            rw [step_slotTurn, h]
            by_cases haura : config.consensus = .aura
            · have hsome : ∀ t, trackerOf config t = some t := fun t => if_pos haura
              rw [hsome t, hsome]
              cases m.slotQueue with
              | nil => exact h.trans (hsome t)
              | cons d rest => rfl
            · have hnone : ∀ t, trackerOf config t = none := fun t => if_neg haura
              rw [hnone t, hnone]
              exact h.trans (hnone t)
        | authorities l =>
            change Option.map _ m.slotTracker = _
            rw [h]
            unfold trackerOf
            split
            · rfl
            · rfl
        | pollTick => exact h
        | pollAnswered => exact h

/-- The finalized heads for the slot tracker: those of the node that is listed first. -/
def deliveryFeed (m : ChainMonitor) : Arrival → List SlotTracker.Delivery
  | .setupCausation => []
  | .event e =>
      match heardOf m e with
      | some (.finalizedHeads _ node api header) =>
          if config.consensus = .aura ∧ m.first node = true then [deliveryOf m api header] else []
      | _ => []

def SlotTurn.delivery? : SlotTurn → Option SlotTracker.Delivery
  | .header _ d => some d
  | .authorities _ => none

theorem slotQueue_arrive {m : ChainMonitor}
    (haura : m.slotTracker.isSome = decide (config.consensus = .aura)) (arrival : Arrival) :
    (slotFeed m arrival).filterMap SlotTurn.delivery? ++ (arrive m arrival).slotQueue
      = m.slotQueue ++ deliveryFeed config m arrival := by
  cases arrival with
  | setupCausation => exact (List.append_nil _).symm
  | event e =>
      obtain ⟨now, up, what⟩ := e
      change _ ++ (m.step ⟨now, up, what⟩).slotQueue = _
      unfold slotFeed deliveryFeed heardOf
      cases what with
      | connection e =>
          cases e with
          | _ => exact (List.append_nil _).symm
      | allHeads place header =>
          rw [step_allHeads]
          dsimp only
          cases m.hears place .allHeads with
          | none => exact (List.append_nil _).symm
          | some node => exact (List.append_nil _).symm
      | newHeads place number =>
          rw [step_newHeads]
          dsimp only
          cases m.hears place .newHeads with
          | none => exact (List.append_nil _).symm
          | some node => exact (List.append_nil _).symm
      | finalizedHeads place api header =>
          rw [step_finalizedHeads]
          dsimp only
          cases m.hears place .finalizedHeads with
          | none => exact (List.append_nil _).symm
          | some node =>
              dsimp only [Option.map_some]
              rw [haura]
              by_cases hfeed : config.consensus = .aura ∧ m.first node = true
              · rw [if_pos hfeed, if_pos (by simpa using hfeed)]
                rfl
              · rw [if_neg hfeed, if_neg (by simpa using hfeed)]
                exact (List.append_nil _).symm
      | handler e =>
          rw [step_handler]
          cases handles e with
          | true => exact (List.append_nil _).symm
          | false => exact (List.append_nil _).symm
      | slotTurn =>
          rw [step_slotTurn]
          dsimp only
          cases m.slotTracker with
          | none => exact (List.append_nil _).symm
          | some t =>
              cases hqueue : m.slotQueue with
              | nil =>
                  change (withConnections m up).slotQueue = _
                  exact hqueue
              | cons d rest => exact (List.append_nil _).symm
      | pollTick => exact (List.append_nil _).symm
      | pollAnswered => exact (List.append_nil _).symm
      | authorities => exact (List.append_nil _).symm

/-! ## All of them -/

/-- What reached a part, in order. -/
def fed {α : Type} (feed : ChainMonitor → Arrival → List α) (arrivals : List Arrival) : List α :=
  (monitorMachine config).transcript feed (monitorMachine config).init arrivals

/-- Each part is where it would be had it been alone. -/
structure PartsAlone (arrivals : List Arrival) (m : ChainMonitor) : Prop where
  links : m.links = (Connections.machine config.nodes).run (fed config linkFeed arrivals)
  polled : m.polled
    = (PolledChain.machine config.chain config.opts).run (fed config pollFeed arrivals)
  /-- Which nodes reject the poll is the timer's matter. -/
  chain : ∃ nodes, m.ctx = askedOf nodes
    ((ChainContext.machine config.chain config.opts).run (fed config (chainFeed config) arrivals))
  finality : m.finalityTracker
    = (FinalityTracker.machine config.finalityLog).run (fed config headFeed arrivals)
  slots : m.slotTracker = trackerOf config (slotMachine.run (fed config slotFeed arrivals))
  /-- The calls of the slot tracker take their turn in order, and none is lost. -/
  queue : (fed config slotFeed arrivals).filterMap SlotTurn.delivery? ++ m.slotQueue
    = fed config (deliveryFeed config) arrivals

theorem isSome_trackerOf (t : SlotTracker) :
    (trackerOf config t).isSome = decide (config.consensus = .aura) := by
  unfold trackerOf
  split
  · rename_i haura
    exact (decide_eq_true haura).symm
  · rename_i haura
    exact (decide_eq_false haura).symm

theorem slotQueue_run (arrivals : List Arrival) :
    (fed config slotFeed arrivals).filterMap SlotTurn.delivery?
        ++ ((monitorMachine config).run arrivals).slotQueue
      = fed config (deliveryFeed config) arrivals := by
  induction arrivals using List.reverseRecOn with
  | nil => rfl
  | append_singleton arrivals arrival ih =>
      have haura := congrArg Option.isSome ((slots_of_monitor config).run arrivals)
      rw [isSome_trackerOf] at haura
      unfold fed at ih ⊢
      rw [Machine.run_snoc, Machine.transcript_snoc, Machine.transcript_snoc, List.filterMap_append,
        List.append_assoc, ← ih, List.append_assoc]
      exact congrArg _ (slotQueue_arrive config haura arrival)

theorem partsAlone_run (arrivals : List Arrival) :
    PartsAlone config arrivals ((monitorMachine config).run arrivals) where
  links := (links_of_monitor config).run arrivals
  polled := (polled_of_monitor config).run arrivals
  chain := (chain_of_monitor config).run arrivals
  finality := (finality_of_monitor config).run arrivals
  slots := (slots_of_monitor config).run arrivals
  queue := slotQueue_run config arrivals

/-- What reached the chain of this name in a run of the program. -/
def arrivalsIn (config : ProgramConfig) (evs : List ProgramEvent) (name : ChainName) :
    List Arrival :=
  (Program.machine config).transcript (arrivalsAt name) (Program.machine config).init evs

/-- The chains of a program are the configured ones, each with what reached it. -/
theorem chains_run (config : ProgramConfig) (evs : List ProgramEvent) (name : ChainName) :
    ((Program.machine config).run evs).chains.get? name
      = ((OrdMap.ofList config.chains).get? name).map fun cfg =>
          (monitorMachine cfg).run (arrivalsIn config evs name) := by
  cases hcfg : (OrdMap.ofList config.chains).get? name with
  | some cfg => exact (monitor_of_program config hcfg).run evs
  | none =>
      have hinit : (Program.machine config).init.chains.get? name = none := by
        have hmap := OrdMap.get?_ofList_map (fun cfg => (ChainMonitor.machine cfg).init)
          config.chains name
        rw [hcfg] at hmap
        exact hmap
      exact Machine.run_invariant (A := fun _ => True)
        (I := fun p : Program => p.chains.get? name = none) hinit
        (fun p e h _ => unconfigured_step h e) fun _ _ => trivial

/-- What holds of all runs of a chain holds in the program. -/
theorem chains_rel (config : ProgramConfig) (evs : List ProgramEvent) (name : ChainName)
    {P : ChainMonitor → MonitorConfig → Prop}
    (h : ∀ cfg, P ((monitorMachine cfg).run (arrivalsIn config evs name)) cfg) :
    Option.Rel P (((Program.machine config).run evs).chains.get? name)
      ((OrdMap.ofList config.chains).get? name) := by
  rw [chains_run]
  cases (OrdMap.ofList config.chains).get? name with
  | none => exact .none
  | some cfg => exact .some (h cfg)

/-- **In the program, every part of every chain is where it would be alone.** The chains
are the configured ones. -/
theorem parts_alone (config : ProgramConfig) (evs : List ProgramEvent) (name : ChainName) :
    Option.Rel (fun m cfg => PartsAlone cfg (arrivalsIn config evs name) m)
      (((Program.machine config).run evs).chains.get? name)
      ((OrdMap.ofList config.chains).get? name) :=
  chains_rel config evs name fun cfg => partsAlone_run cfg _

end ForkWatch.Proof
