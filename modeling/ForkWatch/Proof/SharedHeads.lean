import ForkWatch.Proof.FinalityLog
import ForkWatch.Proof.Parts
import ForkWatch.Proof.Recovery

/-!
# The heads the parts share

The parts of a chain run next to each other, on the same heads. `heads_shared`: in every
run of the program, the heads of a chain come from its configured nodes, each of which is
connected or awaited; the handlers get them as they were heard; the finality tracker shows
the latest of every node; and the headers of the slot tracker are among the finalized
ones, in their order.

Each part has a feed of its own. That they are feeds of the same heads is said of one
arrival, and holds of the run because transcripts are taken step by step.
-/

namespace ForkWatch.Proof

open Lib

/-! ## What a head is for a part -/

def heardIn (m : ChainMonitor) : Arrival → List Heard
  | .setupCausation => []
  | .event e => (heardOf m e).toList

def Heard.node : Heard → NodeName
  | .allHeads node _ => node
  | .newHeads node _ => node
  | .finalizedHeads _ node .. => node

/-- For the handlers. -/
def Heard.event? : Heard → Option Event
  | .allHeads node header => some (.allHeads node header)
  | .newHeads .. => none
  | .finalizedHeads _ node _ header => some (.finalizedHeads node header.number header.hash)

/-- For the finality tracker. -/
def Heard.headEvent? : Heard → Option HeadEvent
  | .allHeads .. => none
  | .newHeads node number => some (.newHead node number)
  | .finalizedHeads now node _ header => some (.finalizedHead node header.number now)

/-- For the slot tracker. -/
def Heard.finalized? : Heard → Option SlotHeader
  | .finalizedHeads _ _ _ header => some header
  | _ => none

def isHead : Event → Bool
  | .allHeads .. | .finalizedHeads .. => true
  | _ => false

theorem headFeed_eq (m : ChainMonitor) (arrival : Arrival) :
    headFeed m arrival = (heardIn m arrival).filterMap Heard.headEvent? := by
  cases arrival with
  | setupCausation => rfl
  | event e =>
      unfold headFeed heardIn
      dsimp only
      cases heardOf m e with
      | none => rfl
      | some heard =>
          cases heard with
          | _ => rfl

/-- The head a poll event brings to the handlers. -/
def headOfPoll : PollEvent → Option Event
  | .chain e => if isHead e then some e else none
  | _ => none

theorem pollFeed_heads (m : ChainMonitor) (arrival : Arrival) :
    (pollFeed m arrival).filterMap headOfPoll
      = (heardIn m arrival).filterMap Heard.event? := by
  cases arrival with
  | setupCausation => rfl
  | event e =>
      obtain ⟨now, up, what⟩ := e
      unfold pollFeed heardIn
      dsimp only
      -- what is not a head brings none
      have hother : ∀ e : Event,
          (if handles e then [PollEvent.chain e] else []).filterMap headOfPoll = [] := by
        intro e
        cases e with
        | _ => rfl
      generalize heardOf m ⟨now, up, what⟩ = heard
      cases heard with
      | none =>
          cases what with
          | handler e => exact hother e
          | _ => rfl
      | some heard =>
          cases heard with
          | allHeads => rfl
          | finalizedHeads => rfl
          | newHeads =>
              cases what with
              | handler e => exact hother e
              | _ => rfl

section Feeds

variable (config : MonitorConfig)

/-- Polls and their answers are no heads. -/
theorem heads_of_polls (p : PolledChain) (es : List PollEvent) :
    ((PolledChain.machine config.chain config.opts).transcript eventsOfPoll p es).filter isHead
      = es.filterMap headOfPoll := by
  induction es generalizing p with
  | nil => rfl
  | cons e es ih =>
      rw [Machine.transcript, List.filter_append, ih]
      cases e with
      | chain e =>
          cases e with
          | _ => rfl
      | tick => rfl
      | answered call answer =>
          unfold eventsOfPoll
          dsimp only
          cases p.calls[call]? with
          | none => rfl
          | some node => rfl

theorem chainFeed_heads (m : ChainMonitor) (arrival : Arrival) :
    (chainFeed config m arrival).filter isHead
      = (heardIn m arrival).filterMap Heard.event? := by
  unfold chainFeed
  rw [heads_of_polls, pollFeed_heads]

theorem deliveryFeed_sublist (m : ChainMonitor) (arrival : Arrival) :
    ((deliveryFeed config m arrival).map SlotTracker.Delivery.header).Sublist
      ((heardIn m arrival).filterMap Heard.finalized?) := by
  cases arrival with
  | setupCausation => exact List.Sublist.refl _
  | event e =>
      unfold deliveryFeed heardIn
      dsimp only
      cases heardOf m e with
      | none => exact List.Sublist.refl _
      | some heard =>
          cases heard with
          | allHeads => exact List.Sublist.refl _
          | newHeads => exact List.Sublist.refl _
          | finalizedHeads now node api header =>
              dsimp only
              split
              · exact List.Sublist.refl _
              · exact List.nil_sublist _

/-! ## Where the heads come from -/

/-- Wherever a connection is held, its node is configured. -/
theorem Manned.place {nodes : List NodeName} {links : Connections} (h : Manned nodes links)
    {place : Place} {conn : NodeConnection} (hconn : links.at? place = some conn) :
    conn.nodeName ∈ nodes := by
  cases place with
  | listed i =>
      have hlisted : conn ∈ links.connections := List.mem_of_getElem? hconn
      exact (h.held _).mp (mem_holders.mpr (.inl (List.mem_map_of_mem hlisted)))
  | leaving i =>
      obtain ⟨call, hcall, hits⟩ := Option.bind_eq_some_iff.mp hconn
      have hawaited : call ∈ links.calls := List.mem_of_getElem? hcall
      rw [h.leaving call hawaited conn hits]
      exact (h.held _).mp (mem_holders.mpr (.inr (List.mem_map_of_mem hawaited)))
  | old i => exact h.old conn (List.mem_of_getElem? hconn)

theorem Manned.hears {nodes : List NodeName} {m : ChainMonitor} (h : Manned nodes m.links)
    {place : Place} {s : Subscription} {node : NodeName} (hnode : m.hears place s = some node) :
    node ∈ nodes := by
  unfold ChainMonitor.hears at hnode
  split at hnode
  · exact absurd hnode (by simp)
  · rename_i conn hconn
    split at hnode
    · rw [← Option.some.inj hnode]
      exact h.place hconn
    · exact absurd hnode (by simp)

theorem Manned.heard {nodes : List NodeName} {m : ChainMonitor} (h : Manned nodes m.links)
    {arrival : Arrival} {heard : Heard} (hheard : heard ∈ heardIn m arrival) :
    heard.node ∈ nodes := by
  cases arrival with
  | setupCausation => exact absurd hheard List.not_mem_nil
  | event e =>
      obtain ⟨now, up, what⟩ := e
      have hsome : heardOf m ⟨now, up, what⟩ = some heard := Option.mem_toList.mp hheard
      unfold heardOf at hsome
      cases what with
      | allHeads place header =>
          obtain ⟨node, hnode, rfl⟩ := Option.map_eq_some_iff.mp hsome
          exact h.hears hnode
      | newHeads place number =>
          obtain ⟨node, hnode, rfl⟩ := Option.map_eq_some_iff.mp hsome
          exact h.hears hnode
      | finalizedHeads place api header =>
          obtain ⟨node, hnode, rfl⟩ := Option.map_eq_some_iff.mp hsome
          exact h.hears hnode
      | _ => exact absurd hsome (by simp)

theorem manned_of_chain (arrivals : List Arrival) :
    Manned config.nodes ((monitorMachine config).run arrivals).links := by
  rw [(partsAlone_run config arrivals).links]
  exact manned_run config.nodes _

/-! ## The heads of a run -/

/-- The heads a chain heard, in order. -/
def headsHeard (arrivals : List Arrival) : List Heard := fed config heardIn arrivals

/-- The parts of a chain go by the same heads. -/
structure HeadsShared (arrivals : List Arrival) (m : ChainMonitor) : Prop where
  /-- The nodes that are connected or awaited are the configured ones. -/
  manned : ∀ node, node ∈ holders m.links ↔ node ∈ config.nodes
  nodes : ∀ heard ∈ headsHeard config arrivals, heard.node ∈ config.nodes
  handlers : (fed config (chainFeed config) arrivals).filter isHead
    = (headsHeard config arrivals).filterMap Heard.event?
  /-- The maps and gauges of the finality tracker. -/
  shown : ∀ node, ShowsHeads node
    (latestOf (bestOf node) ((headsHeard config arrivals).filterMap Heard.headEvent?))
    (latestOf (finalizedOf node) ((headsHeard config arrivals).filterMap Heard.headEvent?))
    m.finalityTracker
  slots : ((fed config (deliveryFeed config) arrivals).map SlotTracker.Delivery.header).Sublist
    ((headsHeard config arrivals).filterMap Heard.finalized?)

theorem headsShared_run (arrivals : List Arrival) :
    HeadsShared config arrivals ((monitorMachine config).run arrivals) where
  manned := (manned_of_chain config arrivals).held
  nodes := by
    intro heard hheard
    -- when it was heard, its connection was held for a configured node
    obtain ⟨earlier, arrival, -, hbrought⟩ := Machine.exists_of_mem_transcript hheard
    exact (manned_of_chain config earlier).heard hbrought
  handlers := by
    unfold headsHeard fed
    rw [← List.filterMap_eq_filter, Machine.transcript_filterMap, Machine.transcript_filterMap]
    -- step by step, the heads in the feed are those of the arrival
    congr 1
    funext m arrival
    rw [List.filterMap_eq_filter]
    exact chainFeed_heads config m arrival
  shown := by
    intro node
    have hfeed : fed config headFeed arrivals
        = (headsHeard config arrivals).filterMap Heard.headEvent? := by
      unfold headsHeard fed
      rw [Machine.transcript_filterMap]
      congr 1
      funext m arrival
      exact headFeed_eq m arrival
    rw [← hfeed, (partsAlone_run config arrivals).finality]
    exact shows_run config.finalityLog _ node
  slots := by
    unfold headsHeard fed
    rw [← List.filterMap_eq_map, Machine.transcript_filterMap, Machine.transcript_filterMap]
    refine Machine.transcript_sublist (fun m arrival => ?_) _ _
    rw [List.filterMap_eq_map]
    exact deliveryFeed_sublist config m arrival

end Feeds

/-- **In the program, the parts of every chain go by the same heads.** -/
theorem heads_shared (config : ProgramConfig) (evs : List ProgramEvent) (name : ChainName) :
    Option.Rel (fun m cfg => HeadsShared cfg (arrivalsIn config evs name) m)
      (((Program.machine config).run evs).chains.get? name)
      ((OrdMap.ofList config.chains).get? name) :=
  chains_rel config evs name fun cfg => headsShared_run cfg _

end ForkWatch.Proof
