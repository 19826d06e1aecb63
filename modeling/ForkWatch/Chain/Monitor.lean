import ForkWatch.Chain.Connections
import ForkWatch.Chain.Polling
import ForkWatch.Monitor.FinalityTracker
import ForkWatch.Monitor.SlotTracker

/-!
# A chain as a whole

`ChainContext` of `src/chain/manager.js` with all its parts: the connections, the
handlers of `ForkWatch.Chain.Context` with the poll timer around them, the finality
tracker, and the slot tracker of an aura chain with the queue of its calls.

A head arrives only through a subscription that is live, and the part of the node in an
event is taken by the connection: `Place` says which. What a provider says of its
connection may change at any time, so every event comes with what it says by then, and
with the time.

A call of the slot tracker is one step, as in `ForkWatch.Monitor.SlotTracker`; it sees
the names that are known when its turn comes. The transaction tracker is taken as
enabled. Of the ring buffer of forks the times are kept here. Left out is `node_connected`.
-/

namespace ForkWatch

open Lib

inductive Consensus where
  | aura
  | babe
  | unknown
  deriving DecidableEq

/-- An entry of the configured chains, with the settings of the program. -/
structure MonitorConfig where
  nodes : List NodeName
  consensus : Consensus := .unknown
  chain : ChainConfig := {}
  opts : TxOptions := {}
  /-- `FINALITY_LOG_INTERVAL`. -/
  finalityLog : Option Nat := none

structure ChainMonitor where
  config : MonitorConfig
  links : Connections
  polled : PolledChain
  finalityTracker : FinalityTracker
  slotTracker : Option SlotTracker
  /-- `_queue` of the slot tracker: the calls whose turn has not come. -/
  slotQueue : List SlotTracker.Delivery := []
  /-- `detected_at` of `recentForks`. -/
  detectedAt : List Int := []

inductive Happening where
  /-- All that connections do, but for the heads. -/
  | connection (e : ConnectionEvent)
  | allHeads (place : Place) (header : Header)
  | newHeads (place : Place) (number : Nat)
  | finalizedHeads (place : Place) (api : SlotApi) (header : SlotHeader)
  /-- A handler goes on, a retry timer fires, a name is cached. -/
  | handler (e : Event)
  | pollTick
  | pollAnswered (call : Nat) (answer : Option (List Extrinsic))
  /-- The next queued call of the slot tracker. -/
  | slotTurn
  /-- `refreshAuthorities`. -/
  | authorities (l : Option (List Address))

/-- What happens, when, and which listed connections have a connected provider by then. -/
structure MonitorEvent where
  now : Int
  up : Nat → Bool
  what : Happening

namespace ChainMonitor

def ctx (m : ChainMonitor) : ChainContext := m.polled.ctx

/-- The listed connections, with their `connected`. -/
def pollConnections (m : ChainMonitor) (up : Nat → Bool) : List PollConnection :=
  m.links.connections.mapIdx fun i conn => { nodeName := conn.nodeName, connected := up i }

/-- The nodes a resubmission goes to. -/
def connectedNodes (m : ChainMonitor) (up : Nat → Bool) : List NodeName :=
  ((m.pollConnections up).filter PollConnection.connected).map PollConnection.nodeName

/-- The node whose head is delivered, if the subscription is live. -/
def hears (m : ChainMonitor) (place : Place) (s : Subscription) : Option NodeName :=
  match m.links.at? place with
  | none => none
  | some conn => if s ∈ conn.live then some conn.nodeName else none

def chainEvent (m : ChainMonitor) (e : Event) : ChainMonitor :=
  { m with polled := m.polled.step (.chain e) }

/-- A fork that was just detected has its time put down; the ring buffer forgets. -/
def noteDetection (m m' : ChainMonitor) (now : Int) : ChainMonitor :=
  if m.ctx.forkDetector.totalForkCount < m'.ctx.forkDetector.totalForkCount then
    { m' with detectedAt := SlotTracker.pushBounded MAX_RECENT_FORKS m.detectedAt now }
  else m'

def onAllHeads (m : ChainMonitor) (now : Int) (place : Place) (header : Header) : ChainMonitor :=
  match m.hears place .allHeads with
  | none => m
  | some node =>
      m.noteDetection
        ({ m with links := m.links.step (.head place .allHeads) }.chainEvent (.allHeads node header))
        now

def onNewHeads (m : ChainMonitor) (place : Place) (number : Nat) : ChainMonitor :=
  match m.hears place .newHeads with
  | none => m
  | some node =>
      { m with
        links := m.links.step (.head place .newHeads)
        finalityTracker := m.finalityTracker.onBestHead node number }

/-- `this.connections[0]?.nodeName === nodeName`. -/
def first (m : ChainMonitor) (node : NodeName) : Bool :=
  m.links.connections.head?.any fun conn => conn.nodeName = node

/-- Only the node that is listed first drives the slot tracker. -/
def onFinalizedHeads (m : ChainMonitor) (now : Int) (place : Place) (api : SlotApi)
    (header : SlotHeader) : ChainMonitor :=
  match m.hears place .finalizedHeads with
  | none => m
  | some node =>
      let prevFinalizedHeight := m.ctx.blockTree.finalizedHeight
      let delivery : SlotTracker.Delivery :=
        { api, header, lastFinalizedNumber := nonzero (some prevFinalizedHeight) }
      { m with
        links := m.links.step (.head place .finalizedHeads)
        finalityTracker := m.finalityTracker.onFinalizedHead node header.number now
        slotQueue :=
          if m.slotTracker.isSome && m.first node then m.slotQueue ++ [delivery]
          else m.slotQueue }.chainEvent
        (.finalizedHeads node header.number header.hash)

/-- The names the slot tracker shows. -/
def roster (m : ChainMonitor) (t : SlotTracker) : SlotTracker.Roster where
  authorities := t.authorities
  resolveAuthorName := m.ctx.resolveAuthorName

def slotTurn (m : ChainMonitor) : ChainMonitor :=
  match m.slotTracker, m.slotQueue with
  | some t, d :: rest =>
      { m with
        slotTracker :=
          some ((t.holding (m.roster t)).onFinalizedHeader d.api d.header d.lastFinalizedNumber)
        slotQueue := rest }
  | _, _ => m

/-- Heads, polls, connections and the hook do not come this way. -/
def onHandler (m : ChainMonitor) (e : Event) : ChainMonitor :=
  match e with
  | .resume .. | .retryTick _ | .resubmitSettled .. | .identities _ => m.chainEvent e
  | .allHeads .. | .finalizedHeads .. | .poll .. | .connections _ | .setupCausation => m

def happen (m : ChainMonitor) (now : Int) (up : Nat → Bool) : Happening → ChainMonitor
  | .connection (.head ..) => m
  | .connection e => { m with links := m.links.step e }
  | .allHeads place header => m.onAllHeads now place header
  | .newHeads place number => m.onNewHeads place number
  | .finalizedHeads place api header => m.onFinalizedHeads now place api header
  | .handler e => m.onHandler e
  | .pollTick => { m with polled := m.polled.step (.tick now (m.pollConnections up)) }
  | .pollAnswered call answer => { m with polled := m.polled.step (.answered call answer) }
  | .slotTurn => m.slotTurn
  | .authorities l => { m with slotTracker := m.slotTracker.map (·.refreshAuthorities l) }

def step (m : ChainMonitor) (e : MonitorEvent) : ChainMonitor :=
  (m.chainEvent (.connections (m.connectedNodes e.up))).happen e.now e.up e.what

def machine (config : MonitorConfig) : Machine ChainMonitor MonitorEvent where
  init :=
    { config
      links := (Connections.machine config.nodes).init
      polled := (PolledChain.machine config.chain config.opts).init
      finalityTracker := (FinalityTracker.machine config.finalityLog).init
      slotTracker := if config.consensus = .aura then some {} else none }
  step := step

/-! ## The status -/

/-- `countForksSince`: from the newest on, up to the first that is older. -/
def countForksSince (m : ChainMonitor) (now windowMs : Int) : Nat :=
  (m.detectedAt.reverse.takeWhile fun t => !decide (t < now - windowMs)).length

structure NodeStatus where
  name : NodeName
  connected : Bool
  bestHead : Option Nat
  finalizedHead : Option Nat
  deriving DecidableEq

structure Status where
  bestHeight : Nat
  finalizedHeight : Nat
  forkCount : Nat
  forksLastHour : Nat
  missedSlots : Nat
  producedSlots : Nat
  slotHistory : List SlotEntry
  missedCombos : List MissedCombo
  lastSlot : Option Nat
  nextExpectedAuthor : Option String
  activeForkedHeights : List Nat
  nodes : List NodeStatus
  deriving DecidableEq

/-- The status of a node, by the first connection that is listed under its name. -/
def nodeStatus (m : ChainMonitor) (up : Nat → Bool) (node : NodeName) : NodeStatus where
  name := node
  connected := ((m.pollConnections up).find? fun conn => conn.nodeName = node).any
    PollConnection.connected
  bestHead := m.finalityTracker.bestHeads.get? node
  finalizedHead := m.finalityTracker.finalizedHeads.get? node

/-- In milliseconds. -/
def HOUR : Int := 60 * 60 * 1000

def getStatus (m : ChainMonitor) (now : Int) (up : Nat → Bool) : Status where
  bestHeight := m.ctx.blockTree.bestHeight
  finalizedHeight := m.ctx.blockTree.finalizedHeight
  forkCount := m.ctx.forkDetector.totalForkCount
  forksLastHour := m.countForksSince now HOUR
  missedSlots := m.slotTracker.elim 0 SlotTracker.totalMissed
  producedSlots := m.slotTracker.elim 0 SlotTracker.totalProduced
  slotHistory := m.slotTracker.elim [] SlotTracker.recentSlots
  missedCombos := m.slotTracker.elim [] SlotTracker.missedCombos
  lastSlot := m.slotTracker.bind SlotTracker.lastSlot
  nextExpectedAuthor := m.slotTracker.bind fun t =>
    t.lastSlot.bind fun last => (t.holding (m.roster t)).expectedAuthor (last + 1)
  activeForkedHeights := m.ctx.blockTree.getForkedHeights
  nodes := m.config.nodes.map (m.nodeStatus up)

end ChainMonitor

end ForkWatch
