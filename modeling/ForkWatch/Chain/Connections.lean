import ForkWatch.Lib.Machine
import ForkWatch.Monitor.BlockTree

/-!
# Node connections

`src/chain/connection.js`, and what `src/chain/manager.js` does to keep the
connections of one chain alive: `connectNode`, `scheduleReconnect`, `reconnectNode`
and the watchdog of `startSubscriptions`. What a head notification means to the rest
of the chain is in `Chain.Context`.

Between two awaits the code runs undisturbed; an asynchronous call is where it
awaits (`Async`). A connection belongs to the list of the chain, to the call that
tears it down, or to nobody any more.
-/

namespace ForkWatch

open Lib

inductive Subscription where
  | allHeads
  | newHeads
  | finalizedHeads
  deriving DecidableEq

/-- An element of `_unsubs`. -/
inductive Unsub where
  | stopWatchdog
  | subscription (s : Subscription)
  deriving DecidableEq

/-- A `NodeConnection`, with the watchdog that `startSubscriptions` keeps for it. -/
structure NodeConnection where
  nodeName : NodeName
  unsubs : List Unsub := []
  /-- Subscriptions whose promise has not resolved. -/
  subscribing : List Subscription := []
  /-- Subscriptions whose heads are delivered. -/
  live : List Subscription := []
  /-- `watchdogTimer` is running. -/
  armed : Bool := false
  deriving DecidableEq

namespace NodeConnection

def addUnsub (conn : NodeConnection) (unsub : Unsub) : NodeConnection :=
  { conn with unsubs := conn.unsubs ++ [unsub] }

def stopWatchdog (conn : NodeConnection) : NodeConnection := { conn with armed := false }

def resetWatchdog (conn : NodeConnection) : NodeConnection := { conn with armed := true }

def startSubscriptions (conn : NodeConnection) : NodeConnection :=
  let conn := (conn.addUnsub .stopWatchdog).resetWatchdog
  { conn with
    subscribing := [.allHeads, .newHeads, .finalizedHeads]
    live := [.allHeads, .newHeads, .finalizedHeads] }

/-- The promise of a subscription resolves. -/
def subscribed (conn : NodeConnection) (s : Subscription) : NodeConnection :=
  if s ∈ conn.subscribing then
    { conn.addUnsub (.subscription s) with subscribing := conn.subscribing.erase s }
  else conn

/-- A subscription delivers a head. -/
def onHead (conn : NodeConnection) (s : Subscription) : NodeConnection :=
  if s ∈ conn.live then conn.resetWatchdog else conn

/-- `unsub()` is called. -/
def call (conn : NodeConnection) : Unsub → NodeConnection
  | .stopWatchdog => conn.stopWatchdog
  | .subscription _ => conn

/-- What `unsub()` returned has settled; a subscription that could not be ended goes on. -/
def settle (conn : NodeConnection) (ok : Bool) : Unsub → NodeConnection
  | .stopWatchdog => conn
  | .subscription s => if ok then { conn with live := conn.live.erase s } else conn

/-- `api.disconnect()` has settled. -/
def closed (conn : NodeConnection) (ok : Bool) : NodeConnection :=
  if ok then { conn with live := [] } else conn

end NodeConnection

/-- What the chain awaits for one of its nodes. -/
inductive Async where
  /-- `connectNode` awaits `conn.connect()`. -/
  | connecting (node : NodeName)
  /-- The timer of `scheduleReconnect` is running. -/
  | scheduled (node : NodeName)
  /-- `disconnect` awaits the `k`-th of the unsubs. -/
  | unsubscribing (node : NodeName) (conn : NodeConnection) (k : Nat)
  /-- `disconnect` awaits `api.disconnect()`. -/
  | closing (node : NodeName) (conn : NodeConnection)
  deriving DecidableEq

namespace Async

def node : Async → NodeName
  | .connecting node | .scheduled node | .unsubscribing node .. | .closing node _ => node

/-- The connection that is being torn down. -/
def conn? : Async → Option NodeConnection
  | .unsubscribing _ conn _ | .closing _ conn => some conn
  | _ => none

def mapConn (f : NodeConnection → NodeConnection) : Async → Async
  | .unsubscribing node conn k => .unsubscribing node (f conn) k
  | .closing node conn => .closing node (f conn)
  | a => a

end Async

/--
The loop of `disconnect` from the `k`-th unsub on, up to its next await. The array
is iterated as it is by then: an unsub that was added meanwhile is called too.
-/
def NodeConnection.disconnectFrom (conn : NodeConnection) (node : NodeName) (k : Nat) : Async :=
  match conn.unsubs[k]? with
  | some unsub => .unsubscribing node (conn.call unsub) k
  | none => .closing node { conn with unsubs := [] }

/-- The connections of a chain. -/
structure Connections where
  connections : List NodeConnection := []
  calls : List Async := []
  /-- Connections whose `disconnect` has completed. -/
  old : List NodeConnection := []
  deriving DecidableEq

/-- Where a connection is. -/
inductive Place where
  | listed (i : Nat)
  /-- With the call that tears it down. -/
  | leaving (i : Nat)
  | old (i : Nat)
  deriving DecidableEq

inductive ConnectionEvent where
  /-- `conn.connect()` resolves, or rejects. -/
  | connected (call : Nat)
  | failed (call : Nat)
  /-- `RECONNECT_DELAY` has passed. -/
  | due (call : Nat)
  /-- What `disconnect` awaits has settled. -/
  | settled (call : Nat) (ok : Bool)
  | subscribed (place : Place) (s : Subscription)
  | head (place : Place) (s : Subscription)
  /-- `timeout` has passed since the watchdog was last reset. -/
  | expire (place : Place)
  deriving DecidableEq

namespace Connections

def at? (s : Connections) : Place → Option NodeConnection
  | .listed i => s.connections[i]?
  | .leaving i => s.calls[i]?.bind Async.conn?
  | .old i => s.old[i]?

def modifyAt (s : Connections) (f : NodeConnection → NodeConnection) : Place → Connections
  | .listed i => { s with connections := s.connections.modify i f }
  | .leaving i => { s with calls := s.calls.modify i (Async.mapConn f) }
  | .old i => { s with old := s.old.modify i f }

/-- `reconnectNode` up to its first await. -/
def reconnectNode (s : Connections) (node : NodeName) : Connections × Async :=
  match s.connections.find? (fun conn => conn.nodeName = node) with
  | some old =>
      ({ s with connections := s.connections.eraseP (fun conn => conn.nodeName = node) },
        old.disconnectFrom node 0)
  | none => (s, .connecting node)

def step (s : Connections) : ConnectionEvent → Connections
  | .connected i =>
      match s.calls[i]? with
      | some (.connecting node) =>
          { s with
            calls := s.calls.eraseIdx i
            connections :=
              s.connections ++ [({ nodeName := node } : NodeConnection).startSubscriptions] }
      | _ => s
  | .failed i =>
      match s.calls[i]? with
      | some (.connecting node) => { s with calls := s.calls.set i (.scheduled node) }
      | _ => s
  | .due i =>
      match s.calls[i]? with
      | some (.scheduled node) =>
          let (s, call) := s.reconnectNode node
          { s with calls := s.calls.set i call }
      | _ => s
  | .settled i ok =>
      match s.calls[i]? with
      | some (.unsubscribing node conn k) =>
          let conn := (conn.unsubs[k]?).elim conn (conn.settle ok)
          { s with calls := s.calls.set i (conn.disconnectFrom node (k + 1)) }
      | some (.closing node conn) =>
          { s with
            calls := s.calls.set i (.connecting node)
            old := s.old ++ [conn.closed ok] }
      | _ => s
  | .subscribed place sub => s.modifyAt (fun conn => conn.subscribed sub) place
  | .head place sub => s.modifyAt (fun conn => conn.onHead sub) place
  | .expire place =>
      match s.at? place with
      | some conn =>
          if conn.armed then
            let (s, call) := (s.modifyAt NodeConnection.stopWatchdog place).reconnectNode
              conn.nodeName
            { s with calls := s.calls ++ [call] }
          else s
      | none => s

/-- A chain with these nodes, from the start of `connect`. -/
def machine (nodes : List NodeName) : Machine Connections ConnectionEvent where
  init := { calls := nodes.map Async.connecting }
  step := step

end Connections

end ForkWatch
