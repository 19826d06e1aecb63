import ForkWatch.Chain.Context

/-!
# Polling the pending pool

`start` and `pickPollableConnection` of `src/monitor/tx-tracker.js`, around the chain. A
timer picks a node and asks it for its pending extrinsics; the answers come back later
and in any order, and a node that rejects the call is not asked again until the next
recheck. In `ForkWatch.Chain.Context` any node may answer a poll at any time; here only
a poll that was sent is answered, and once.
-/

namespace ForkWatch

open Lib

/-- In milliseconds. -/
def UNSUPPORTED_RECHECK_MS : Int := 30 * 60 * 1000

/-- What `pickPollableConnection` reads of a connection. -/
structure PollConnection where
  nodeName : NodeName
  connected : Bool

inductive PollReport where
  /-- `author_pendingExtrinsics` of a node is called. -/
  | asked (now : Int) (node : NodeName)
  /-- The log line that no node can be asked. -/
  | noUnsafeRpc
  /-- A node rejected the call (history only). -/
  | rejected (node : NodeName)
  /-- Past rejections are forgotten (history only). -/
  | recheck (now : Int)
  deriving DecidableEq

inductive PollEvent where
  /-- Something else happens on the chain. -/
  | chain (e : Event)
  /-- The poll timer fires; these are the connections of the chain. -/
  | tick (now : Int) (connections : List PollConnection)
  /-- An outstanding call answers, or is rejected. -/
  | answered (call : Nat) (answer : Option (List Extrinsic))

/-- A chain and its poll timer. -/
structure PolledChain where
  ctx : ChainContext
  lastUnsupportedResetAt : Option Int := none
  warnedNoUnsafeRpc : Bool := false
  /-- The nodes whose answers are awaited. -/
  calls : List NodeName := []
  polls : List PollReport := []

namespace PolledChain

def unsupportedNodes (p : PolledChain) : OrdSet NodeName := p.ctx.txTracker.unsupportedNodes

def clearUnsupported (p : PolledChain) : PolledChain :=
  { p with ctx := { p.ctx with txTracker := { p.ctx.txTracker with unsupportedNodes := ∅ } } }

/-- The first poll only notes the time. -/
def recheck (p : PolledChain) (now : Int) : PolledChain :=
  match p.lastUnsupportedResetAt with
  | none => { p with lastUnsupportedResetAt := some now, polls := p.polls ++ [.recheck now] }
  | some last =>
      if UNSUPPORTED_RECHECK_MS < now - last then
        { p.clearUnsupported with
          lastUnsupportedResetAt := some now, polls := p.polls ++ [.recheck now] }
      else p

/-- The end of `pickPollableConnection`. -/
def pick (p : PolledChain) (connections : List PollConnection) : Option PollConnection :=
  connections.find? fun c => c.connected && !p.unsupportedNodes.has c.nodeName

/-- The callback of the poll timer. -/
def tick (p : PolledChain) (now : Int) (connections : List PollConnection) : PolledChain :=
  let p := p.recheck now
  match p.pick connections with
  | none =>
      if p.warnedNoUnsafeRpc then p
      else { p with warnedNoUnsafeRpc := true, polls := p.polls ++ [.noUnsafeRpc] }
  | some conn =>
      { p with
        warnedNoUnsafeRpc := false
        calls := p.calls ++ [conn.nodeName]
        polls := p.polls ++ [.asked now conn.nodeName] }

/-- An awaited answer comes back to `pollPendingPool`. -/
def answer (p : PolledChain) (call : Nat) (answer : Option (List Extrinsic)) : PolledChain :=
  match p.calls[call]? with
  | none => p
  | some node =>
      { p with
        ctx := p.ctx.step (.poll node answer)
        calls := p.calls.eraseIdx call
        polls := p.polls ++ (if answer.isNone then [.rejected node] else []) }

def step (p : PolledChain) : PollEvent → PolledChain
  -- polls are answered by `answered` only
  | .chain (.poll ..) => p
  | .chain e => { p with ctx := p.ctx.step e }
  | .tick now connections => p.tick now connections
  | .answered call answer => p.answer call answer

def machine (config : ChainConfig) (opts : TxOptions) : Machine PolledChain PollEvent where
  init := { ctx := (ChainContext.machine config opts).init }
  step := step

end PolledChain

end ForkWatch
