import ForkWatch.Lib.Account
import ForkWatch.Proof.Watchdogs

/-!
# No node is given up

A node that is neither connected nor being reconnected would be lost for good, since
nothing in the program looks for it. `holders_exact`: in every run, late heads and all,
the nodes that are connected or on their way are exactly the configured ones.

And every node can come back: once connecting succeeds and no watchdog fires, what the
chain awaits for its nodes settles after boundedly many answers, and then each of them
has a listed connection (`nodes_recover`).
-/

namespace ForkWatch.Proof

open Lib Connections

/-! ## Every node is held -/

theorem mem_holders {s : Connections} {node : NodeName} : node ∈ holders s ↔
    node ∈ s.connections.map NodeConnection.nodeName ∨ node ∈ s.calls.map Async.node := by
  unfold holders
  rw [List.mem_append]

/-- Whom `reconnectNode` takes from the list, it holds itself. -/
theorem holders_reconnectNode (s : Connections) (node x : NodeName) :
    x = node ∨ x ∈ holders (s.reconnectNode node).1 ↔ x = node ∨ x ∈ holders s := by
  rcases reconnectNode_cases s node with ⟨conn, hconn, hname, heq⟩ | ⟨-, heq⟩
  · have hmem := (perm_eraseP (g := NodeConnection.nodeName) hconn).mem_iff (a := x)
    rw [List.mem_cons, hname] at hmem
    rw [heq, mem_holders, mem_holders, ← or_assoc, ← or_assoc, hmem]
    refine or_congr_left ⟨Or.inr, fun hx => hx.elim (fun h => ?_) id⟩
    exact h ▸ hname ▸ List.mem_map_of_mem hconn
  · rw [heq]

theorem node_reconnectNode (s : Connections) (node : NodeName) :
    (s.reconnectNode node).2.node = node := by
  rcases reconnectNode_cases s node with ⟨conn, -, -, heq⟩ | ⟨-, heq⟩
  · rw [heq]
    exact node_disconnectFrom conn node 0
  · rw [heq]
    rfl

theorem frame_reconnectNode (s : Connections) (node : NodeName) :
    (s.reconnectNode node).1.calls = s.calls ∧ (s.reconnectNode node).1.old = s.old := by
  rcases reconnectNode_cases s node with ⟨conn, -, -, heq⟩ | ⟨-, heq⟩
  · rw [heq]
    exact ⟨rfl, rfl⟩
  · rw [heq]
    exact ⟨rfl, rfl⟩

theorem name_disconnectFrom {conn conn' : NodeConnection} {node : NodeName} {k : Nat}
    (h : (conn.disconnectFrom node k).conn? = some conn') : conn'.nodeName = conn.nodeName := by
  rcases disconnectFrom_cases conn node k with ⟨unsub, -, heq⟩ | ⟨-, heq⟩
  · rw [heq] at h
    rw [← Option.some.inj h]
    cases unsub with
    | _ => rfl
  · rw [heq] at h
    rw [← Option.some.inj h]

theorem name_reconnectNode {s : Connections} {node : NodeName} {conn : NodeConnection}
    (h : (s.reconnectNode node).2.conn? = some conn) : conn.nodeName = node := by
  rcases reconnectNode_cases s node with ⟨conn', -, hname, heq⟩ | ⟨-, heq⟩
  · rw [heq] at h
    exact (name_disconnectFrom h).trans hname
  · rw [heq] at h
    exact absurd h (by simp [Async.conn?])

/-- What settles leaves the connection as it was, but for the subscriptions that are live. -/
structure SameConnection (conn conn' : NodeConnection) : Prop where
  nodeName : conn'.nodeName = conn.nodeName
  unsubs : conn'.unsubs = conn.unsubs
  subscribing : conn'.subscribing = conn.subscribing

theorem sameConnection_settle (conn : NodeConnection) (ok : Bool) (k : Nat) :
    SameConnection conn ((conn.unsubs[k]?).elim conn (conn.settle ok)) := by
  cases conn.unsubs[k]? with
  | none => exact ⟨rfl, rfl, rfl⟩
  | some unsub =>
      cases unsub with
      | stopWatchdog => exact ⟨rfl, rfl, rfl⟩
      | subscription sub =>
          cases ok with
          | true => exact ⟨rfl, rfl, rfl⟩
          | false => exact ⟨rfl, rfl, rfl⟩

/-- **What a settled promise of `disconnect` does.** -/
theorem settled_cases (s : Connections) (i : Nat) (ok : Bool) :
    (s.step (.settled i ok) = s ∧ ∀ call, s.calls[i]? = some call → call.conn? = none) ∨
    (∃ node conn k conn', s.calls[i]? = some (.unsubscribing node conn k) ∧
      SameConnection conn conn' ∧ s.step (.settled i ok)
        = { s with calls := s.calls.set i (conn'.disconnectFrom node (k + 1)) }) ∨
    ∃ node conn, s.calls[i]? = some (.closing node conn) ∧ s.step (.settled i ok)
      = { s with calls := s.calls.set i (.connecting node), old := s.old ++ [conn.closed ok] } := by
  unfold Connections.step
  dsimp only
  split
  · rename_i node conn k hi
    exact Or.inr (Or.inl ⟨node, conn, k, _, hi, sameConnection_settle conn ok k, rfl⟩)
  · rename_i node conn hi
    exact Or.inr (Or.inr ⟨node, conn, hi, rfl⟩)
  · rename_i hunsubscribing hclosing
    refine Or.inl ⟨rfl, fun call hi => ?_⟩
    cases call with
    | unsubscribing node conn k => exact absurd hi (hunsubscribing node conn k)
    | closing node conn => exact absurd hi (hclosing node conn)
    | _ => rfl

theorem nodeName_closed (conn : NodeConnection) (ok : Bool) :
    (conn.closed ok).nodeName = conn.nodeName := by
  cases ok with
  | true => rfl
  | false => rfl

/-- The configured nodes are held, and no other is mentioned. -/
structure Manned (nodes : List NodeName) (s : Connections) : Prop where
  held : ∀ node, node ∈ holders s ↔ node ∈ nodes
  leaving : ∀ call ∈ s.calls, ∀ conn, call.conn? = some conn → conn.nodeName = call.node
  old : ∀ conn ∈ s.old, conn.nodeName ∈ nodes

theorem manned_init (nodes : List NodeName) : Manned nodes (machine nodes).init where
  held := by
    intro node
    rw [mem_holders]
    change node ∈ [] ∨ node ∈ (nodes.map Async.connecting).map Async.node ↔ _
    rw [List.map_map, show Async.node ∘ Async.connecting = id from rfl, List.map_id]
    simp
  leaving := by
    intro call hcall conn hconn
    obtain ⟨node, -, rfl⟩ := List.mem_map.mp hcall
    exact absurd hconn (by simp [Async.conn?])
  old := fun _ hconn => absurd hconn (by simp [machine])

section Manned

variable {nodes : List NodeName} {s : Connections}

/-- A call whose place is taken by another one for the same node. -/
theorem Manned.set (h : Manned nodes s) (next : Async) {i : Nat} {call : Async}
    (hi : s.calls[i]? = some call) (hnode : next.node = call.node)
    (hconn : ∀ conn, next.conn? = some conn → conn.nodeName = next.node)
    {old : List NodeConnection} (hold : ∀ conn ∈ old, conn.nodeName ∈ nodes) :
    Manned nodes { s with calls := s.calls.set i next, old } where
  held := by
    rw [holders_set hi hnode]
    exact h.held
  leaving := by
    intro call hcall conn hc
    rcases List.mem_or_eq_of_mem_set hcall with hcall | rfl
    · exact h.leaving call hcall conn hc
    · exact hconn conn hc
  old := hold

theorem Manned.modifyAt (h : Manned nodes s) {f : NodeConnection → NodeConnection}
    (hf : ∀ conn, (f conn).nodeName = conn.nodeName) (place : Place) :
    Manned nodes (s.modifyAt f place) where
  held := by
    rw [holders_modifyAt hf]
    exact h.held
  leaving := by
    intro call hcall conn hconn
    cases place with
    | listed i => exact h.leaving call hcall conn hconn
    | leaving i =>
        rcases mem_modify hcall with hcall | ⟨next, hi, rfl⟩
        · exact h.leaving call hcall conn hconn
        · rw [conn?_mapConn] at hconn
          obtain ⟨conn', hconn', rfl⟩ := Option.map_eq_some_iff.mp hconn
          rw [hf, node_mapConn]
          exact h.leaving next (List.mem_of_getElem? hi) conn' hconn'
    | old i => exact h.leaving call hcall conn hconn
  old := by
    intro conn hconn
    cases place with
    | listed i => exact h.old conn hconn
    | leaving i => exact h.old conn hconn
    | old i =>
        rcases mem_modify hconn with hconn | ⟨conn', hi, rfl⟩
        · exact h.old conn hconn
        · rw [hf]
          exact h.old conn' (List.mem_of_getElem? hi)

/-- A connection that is anywhere is one of a configured node. -/
theorem Manned.at? (h : Manned nodes s) {place : Place} {conn : NodeConnection}
    (hplace : s.at? place = some conn) : conn.nodeName ∈ nodes := by
  cases place with
  | listed i =>
      exact (h.held _).mp (mem_holders.mpr (Or.inl
        (List.mem_map_of_mem (List.mem_of_getElem? hplace))))
  | leaving i =>
      obtain ⟨call, hi, hconn⟩ := Option.bind_eq_some_iff.mp hplace
      have hcall := List.mem_of_getElem? hi
      rw [h.leaving call hcall conn hconn]
      exact (h.held _).mp (mem_holders.mpr (Or.inr (List.mem_map_of_mem hcall)))
  | old i => exact h.old conn (List.mem_of_getElem? hplace)

/-- A reconnect of a configured node, once its call is among those of the chain. -/
theorem Manned.reconnectNode (h : Manned nodes s) {node : NodeName} (hnode : node ∈ nodes)
    {calls : List Async}
    (hcalls : ∀ call ∈ calls, call ∈ s.calls ∨ call = (s.reconnectNode node).2)
    (hnodes : ∀ x, x ∈ calls.map Async.node ↔ x = node ∨ x ∈ s.calls.map Async.node) :
    Manned nodes { (s.reconnectNode node).1 with calls } where
  held := by
    intro x
    have hheld := holders_reconnectNode s node x
    rw [mem_holders (s := (s.reconnectNode node).1), (frame_reconnectNode s node).1,
      or_left_comm, ← hnodes, h.held] at hheld
    rw [mem_holders]
    refine hheld.trans ⟨fun hx => hx.elim (fun heq => heq ▸ hnode) id, Or.inr⟩
  leaving := by
    intro call hcall conn hconn
    rcases hcalls call hcall with hold | rfl
    · exact h.leaving call hold conn hconn
    · rw [node_reconnectNode]
      exact name_reconnectNode hconn
  old := by
    rw [(frame_reconnectNode s node).2]
    exact h.old

/-- **Every event leaves the configured nodes held.** -/
theorem manned_step (h : Manned nodes s) (e : ConnectionEvent) : Manned nodes (s.step e) := by
  cases e with
  | settled i ok =>
      rcases settled_cases s i ok with ⟨heq, -⟩ | ⟨node, conn, k, conn', hi, hsame, heq⟩ |
        ⟨node, conn, hi, heq⟩
      · rw [heq]
        exact h
      · rw [heq]
        refine h.set _ hi (node_disconnectFrom ..) (fun conn₂ hconn₂ => ?_) h.old
        rw [node_disconnectFrom, name_disconnectFrom hconn₂, hsame.nodeName]
        exact h.leaving _ (List.mem_of_getElem? hi) conn rfl
      · rw [heq]
        refine h.set (.connecting node) hi rfl (by simp [Async.conn?])
          fun conn₂ hconn₂ => ?_
        rcases List.mem_append.mp hconn₂ with hconn₂ | hconn₂
        · exact h.old conn₂ hconn₂
        · rw [List.mem_singleton.mp hconn₂, nodeName_closed]
          have hcall := List.mem_of_getElem? hi
          rw [h.leaving _ hcall conn rfl]
          exact (h.held node).mp (mem_holders.mpr (Or.inr (List.mem_map_of_mem hcall)))
  | connected i =>
      have hstep := connectionStep s (.connected i)
      generalize s.step (.connected i) = s' at hstep ⊢
      cases hstep with
      | idle => exact h
      | connected _ node hi =>
          -- the node goes over from the calls to the listed connections
          refine ⟨fun x => ?_, fun call hcall => h.leaving call (List.mem_of_mem_eraseIdx hcall),
            h.old⟩
          have hmem := ((perm_eraseIdx hi).map Async.node).mem_iff (a := x)
          rw [List.map_cons, List.mem_cons] at hmem
          rw [← h.held, mem_holders, mem_holders, ← hmem, List.map_append, List.mem_append,
            or_assoc]
          change _ ∨ x ∈ [node] ∨ _ ↔ _ ∨ x = node ∨ _
          rw [List.mem_singleton]
  | failed i =>
      have hstep := connectionStep s (.failed i)
      generalize s.step (.failed i) = s' at hstep ⊢
      cases hstep with
      | idle => exact h
      | failed _ node hi => exact h.set (.scheduled node) hi rfl (by simp [Async.conn?]) h.old
  | due i =>
      have hstep := connectionStep s (.due i)
      generalize s.step (.due i) = s' at hstep ⊢
      cases hstep with
      | idle => exact h
      | due _ node hi =>
          have hcall := List.mem_of_getElem? hi
          have hnode := (h.held node).mp (mem_holders.mpr (Or.inr (List.mem_map_of_mem hcall)))
          -- `reconnectNode` takes the listed connection of the node, if any, into its call
          rw [(frame_reconnectNode s node).1]
          refine h.reconnectNode hnode (fun call hmem => List.mem_or_eq_of_mem_set hmem) fun x => ?_
          rw [map_set_eq hi (node_reconnectNode s node)]
          refine ⟨Or.inr, fun hx => hx.elim (fun heq => ?_) id⟩
          exact heq ▸ List.mem_map_of_mem hcall
  | subscribed place sub => exact h.modifyAt (fun conn => nodeName_subscribed conn sub) place
  | head place sub => exact h.modifyAt (fun conn => nodeName_onHead conn sub) place
  | expire place =>
      have hstep := connectionStep s (.expire place)
      generalize s.step (.expire place) = s' at hstep ⊢
      cases hstep with
      | idle => exact h
      | expire _ conn hplace harmed u hu =>
          subst hu
          -- the watchdog stops before anything else, which holds no node
          have hstop := h.modifyAt (f := NodeConnection.stopWatchdog) (fun _ => rfl) place
          rw [(frame_reconnectNode (s.modifyAt NodeConnection.stopWatchdog place)
            conn.nodeName).1]
          refine hstop.reconnectNode (h.at? hplace) (fun call hmem => ?_) fun x => ?_
          · exact (List.mem_append.mp hmem).imp_right List.mem_singleton.mp
          · rw [List.map_append, List.mem_append, List.map_singleton, List.mem_singleton,
              node_reconnectNode, or_comm]

end Manned

theorem manned_run (nodes : List NodeName) (evs : List ConnectionEvent) :
    Manned nodes ((machine nodes).run evs) :=
  Machine.run_invariant (A := fun _ => True) (manned_init nodes) (fun _ e h _ => manned_step h e)
    fun _ _ => trivial

/--
**No node is given up, and none is made up.** In every run, with heads arriving as late
as they may, the nodes that are connected or awaited are exactly the configured ones.
-/
theorem holders_exact (nodes : List NodeName) (evs : List ConnectionEvent) (node : NodeName) :
    node ∈ holders ((machine nodes).run evs) ↔ node ∈ nodes :=
  (manned_run nodes evs).held node

/-! ## Every node can come back -/

/-- Nothing goes wrong any more: no connect fails, and no watchdog fires. -/
def Smooth : ConnectionEvent → Prop
  | .failed _ | .expire _ => False
  | _ => True

/-- The event is what the call waits for. -/
def awaits : Async → ConnectionEvent → Bool
  | .connecting _, .connected _ | .scheduled _, .due _ | .unsubscribing .., .settled ..
  | .closing .., .settled .. => true
  | _, _ => false

/-- The event is what a call of the chain waits for. -/
def serves (s : Connections) : ConnectionEvent → Bool
  | .connected i => (s.calls[i]?).any fun call => awaits call (.connected i)
  | .due i => (s.calls[i]?).any fun call => awaits call (.due i)
  | .settled i ok => (s.calls[i]?).any fun call => awaits call (.settled i ok)
  | _ => false

/-- The unsubs of a connection, and those still to come. -/
def unsubsDue (conn : NodeConnection) : Nat := conn.unsubs.length + conn.subscribing.length

/-- How many events a call is from a listed connection, at most. -/
def callLeft : Async → Nat
  | .connecting _ => 7
  | .scheduled _ => 8
  | .unsubscribing _ conn k => 9 + (unsubsDue conn - k)
  | .closing .. => 8

/-- A listed connection counts too, since a timer that is still running may tear it down. -/
def listedLeft (conns : List NodeConnection) : Nat :=
  (conns.map fun conn => unsubsDue conn + 2).sum

def eventsLeft (s : Connections) : Nat := listedLeft s.connections + (s.calls.map callLeft).sum

section Sums

variable {α : Type} {f : α → Nat}

theorem sum_set {l : List α} {i : Nat} {a : α} (ha : l[i]? = some a) (b : α) :
    ((l.set i b).map f).sum + f a = (l.map f).sum + f b := by
  induction l generalizing i with
  | nil => exact absurd ha (by simp)
  | cons x l ih =>
      cases i with
      | zero =>
          obtain rfl := Option.some.inj ha
          simp only [List.set_cons_zero, List.map_cons, List.sum_cons]
          omega
      | succ i =>
          have hrest := ih ha
          simp only [List.set_cons_succ, List.map_cons, List.sum_cons]
          omega

theorem perm_find_eraseP {p : α → Bool} {l : List α} {a : α} (h : l.find? p = some a) :
    (a :: l.eraseP p).Perm l := by
  induction l with
  | nil => exact absurd h (by simp)
  | cons x l ih =>
      rw [List.find?_cons] at h
      cases hp : p x with
      | true =>
          rw [hp] at h
          obtain rfl := Option.some.inj h
          rw [List.eraseP_cons_of_pos hp]
      | false =>
          rw [hp] at h
          rw [List.eraseP_cons_of_neg (by simp [hp])]
          exact (List.Perm.swap x a _).trans ((ih h).cons x)

end Sums

theorem callLeft_disconnectFrom (conn : NodeConnection) (node : NodeName) (k : Nat) :
    callLeft (conn.disconnectFrom node k) ≤ 9 + (unsubsDue conn - k) := by
  rcases disconnectFrom_cases conn node k with ⟨unsub, -, heq⟩ | ⟨-, heq⟩
  · rw [heq]
    cases unsub with
    | _ => exact Nat.le_refl _
  · rw [heq]
    simp only [callLeft]
    omega

/-- A call that goes on with its unsubs has one less to go. -/
theorem callLeft_next {conn conn' : NodeConnection} (h : SameConnection conn conn')
    (node : NodeName) (k : Nat) :
    callLeft (conn'.disconnectFrom node (k + 1)) < callLeft (.unsubscribing node conn k) := by
  have hdue : unsubsDue conn' = unsubsDue conn := by
    unfold unsubsDue
    rw [h.unsubs, h.subscribing]
  rcases disconnectFrom_cases conn' node (k + 1) with ⟨unsub, hk, -⟩ | ⟨-, heq⟩
  · have hlt : k + 1 < unsubsDue conn' :=
      Nat.lt_add_right _ (List.getElem?_eq_some_iff.mp hk).1
    refine Nat.lt_of_le_of_lt (callLeft_disconnectFrom conn' node (k + 1)) ?_
    simp only [callLeft]
    omega
  · rw [heq]
    simp only [callLeft]
    omega

/-- What a reconnect takes from the list pays for tearing it down. -/
theorem listedLeft_reconnectNode (s : Connections) (node : NodeName) :
    listedLeft (s.reconnectNode node).1.connections + callLeft (s.reconnectNode node).2
      ≤ listedLeft s.connections + 7 := by
  unfold Connections.reconnectNode
  split
  · rename_i conn hfind
    have hsum := ((perm_find_eraseP hfind).map fun conn => unsubsDue conn + 2).sum_eq
    have hcall := callLeft_disconnectFrom conn node 0
    rw [List.map_cons, List.sum_cons] at hsum
    unfold listedLeft
    dsimp only
    omega
  · exact Nat.le_refl _

theorem unsubsDue_subscribed (conn : NodeConnection) (sub : Subscription) :
    unsubsDue (conn.subscribed sub) = unsubsDue conn := by
  unfold NodeConnection.subscribed
  split
  · rename_i hmem
    have hpos := List.length_pos_of_mem hmem
    have hlen := List.length_erase_of_mem hmem
    unfold unsubsDue NodeConnection.addUnsub
    dsimp only
    rw [List.length_append, List.length_singleton, hlen]
    omega
  · rfl

theorem unsubsDue_onHead (conn : NodeConnection) (sub : Subscription) :
    unsubsDue (conn.onHead sub) = unsubsDue conn := by
  unfold NodeConnection.onHead
  split
  · rfl
  · rfl

/-- A change that leaves the unsubs alone leaves as much to do. -/
theorem eventsLeft_modifyAt {f : NodeConnection → NodeConnection}
    (hf : ∀ conn, unsubsDue (f conn) = unsubsDue conn) (s : Connections) (place : Place) :
    eventsLeft (s.modifyAt f place) = eventsLeft s := by
  cases place with
  | listed i =>
      have hsame := map_modify_eq (g := fun conn => unsubsDue conn + 2) (f := f)
        (fun conn => by rw [hf]) s.connections i
      exact congrArg (List.sum · + _) hsame
  | leaving i =>
      have hcall : ∀ call : Async, callLeft (call.mapConn f) = callLeft call := by
        intro call
        cases call with
        | unsubscribing => simp only [Async.mapConn, callLeft, hf]
        | _ => rfl
      exact congrArg (_ + List.sum ·) (map_modify_eq hcall s.calls i)
  | old i => rfl

/-- A call that is replaced by one with less to do. -/
theorem eventsLeft_set {s : Connections} (next : Async) {i : Nat} {call : Async}
    (hi : s.calls[i]? = some call) (hless : callLeft next < callLeft call)
    (old : List NodeConnection) : eventsLeft { s with calls := s.calls.set i next, old }
      < eventsLeft s := by
  have hsum := sum_set (f := callLeft) hi next
  unfold eventsLeft
  dsimp only
  omega

/-- An event that nothing awaits is lost. -/
theorem step_of_unserved {s : Connections} {e : ConnectionEvent} (hserves : serves s e = false)
    (he : Smooth e) : eventsLeft (s.step e) = eventsLeft s := by
  cases e with
  | connected i =>
      unfold Connections.step
      dsimp only
      split
      · rename_i node hi
        exact absurd hserves (by simp [serves, hi, awaits])
      · rfl
  | due i =>
      unfold Connections.step
      dsimp only
      split
      · rename_i node hi
        exact absurd hserves (by simp [serves, hi, awaits])
      · rfl
  | settled i ok =>
      rcases settled_cases s i ok with ⟨heq, -⟩ | ⟨node, conn, k, conn', hi, -⟩ | ⟨node, conn, hi, -⟩
      · rw [heq]
      · exact absurd hserves (by simp [serves, hi, awaits])
      · exact absurd hserves (by simp [serves, hi, awaits])
  | subscribed place sub => exact eventsLeft_modifyAt (fun conn => unsubsDue_subscribed conn sub) s place
  | head place sub => exact eventsLeft_modifyAt (fun conn => unsubsDue_onHead conn sub) s place
  | failed => exact absurd he id
  | expire => exact absurd he id

/-- **Each awaited event leaves fewer to wait for.** -/
theorem step_of_served {s : Connections} {e : ConnectionEvent} (hserves : serves s e = true) :
    eventsLeft (s.step e) < eventsLeft s := by
  cases e with
  | connected i =>
      cases hi : s.calls[i]? with
      | none => exact absurd hserves (by simp [serves, hi])
      | some call =>
          cases call with
          | connecting node =>
              have hsum := ((perm_eraseIdx hi).map callLeft).sum_eq
              have hnew : unsubsDue ({ nodeName := node } : NodeConnection).startSubscriptions = 4 :=
                rfl
              simp only [Connections.step, hi]
              unfold eventsLeft listedLeft
              rw [List.map_append, List.sum_append, List.map_singleton, List.sum_singleton, hnew]
              rw [List.map_cons, List.sum_cons, callLeft] at hsum
              dsimp only
              omega
          | _ => exact absurd hserves (by simp [serves, hi, awaits])
  | due i =>
      cases hi : s.calls[i]? with
      | none => exact absurd hserves (by simp [serves, hi])
      | some call =>
          cases call with
          | scheduled node =>
              have hsum := sum_set (f := callLeft) hi (s.reconnectNode node).2
              have hlisted := listedLeft_reconnectNode s node
              simp only [Connections.step, hi]
              unfold eventsLeft
              rw [(frame_reconnectNode s node).1]
              rw [callLeft] at hsum
              dsimp only
              omega
          | _ => exact absurd hserves (by simp [serves, hi, awaits])
  | settled i ok =>
      rcases settled_cases s i ok with ⟨-, hidle⟩ | ⟨node, conn, k, conn', hi, hsame, heq⟩ |
        ⟨node, conn, hi, heq⟩
      · cases hi : s.calls[i]? with
        | none => exact absurd hserves (by simp [serves, hi])
        | some call =>
            -- a call that tears nothing down waits for something else
            have hnone := hidle call hi
            cases call with
            | unsubscribing => exact absurd hnone (by simp [Async.conn?])
            | closing => exact absurd hnone (by simp [Async.conn?])
            | _ => exact absurd hserves (by simp [serves, hi, awaits])
      · rw [heq]
        exact eventsLeft_set _ hi (callLeft_next hsame node k) s.old
      · rw [heq]
        exact eventsLeft_set (.connecting node) hi (Nat.lt_succ_self 7) _
  | _ => exact absurd hserves (by simp [serves])

theorem connections_runDown (nodes : List NodeName) :
    Machine.RunsDown (machine nodes) (fun _ => True) (fun _ e => Smooth e) serves eventsLeft where
  keeps := fun _ _ _ _ => trivial
  falls := fun _ _ _ _ hserves => step_of_served hserves
  rests := fun _ _ _ he hserves => Nat.le_of_eq (step_of_unserved hserves he)

/-- The event a call waits for, where nothing goes wrong. -/
def anEvent (call : Async) (i : Nat) : ConnectionEvent :=
  match call with
  | .connecting _ => .connected i
  | .scheduled _ => .due i
  | .unsubscribing .. | .closing .. => .settled i true

/-- From here on, boundedly many events that a call waits for connect every node. -/
structure Recovers (nodes : List NodeName) (s : Connections) : Prop where
  /-- Heads and subscriptions may go on meanwhile. -/
  bounded : ∀ more : List ConnectionEvent, (∀ e ∈ more, Smooth e) →
    Machine.RunsDown.served (machine nodes) serves s more ≤ eventsLeft s
  /-- They are enough to have nothing left to wait for. -/
  ends : ∃ more : List ConnectionEvent, (∀ e ∈ more, Smooth e) ∧
    (machine nodes).Guarded (fun s e => serves s e = true) s more ∧
    more.length ≤ eventsLeft s ∧ ((machine nodes).runFrom s more).calls = []
  /-- And when nothing is left to wait for, every node is connected. -/
  connected : ∀ more : List ConnectionEvent, ((machine nodes).runFrom s more).calls = [] →
    ∀ node ∈ nodes, ∃ conn ∈ ((machine nodes).runFrom s more).connections, conn.nodeName = node

/-- **From every reachable state, every node can come back.** -/
theorem nodes_recover (nodes : List NodeName) (evs : List ConnectionEvent) :
    Recovers nodes ((machine nodes).run evs) where
  bounded := by
    intro more hmore
    have hle := (connections_runDown nodes).tally_le (s := (machine nodes).run evs) trivial
      (Machine.guarded_of_forall hmore)
    omega
  ends := by
    have hserve : ∀ s : Connections, True → s.calls ≠ [] →
        ∃ e, Smooth e ∧ serves s e = true := by
      intro s _ hsome
      obtain ⟨call, rest, hcalls⟩ := List.exists_cons_of_ne_nil hsome
      refine ⟨anEvent call 0, ?_, ?_⟩
      · cases call with
        | _ => trivial
      · cases call with
        | _ => simp [anEvent, serves, awaits, hcalls]
    obtain ⟨more, hsmooth, hrest⟩ := (connections_runDown nodes).exists_end
      (D := fun s => s.calls = []) hserve (s := (machine nodes).run evs) trivial
    exact ⟨more, Machine.forall_of_guarded hsmooth, hrest⟩
  connected := by
    intro more hnone node hnode
    rw [← Machine.run_append] at hnone ⊢
    have hheld := ((manned_run nodes (evs ++ more)).held node).mpr hnode
    rw [mem_holders, hnone] at hheld
    rcases hheld with hlisted | hcall
    · exact List.mem_map.mp hlisted
    · exact absurd hcall (by simp)

end ForkWatch.Proof
