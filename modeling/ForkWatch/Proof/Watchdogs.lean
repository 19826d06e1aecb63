import ForkWatch.Chain.Connections

/-!
# One connection and one watchdog per node

Every node of a chain is held once: by its listed connection, or by the call that is
about to make one. A reconnect hands the node on, so nothing is held twice as long as
only the watchdog of a listed connection starts one (`Held`).

`disconnect` stops the watchdog first and ends the subscriptions after it, one await
each. A head in between starts the watchdog again, and nobody stops it any more: it
fires when the next connection of the node is up, or being made. `oneLive_iff` says
that this is the only way to go wrong.
-/

namespace ForkWatch.Proof

open Lib Connections

/-! ## Positions in a list -/

section Positions

variable {α β : Type}

theorem mem_modify {l : List α} {i : Nat} {f : α → α} {a : α} (h : a ∈ l.modify i f) :
    a ∈ l ∨ ∃ b, l[i]? = some b ∧ a = f b := by
  obtain ⟨j, hj⟩ := List.mem_iff_getElem?.mp h
  rw [List.getElem?_modify] at hj
  split at hj
  · rename_i hij
    subst hij
    obtain ⟨b, hb, rfl⟩ := Option.map_eq_some_iff.mp hj
    exact Or.inr ⟨b, hb, rfl⟩
  · exact Or.inl (List.mem_of_getElem? (by simpa using hj))

/-- A change that the map does not see. -/
theorem map_modify_eq {g : α → β} {f : α → α} (hf : ∀ a, g (f a) = g a) (l : List α) (i : Nat) :
    (l.modify i f).map g = l.map g := by
  refine List.ext_getElem? fun j => ?_
  rw [List.getElem?_map, List.getElem?_map, List.getElem?_modify]
  split
  · cases l[j]? with
    | none => rfl
    | some a => exact congrArg some (hf a)
  · simp

theorem map_set_eq {g : α → β} {l : List α} {i : Nat} {a b : α} (ha : l[i]? = some a)
    (hab : g b = g a) : (l.set i b).map g = l.map g := by
  refine List.ext_getElem? fun j => ?_
  rw [List.getElem?_map, List.getElem?_map, List.getElem?_set]
  split
  · rename_i hij
    subst hij
    rw [if_pos (List.getElem?_eq_some_iff.mp ha).1, ha]
    exact congrArg some hab
  · rfl

theorem perm_eraseIdx {l : List α} {i : Nat} {a : α} (ha : l[i]? = some a) :
    (a :: l.eraseIdx i).Perm l := by
  obtain ⟨hi, rfl⟩ := List.getElem?_eq_some_iff.mp ha
  exact List.getElem_cons_eraseIdx_perm hi

theorem perm_eraseP {g : α → β} [DecidableEq β] {l : List α} {a : α} (ha : a ∈ l) :
    (g a :: (l.eraseP fun b => g b = g a).map g).Perm (l.map g) := by
  obtain ⟨b, l₁, l₂, -, hb, hl, heq⟩ :=
    List.exists_of_eraseP (p := fun b => decide (g b = g a)) ha (by simp)
  have hba : g b = g a := by simpa using hb
  rw [heq, hl, List.map_append, List.map_append, List.map_cons, hba]
  exact List.perm_middle.symm

end Positions

/-! ## The property -/

/-- The nodes whose watchdogs are running. -/
def watchdogs (s : Connections) : List NodeName :=
  ((s.connections ++ s.calls.filterMap Async.conn? ++ s.old).filter
    NodeConnection.armed).map NodeConnection.nodeName

/-- One live connection and one watchdog per node, and none for what has been torn down. -/
structure OneLive (s : Connections) : Prop where
  names : (s.connections.map NodeConnection.nodeName).Nodup
  watchdogs : (watchdogs s).Nodup
  stopped : ∀ conn ∈ s.old, conn.armed = false
  /-- Its watchdog never calls `reconnectNode` again. -/
  silent : ∀ i, s.step (.expire (.old i)) = s

/-- A head arrives on a connection that has been taken out of the list. -/
def LateHead (s : Connections) (e : ConnectionEvent) : Prop :=
  ∃ place sub conn, e = .head place sub ∧ (∀ i, place ≠ .listed i) ∧
    s.at? place = some conn ∧ sub ∈ conn.live

/-- Whatever comes next, short of another late head, the property goes on to hold. -/
def StaysOneLive (nodes : List NodeName) (s : Connections) : Prop :=
  ∀ later, (machine nodes).Guarded (fun s e => ¬ LateHead s e) s later →
    OneLive ((machine nodes).runFrom s later)

/-! ## The parts of a step -/

/-- The watchdog is the first thing `disconnect` stops, and the only one of its kind. -/
def Ordered (conn : NodeConnection) : Prop :=
  ∃ subs : List Subscription, conn.unsubs = .stopWatchdog :: subs.map Unsub.subscription

section Parts

variable (conn : NodeConnection) (sub : Subscription)

@[simp] theorem nodeName_subscribed : (conn.subscribed sub).nodeName = conn.nodeName := by
  unfold NodeConnection.subscribed
  split
  · rfl
  · rfl

@[simp] theorem armed_subscribed : (conn.subscribed sub).armed = conn.armed := by
  unfold NodeConnection.subscribed
  split
  · rfl
  · rfl

@[simp] theorem nodeName_onHead : (conn.onHead sub).nodeName = conn.nodeName := by
  unfold NodeConnection.onHead
  split
  · rfl
  · rfl

@[simp] theorem unsubs_onHead : (conn.onHead sub).unsubs = conn.unsubs := by
  unfold NodeConnection.onHead
  split
  · rfl
  · rfl

theorem onHead_of_not_live {conn : NodeConnection} {sub : Subscription} (h : sub ∉ conn.live) :
    conn.onHead sub = conn := if_neg h

theorem armed_onHead {conn : NodeConnection} {sub : Subscription} (h : sub ∈ conn.live) :
    (conn.onHead sub).armed = true := by
  unfold NodeConnection.onHead
  rw [if_pos h]
  rfl

/-- What a settled unsub leaves behind: at most a subscription less. -/
theorem settle_frame (ok : Bool) (k : Nat) {conn' : NodeConnection}
    (h : (conn.unsubs[k]?).elim conn (conn.settle ok) = conn') :
    conn'.unsubs = conn.unsubs ∧ conn'.armed = conn.armed := by
  rw [← h]
  cases conn.unsubs[k]? with
  | none => exact ⟨rfl, rfl⟩
  | some unsub =>
      cases unsub with
      | stopWatchdog => exact ⟨rfl, rfl⟩
      | subscription s =>
          cases ok with
          | true => exact ⟨rfl, rfl⟩
          | false => exact ⟨rfl, rfl⟩

@[simp] theorem armed_closed (ok : Bool) : (conn.closed ok).armed = conn.armed := by
  cases ok with
  | true => rfl
  | false => rfl

theorem Ordered.congr {conn conn' : NodeConnection} (h : Ordered conn)
    (heq : conn'.unsubs = conn.unsubs) : Ordered conn' := by
  obtain ⟨subs, hsubs⟩ := h
  exact ⟨subs, heq.trans hsubs⟩

theorem Ordered.subscribed {conn : NodeConnection} (h : Ordered conn) (sub : Subscription) :
    Ordered (conn.subscribed sub) := by
  obtain ⟨subs, hsubs⟩ := h
  unfold NodeConnection.subscribed
  split
  · refine ⟨subs ++ [sub], ?_⟩
    change conn.unsubs ++ [.subscription sub] = _
    rw [hsubs, List.map_append]
    rfl
  · exact ⟨subs, hsubs⟩

theorem ordered_startSubscriptions {conn : NodeConnection} (h : conn.unsubs = []) :
    Ordered conn.startSubscriptions := by
  refine ⟨[], ?_⟩
  change conn.unsubs ++ [.stopWatchdog] = _
  rw [h]
  rfl

/-- Past the first one, an unsub ends a subscription. -/
theorem Ordered.subscription {conn : NodeConnection} (h : Ordered conn) {k : Nat} {unsub : Unsub}
    (hk : conn.unsubs[k + 1]? = some unsub) : ∃ sub, unsub = .subscription sub := by
  obtain ⟨subs, hsubs⟩ := h
  rw [hsubs, List.getElem?_cons_succ, List.getElem?_map] at hk
  obtain ⟨sub, -, rfl⟩ := Option.map_eq_some_iff.mp hk
  exact ⟨sub, rfl⟩

@[simp] theorem node_mapConn (f : NodeConnection → NodeConnection) (call : Async) :
    (call.mapConn f).node = call.node := by
  cases call with
  | connecting => rfl
  | scheduled => rfl
  | unsubscribing => rfl
  | closing => rfl

@[simp] theorem conn?_mapConn (f : NodeConnection → NodeConnection) (call : Async) :
    (call.mapConn f).conn? = call.conn?.map f := by
  cases call with
  | connecting => rfl
  | scheduled => rfl
  | unsubscribing => rfl
  | closing => rfl

/-- **The loop of `disconnect`** calls an unsub, or is through with them. -/
theorem disconnectFrom_cases (node : NodeName) (k : Nat) :
    (∃ unsub, conn.unsubs[k]? = some unsub ∧
      conn.disconnectFrom node k = .unsubscribing node (conn.call unsub) k) ∨
    (conn.unsubs[k]? = none ∧
      conn.disconnectFrom node k = .closing node { conn with unsubs := [] }) := by
  unfold NodeConnection.disconnectFrom
  cases hk : conn.unsubs[k]? with
  | some unsub => exact Or.inl ⟨unsub, rfl, rfl⟩
  | none => exact Or.inr ⟨rfl, rfl⟩

@[simp] theorem node_disconnectFrom (node : NodeName) (k : Nat) :
    (conn.disconnectFrom node k).node = node := by
  rcases disconnectFrom_cases conn node k with ⟨unsub, -, heq⟩ | ⟨-, heq⟩
  · rw [heq]
    rfl
  · rw [heq]
    rfl

/-- No unsub starts the watchdog. -/
theorem unarmed_disconnectFrom {conn : NodeConnection} (h : conn.armed = false) (node : NodeName)
    (k : Nat) {conn' : NodeConnection} (h' : (conn.disconnectFrom node k).conn? = some conn') :
    conn'.armed = false := by
  rcases disconnectFrom_cases conn node k with ⟨unsub, -, heq⟩ | ⟨-, heq⟩
  · rw [heq] at h'
    rw [← Option.some.inj h']
    cases unsub with
    | stopWatchdog => rfl
    | subscription => exact h
  · rw [heq] at h'
    rw [← Option.some.inj h']
    exact h

/-- `disconnect` begins with the watchdog. -/
theorem unarmed_disconnect {conn : NodeConnection} (h : Ordered conn) (node : NodeName)
    {conn' : NodeConnection} (h' : (conn.disconnectFrom node 0).conn? = some conn') :
    conn'.armed = false := by
  obtain ⟨subs, hsubs⟩ := h
  have hfirst : conn.unsubs[0]? = some .stopWatchdog := by rw [hsubs]; rfl
  unfold NodeConnection.disconnectFrom at h'
  rw [hfirst] at h'
  rw [← Option.some.inj h']
  rfl

theorem ordered_disconnectFrom {conn : NodeConnection} (h : Ordered conn) (node : NodeName)
    (k : Nat) {node' : NodeName} {conn' : NodeConnection} {k' : Nat}
    (h' : conn.disconnectFrom node k = .unsubscribing node' conn' k') : Ordered conn' := by
  rcases disconnectFrom_cases conn node k with ⟨unsub, -, heq⟩ | ⟨-, heq⟩
  · rw [heq] at h'
    obtain ⟨-, rfl, -⟩ := Async.unsubscribing.inj h'
    cases unsub with
    | stopWatchdog => exact h
    | subscription => exact h
  · rw [heq] at h'
    exact absurd h' (by simp)

end Parts

/-- **What `reconnectNode` does**: it tears down the connection it finds, or connects. -/
theorem reconnectNode_cases (s : Connections) (node : NodeName) :
    (∃ conn ∈ s.connections, conn.nodeName = node ∧ s.reconnectNode node =
      ({ s with connections := s.connections.eraseP (fun conn => conn.nodeName = node) },
        conn.disconnectFrom node 0)) ∨
    ((∀ conn ∈ s.connections, conn.nodeName ≠ node) ∧
      s.reconnectNode node = (s, .connecting node)) := by
  unfold reconnectNode
  cases hfind : s.connections.find? (fun conn => conn.nodeName = node) with
  | some conn =>
      have hname := List.find?_some hfind
      exact Or.inl ⟨conn, List.mem_of_find?_eq_some hfind, by simpa using hname, rfl⟩
  | none =>
      refine Or.inr ⟨fun conn hconn => ?_, rfl⟩
      simpa using List.find?_eq_none.mp hfind conn hconn

/-- What an event does to the connections of a chain. -/
inductive ConnectionStep (s : Connections) : ConnectionEvent → Connections → Prop where
  | idle (e : ConnectionEvent) : ConnectionStep s e s
  | connected (i : Nat) (node : NodeName) (hi : s.calls[i]? = some (.connecting node)) :
      ConnectionStep s (.connected i) { s with
        calls := s.calls.eraseIdx i
        connections :=
          s.connections ++ [({ nodeName := node } : NodeConnection).startSubscriptions] }
  | failed (i : Nat) (node : NodeName) (hi : s.calls[i]? = some (.connecting node)) :
      ConnectionStep s (.failed i) { s with calls := s.calls.set i (.scheduled node) }
  | due (i : Nat) (node : NodeName) (hi : s.calls[i]? = some (.scheduled node)) :
      ConnectionStep s (.due i) { (s.reconnectNode node).1 with
        calls := (s.reconnectNode node).1.calls.set i (s.reconnectNode node).2 }
  /-- `disconnect` goes on with the next unsub. -/
  | unsubscribed (i : Nat) (ok : Bool) (node : NodeName) (conn conn' : NodeConnection) (k : Nat)
      (hi : s.calls[i]? = some (.unsubscribing node conn k))
      (hunsubs : conn'.unsubs = conn.unsubs) (harmed : conn'.armed = conn.armed) :
      ConnectionStep s (.settled i ok)
        { s with calls := s.calls.set i (conn'.disconnectFrom node (k + 1)) }
  | closed (i : Nat) (ok : Bool) (node : NodeName) (conn : NodeConnection)
      (hi : s.calls[i]? = some (.closing node conn)) :
      ConnectionStep s (.settled i ok) { s with
        calls := s.calls.set i (.connecting node)
        old := s.old ++ [conn.closed ok] }
  | subscribed (place : Place) (sub : Subscription) : ConnectionStep s (.subscribed place sub)
      (s.modifyAt (fun conn => conn.subscribed sub) place)
  | head (place : Place) (sub : Subscription) : ConnectionStep s (.head place sub)
      (s.modifyAt (fun conn => conn.onHead sub) place)
  | expire (place : Place) (conn : NodeConnection) (hplace : s.at? place = some conn)
      (harmed : conn.armed = true) (u : Connections)
      (hu : s.modifyAt NodeConnection.stopWatchdog place = u) : ConnectionStep s (.expire place)
        { (u.reconnectNode conn.nodeName).1 with
          calls := (u.reconnectNode conn.nodeName).1.calls
            ++ [(u.reconnectNode conn.nodeName).2] }

theorem connectionStep (s : Connections) (e : ConnectionEvent) :
    ConnectionStep s e (s.step e) := by
  cases e with
  | connected i =>
      unfold Connections.step
      dsimp only
      split
      · rename_i node hi
        exact .connected i node hi
      · exact .idle _
  | failed i =>
      unfold Connections.step
      dsimp only
      split
      · rename_i node hi
        exact .failed i node hi
      · exact .idle _
  | due i =>
      unfold Connections.step
      dsimp only
      split
      · rename_i node hi
        exact .due i node hi
      · exact .idle _
  | settled i ok =>
      unfold Connections.step
      dsimp only
      split
      · rename_i node conn k hi
        obtain ⟨hunsubs, harmed⟩ := settle_frame conn ok k rfl
        exact .unsubscribed i ok node conn _ k hi hunsubs harmed
      · rename_i node conn hi
        exact .closed i ok node conn hi
      · exact .idle _
  | subscribed place sub => exact .subscribed place sub
  | head place sub => exact .head place sub
  | expire place =>
      unfold Connections.step
      dsimp only
      split
      · rename_i conn hplace
        split
        · rename_i harmed
          exact .expire place conn hplace harmed _ rfl
        · exact .idle _
      · exact .idle _

/-! ## Who holds a node -/

/-- The nodes held by listed connections, and by what the chain awaits. -/
def holders (s : Connections) : List NodeName :=
  s.connections.map NodeConnection.nodeName ++ s.calls.map Async.node

/-- Every node is held once, and only listed connections have a watchdog running. -/
structure Held (s : Connections) : Prop where
  holders : (holders s).Nodup
  leaving : ∀ call ∈ s.calls, ∀ conn, call.conn? = some conn → conn.armed = false
  old : ∀ conn ∈ s.old, conn.armed = false

/-- Connections that are listed, or whose unsubs are being called, have them in order. -/
structure InOrder (s : Connections) : Prop where
  listed : ∀ conn ∈ s.connections, Ordered conn
  leaving : ∀ node conn k, .unsubscribing node conn k ∈ s.calls → Ordered conn

theorem inOrder_init (nodes : List NodeName) : InOrder (machine nodes).init where
  listed := fun _ hconn => absurd hconn (by simp [machine])
  leaving := by
    intro node conn k hcall
    obtain ⟨node', -, heq⟩ := List.mem_map.mp hcall
    exact absurd heq (by simp)

theorem names_modifyAt {f : NodeConnection → NodeConnection}
    (hf : ∀ conn, (f conn).nodeName = conn.nodeName) (s : Connections) (place : Place) :
    (s.modifyAt f place).connections.map NodeConnection.nodeName
      = s.connections.map NodeConnection.nodeName := by
  cases place with
  | listed i => exact map_modify_eq hf s.connections i
  | leaving i => rfl
  | old i => rfl

theorem holders_modifyAt {f : NodeConnection → NodeConnection}
    (hf : ∀ conn, (f conn).nodeName = conn.nodeName) (s : Connections) (place : Place) :
    holders (s.modifyAt f place) = holders s := by
  unfold holders
  rw [names_modifyAt hf]
  cases place with
  | listed i => rfl
  | leaving i => exact congrArg (_ ++ ·) (map_modify_eq (node_mapConn f) s.calls i)
  | old i => rfl

theorem holders_set {s : Connections} {i : Nat} {call next : Async} (hi : s.calls[i]? = some call)
    (hnode : next.node = call.node) (old : List NodeConnection) :
    holders { s with calls := s.calls.set i next, old } = holders s :=
  congrArg (_ ++ ·) (map_set_eq hi hnode)

theorem InOrder.modifyAt {s : Connections} (h : InOrder s) {f : NodeConnection → NodeConnection}
    (hf : ∀ conn, Ordered conn → Ordered (f conn)) (place : Place) :
    InOrder (s.modifyAt f place) := by
  cases place with
  | listed i =>
      refine ⟨fun conn hconn => ?_, h.leaving⟩
      rcases mem_modify hconn with hconn | ⟨conn', hi, rfl⟩
      · exact h.listed conn hconn
      · exact hf conn' (h.listed conn' (List.mem_of_getElem? hi))
  | leaving i =>
      refine ⟨h.listed, fun node conn k hcall => ?_⟩
      rcases mem_modify hcall with hcall | ⟨call, hi, heq⟩
      · exact h.leaving node conn k hcall
      · cases call with
        | unsubscribing node' conn' k' =>
            obtain ⟨rfl, rfl, rfl⟩ := Async.unsubscribing.inj heq
            exact hf conn' (h.leaving _ conn' _ (List.mem_of_getElem? hi))
        | _ => exact absurd heq (by simp [Async.mapConn])
  | old i => exact ⟨h.listed, h.leaving⟩

theorem InOrder.set {s : Connections} (h : InOrder s) (i : Nat) {call : Async}
    (hcall : ∀ node conn k, call = .unsubscribing node conn k → Ordered conn)
    (old : List NodeConnection) : InOrder { s with calls := s.calls.set i call, old } := by
  refine ⟨h.listed, fun node conn k hmem => ?_⟩
  rcases List.mem_or_eq_of_mem_set hmem with hmem | heq
  · exact h.leaving node conn k hmem
  · exact hcall node conn k heq.symm

/-- Where `reconnectNode` leaves off, everything is in order. -/
theorem InOrder.reconnectNode {s : Connections} (h : InOrder s) (node : NodeName) :
    InOrder (s.reconnectNode node).1 ∧
      ∀ node' conn k, (s.reconnectNode node).2 = .unsubscribing node' conn k → Ordered conn := by
  rcases reconnectNode_cases s node with ⟨conn, hconn, -, heq⟩ | ⟨-, heq⟩
  · rw [heq]
    refine ⟨⟨fun conn' hconn' => h.listed conn' (List.mem_of_mem_eraseP hconn'), h.leaving⟩, ?_⟩
    intro node' conn' k hcall
    exact ordered_disconnectFrom (h.listed conn hconn) node 0 hcall
  · rw [heq]
    exact ⟨h, fun _ _ _ hcall => absurd hcall (by simp)⟩

/-- **Everything stays in order.** -/
theorem inOrder_step {s : Connections} (h : InOrder s) (e : ConnectionEvent) :
    InOrder (s.step e) := by
  have hstep := connectionStep s e
  generalize s.step e = s' at hstep ⊢
  cases hstep with
  | idle => exact h
  | connected i node =>
      refine ⟨fun conn hconn => ?_, fun node' conn k hcall => ?_⟩
      · rcases List.mem_append.mp hconn with hconn | hconn
        · exact h.listed conn hconn
        · rw [List.mem_singleton.mp hconn]
          -- a fresh connection: the watchdog stop is the first thing it will undo
          exact ordered_startSubscriptions rfl
      · exact h.leaving node' conn k (List.mem_of_mem_eraseIdx hcall)
  | failed i => exact h.set i (by simp) s.old
  | due i node =>
      obtain ⟨hs, hcall⟩ := h.reconnectNode node
      exact hs.set i hcall _
  | unsubscribed i ok node conn conn' k hi hunsubs =>
      have hconn := h.leaving node conn k (List.mem_of_getElem? hi)
      exact h.set i (fun _ _ _ hcall =>
        ordered_disconnectFrom (hconn.congr hunsubs) node (k + 1) hcall) s.old
  | closed i => exact h.set i (by simp) _
  | subscribed place sub => exact h.modifyAt (fun _ hconn => hconn.subscribed sub) place
  | head place sub =>
      exact h.modifyAt (fun conn hconn => hconn.congr (unsubs_onHead conn sub)) place
  | expire place conn hplace harmed u hu =>
      have hstop : InOrder u := by
        rw [← hu]
        exact h.modifyAt (f := NodeConnection.stopWatchdog) (fun _ hconn => hconn) place
      obtain ⟨hs, hcall⟩ := hstop.reconnectNode conn.nodeName
      refine ⟨hs.listed, fun node conn' k hmem => ?_⟩
      rcases List.mem_append.mp hmem with hmem | hmem
      · exact hs.leaving node conn' k hmem
      · exact hcall node conn' k (List.mem_singleton.mp hmem).symm

/-! ## Without late heads -/

theorem held_init {nodes : List NodeName} (h : nodes.Nodup) : Held (machine nodes).init where
  holders := by
    have hnodes : holders (machine nodes).init = nodes := by
      change [] ++ (nodes.map Async.connecting).map Async.node = nodes
      rw [List.nil_append, List.map_map]
      exact List.map_id nodes
    rw [hnodes]
    exact h
  leaving := by
    intro call hcall conn hconn
    obtain ⟨node, -, rfl⟩ := List.mem_map.mp hcall
    exact absurd hconn (by simp [Async.conn?])
  old := fun _ hconn => absurd hconn (by simp [machine])

/-- The call that takes the place of one that held the same node. -/
theorem Held.set {s : Connections} (h : Held s) (next : Async) {i : Nat} {call : Async}
    (hi : s.calls[i]? = some call) (hnode : next.node = call.node)
    (hconn : ∀ conn, next.conn? = some conn → conn.armed = false) {old : List NodeConnection}
    (hold : ∀ conn ∈ old, conn.armed = false) :
    Held { s with calls := s.calls.set i next, old } where
  holders := by
    rw [holders_set hi hnode]
    exact h.holders
  leaving := by
    intro call hcall conn hc
    rcases List.mem_or_eq_of_mem_set hcall with hcall | rfl
    · exact h.leaving call hcall conn hc
    · exact hconn conn hc
  old := hold

/-- A change that starts the watchdog of listed connections at most. -/
theorem Held.modifyAt {s : Connections} (h : Held s) {f : NodeConnection → NodeConnection}
    {place : Place} (hname : ∀ conn, (f conn).nodeName = conn.nodeName)
    (harmed : (∀ i, place ≠ .listed i) → ∀ conn, s.at? place = some conn → conn.armed = false →
      (f conn).armed = false) : Held (s.modifyAt f place) where
  holders := by
    rw [holders_modifyAt hname]
    exact h.holders
  leaving := by
    intro call hcall conn hconn
    cases place with
    | listed i => exact h.leaving call hcall conn hconn
    | leaving i =>
        rcases mem_modify hcall with hcall | ⟨next, hi, rfl⟩
        · exact h.leaving call hcall conn hconn
        · rw [conn?_mapConn] at hconn
          obtain ⟨conn', hconn', rfl⟩ := Option.map_eq_some_iff.mp hconn
          have hat : s.at? (.leaving i) = some conn' := by
            change s.calls[i]?.bind Async.conn? = some conn'
            rw [hi]
            exact hconn'
          exact harmed (by simp) conn' hat
            (h.leaving next (List.mem_of_getElem? hi) conn' hconn')
    | old i => exact h.leaving call hcall conn hconn
  old := by
    intro conn hconn
    cases place with
    | listed i => exact h.old conn hconn
    | leaving i => exact h.old conn hconn
    | old i =>
        rcases mem_modify hconn with hconn | ⟨conn', hi, rfl⟩
        · exact h.old conn hconn
        · exact harmed (by simp) conn' hi (h.old conn' (List.mem_of_getElem? hi))

/-- Only a listed connection has its watchdog running. -/
theorem Held.listed {s : Connections} (h : Held s) {place : Place} {conn : NodeConnection}
    (hplace : s.at? place = some conn) (harmed : conn.armed = true) : conn ∈ s.connections := by
  cases place with
  | listed i => exact List.mem_of_getElem? hplace
  | leaving i =>
      obtain ⟨call, hi, hconn⟩ := Option.bind_eq_some_iff.mp hplace
      have hoff := h.leaving call (List.mem_of_getElem? hi) conn hconn
      exact absurd harmed (by simp [hoff])
  | old i =>
      have hoff := h.old conn (List.mem_of_getElem? hplace)
      exact absurd harmed (by simp [hoff])

/-- A listed connection hands its node on to the call that reconnects it. -/
theorem held_expire {u : Connections} (ho : InOrder u) (h : Held u) {node : NodeName}
    (hlisted : node ∈ u.connections.map NodeConnection.nodeName) :
    Held { (u.reconnectNode node).1 with
      calls := (u.reconnectNode node).1.calls ++ [(u.reconnectNode node).2] } := by
  rcases reconnectNode_cases u node with ⟨conn, hconn, hname, heq⟩ | ⟨hnone, -⟩
  · rw [heq, ← hname]
    refine ⟨?_, fun call hcall conn' hconn' => ?_, h.old⟩
    · have hperm := perm_eraseP (g := NodeConnection.nodeName) hconn
      have hheld := h.holders
      unfold holders at hheld ⊢
      dsimp only
      rw [List.map_append, ← List.append_assoc, List.map_singleton, node_disconnectFrom]
      refine (List.Perm.nodup_iff ?_).mpr hheld
      refine (List.perm_append_singleton _ _).trans ?_
      rw [← List.cons_append]
      exact hperm.append_right _
    · rcases List.mem_append.mp hcall with hcall | hcall
      · exact h.leaving call hcall conn' hconn'
      · rw [List.mem_singleton.mp hcall] at hconn'
        exact unarmed_disconnect (ho.listed conn hconn) _ hconn'
  · -- a second call for the node would hold it twice, but the connection is found
    obtain ⟨conn, hconn, hname⟩ := List.mem_map.mp hlisted
    exact absurd hname (hnone conn hconn)

/-- **A step without a late head leaves every node held once.** -/
theorem held_step {s : Connections} {e : ConnectionEvent} (ho : InOrder s) (h : Held s)
    (hlate : ¬ LateHead s e) : Held (s.step e) := by
  have hstep := connectionStep s e
  generalize s.step e = s' at hstep ⊢
  cases hstep with
  | idle => exact h
  | connected i node hi =>
      -- the node goes from the call to the list
      refine ⟨?_, fun call hcall => h.leaving call (List.mem_of_mem_eraseIdx hcall), h.old⟩
      have hperm := (perm_eraseIdx hi).map Async.node
      have hheld := h.holders
      unfold holders at hheld ⊢
      dsimp only
      rw [List.map_append, List.append_assoc]
      exact (List.Perm.nodup_iff (hperm.append_left _)).mpr hheld
  | failed i node hi => exact h.set (.scheduled node) hi rfl (by simp [Async.conn?]) h.old
  | due i node hi =>
      rcases reconnectNode_cases s node with ⟨conn, hconn, -, heq⟩ | ⟨-, heq⟩
      · rw [heq]
        have hset := h.set (conn.disconnectFrom node 0) hi (node_disconnectFrom ..)
          (fun conn' hconn' => unarmed_disconnect (ho.listed conn hconn) node hconn') h.old
        refine ⟨?_, hset.leaving, hset.old⟩
        have hsub := List.eraseP_sublist (p := fun conn => decide (conn.nodeName = node))
          (l := s.connections)
        exact hset.holders.sublist ((hsub.map _).append_right _)
      · rw [heq]
        exact h.set (.connecting node) hi rfl (by simp [Async.conn?]) h.old
  | unsubscribed i ok node conn conn' k hi hunsubs harmed =>
      have hoff := harmed.trans (h.leaving _ (List.mem_of_getElem? hi) conn rfl)
      exact h.set _ hi (node_disconnectFrom ..)
        (fun _ hc => unarmed_disconnectFrom hoff node (k + 1) hc) h.old
  | closed i ok node conn hi =>
      refine h.set (.connecting node) hi rfl (by simp [Async.conn?]) fun conn' hconn' => ?_
      rcases List.mem_append.mp hconn' with hconn' | hconn'
      · exact h.old conn' hconn'
      · rw [List.mem_singleton.mp hconn', armed_closed]
        exact h.leaving _ (List.mem_of_getElem? hi) conn rfl
  | subscribed place sub =>
      exact h.modifyAt (fun conn => nodeName_subscribed conn sub) fun _ conn _ hoff =>
        (armed_subscribed conn sub).trans hoff
  | head place sub =>
      refine h.modifyAt (fun conn => nodeName_onHead conn sub) fun hplace conn hconn hoff => ?_
      -- off the list, only a head on a subscription that has ended is left
      have hdead : sub ∉ conn.live := fun hlive =>
        hlate ⟨place, sub, conn, rfl, hplace, hconn, hlive⟩
      rw [onHead_of_not_live hdead]
      exact hoff
  | expire place conn hplace harmed u hu =>
      subst hu
      refine held_expire (ho.modifyAt (f := NodeConnection.stopWatchdog) (fun _ hconn => hconn) place)
        (h.modifyAt (fun _ => rfl) fun _ _ _ _ => rfl) ?_
      -- stopped, it is still listed under its name
      rw [names_modifyAt (f := NodeConnection.stopWatchdog) fun _ => rfl]
      exact List.mem_map_of_mem (h.listed hplace harmed)

/-- The watchdog of a connection that is gone does nothing. -/
theorem expire_of_unarmed {s : Connections} (h : ∀ conn ∈ s.old, conn.armed = false) (i : Nat) :
    s.step (.expire (.old i)) = s := by
  cases hplace : s.at? (.old i) with
  | none => simp only [Connections.step, hplace]
  | some conn =>
      have hoff := h conn (List.mem_of_getElem? hplace)
      simp [Connections.step, hplace, hoff]

/-- **Nodes held once have one live connection and one watchdog.** -/
theorem Held.oneLive {s : Connections} (h : Held s) : OneLive s where
  names := h.holders.sublist (List.sublist_append_left ..)
  watchdogs := by
    have hleaving : (s.calls.filterMap Async.conn?).filter NodeConnection.armed = [] := by
      rw [List.filter_eq_nil_iff]
      intro conn hconn
      obtain ⟨call, hcall, heq⟩ := List.mem_filterMap.mp hconn
      simp [h.leaving call hcall conn heq]
    have hold : s.old.filter NodeConnection.armed = [] := by
      rw [List.filter_eq_nil_iff]
      intro conn hconn
      simp [h.old conn hconn]
    unfold watchdogs
    rw [List.filter_append, List.filter_append, hleaving, hold, List.append_nil, List.append_nil]
    exact h.holders.sublist ((List.filter_sublist.map _).trans (List.sublist_append_left ..))
  stopped := h.old
  silent := expire_of_unarmed h.old

/-! ## After a late head -/

section Completion

variable {nodes : List NodeName} {s : Connections} {i : Nat} {node : NodeName}
  {conn : NodeConnection}

theorem not_lateHead_settled (s : Connections) (i : Nat) (ok : Bool) :
    ¬ LateHead s (.settled i ok) := by
  intro hlate
  obtain ⟨place, sub, conn, heq, -⟩ := hlate
  exact absurd heq (by simp)

/-- Without another late head, a connection is going to be gone with its watchdog running. -/
def EndsArmed (nodes : List NodeName) (s : Connections) : Prop :=
  ∃ later, (machine nodes).Guarded (fun s e => ¬ LateHead s e) s later ∧
    ∃ conn ∈ ((machine nodes).runFrom s later).old, conn.armed = true

theorem EndsArmed.not_staysOneLive (h : EndsArmed nodes s) : ¬ StaysOneLive nodes s := by
  intro hstays
  obtain ⟨later, hg, conn, hconn, harmed⟩ := h
  exact absurd ((hstays later hg).stopped conn hconn) (by simp [harmed])

theorem EndsArmed.of_settled {ok : Bool} (h : EndsArmed nodes (s.step (.settled i ok))) :
    EndsArmed nodes s := by
  obtain ⟨later, hg, hold⟩ := h
  exact ⟨.settled i ok :: later, ⟨not_lateHead_settled s i ok, hg⟩, hold⟩

/-- `disconnect` ends by leaving the connection as it is. -/
theorem endsArmed_closing (hi : s.calls[i]? = some (.closing node conn))
    (harmed : conn.armed = true) : EndsArmed nodes s := by
  have hgone : conn.closed true ∈ (s.step (.settled i true)).old := by
    simp [Connections.step, hi]
  have hend : EndsArmed nodes (s.step (.settled i true)) :=
    ⟨[], trivial, conn.closed true, hgone, (armed_closed conn true).trans harmed⟩
  exact hend.of_settled

/-- One turn of the loop of `disconnect` on a connection whose watchdog is running again. -/
theorem settled_unsubscribing {k : Nat} (hi : s.calls[i]? = some (.unsubscribing node conn k))
    (ho : Ordered conn) (harmed : conn.armed = true) :
    ∃ conn', conn'.armed = true ∧
      (((s.step (.settled i true)).calls[i]? = some (.unsubscribing node conn' (k + 1)) ∧
          Ordered conn' ∧ conn'.unsubs = conn.unsubs ∧ k + 1 < conn.unsubs.length) ∨
        (s.step (.settled i true)).calls[i]? = some (.closing node conn')) := by
  obtain ⟨conn₁, hconn₁⟩ : ∃ conn₁, (conn.unsubs[k]?).elim conn (conn.settle true) = conn₁ :=
    ⟨_, rfl⟩
  obtain ⟨hunsubs, hsame⟩ := settle_frame conn true k hconn₁
  have harmed₁ := hsame.trans harmed
  have ho₁ := ho.congr hunsubs
  have hlt : i < s.calls.length := (List.getElem?_eq_some_iff.mp hi).1
  have hstep : (s.step (.settled i true)).calls[i]?
      = some (conn₁.disconnectFrom node (k + 1)) := by
    simp only [Connections.step, hi, hconn₁, List.getElem?_set_self hlt]
  rw [hstep]
  rcases disconnectFrom_cases conn₁ node (k + 1) with ⟨unsub, hk, heq⟩ | ⟨-, heq⟩
  · -- what is left to call ends a subscription, and leaves the watchdog alone
    obtain ⟨sub, rfl⟩ := ho₁.subscription hk
    refine ⟨conn₁, harmed₁, Or.inl ⟨congrArg some heq, ho₁, hunsubs, ?_⟩⟩
    rw [hunsubs] at hk
    exact (List.getElem?_eq_some_iff.mp hk).1
  · exact ⟨{ conn₁ with unsubs := [] }, harmed₁, Or.inr (congrArg some heq)⟩

/--
**A `disconnect` under way completes**, and what is left of it does not stop a watchdog
that was started meanwhile.
-/
theorem endsArmed_unsubscribing (m : Nat) {k : Nat}
    (hi : s.calls[i]? = some (.unsubscribing node conn k)) (ho : Ordered conn)
    (harmed : conn.armed = true) (hm : conn.unsubs.length ≤ k + m) : EndsArmed nodes s := by
  induction m generalizing s conn k with
  | zero =>
      obtain ⟨conn', harmed', ⟨-, -, -, hlt⟩ | hclosing⟩ := settled_unsubscribing hi ho harmed
      · omega
      · exact (endsArmed_closing hclosing harmed').of_settled
  | succ m ih =>
      obtain ⟨conn', harmed', ⟨hnext, ho', hunsubs, -⟩ | hclosing⟩ :=
        settled_unsubscribing hi ho harmed
      · exact (ih hnext ho' harmed' (by rw [hunsubs]; omega)).of_settled
      · exact (endsArmed_closing hclosing harmed').of_settled

end Completion

/-- **After a late head the property is going to fail.** -/
theorem not_staysOneLive_of_lateHead {nodes : List NodeName} {s : Connections}
    {e : ConnectionEvent} (ho : InOrder s) (hlate : LateHead s e) :
    ¬ StaysOneLive nodes (s.step e) := by
  obtain ⟨place, sub, conn, rfl, hplace, hconn, hlive⟩ := hlate
  have harmed := armed_onHead hlive
  refine EndsArmed.not_staysOneLive ?_
  cases place with
  | listed i => exact absurd rfl (hplace i)
  | leaving i =>
      obtain ⟨call, hi, hcall⟩ := Option.bind_eq_some_iff.mp hconn
      have hi' : (s.step (.head (.leaving i) sub)).calls[i]?
          = some (call.mapConn fun conn => conn.onHead sub) := by
        change (s.calls.modify i _)[i]? = _
        rw [List.getElem?_modify_eq, hi]
        rfl
      cases call with
      | unsubscribing node conn' k =>
          obtain rfl := Option.some.inj hcall
          have hconn' := ho.leaving node conn' k (List.mem_of_getElem? hi)
          exact endsArmed_unsubscribing (conn'.onHead sub).unsubs.length hi'
            (hconn'.congr (unsubs_onHead conn' sub)) harmed (Nat.le_add_left ..)
      | closing node conn' =>
          obtain rfl := Option.some.inj hcall
          exact endsArmed_closing hi' harmed
      | connecting => exact absurd hcall (by simp [Async.conn?])
      | scheduled => exact absurd hcall (by simp [Async.conn?])
  | old i =>
      -- it is gone already
      refine ⟨[], trivial, conn.onHead sub, ?_, harmed⟩
      change conn.onHead sub ∈ s.old.modify i fun conn => conn.onHead sub
      refine List.mem_of_getElem? (i := i) ?_
      have hi : s.old[i]? = some conn := hconn
      rw [List.getElem?_modify_eq, hi]
      rfl

theorem step_connected {s : Connections} {i : Nat} {node : NodeName}
    (hi : s.calls[i]? = some (.connecting node)) : s.step (.connected i) = { s with
      calls := s.calls.eraseIdx i
      connections :=
        s.connections ++ [({ nodeName := node } : NodeConnection).startSubscriptions] } := by
  simp only [Connections.step, hi]

theorem not_lateHead_connected (s : Connections) (i : Nat) : ¬ LateHead s (.connected i) := by
  intro hlate
  obtain ⟨place, sub, conn, heq, -⟩ := hlate
  exact absurd heq (by simp)

/-- Nodes that share a name are all connected to, and listed under that name. -/
theorem nodup_of_staysOneLive {nodes : List NodeName}
    (h : StaysOneLive nodes (machine nodes).init) : nodes.Nodup := by
  rw [List.nodup_iff_getElem?_ne_getElem?]
  intro i j hij hj hsame
  have hnode : ∀ k, k < nodes.length →
      (machine nodes).init.calls[k]? = nodes[k]?.map Async.connecting :=
    fun k _ => List.getElem?_map
  obtain ⟨node, hj'⟩ : ∃ node, nodes[j]? = some node := ⟨nodes[j], List.getElem?_eq_getElem hj⟩
  have hcallj : (machine nodes).init.calls[j]? = some (.connecting node) := by
    rw [hnode j hj, hj']
    rfl
  have hcalli : ((machine nodes).init.step (.connected j)).calls[i]?
      = some (.connecting node) := by
    rw [step_connected hcallj]
    dsimp only
    rw [List.getElem?_eraseIdx_of_lt hij, hnode i (hij.trans hj), hsame, hj']
    rfl
  have hlive := h [.connected j, .connected i]
    ⟨not_lateHead_connected _ j, not_lateHead_connected _ i, trivial⟩
  have htwice : (((machine nodes).init.step (.connected j)).step (.connected i)).connections.map
      NodeConnection.nodeName = [node, node] := by
    rw [step_connected hcalli, step_connected hcallj]
    rfl
  have hnames := hlive.names
  change (((machine nodes).init.step (.connected j)).step (.connected i)).connections.map
    NodeConnection.nodeName |>.Nodup at hnames
  rw [htwice] at hnames
  exact absurd hnames (by simp)

/-! ## Runs -/

/--
**When every node has one live connection and one watchdog.** All along a run, and in
whatever may still come of it, exactly if the nodes of the chain have different names and
no head arrives on a connection that `reconnectNode` has taken out of the list.
-/
theorem oneLive_iff (nodes : List NodeName) (evs : List ConnectionEvent) :
    (∀ pre, pre <+: evs → StaysOneLive nodes ((machine nodes).run pre)) ↔
      nodes.Nodup ∧
        (machine nodes).Guarded (fun s e => ¬ LateHead s e) (machine nodes).init evs := by
  refine ⟨fun h => ?_, fun h pre hpre later hlater => ?_⟩
  · have hinit : StaysOneLive nodes (machine nodes).init := h [] (List.nil_prefix ..)
    refine ⟨nodup_of_staysOneLive hinit, ?_⟩
    refine (Machine.always_iff_guarded (A := fun _ _ => True) (I := InOrder)
      (P := StaysOneLive nodes) (inOrder_init nodes) (fun _ e ho _ => inOrder_step ho e) hinit ?_
      (Machine.guarded_of_forall fun _ _ => trivial)).mp h
    intro s e ho _ hs
    refine ⟨fun hstep hlate => not_staysOneLive_of_lateHead ho hlate hstep, fun hlate later hg => ?_⟩
    exact hs (e :: later) ⟨hlate, hg⟩
  · obtain ⟨hnodup, hg⟩ := h
    obtain ⟨post, rfl⟩ := hpre
    have hall : (machine nodes).Guarded (fun s e => ¬ LateHead s e) (machine nodes).init
        (pre ++ later) :=
      Machine.guarded_append.mpr ⟨(Machine.guarded_append.mp hg).1, hlater⟩
    -- nodes are held once all the way to the state looked at
    have hheld : InOrder ((machine nodes).run (pre ++ later)) ∧
        Held ((machine nodes).run (pre ++ later)) :=
      Machine.guarded_invariant (I := fun s => InOrder s ∧ Held s)
        ⟨inOrder_init nodes, held_init hnodup⟩
        (fun _ e hs hlate => ⟨inOrder_step hs.1 e, held_step hs.1 hs.2 hlate⟩) hall
    rw [← Machine.run_append]
    exact hheld.2.oneLive

/-! ## A head between two unsubs

The watchdog of the only connection of `n` fires. While `disconnect` ends its first
subscription, another one delivers a head. -/

/-- The new connection is not up yet when the old watchdog fires. -/
def lateHeadRun : List ConnectionEvent :=
  [.connected 0, .subscribed (.listed 0) .allHeads, .subscribed (.listed 0) .newHeads,
    .subscribed (.listed 0) .finalizedHeads, .expire (.listed 0), .settled 0 true,
    .head (.leaving 0) .finalizedHeads, .settled 0 true, .settled 0 true, .settled 0 true,
    .settled 0 true]

/-- The connection is gone with its watchdog running, and in the end the node is listed twice. -/
theorem not_oneLive_lateHeadRun :
    ¬ OneLive ((machine ["n"]).run lateHeadRun) ∧
      ¬ OneLive ((machine ["n"]).run
        (lateHeadRun ++ [.expire (.old 0), .connected 0, .connected 0])) := by
  refine ⟨fun h => ?_, fun h => ?_⟩
  · exact absurd h.stopped (by decide)
  · exact absurd h.names (by decide)

/-- Or the old watchdog tears down the new connection. -/
example :
    ((machine ["n"]).run (lateHeadRun ++ [.connected 0])).connections.length = 1 ∧
      ((machine ["n"]).run
        (lateHeadRun ++ [.connected 0, .expire (.old 0)])).connections = [] := by
  decide

end ForkWatch.Proof
