import ForkWatch.Monitor.Causation

/-!
# Which node's relay parent counts

`getRelayParent` means to ask every connected node until one of them answers. What
a single node has to say is `answer`: what its storage says, else what the body of
the block says.

A node can do three things to the loop: answer, pass it on to the next node, or
end it without an answer. The last is what happens when its storage cannot be
queried and its block body can be read but says nothing (`EndsEmptyHanded`).
Everything behind such a node is never asked, and `getRelayParent_eq_iff` says that
nothing else goes wrong.
-/

namespace ForkWatch.Proof

variable {blockHash : Hash}

/-- What one node has to say about a block, whichever way it says it. -/
def answer (blockHash : Hash) (conn : RelayConnection) : Option RelayParent :=
  match queryRelayParent conn.api blockHash with
  | some relayParent => relayParent
  | none => (getRelayParentFromInherent conn.api blockHash).join

/-- Its storage cannot be queried, and the body it delivers has no usable inherent. -/
def EndsEmptyHanded (blockHash : Hash) (conn : RelayConnection) : Prop :=
  queryRelayParent conn.api blockHash = none
    ∧ getRelayParentFromInherent conn.api blockHash = some none

/-- A node that is asked alone gives its answer. -/
theorem askNodes_singleton (conn : RelayConnection) :
    askNodes blockHash [conn] = answer blockHash conn := by
  unfold answer
  rw [askNodes]
  cases queryRelayParent conn.api blockHash with
  | some relayParent => cases relayParent <;> rfl
  | none =>
      cases getRelayParentFromInherent conn.api blockHash with
      | none => rfl
      | some relayParent => cases relayParent <;> rfl

theorem getRelayParent_singleton {conn : RelayConnection} (hc : conn.connected = true) :
    getRelayParent [conn] blockHash = answer blockHash conn := by
  unfold getRelayParent
  rw [List.filter_cons_of_pos hc, List.filter_nil, askNodes_singleton]

/-! ## The three things a node does to the loop -/

theorem askNodes_of_answer {conn : RelayConnection} {relayParent : RelayParent}
    (h : answer blockHash conn = some relayParent) (rest : List RelayConnection) :
    askNodes blockHash (conn :: rest) = some relayParent := by
  unfold answer at h
  rw [askNodes]
  split at h
  · rename_i hquery
    rw [hquery, h]
  · rename_i hquery
    rw [hquery, Option.join_eq_some_iff.mp h]

theorem askNodes_of_endsEmptyHanded {conn : RelayConnection}
    (h : EndsEmptyHanded blockHash conn) (rest : List RelayConnection) :
    askNodes blockHash (conn :: rest) = none := by
  rw [askNodes, h.1, h.2]

theorem askNodes_of_silent {conn : RelayConnection} (h : answer blockHash conn = none)
    (hends : ¬ EndsEmptyHanded blockHash conn) (rest : List RelayConnection) :
    askNodes blockHash (conn :: rest) = askNodes blockHash rest := by
  unfold answer at h
  unfold EndsEmptyHanded at hends
  rw [askNodes]
  split at h
  · rename_i hquery
    rw [hquery, h]
  · rename_i hquery
    rw [hquery]
    dsimp only
    -- the body could not be read either: a readable one without an inherent is ruled out
    cases hbody : getRelayParentFromInherent conn.api blockHash with
    | none => rfl
    | some relayParent =>
        rw [hbody, Option.join_some] at h
        rw [h] at hbody
        exact absurd ⟨hquery, hbody⟩ hends

theorem EndsEmptyHanded.answer_eq_none {conn : RelayConnection}
    (h : EndsEmptyHanded blockHash conn) : answer blockHash conn = none := by
  unfold answer
  rw [h.1, h.2]
  rfl

/-! ## All of them -/

/--
No node that answers stands behind one that ends the loop empty-handed, unless
another one has answered before.
-/
def NoneHidden (blockHash : Hash) (connections : List RelayConnection) : Prop :=
  ∀ before conn after, connections = before ++ conn :: after →
    EndsEmptyHanded blockHash conn → (∀ c ∈ before, answer blockHash c = none) →
      ∀ c ∈ after, answer blockHash c = none

theorem noneHidden_of_answer {conn : RelayConnection} {relayParent : RelayParent}
    (h : answer blockHash conn = some relayParent) (rest : List RelayConnection) :
    NoneHidden blockHash (conn :: rest) := by
  intro before c after hsplit hends hbefore
  -- the node that ends the loop would be this one, or have this one before it
  cases before with
  | nil =>
      obtain ⟨rfl, -⟩ := List.cons.inj hsplit
      rw [hends.answer_eq_none] at h
      exact absurd h (by simp)
  | cons d before =>
      obtain ⟨rfl, -⟩ := List.cons.inj hsplit
      rw [hbefore conn (by simp)] at h
      exact absurd h (by simp)

theorem noneHidden_cons_of_silent {conn : RelayConnection} (h : answer blockHash conn = none)
    (hends : ¬ EndsEmptyHanded blockHash conn) {rest : List RelayConnection} :
    NoneHidden blockHash (conn :: rest) ↔ NoneHidden blockHash rest := by
  refine ⟨?_, ?_⟩
  · intro hnone before c after hsplit hc hbefore
    refine hnone (conn :: before) c after (by rw [hsplit, List.cons_append]) hc ?_
    intro d hd
    rcases List.mem_cons.mp hd with rfl | hd
    · exact h
    · exact hbefore d hd
  · intro hnone before c after hsplit hc hbefore
    cases before with
    | nil =>
        obtain ⟨rfl, -⟩ := List.cons.inj hsplit
        exact absurd hc hends
    | cons d before =>
        obtain ⟨-, hrest⟩ := List.cons.inj hsplit
        exact hnone before c after hrest hc fun e he => hbefore e (by simp [he])

theorem noneHidden_cons_of_endsEmptyHanded {conn : RelayConnection}
    (h : EndsEmptyHanded blockHash conn) {rest : List RelayConnection} :
    NoneHidden blockHash (conn :: rest) ↔ ∀ c ∈ rest, answer blockHash c = none := by
  refine ⟨?_, ?_⟩
  · intro hnone
    exact hnone [] conn rest rfl h (by simp)
  · intro hall before c after hsplit _ _ d hd
    cases before with
    | nil =>
        obtain ⟨-, rfl⟩ := List.cons.inj hsplit
        exact hall d hd
    | cons e before =>
        obtain ⟨-, rfl⟩ := List.cons.inj hsplit
        exact hall d (by simp [hd])

/-- The loop finds the first answer exactly if no answering node is hidden. -/
theorem askNodes_eq_findSome_iff (connections : List RelayConnection) :
    askNodes blockHash connections = connections.findSome? (answer blockHash)
      ↔ NoneHidden blockHash connections := by
  induction connections with
  | nil => simp [askNodes, NoneHidden]
  | cons conn rest ih =>
      cases hanswer : answer blockHash conn with
      | some relayParent =>
          rw [askNodes_of_answer hanswer, List.findSome?_cons, hanswer]
          exact ⟨fun _ => noneHidden_of_answer hanswer rest, fun _ => rfl⟩
      | none =>
          rw [List.findSome?_cons, hanswer]
          by_cases hends : EndsEmptyHanded blockHash conn
          · -- whatever the nodes behind it would answer is lost
            rw [askNodes_of_endsEmptyHanded hends, noneHidden_cons_of_endsEmptyHanded hends,
              eq_comm]
            exact List.findSome?_eq_none_iff
          · rw [askNodes_of_silent hanswer hends, noneHidden_cons_of_silent hanswer hends]
            exact ih

/-- Asking the connected nodes one at a time is looking through their answers. -/
theorem findSome?_singleton (connections : List RelayConnection) :
    (connections.filter RelayConnection.connected).findSome?
        (fun conn => getRelayParent [conn] blockHash)
      = (connections.filter RelayConnection.connected).findSome? (answer blockHash) := by
  induction connections with
  | nil => rfl
  | cons conn rest ih =>
      by_cases hc : conn.connected = true
      · rw [List.filter_cons_of_pos hc, List.findSome?_cons, List.findSome?_cons,
          getRelayParent_singleton hc, ih]
      · rw [List.filter_cons_of_neg hc, ih]

/--
**When the lookup tries every node.**

`getRelayParent` gives the answer of the first connected node that, asked alone,
has one (and null exactly if there is no such node) if and only if no connected
node whose storage queries throw and whose readable block body has no usable
inherent comes before every node that answers.
-/
theorem getRelayParent_eq_iff (connections : List RelayConnection) (blockHash : Hash) :
    getRelayParent connections blockHash
        = (connections.filter RelayConnection.connected).findSome?
            (fun conn => getRelayParent [conn] blockHash)
      ↔ NoneHidden blockHash (connections.filter RelayConnection.connected) := by
  rw [findSome?_singleton]
  exact askNodes_eq_findSome_iff _

/-- A node without the state of the block, and with a body that has no inherent. -/
def emptyHanded : RelayConnection where
  connected := true
  api := { validationDataAt := fun _ => none, lastRelayChainBlockNumberAt := fun _ => none,
           getBlock := fun _ => some [] }

/-- A node that knows the relay parent. -/
def informed : RelayConnection where
  connected := true
  api := { validationDataAt := fun _ => some (some ⟨"0x5e", 7⟩),
           lastRelayChainBlockNumberAt := fun _ => some (some 7), getBlock := fun _ => some [] }

/-- A node that is asked first and has nothing to say hides the one that has. -/
theorem getRelayParent_emptyHanded_informed :
    getRelayParent [emptyHanded, informed] "0xb1" = none
    ∧ getRelayParent [informed] "0xb1" = some { hash := some "0x5e", number := some 7 }
    ∧ ¬ getRelayParent [emptyHanded, informed] "0xb1"
        = ([emptyHanded, informed].filter RelayConnection.connected).findSome?
            (fun conn => getRelayParent [conn] "0xb1") := by
  refine ⟨rfl, rfl, ?_⟩
  intro h
  exact absurd h (by decide)

end ForkWatch.Proof
