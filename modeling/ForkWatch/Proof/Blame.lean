import ForkWatch.Proof.RelayFork
import ForkWatch.Proof.Records

/-!
# Is a collator blamed only for its own blocks?

The verdict on a fork compares labels: a block's author name, or its address, or
the word "unknown" where there is neither. Headers arrive without authors, and a
handler fills them in only once the hook that takes the verdict has returned. So
the verdict normally sees two blocks that are both "unknown", and calls that one
author.

`attributed_iff` says exactly when the verdicts of a run are fair: when none of
them is taken on blocks that share one label although no author is known, or
although two known authors differ, or although someone carries the very label of
those who are not known.
-/

namespace ForkWatch.Proof

open Lib ChainContext

/-! ## Fair verdicts -/

/-- The record has no author, as the code tests for it. -/
def unattributed (b : BlockRecord) : Bool := (orNull b.author).isNone

/-- A verdict on these blocks agrees with who really wrote them. -/
structure Fair (real : Hash → Address) (blocks : List BlockRecord) (v : CauseVerdict) : Prop where
  /-- One collator is blamed only for blocks of one author. -/
  blamed : v.cause.blamesOneAuthor = true ∨ v.sameAuthor = true →
    ∀ b ∈ blocks, ∀ b' ∈ blocks, real b.hash = real b'.hash
  /-- A fork between two authors is told as one. -/
  contended : (∃ b ∈ blocks, ∃ b' ∈ blocks, real b.hash ≠ real b'.hash) →
    v.cause = .relayFork ∨ v.cause = .collatorContention
  /-- Two authors that are not known do not count as the same. -/
  unknown : 2 ≤ (blocks.filter unattributed).length →
    v.sameAuthor = false ∧ v.cause.blamesOneAuthor = false

/-- What the code compares is the same for all of them. -/
def OneLabel (blocks : List BlockRecord) : Prop :=
  ∀ b ∈ blocks, ∀ b' ∈ blocks, b.authorLabel = b'.authorLabel

/-- One label, because no author is there yet. -/
def NoneKnown (blocks : List BlockRecord) : Prop :=
  OneLabel blocks ∧ ∀ b ∈ blocks, unattributed b = true

/-- One label, on two different authors. -/
def Namesakes (blocks : List BlockRecord) : Prop :=
  OneLabel blocks ∧ ∃ b ∈ blocks, ∃ b' ∈ blocks,
    unattributed b = false ∧ unattributed b' = false ∧ orNull b.author ≠ orNull b'.author

/--
One label, on an author and on blocks that have none yet: more than one of them,
or one of another author.
-/
def TakenForUnknown (real : Hash → Address) (blocks : List BlockRecord) : Prop :=
  OneLabel blocks ∧ ∃ b ∈ blocks, unattributed b = false ∧
    (2 ≤ (blocks.filter unattributed).length ∨
      ∃ b' ∈ blocks, unattributed b' = true ∧ real b'.hash ≠ real b.hash)

instance (blocks : List BlockRecord) : Decidable (OneLabel blocks) :=
  inferInstanceAs (Decidable (∀ b ∈ blocks, ∀ b' ∈ blocks, b.authorLabel = b'.authorLabel))

instance (blocks : List BlockRecord) : Decidable (NoneKnown blocks) :=
  inferInstanceAs (Decidable (_ ∧ _))

instance (blocks : List BlockRecord) : Decidable (Namesakes blocks) :=
  inferInstanceAs (Decidable (_ ∧ _))

instance (real : Hash → Address) (blocks : List BlockRecord) :
    Decidable (TakenForUnknown real blocks) :=
  inferInstanceAs (Decidable (_ ∧ _))

/-- The author of a record is the real one, if it is there. -/
def Owned (real : Hash → Address) (b : BlockRecord) : Prop :=
  ∀ a, orNull b.author = some a → a = real b.hash

theorem blamesOneAuthor_causeOf (sameAuthor sameParent sameRelayNumber sameRelayHash : Bool) :
    (causeOf sameAuthor sameParent sameRelayNumber sameRelayHash).blamesOneAuthor = sameAuthor := by
  cases sameAuthor <;> cases sameParent <;> cases sameRelayNumber <;> cases sameRelayHash <;> rfl

theorem blamesOneAuthor_eq_false_iff {cause : Cause} :
    cause.blamesOneAuthor = false ↔ cause = .relayFork ∨ cause = .collatorContention := by
  cases cause <;> simp [Cause.blamesOneAuthor]

theorem distinct_eq_one_iff {α : Type} [DecidableEq α] {xs : List α} (h : xs ≠ []) :
    distinct xs = 1 ↔ ∀ x ∈ xs, ∀ y ∈ xs, x = y := by
  rw [← distinct_le_one_iff]
  obtain ⟨x, hx⟩ := List.exists_mem_of_ne_nil xs h
  have hpos : 0 < distinct xs := List.length_pos_of_mem (List.mem_dedup.mpr hx)
  omega

/-- The verdict blames one author exactly when the labels are all the same. -/
theorem verdict_sameAuthor {blocks : List BlockRecord} {rps : List (Option RelayParent)}
    {v : CauseVerdict} (hne : blocks ≠ []) (h : 2 ≤ (rps.filterMap id).length)
    (hv : determineCause blocks rps = some v) :
    v.cause.blamesOneAuthor = v.sameAuthor ∧ (v.sameAuthor = true ↔ OneLabel blocks) := by
  rw [determineCause_eq h] at hv
  obtain rfl := Option.some.inj hv
  refine ⟨blamesOneAuthor_causeOf .., ?_⟩
  have hlabels : blocks.map BlockRecord.authorLabel ≠ [] := by simpa using hne
  rw [decide_eq_true_iff, distinct_eq_one_iff hlabels]
  simp [OneLabel]

/-- A fair verdict, in terms of labels. -/
theorem fair_iff_labels {real : Hash → Address} {blocks : List BlockRecord} {v : CauseVerdict}
    (hcause : v.cause.blamesOneAuthor = v.sameAuthor)
    (hsame : v.sameAuthor = true ↔ OneLabel blocks) :
    Fair real blocks v ↔ (OneLabel blocks →
      (∀ b ∈ blocks, ∀ b' ∈ blocks, real b.hash = real b'.hash) ∧
        ¬ 2 ≤ (blocks.filter unattributed).length) := by
  refine ⟨?_, ?_⟩
  · intro hfair hone
    have htrue : v.sameAuthor = true := hsame.mpr hone
    refine ⟨hfair.blamed (Or.inr htrue), fun htwo => ?_⟩
    rw [(hfair.unknown htwo).1] at htrue
    exact absurd htrue (by simp)
  · intro h
    have hfalse : ¬ OneLabel blocks → v.sameAuthor = false ∧ v.cause.blamesOneAuthor = false := by
      intro hnot
      have : v.sameAuthor = false := by simpa using fun ht => hnot (hsame.mp ht)
      exact ⟨this, hcause.trans this⟩
    refine ⟨?_, ?_, ?_⟩
    · intro hb
      rw [hcause, or_self] at hb
      exact (h (hsame.mp hb)).1
    · intro hex
      obtain ⟨b, hb, b', hb', hne⟩ := hex
      exact blamesOneAuthor_eq_false_iff.mp (hfalse fun hone => hne ((h hone).1 b hb b' hb')).2
    · intro htwo
      exact hfalse fun hone => (h hone).2 htwo

/-- **When a verdict is fair**: outside the three kinds, given true records. -/
theorem fair_iff {real : Hash → Address} {blocks : List BlockRecord}
    {rps : List (Option RelayParent)} {v : CauseVerdict} (hown : ∀ b ∈ blocks, Owned real b)
    (hlen : rps.length ≤ blocks.length) (hvalid : 2 ≤ (rps.filterMap id).length)
    (hv : determineCause blocks rps = some v) :
    Fair real blocks v
      ↔ ¬ NoneKnown blocks ∧ ¬ Namesakes blocks ∧ ¬ TakenForUnknown real blocks := by
  have htwo : 2 ≤ blocks.length := by
    have := List.length_filterMap_le id rps
    omega
  have hne : blocks ≠ [] := by
    rintro rfl
    simp at htwo
  obtain ⟨hcause, hsame⟩ := verdict_sameAuthor hne hvalid hv
  rw [fair_iff_labels hcause hsame]
  have hauthor : ∀ b ∈ blocks, unattributed b = false → orNull b.author = some (real b.hash) := by
    intro b hb hknown
    obtain ⟨a, ha⟩ := Option.isSome_iff_exists.mp (Option.isNone_eq_false_iff.mp hknown)
    rw [ha, hown b hb a ha]
  refine ⟨?_, ?_⟩
  · intro h
    refine ⟨?_, ?_, ?_⟩
    · intro hboth
      obtain ⟨hone, hnone⟩ := hboth
      refine (h hone).2 ?_
      rw [List.filter_eq_self.mpr hnone]
      exact htwo
    · intro hall
      obtain ⟨hone, b, hb, b', hb', hk, hk', hdiff⟩ := hall
      rw [hauthor b hb hk, hauthor b' hb' hk'] at hdiff
      exact hdiff (congrArg some ((h hone).1 b hb b' hb'))
    · intro hall
      obtain ⟨hone, b, hb, hk, hmany | ⟨b', hb', -, hdiff⟩⟩ := hall
      · exact (h hone).2 hmany
      · exact hdiff ((h hone).1 b' hb' b hb)
  · rintro ⟨hnone, hnames, htaken⟩ hone
    -- someone is known, and all others agree with them
    have hk : ∃ b ∈ blocks, unattributed b = false := by
      by_contra hno
      push Not at hno
      exact hnone ⟨hone, fun b hb => by simpa using hno b hb⟩
    obtain ⟨k, hkin, hknown⟩ := hk
    have hagree : ∀ b ∈ blocks, real b.hash = real k.hash := by
      intro b hb
      by_contra hdiff
      cases hb' : unattributed b with
      | true => exact htaken ⟨hone, k, hkin, hknown, Or.inr ⟨b, hb, hb', hdiff⟩⟩
      | false =>
          refine hnames ⟨hone, b, hb, k, hkin, hb', hknown, fun heq => ?_⟩
          rw [hauthor b hb hb', hauthor k hkin hknown] at heq
          exact hdiff (Option.some.inj heq)
    refine ⟨fun b hb b' hb' => (hagree b hb).trans (hagree b' hb').symm, fun hmany => ?_⟩
    exact htaken ⟨hone, k, hkin, hknown, Or.inl hmany⟩

/-! ## The verdicts of a run -/

/-- A verdict, as it was recorded. -/
structure Ruling where
  height : Nat
  blocks : List BlockRecord
  verdict : CauseVerdict

def rulings (rs : List Report) : List Ruling :=
  rs.filterMap fun
    | .forkCause height blocks verdict => some ⟨height, blocks, verdict⟩
    | _ => none

theorem rulings_append (rs rs' : List Report) : rulings (rs ++ rs') = rulings rs ++ rulings rs' :=
  List.filterMap_append

/-- The ring buffer entry shows this verdict. -/
def Shows (f : RecentFork) (r : Ruling) : Prop :=
  f.blockNumber = r.height ∧ f.cause = some r.verdict.cause ∧
    f.sameAuthor = some r.verdict.sameAuthor

/-- The ring buffer entry shows no verdict yet. -/
def ShowsNone (f : RecentFork) : Prop := f.cause = none ∧ f.sameAuthor = none

/-- Every verdict recorded is fair, and the ring buffer shows nothing else. -/
structure Attributed (real : Hash → Address) (c : ChainContext) : Prop where
  fair : ∀ r ∈ rulings c.history, Fair real r.blocks r.verdict
  ring : ∀ f ∈ c.forkDetector.recentForks, ShowsNone f ∨ ∃ r ∈ rulings c.history, Shows f r

/-- The competing blocks a suspended handler holds for the verdict. -/
def competing : Task → List BlockRecord
  | .relayParents _ _ blocks | .retryRelayParents _ _ blocks _ => blocks
  | _ => []

/-- The author is the real one, if there is one. -/
def WrittenBy (real : Hash → Address) (x : Hash) (r : BlockRecord) : Prop :=
  ∀ a, orNull r.author = some a → a = real x

/-- Whoever is named as an author is the author, in every record a handler may hold. -/
structure Ascribed (real : Hash → Address) (c : ChainContext) : Prop where
  inv : TreeInv c.blockTree
  detached : DetachedInv c
  records : ∀ x r, Recorded c x r → WrittenBy real x r
  tasks : ∀ task ∈ c.tasks, ∀ b ∈ competing task, Owned real b

variable {real : Hash → Address}

theorem Ascribed.owned {c : ChainContext} (h : Ascribed real c) {x : Hash} {r : BlockRecord}
    (hr : Recorded c x r) : Owned real r := by
  intro a ha
  rw [hr.hash_eq h.inv h.detached]
  exact h.records x r hr a ha

theorem Ascribed.held {c : ChainContext} (h : Ascribed real c) {b : BlockRecord}
    (hb : Owned real b) (n epoch : Nat) : Owned real (c.held n epoch b) := by
  rcases held_cases c n epoch b with heq | hr
  · rw [heq]
    exact hb
  · exact h.owned hr

theorem Ascribed.heldAt {c : ChainContext} (h : Ascribed real c) {n epoch : Nat} :
    ∀ b ∈ c.heldAt n epoch, Owned real b :=
  fun _ hb => h.owned (mem_heldAt h.inv h.detached hb).1

/--
What a piece of a handler does to all this: these verdicts are added, an entry of
the ring buffer shows one of them or what it showed before, and authors stay true.
-/
structure Told (real : Hash → Address) (vs : List Ruling) (c c' : ChainContext) : Prop where
  ascribed : Ascribed real c → Ascribed real c'
  rulings : rulings c'.history = rulings c.history ++ vs
  ring : ∀ f ∈ c'.forkDetector.recentForks, ShowsNone f ∨ (∃ r ∈ vs, Shows f r) ∨
    ∃ f' ∈ c.forkDetector.recentForks,
      f.blockNumber = f'.blockNumber ∧ f.cause = f'.cause ∧ f.sameAuthor = f'.sameAuthor

/-- What touches neither records, tasks, ring buffer nor history tells nothing. -/
theorem told_of_same {c c' : ChainContext} (ht : c'.blockTree = c.blockTree)
    (hm : c'.detached = c.detached)
    (hd : c'.forkDetector.recentForks = c.forkDetector.recentForks) (hs : c'.tasks = c.tasks)
    (hh : c'.history = c.history) : Told real [] c c' where
  ascribed := fun h => ⟨by rw [ht]; exact h.inv, by unfold DetachedInv; rw [hm]; exact h.detached,
    fun x r hr => h.records x r ((recorded_congr ht hm).mp hr), by rw [hs]; exact h.tasks⟩
  rulings := by rw [hh, List.append_nil]
  ring := by
    intro f hf
    rw [hd] at hf
    exact Or.inr (Or.inr ⟨f, hf, rfl, rfl, rfl⟩)

theorem Told.refl (c : ChainContext) : Told real [] c c := told_of_same rfl rfl rfl rfl rfl

/-- At most one of two pieces rules. -/
theorem Told.then_quiet {vs : List Ruling} {c c' c'' : ChainContext} (h : Told real vs c c')
    (h' : Told real [] c' c'') : Told real vs c c'' where
  ascribed := fun ha => h'.ascribed (h.ascribed ha)
  rulings := by rw [h'.rulings, h.rulings, List.append_nil]
  ring := by
    intro f hf
    rcases h'.ring f hf with hnone | ⟨r, hr, -⟩ | ⟨f', hf', hn, hc, hs⟩
    · exact Or.inl hnone
    · exact absurd hr (by simp)
    · unfold ShowsNone Shows
      rw [hn, hc, hs]
      exact h.ring f' hf'

theorem Told.quiet_then {vs : List Ruling} {c c' c'' : ChainContext} (h : Told real [] c c')
    (h' : Told real vs c' c'') : Told real vs c c'' where
  ascribed := fun ha => h'.ascribed (h.ascribed ha)
  rulings := by rw [h'.rulings, h.rulings, List.append_nil]
  ring := by
    intro f hf
    rcases h'.ring f hf with hnone | hnew | ⟨f', hf', hn, hc, hs⟩
    · exact Or.inl hnone
    · exact Or.inr (Or.inl hnew)
    · unfold ShowsNone Shows
      rw [hn, hc, hs]
      rcases h.ring f' hf' with hnone | ⟨r, hr, -⟩ | hold
      · exact Or.inl hnone
      · exact absurd hr (by simp)
      · exact Or.inr (Or.inr hold)

theorem told_await (c : ChainContext) (t : Task)
    (ht : Ascribed real c → ∀ b ∈ competing t, Owned real b) : Told real [] c (c.await t) where
  ascribed := by
    intro h
    refine ⟨h.inv, h.detached, h.records, fun task htask => ?_⟩
    rcases List.mem_append.mp htask with hold | hnew
    · exact h.tasks task hold
    · obtain rfl := List.mem_singleton.mp hnew
      exact ht h
  rulings := by rw [List.append_nil]; rfl
  ring := fun f hf => Or.inr (Or.inr ⟨f, hf, rfl, rfl, rfl⟩)

/-- A handler that suspends without competing blocks. -/
theorem told_wait (c : ChainContext) {t : Task} (ht : competing t = []) :
    Told real [] c (c.await t) :=
  told_await c t fun _ b hb => absurd hb (by simp [ht])

/-- A report that is no verdict. -/
def NoRuling : Report → Prop
  | .forkCause .. => False
  | _ => True

theorem noRuling_of_aboutBlocks {r : Report} (h : AboutBlocks r) : NoRuling r := by
  cases r <;> trivial

theorem rulings_of_noRuling {rs : List Report} (h : ∀ r ∈ rs, NoRuling r) : rulings rs = [] := by
  unfold rulings
  rw [List.filterMap_eq_nil_iff]
  intro r hr
  have hr := h r hr
  cases r <;> first | rfl | exact absurd hr id

theorem told_report (c : ChainContext) {rs : List Report} (h : ∀ r ∈ rs, NoRuling r) :
    Told real [] c (c.report rs) where
  ascribed := fun h => ⟨h.inv, h.detached, h.records, h.tasks⟩
  rulings := by
    have hnew : (c.report rs).history = c.history ++ rs := rfl
    rw [hnew, rulings_append, rulings_of_noRuling h]
  ring := fun f hf => Or.inr (Or.inr ⟨f, hf, rfl, rfl, rfl⟩)

/-- An update of the tree that leaves true authors true. -/
theorem told_tree (c : ChainContext) {t : BlockTree} (hi : TreeInv c.blockTree → TreeInv t)
    (ho : Ascribed real c → ∀ x r, t.getBlock x = some r → WrittenBy real x r) :
    Told real [] c { c with blockTree := t } where
  ascribed := fun h => ⟨hi h.inv, h.detached,
    fun x r hr => hr.elim (ho h x r) fun hdetached => h.records x r (Or.inr hdetached), h.tasks⟩
  rulings := by rw [List.append_nil]
  ring := fun f hf => Or.inr (Or.inr ⟨f, hf, rfl, rfl, rfl⟩)

theorem told_writeHeld (c : ChainContext) (n epoch : Nat) (x : Hash)
    {f : BlockRecord → BlockRecord} (hf : KeepsHeader f)
    (ho : ∀ r, WrittenBy real x r → WrittenBy real x (f r)) :
    Told real [] c (c.writeHeld n epoch x f) where
  ascribed := by
    intro h
    refine ⟨(quiet_writeHeld c n epoch x hf).tree.treeInv h.inv,
      detachedInv_writeHeld h.detached n epoch x hf, fun y r hr => ?_, ?_⟩
    · rcases recorded_writeHeld hr with hold | ⟨rfl, r₀, hr₀, rfl⟩
      · exact h.records y r hold
      · exact ho r₀ (h.records y r₀ hr₀)
    · rw [(writeHeld_frame c n epoch x f).1]
      exact h.tasks
  rulings := by rw [(writeHeld_frame c n epoch x f).2.1, List.append_nil]
  ring := by
    intro g hg
    rw [(writeHeld_frame c n epoch x f).2.2] at hg
    exact Or.inr (Or.inr ⟨g, hg, rfl, rfl, rfl⟩)

theorem mem_modifyLast {α : Type} {p : α → Bool} {f : α → α} {l : List α} {y : α}
    (h : y ∈ modifyLast p f l) : y ∈ l ∨ ∃ x ∈ l, p x = true ∧ y = f x := by
  induction l with
  | nil => exact Or.inl h
  | cons x l ih =>
      unfold modifyLast at h
      split at h
      · rcases List.mem_cons.mp h with rfl | hy
        · exact Or.inl (by simp)
        · rcases ih hy with hin | ⟨z, hz, hp⟩
          · exact Or.inl (by simp [hin])
          · exact Or.inr ⟨z, by simp [hz], hp⟩
      · split at h
        · rename_i hp
          rcases List.mem_cons.mp h with rfl | hy
          · exact Or.inr ⟨x, by simp, hp, rfl⟩
          · exact Or.inl (by simp [hy])
        · exact Or.inl h

/-- The detector may annotate its entries as long as it leaves the verdicts alone. -/
theorem told_detector (c : ChainContext) {d : ForkDetector}
    (h : ∀ f ∈ d.recentForks, ShowsNone f ∨ ∃ f' ∈ c.forkDetector.recentForks,
      f.blockNumber = f'.blockNumber ∧ f.cause = f'.cause ∧ f.sameAuthor = f'.sameAuthor) :
    Told real [] c { c with forkDetector := d } where
  ascribed := fun h => ⟨h.inv, h.detached, h.records, h.tasks⟩
  rulings := by rw [List.append_nil]
  ring := fun f hf => (h f hf).imp_right Or.inr

theorem mem_updateRecent {d : ForkDetector} {height : Nat} {g : RecentFork → RecentFork}
    (hg : ∀ e, (g e).blockNumber = e.blockNumber ∧ (g e).cause = e.cause ∧
      (g e).sameAuthor = e.sameAuthor) {f : RecentFork}
    (hf : f ∈ (d.updateRecent height g).recentForks) :
    ∃ f' ∈ d.recentForks,
      f.blockNumber = f'.blockNumber ∧ f.cause = f'.cause ∧ f.sameAuthor = f'.sameAuthor := by
  rcases mem_modifyLast hf with hold | ⟨e, he, -, rfl⟩
  · exact ⟨f, hold, rfl, rfl, rfl⟩
  · exact ⟨e, he, hg e⟩

/-! ## The pieces of the handlers -/

/-- The verdict taken on these records, if one is taken. -/
def ruledOn (header : Header) (blocks : List BlockRecord) (rps : List (Option RelayParent)) :
    List Ruling :=
  ((determineCause blocks rps).map fun v => ⟨header.number, blocks, v⟩).toList

theorem told_recordCause (c : ChainContext) (header : Header) (epoch : Nat)
    (blocks : List BlockRecord) (rps : List (Option RelayParent)) :
    Told real (ruledOn header (blocks.map (c.held header.number epoch)) rps) c
      (c.recordCause header epoch blocks rps) := by
  unfold ruledOn ChainContext.recordCause
  dsimp only
  cases determineCause (blocks.map (c.held header.number epoch)) rps with
  | none => exact told_wait c rfl
  | some v =>
      dsimp only
      refine Told.then_quiet ?_ (told_wait _ rfl)
      refine ⟨fun h => ⟨h.inv, h.detached, h.records, h.tasks⟩, ?_, ?_⟩
      · unfold ChainContext.report
        rw [rulings_append]
        have hrest : rulings (if v.cause.blamesRelayChain then [.relayCaused header.number] else [])
            = [] := rulings_of_noRuling (by split <;> simp [NoRuling])
        have hcons : ∀ r rs, rulings (r :: rs) = rulings [r] ++ rulings rs :=
          fun r rs => rulings_append [r] rs
        rw [hcons, hrest]
        rfl
      · intro f hf
        rcases mem_modifyLast hf with hold | ⟨e, -, he, rfl⟩
        · exact Or.inr (Or.inr ⟨f, hold, rfl, rfl, rfl⟩)
        · refine Or.inr (Or.inl ⟨_, List.mem_singleton_self _, ?_, rfl, rfl⟩)
          simpa using he

theorem told_insertForkBlocks (c : ChainContext) (header : Header) (epoch : Nat)
    (rest : List BlockRecord) (event : ForkEventRow) (hooked : Bool) :
    Told real [] c (c.insertForkBlocks header epoch rest event hooked) := by
  unfold insertForkBlocks
  cases rest with
  | nil =>
      refine (told_report c ?_).then_quiet (told_wait _ rfl)
      simp [NoRuling]
  | cons b rest =>
      refine (told_report c ?_).then_quiet (told_wait _ rfl)
      simp [NoRuling]

theorem told_analyzeForkCause (c : ChainContext) (header : Header) (epoch : Nat) :
    Told real [] c (c.analyzeForkCause header epoch) := by
  unfold analyzeForkCause
  dsimp only
  split
  · exact told_wait c rfl
  · exact told_await c _ fun h => h.heldAt

theorem told_captureBody (c : ChainContext) (header : Header) :
    Told real [] c (c.captureBody header) := by
  have hheight : Told real [] c { c with txTracker := c.txTracker.onNewBlock header.number } :=
    told_of_same rfl rfl rfl rfl rfl
  exact hheight.then_quiet (told_wait _ rfl)

theorem told_enrichForkAuthors (c : ChainContext) (header : Header) (epoch : Nat)
    (visited : List Hash) : Told real [] c (c.enrichForkAuthors header epoch visited) := by
  unfold enrichForkAuthors
  split
  · refine Told.then_quiet ?_ (told_captureBody _ header)
    unfold updateForkAuthors
    split
    · exact Told.refl c
    · rename_i blocks _
      refine told_detector c fun f hf => Or.inr ?_
      exact mem_updateRecent (g := fun f => { f with
        authors := blocks.values.map BlockRecord.authorLabel }) (fun _ => ⟨rfl, rfl, rfl⟩) hf
  · exact told_wait c rfl

theorem told_afterImport (c : ChainContext) (header : Header) (forked : Bool) :
    Told real [] c (c.afterImport header forked) := by
  unfold afterImport
  split
  · split
    · exact told_captureBody c header
    · exact told_enrichForkAuthors c header _ []
  · exact told_captureBody c header

/-- An author comes back: the true one. -/
theorem told_onAuthor (c : ChainContext) (header : Header) (epoch : Nat)
    (visited : List Hash) {block : BlockRecord} {author : Option Address}
    (ha : ∀ x, orNull author = some x → x = real block.hash) :
    Told real [] c (c.onAuthor header epoch visited block author) := by
  unfold onAuthor
  split
  · exact told_enrichForkAuthors c header epoch visited
  · rename_i x hx
    have hentered : Told real [] c (c.writeHeld header.number epoch block.hash
        (fun r => { r with author := some x })) := by
      refine told_writeHeld c _ _ _ (fun _ => ⟨rfl, rfl, rfl⟩) ?_
      intro r _ a hauthor
      have hsome : author = some x := (Option.filter_eq_some_iff.mp hx).1
      rw [hsome] at hx
      obtain rfl := Option.some.inj (hx.symm.trans hauthor)
      exact ha x (by rw [hsome]; exact hx)
    exact hentered.then_quiet (told_wait _ rfl)

theorem told_onIdentity (c : ChainContext) (header : Header) (epoch : Nat)
    (visited : List Hash) (block : BlockRecord) (author : Address) :
    Told real [] c (c.onIdentity header epoch visited block author) := by
  have hwrite : Told real [] c (c.writeHeld header.number epoch block.hash
      (fun r => { r with authorName := c.resolveAuthorName author })) :=
    told_writeHeld c _ _ _ (fun _ => ⟨rfl, rfl, rfl⟩) fun _ hr => hr
  refine Told.then_quiet (hwrite.then_quiet (told_report _ ?_))
    (told_enrichForkAuthors _ header epoch visited)
  simp [NoRuling]

theorem told_storeRelayParents (c : ChainContext) (n epoch : Nat) (blocks : List BlockRecord)
    (rps : List (Option RelayParent)) :
    Told real [] c (c.storeRelayParents n epoch blocks rps) := by
  refine List.foldlRecOn (motive := Told real [] c) _ _ (Told.refl c) fun u hu e _ => ?_
  split
  · exact hu
  -- relay parents go into the records, authors do not
  · exact hu.then_quiet (told_writeHeld u _ _ _ (fun _ => ⟨rfl, rfl, rfl⟩) fun _ hr => hr)

theorem told_prune (c : ChainContext) (F : Nat) : Told real [] c (c.prune F) where
  ascribed := fun h => ⟨treeInv_prune h.inv _, detachedInv_prune h.detached h.inv F,
    fun x r hr => h.records x r ((recorded_prune h.inv F).mp hr), h.tasks⟩
  rulings := by rw [List.append_nil]; rfl
  ring := fun f hf => Or.inr (Or.inr ⟨f, hf, rfl, rfl, rfl⟩)

/-! ## One event -/

/-- What a resumed task rules on: the records as they stand, and their relay parents. -/
def taskRuling (c : ChainContext) :
    Task → Answer → Option (Header × List BlockRecord × List (Option RelayParent))
  | .relayParents header epoch blocks, .relayParents parent =>
      let known := blocks.map (fun b => parent b.hash)
      if (known.filterMap id).length < blocks.length then none
      else some (header, blocks.map (c.held header.number epoch), known)
  | .retryRelayParents header epoch blocks known, .relayParents parent =>
      some (header, blocks.map (c.held header.number epoch),
        List.zipWith (fun (b : BlockRecord) known => known.or (parent b.hash)) blocks known)
  | _, _ => none

/-- What the step rules on. -/
def ruling (c : ChainContext) :
    Event → Option (Header × List BlockRecord × List (Option RelayParent))
  | .resume i a => (c.tasks[i]?).bind fun task => taskRuling c task a
  | _ => none

/-- Extracting an author fails, or finds the real one. -/
def Truthful (real : Hash → Address) (c : ChainContext) (e : Event) : Prop :=
  ∀ q ∈ entering c e, q.2 = real q.1

instance (real : Hash → Address) (c : ChainContext) (e : Event) : Decidable (Truthful real c e) :=
  inferInstanceAs (Decidable (∀ q ∈ entering c e, q.2 = real q.1))

/-- The verdicts of a step. -/
def ruled : Option (Header × List BlockRecord × List (Option RelayParent)) → List Ruling
  | none => []
  | some (header, blocks, rps) => ruledOn header blocks rps

theorem taskRuling_of_unexpected {c : ChainContext} {task : Task} {a : Answer}
    (h : expects task a = false) : taskRuling c task a = none := by
  unfold taskRuling
  split
  · exact absurd h (by simp [expects])
  · exact absurd h (by simp [expects])
  · rfl

theorem Resumed.told {c c' : ChainContext} {task : Task} {a : Answer} (h : Resumed c task a c')
    (hown : ∀ b ∈ competing task, Owned real b)
    (htrue : ∀ q ∈ taskAuthor task a, q.2 = real q.1) :
    Told real (ruled (taskRuling c task a)) c c' := by
  cases h with
  | insertForkBlocks header epoch rest event hooked =>
      exact told_insertForkBlocks c header epoch rest event hooked
  | unhooked => exact told_wait c rfl
  | hooked header epoch => exact told_analyzeForkCause c header epoch
  | relayParents header epoch blocks parent =>
      unfold onRelayParents taskRuling
      dsimp only
      split
      · exact told_await c _ fun _ => hown
      · exact told_recordCause ..
  | retryRelayParents => exact told_recordCause ..
  | updateCause => exact (told_storeRelayParents ..).then_quiet (told_wait _ rfl)
  | forkUpdated => exact told_wait c rfl
  | imported => exact told_afterImport ..
  | extractAuthor header epoch visited block author =>
      refine told_onAuthor c header epoch visited fun x hx => htrue (block.hash, x) ?_
      rw [taskAuthor, hx]
      rfl
  | lookup header epoch visited block author lookup answer =>
      have hcache : Told real [] c
          { c with identityCache := (lookup.resume c.identityCache answer).1 } :=
        told_of_same rfl rfl rfl rfl rfl
      exact hcache.then_quiet (told_wait _ rfl)
  | resolveIdentity => exact told_onIdentity ..
  | body => exact told_of_same rfl rfl rfl rfl rfl
  | noBody => exact Told.refl c
  | resolveForkEvent F => exact told_prune c F
  | other _ _ h =>
      rw [taskRuling_of_unexpected h]
      exact told_await c task fun _ => hown

theorem told_taken (c : ChainContext) (i : Nat) : Told real [] c (taken c i) where
  ascribed := fun h => ⟨h.inv, h.detached, h.records,
    fun task ht => h.tasks task (List.mem_of_mem_eraseIdx ht)⟩
  rulings := by rw [List.append_nil]; rfl
  ring := fun f hf => Or.inr (Or.inr ⟨f, hf, rfl, rfl, rfl⟩)

theorem mem_pushRecent {l : List RecentFork} {entry f : RecentFork}
    (h : f ∈ ForkDetector.pushRecent l entry) : f ∈ l ∨ f = entry := by
  have hin : f ∈ l ++ [entry] := by
    unfold ForkDetector.pushRecent at h
    dsimp only at h
    split at h
    · exact List.mem_of_mem_drop h
    · exact h
  exact (List.mem_append.mp hin).imp_right List.mem_singleton.mp

/-- The detection of a fork pushes an entry that shows no verdict. -/
theorem told_detectFork (c : ChainContext) (header : Header) (blocks : List BlockRecord) :
    Told real [] c (c.detectFork header blocks) := by
  have hpush : Told real [] c { c with forkDetector :=
      (c.forkDetector.onForkDetected c.blockTree header.number blocks).1 } := by
    refine told_detector c fun f hf => ?_
    rcases mem_pushRecent hf with hold | rfl
    · exact Or.inr ⟨f, hold, rfl, rfl, rfl⟩
    · exact Or.inl ⟨rfl, rfl⟩
  refine (hpush.then_quiet (told_report _ ?_)).then_quiet
    (told_insertForkBlocks _ header _ blocks _ _)
  intro r hr
  rcases mem_onForkDetected c.forkDetector hr with rfl | rfl | rfl | habout
  · trivial
  · trivial
  · trivial
  · exact noRuling_of_aboutBlocks habout

theorem told_importNew (c : ChainContext) (header : Header) :
    Told real [] c (c.importNew header) := by
  unfold importNew
  dsimp only
  split
  · split
    · have hupdate : Told real [] c (c.report (ForkDetector.onForkUpdated
          (c.blockTree.currentAt header.number))) :=
        told_report c fun r hr => noRuling_of_aboutBlocks (aboutBlocks_onForkUpdated hr)
      exact hupdate.then_quiet (told_wait _ rfl)
    · have hnoted : Told real [] c { c with forkDetector := { c.forkDetector with
          recordedForks := c.forkDetector.recordedForks.add header.number } } :=
        told_of_same rfl rfl rfl rfl rfl
      exact hnoted.then_quiet (told_detectFork _ header _)
  · exact told_wait c rfl

theorem told_allHeads (c : ChainContext) (node : NodeName) (header : Header) :
    Told real [] c (c.step (.allHeads node header)) := by
  cases hget : c.blockTree.getBlock header.hash with
  | some r =>
      rw [step_allHeads_of_known hget]
      have hseen : Told real [] c { c with
          blockTree := c.blockTree.updateRecord header.hash
            (fun r => { r with seenByNodes := r.seenByNodes.add node }) } := by
        refine told_tree c (fun hi => treeInv_updateRecord hi _ fun _ => ⟨rfl, rfl, rfl⟩)
          fun h x r hx => ?_
        rw [getBlock_updateRecord] at hx
        split at hx
        · rename_i hxh
          obtain ⟨r₀, hr₀, rfl⟩ := Option.map_eq_some_iff.mp hx
          rw [hxh]
          exact h.records _ r₀ (Or.inl hr₀)
        · exact h.records x r (Or.inl hx)
      exact hseen.then_quiet (told_report _ (by simp [NoRuling]))
  | none =>
      rw [step_allHeads_of_new hget]
      -- the record of a header has no author
      have hinsert : Told real [] c
          { c with blockTree := c.blockTree.insertRecord (recordOf node header) } := by
        refine told_tree c (fun hi => treeInv_insertRecord hi hget) fun h x r hx => ?_
        rw [getBlock_insertRecord] at hx
        split at hx
        · obtain rfl := Option.some.inj hx
          intro a ha
          exact absurd ha (by simp [recordOf, BlockTree.newRecord, orNull])
        · exact h.records x r (Or.inl hx)
      exact (hinsert.then_quiet (told_report _ (by simp [NoRuling]))).then_quiet
        (told_importNew _ header)

/-- Resolving forks leaves the verdicts in the ring buffer alone. -/
theorem Resolving.shows {x : Hash} {d d' : ForkDetector} {rs : List Report}
    (h : Resolving x d d' rs) {f : RecentFork} (hf : f ∈ d'.recentForks) :
    ∃ f' ∈ d.recentForks,
      f.blockNumber = f'.blockNumber ∧ f.cause = f'.cause ∧ f.sameAuthor = f'.sameAuthor := by
  have hin : RecentFork.unresolved f ∈ d.recentForks.map RecentFork.unresolved :=
    h.recentForks ▸ List.mem_map_of_mem hf
  obtain ⟨f', hf', heq⟩ := List.mem_map.mp hin
  exact ⟨f', hf', (congrArg RecentFork.blockNumber heq).symm, (congrArg RecentFork.cause heq).symm,
    (congrArg RecentFork.sameAuthor heq).symm⟩

theorem told_finalizedHeads (c : ChainContext) (node : NodeName) (F : Nat) (H : Hash) :
    Told real [] c (c.step (.finalizedHeads node F H)) := by
  have hspec := onHeightFinalized_spec c.forkDetector F H
  have hheight : Told real [] c { c with blockTree := { c.blockTree with
      finalizedHeight := max c.blockTree.finalizedHeight F } } :=
    told_tree c (fun h => ⟨h.byHash, h.byHeight, h.inhabited, h.best⟩)
      fun h x r hx => h.records x r (Or.inl hx)
  have hresolved : Told real [] c { c with
      blockTree := { c.blockTree with finalizedHeight := max c.blockTree.finalizedHeight F }
      forkDetector := (c.forkDetector.onHeightFinalized F H).1 } :=
    hheight.then_quiet (told_detector _ fun f hf => Or.inr (hspec.shows hf))
  have htracker : Told real [] c { c with
      blockTree := { c.blockTree with finalizedHeight := max c.blockTree.finalizedHeight F }
      forkDetector := (c.forkDetector.onHeightFinalized F H).1
      txTracker := c.txTracker.onHeightFinalized F H
        { c.blockTree with finalizedHeight := max c.blockTree.finalizedHeight F } } :=
    hresolved.then_quiet (told_of_same rfl rfl rfl rfl rfl)
  refine (htracker.then_quiet (told_report _ ?_)).then_quiet (told_wait _ rfl)
  intro r hr
  rcases List.mem_append.mp hr with hr | hr
  · rcases hspec.reports r hr with ⟨n, rfl⟩ | ⟨f, rfl⟩
    · trivial
    · trivial
  · obtain rfl := List.mem_singleton.mp hr
    trivial

/-- **What one step does to verdicts and authors.** -/
theorem told_step {c : ChainContext} {e : Event} (hi : Ascribed real c) (he : Truthful real c e) :
    Told real (ruled (ruling c e)) c (c.step e) := by
  cases e with
  | allHeads node header => exact told_allHeads c node header
  | finalizedHeads node F H => exact told_finalizedHeads c node F H
  | resume i a =>
      unfold Truthful entering at he
      dsimp only at he
      unfold ruling
      dsimp only
      unfold step
      dsimp only
      cases ht : c.tasks[i]? with
      | none => exact Told.refl c
      | some task =>
          rw [ht] at he
          refine (told_taken c i).quiet_then ?_
          exact (resumed (taken c i) task a).told (hi.tasks task (List.mem_of_getElem? ht)) he
  | poll => exact told_of_same rfl rfl rfl rfl rfl
  | retryTick => exact told_of_same rfl rfl rfl rfl rfl
  | resubmitSettled => exact told_of_same rfl rfl rfl rfl rfl
  | connections => exact told_of_same rfl rfl rfl rfl rfl
  | setupCausation => exact told_of_same rfl rfl rfl rfl rfl
  | identities => exact told_of_same rfl rfl rfl rfl rfl

/-! ## Every run -/

/-- These records are of none of the three kinds. -/
def ToldApart (real : Hash → Address) (blocks : List BlockRecord) : Prop :=
  ¬ NoneKnown blocks ∧ ¬ Namesakes blocks ∧ ¬ TakenForUnknown real blocks

instance (real : Hash → Address) (blocks : List BlockRecord) :
    Decidable (ToldApart real blocks) :=
  inferInstanceAs (Decidable (_ ∧ _ ∧ _))

/-- The step takes no verdict, or takes it on records that are of none of the three kinds. -/
def Telling (real : Hash → Address) (c : ChainContext) (e : Event) : Prop :=
  ∀ q ∈ ruling c e, 2 ≤ (q.2.2.filterMap id).length → ToldApart real q.2.1

instance (real : Hash → Address) (c : ChainContext) (e : Event) : Decidable (Telling real c e) :=
  inferInstanceAs (Decidable (∀ q ∈ ruling c e, _ → _))

theorem fair_ruledOn (header : Header) {blocks : List BlockRecord}
    {rps : List (Option RelayParent)} (hown : ∀ b ∈ blocks, Owned real b)
    (hlen : rps.length ≤ blocks.length) :
    (∀ r ∈ ruledOn header blocks rps, Fair real r.blocks r.verdict)
      ↔ (2 ≤ (rps.filterMap id).length → ToldApart real blocks) := by
  by_cases hvalid : 2 ≤ (rps.filterMap id).length
  · have hv := determineCause_eq hvalid blocks
    have hfair := fair_iff hown hlen hvalid hv
    unfold ruledOn
    rw [hv]
    simp only [Option.map_some, Option.toList_some, List.mem_singleton, forall_eq, hvalid,
      true_imp_iff]
    exact hfair
  · have hnone : determineCause blocks rps = none := if_pos (Nat.lt_of_not_le hvalid)
    refine ⟨fun _ h => absurd h hvalid, fun _ r hr => ?_⟩
    unfold ruledOn at hr
    rw [hnone] at hr
    exact absurd hr (by simp)

/-- What a task rules on are records of its own blocks, with at most one relay parent for each. -/
theorem taskRuling_eq_some {c : ChainContext} {task : Task} {a : Answer} {header : Header}
    {blocks : List BlockRecord} {rps : List (Option RelayParent)}
    (h : taskRuling c task a = some (header, blocks, rps)) :
    (∃ epoch, blocks = (competing task).map (c.held header.number epoch)) ∧
      rps.length ≤ blocks.length := by
  unfold taskRuling at h
  split at h
  · rename_i epoch _ _
    dsimp only at h
    split at h
    · exact absurd h (by simp)
    · obtain ⟨rfl, rfl, rfl⟩ := Prod.mk.injEq .. ▸ Option.some.inj h
      exact ⟨⟨epoch, rfl⟩, by simp⟩
  · rename_i epoch _ _ _
    obtain ⟨rfl, rfl, rfl⟩ := Prod.mk.injEq .. ▸ Option.some.inj h
    exact ⟨⟨epoch, rfl⟩, by simp⟩
  · exact absurd h (by simp)

theorem attributed_step {c : ChainContext} {e : Event} (hi : Ascribed real c)
    (he : Truthful real c e) (hp : Attributed real c) :
    Attributed real (c.step e) ↔ Telling real c e := by
  have htold := told_step hi he
  -- the ring buffer follows the history, whatever the verdicts are
  have hring : ∀ f ∈ (c.step e).forkDetector.recentForks,
      ShowsNone f ∨ ∃ r ∈ rulings (c.step e).history, Shows f r := by
    intro f hf
    rw [htold.rulings]
    rcases htold.ring f hf with hnone | ⟨r, hr, hshows⟩ | ⟨f', hf', hn, hc, hs⟩
    · exact Or.inl hnone
    · exact Or.inr ⟨r, List.mem_append_right _ hr, hshows⟩
    · unfold ShowsNone Shows
      rw [hn, hc, hs]
      rcases hp.ring f' hf' with hnone | ⟨r, hr, hshows⟩
      · exact Or.inl hnone
      · exact Or.inr ⟨r, List.mem_append_left _ hr, hshows⟩
  have hnew : Attributed real (c.step e)
      ↔ ∀ r ∈ ruled (ruling c e), Fair real r.blocks r.verdict := by
    refine ⟨?_, ?_⟩
    · intro h r hr
      exact h.fair r (by rw [htold.rulings]; exact List.mem_append_right _ hr)
    · intro h
      refine ⟨fun r hr => ?_, hring⟩
      rw [htold.rulings] at hr
      rcases List.mem_append.mp hr with hold | hr
      · exact hp.fair r hold
      · exact h r hr
  rw [hnew]
  unfold Telling
  cases hq : ruling c e with
  | none => simp [ruled]
  | some q =>
      obtain ⟨header, blocks, rps⟩ := q
      have hblocks : (∀ b ∈ blocks, Owned real b) ∧ rps.length ≤ blocks.length := by
        unfold ruling at hq
        split at hq
        · obtain ⟨task, ht, htask⟩ := Option.bind_eq_some_iff.mp hq
          obtain ⟨⟨epoch, rfl⟩, hlen⟩ := taskRuling_eq_some htask
          refine ⟨fun b hb => ?_, hlen⟩
          obtain ⟨b₀, hb₀, rfl⟩ := List.mem_map.mp hb
          exact hi.held (hi.tasks task (List.mem_of_getElem? ht) b₀ hb₀) _ epoch
        · exact absurd hq (by simp)
      have hfair := fair_ruledOn header hblocks.1 hblocks.2
      simpa [ruled] using hfair

theorem ascribed_init (config : ChainConfig) (opts : TxOptions) :
    Ascribed real (machine config opts).init where
  inv := treeInv_init
  detached := by intro n m h; exact absurd h (by simp [machine])
  records := by intro x r h; exact absurd h (by simp [Recorded, machine, BlockTree.getBlock])
  tasks := by intro task h; exact absurd h (by simp [machine])

/--
**Exactly when nobody is blamed for another's block.**

Let the blocks have real authors, which extraction finds or fails to find. In
every state of a run the recorded verdicts are fair, and the ring buffer shows
only those, exactly if no verdict of the run is taken on blocks that share one
label because no author is known yet, or in spite of two authors, or with an
author who is taken for one of the unknown.
-/
theorem attributed_iff (real : Hash → Address) (config : ChainConfig) (opts : TxOptions)
    (evs : List Event)
    (ht : (machine config opts).Guarded (Truthful real) (machine config opts).init evs) :
    (∀ pre, pre <+: evs → Attributed real ((machine config opts).run pre))
      ↔ (machine config opts).Guarded (Telling real) (machine config opts).init evs := by
  refine Machine.always_iff_guarded (I := Ascribed real) (ascribed_init config opts) ?_ ?_ ?_ ht
  · intro c e hi he
    exact (told_step hi he).ascribed hi
  · refine ⟨?_, ?_⟩
    · intro r hr; exact absurd hr (by simp [machine, rulings])
    · intro f hf; exact absurd hf (by simp [machine])
  · intro c e hi he hp
    exact attributed_step hi he hp

/-- Alice wrote `a1`, bob wrote the others. -/
def aliceThenBob (x : Hash) : Address := if x = "a1" then "alice" else "bob"

/-- Task `i` is resumed, again and again. -/
def resumes (i : Nat) (answers : List Answer) : List Event := answers.map (.resume i)

/-- The author of one block comes back, and then its name. -/
def names (x : Hash) : List Answer :=
  [.author (some (aliceThenBob x)), .identity (.identityOf none), .done]

/-- All blocks were built on the same relay block. -/
def sameRelay : Answer := .relayParents fun _ => some ⟨some "r", some 100⟩

/--
The handler of a third block fills in all authors while the handler of the second
one still waits for the database.
-/
def thirdBlockRun : List Event :=
  [.setupCausation] ++ captures smallLineage "n" "a1" [] ++
    [reports smallLineage "n" "a2", reports smallLineage "n" "a3"] ++
    resumes 1 ([.done, .done] ++ names "a1" ++ names "a2" ++ names "a3") ++
    resumes 0 [.done] ++ resumes 0 [.body none] ++ resumes 0 [.done, .done, sameRelay]

/-- By the time of the verdict the authors are known, and it says contention. -/
theorem attributed_thirdBlock : Attributed aliceThenBob ((machine {} {}).run thirdBlockRun) :=
  (attributed_iff aliceThenBob {} {} thirdBlockRun (by decide)).mpr (by decide)
    _ (List.prefix_refl _)

/-- Two blocks of two authors go through the whole pipeline. -/
def twoAuthorsRun : List Event :=
  [.setupCausation] ++ captures smallLineage "n" "a1" [] ++ [reports smallLineage "n" "a2"] ++
    resumes 0 ([.done, .done, .done, sameRelay, .done, .done] ++ names "a1" ++ names "a2")

/-- The verdict is taken before the authors are there, and stands next to them afterwards. -/
theorem not_attributed_twoAuthorsRun :
    (machine {} {}).Guarded (Truthful aliceThenBob) (machine {} {}).init twoAuthorsRun ∧
      ((machine {} {}).run twoAuthorsRun).forkDetector.recentForks.map
          (fun f => (f.cause, f.sameAuthor, f.authors))
        = [(some .doubleProduction, some true, ["alice", "bob"])] ∧
      ¬ Attributed aliceThenBob ((machine {} {}).run twoAuthorsRun) := by
  refine ⟨by decide, by decide, fun h => ?_⟩
  have hfair := h.fair _ (List.getElem_mem
    (show 0 < (rulings ((machine {} {}).run twoAuthorsRun).history).length by decide))
  exact absurd (hfair.blamed (Or.inr (by decide))) (by decide)

end ForkWatch.Proof
