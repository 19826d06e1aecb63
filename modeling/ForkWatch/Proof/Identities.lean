import ForkWatch.Lib.Chase
import ForkWatch.Lib.Machine
import ForkWatch.Monitor.AuthorExtractor

/-!
# Identities, their cycles and their cache

`resolveIdentity` looks one account up after another, along the parents the chain
has on record: it is a chase, by `asksNext`. Nothing is written into the cache before
the chase has ended, so the cache does not stop it either, and it ends exactly if it
runs into no cycle (`resolveIdentity_ends_iff`).

The second half is about the cache on chains without such cycles. A query that throws
leaves the name null, and null is cached as if the chain had said so. Whether that is
a lie depends on the account: if it has no name anyway, nothing is lost.
`identityCache_iff` says that the cache tells the truth all along exactly if no query
ever fails for an account that has a name.
-/

namespace ForkWatch.Proof

open Lib

/-! ## The chase -/

/-- The account that is looked up next, after this one. -/
def asksNext (api : IdentityApi) (cache : IdentityCache) (address : Address) : Option Address :=
  if address = "" then none
  else
    match cache.get? address with
    | some _ => none
    | none =>
        match api.identityOf address with
        | none => none
        | some identity =>
            match orNull (identity.bind extractDisplayName) with
            | some _ => none
            | none => (api.superOf address).join.map Prod.fst

/-- What the queries answer for an account that asks for its parent. -/
theorem asksNext_spec {api : IdentityApi} {cache : IdentityCache} {address parent : Address} :
    asksNext api cache address = some parent ↔
      address ≠ "" ∧ cache.get? address = none ∧
        ∃ identity sub, api.identityOf address = some identity ∧
          orNull (identity.bind extractDisplayName) = none ∧
          api.superOf address = some (some (parent, sub)) := by
  refine ⟨?_, ?_⟩
  · intro h
    unfold asksNext at h
    split at h
    · exact absurd h (by simp)
    · rename_i hempty
      split at h
      · exact absurd h (by simp)
      · rename_i hcached
        split at h
        · exact absurd h (by simp)
        · rename_i identity hid
          split at h
          · exact absurd h (by simp)
          · rename_i hname
            obtain ⟨e, he, rfl⟩ := Option.map_eq_some_iff.mp h
            exact ⟨hempty, hcached, identity, e.2, hid, hname, Option.join_eq_some_iff.mp he⟩
  · intro h
    obtain ⟨hempty, hcached, identity, sub, hid, hname, hsuper⟩ := h
    unfold asksNext
    simp only [if_neg hempty, hcached, hid, hname, hsuper, Option.join_some, Option.map_some]

/-- An account whose lookup goes no further is settled, whatever the fuel. -/
theorem resolveIdentity_of_asksNext_none {api : IdentityApi} {cache : IdentityCache}
    {address : Address} (h : asksNext api cache address = none) :
    ∃ r, ∀ fuel, resolveIdentity api (fuel + 1) cache address = some r := by
  unfold asksNext at h
  by_cases hempty : address = ""
  · exact ⟨(none, cache), fun fuel => by rw [resolveIdentity, if_pos hempty]⟩
  rw [if_neg hempty] at h
  cases hcached : cache.get? address with
  | some displayName =>
      exact ⟨(displayName, cache), fun fuel => by rw [resolveIdentity, if_neg hempty, hcached]⟩
  | none =>
      have hfetch : ∃ r, ∀ fuel, fetchIdentity api (resolveIdentity api fuel) cache address
          = some r := by
        rw [hcached] at h
        cases hid : api.identityOf address with
        | none => exact ⟨(none, cache), fun fuel => by rw [fetchIdentity, hid]⟩
        | some identity =>
            rw [hid] at h
            dsimp only at h
            cases hname : orNull (identity.bind extractDisplayName) with
            | some name =>
                refine ⟨(some (some name), cache), fun fuel => ?_⟩
                rw [fetchIdentity, hid]
                dsimp only
                rw [hname]
            | none =>
                rw [hname] at h
                -- no parent is on record, or asking for it threw
                cases hsuper : api.superOf address with
                | none =>
                    refine ⟨(none, cache), fun fuel => ?_⟩
                    rw [fetchIdentity, hid]
                    dsimp only
                    rw [hname, hsuper]
                | some parent =>
                    cases parent with
                    | none =>
                        refine ⟨(some none, cache), fun fuel => ?_⟩
                        rw [fetchIdentity, hid]
                        dsimp only
                        rw [hname, hsuper]
                    | some e => rw [hsuper] at h; exact absurd h (by simp)
      obtain ⟨r, hr⟩ := hfetch
      refine ⟨(r.1.join, r.2.set address r.1.join), fun fuel => ?_⟩
      rw [resolveIdentity, if_neg hempty, hcached]
      dsimp only
      rw [hr fuel]
      rfl

/-- What an account hands on from its parent. -/
theorem resolveIdentity_of_asksNext {api : IdentityApi} {cache : IdentityCache}
    {address parent : Address} (h : asksNext api cache address = some parent) :
    ∃ sub, api.superOf address = some (some (parent, sub)) ∧
      ∀ fuel, resolveIdentity api (fuel + 1) cache address
        = (resolveIdentity api fuel cache parent).map fun r =>
            (subName r.1 (rawToString sub), r.2.set address (subName r.1 (rawToString sub))) := by
  obtain ⟨hempty, hcached, identity, sub, hid, hname, hsuper⟩ := asksNext_spec.mp h
  refine ⟨sub, hsuper, fun fuel => ?_⟩
  rw [resolveIdentity, if_neg hempty, hcached]
  dsimp only
  rw [fetchIdentity, hid]
  dsimp only
  rw [hname, hsuper]
  dsimp only
  rw [Option.map_map]
  rfl

/-- **`resolveIdentity` is a chase**: it is still running exactly while the chase is. -/
theorem resolveIdentity_eq_none_iff {api : IdentityApi} {cache : IdentityCache} (fuel : Nat)
    (address : Address) : resolveIdentity api fuel cache address = none
      ↔ Chase.follow (asksNext api cache) fuel address ≠ none := by
  induction fuel generalizing address with
  | zero => simp [resolveIdentity]
  | succ fuel ih =>
      cases hnext : asksNext api cache address with
      | none =>
          obtain ⟨r, hr⟩ := resolveIdentity_of_asksNext_none hnext
          rw [hr, Chase.follow_succ_of_none hnext]
          simp
      | some parent =>
          obtain ⟨sub, -, hsub⟩ := resolveIdentity_of_asksNext hnext
          rw [hsub, Chase.follow_succ hnext, Option.map_eq_none_iff]
          exact ih parent

/-- More fuel changes nothing. -/
theorem resolveIdentity_mono {api : IdentityApi} {cache : IdentityCache} {m n : Nat}
    {address : Address} {r : Option String × IdentityCache}
    (h : resolveIdentity api m cache address = some r) (hle : m ≤ n) :
    resolveIdentity api n cache address = some r := by
  induction m generalizing n address r with
  | zero => exact absurd h (by simp [resolveIdentity])
  | succ m ih =>
      obtain ⟨n, rfl⟩ : ∃ k, n = k + 1 := ⟨n - 1, by omega⟩
      cases hnext : asksNext api cache address with
      | some parent =>
          obtain ⟨sub, -, hsub⟩ := resolveIdentity_of_asksNext hnext
          rw [hsub] at h
          obtain ⟨r', hr', rfl⟩ := Option.map_eq_some_iff.mp h
          rw [hsub, ih hr' (by omega), Option.map_some]
      | none =>
          obtain ⟨r', hr'⟩ := resolveIdentity_of_asksNext_none hnext
          rw [hr'] at h
          rw [hr', h]

/-! ## Cycles on the chain -/

/--
The name of `address` is that of its parent: it has no name of its own, nothing is
cached for it, and the chain has a parent of it on record.
-/
structure RefersTo (state : IdentityState) (cache : IdentityCache) (address parent : Address) :
    Prop where
  inhabited : address ≠ ""
  uncached : cache.get? address = none
  nameless : state.displayName address = none
  onRecord : ∃ sub, state.superOf.get? address = some (parent, sub)

theorem asksNext_eq_some_iff {state : IdentityState} {failing : Failures} {cache : IdentityCache}
    {address parent : Address} : asksNext (state.api failing) cache address = some parent
      ↔ RefersTo state cache address parent ∧ failing.identityOf address = false
        ∧ failing.superOf address = false := by
  rw [asksNext_spec]
  unfold IdentityState.api
  dsimp only
  refine ⟨?_, ?_⟩
  · intro h
    obtain ⟨hempty, hcached, identity, sub, hid, hname, hsuper⟩ := h
    split at hid
    · exact absurd hid (by simp)
    · rename_i hidFails
      split at hsuper
      · exact absurd hsuper (by simp)
      · rename_i hsuperFails
        obtain rfl := Option.some.inj hid
        exact ⟨⟨hempty, hcached, hname, sub, Option.some.inj hsuper⟩, by simpa using hidFails,
          by simpa using hsuperFails⟩
  · intro h
    obtain ⟨⟨hempty, hcached, hname, sub, hparent⟩, hid, hsuper⟩ := h
    refine ⟨hempty, hcached, state.identityOf address, sub, ?_, hname, ?_⟩
    · simp [hid]
    · simp [hsuper, hparent]

/-- Without failures, the chase goes along what the chain has on record. -/
theorem refers_noFailures (state : IdentityState) (cache : IdentityCache) :
    Chase.Refers (asksNext (state.api noFailures) cache) = RefersTo state cache := by
  funext address parent
  refine propext ?_
  unfold Chase.Refers
  rw [asksNext_eq_some_iff]
  exact ⟨fun h => h.1, fun h => ⟨h, rfl, rfl⟩⟩

/-- Only accounts with a parent on record ask for another one. -/
theorem mem_keys_of_asksNext {state : IdentityState} {failing : Failures} {cache : IdentityCache} :
    ∀ a b, asksNext (state.api failing) cache a = some b → a ∈ state.superOf.keys := by
  intro a b h
  obtain ⟨hrefers, -, -⟩ := asksNext_eq_some_iff.mp h
  obtain ⟨sub, hsub⟩ := hrefers.onRecord
  exact OrdMap.mem_keys_iff.mpr ⟨_, hsub⟩

/--
**When identity resolution ends.**

With any content of the cache, `resolveIdentity` ends if and only if the parents on
record do not lead from the address, by way of accounts that are not cached and have
no name of their own, to such an account that leads back to itself.
-/
theorem resolveIdentity_ends_iff (state : IdentityState) (cache : IdentityCache)
    (address : Address) :
    (∃ fuel r, resolveIdentity (state.api noFailures) fuel cache address = some r)
      ↔ ¬ ∃ account, Relation.ReflTransGen (RefersTo state cache) address account
          ∧ Relation.TransGen (RefersTo state cache) account account := by
  have hends : (∃ fuel r, resolveIdentity (state.api noFailures) fuel cache address = some r)
      ↔ Chase.Ends (asksNext (state.api noFailures) cache) address := by
    refine exists_congr fun fuel => ?_
    rw [← Option.ne_none_iff_exists', Ne, resolveIdentity_eq_none_iff, not_not]
  rw [hends, Chase.ends_iff mem_keys_of_asksNext, ← refers_noFailures]
  exact Iff.rfl

/-- An account that is on record as its own parent. -/
def ownParent : IdentityState where
  identityOf := fun _ => none
  superOf := OrdMap.ofList [("5Self", ("5Self", none))]

theorem asksNext_ownParent :
    asksNext (ownParent.api noFailures) ∅ "5Self" = some "5Self" := rfl

/-- The lookup of an account that is its own parent never ends. -/
theorem not_resolveIdentity_ends_ownParent :
    ¬ ∃ fuel r, resolveIdentity (ownParent.api noFailures) fuel ∅ "5Self" = some r := by
  intro h
  obtain ⟨fuel, r, hr⟩ := h
  induction fuel generalizing r with
  | zero => exact absurd hr (by simp [resolveIdentity])
  | succ fuel ih =>
      obtain ⟨sub, -, hsub⟩ := resolveIdentity_of_asksNext asksNext_ownParent
      rw [hsub] at hr
      obtain ⟨r', hr', -⟩ := Option.map_eq_some_iff.mp hr
      exact ih r' hr'

/-! ## The names of a chain without cycles -/

/-- No account is, by way of accounts without a name of their own, its own parent. -/
def Acyclic (state : IdentityState) : Prop :=
  ∀ a, ¬ Relation.TransGen (RefersTo state ∅) a a

/-- What is cached refers to nothing. -/
theorem RefersTo.of_empty {state : IdentityState} {cache : IdentityCache} {a b : Address}
    (h : RefersTo state cache a b) : RefersTo state ∅ a b where
  inhabited := h.inhabited
  uncached := rfl
  nameless := h.nameless
  onRecord := h.onRecord

/-- `resolveIdentity`, given all the lookups a state without cycles can call for. -/
def resolved (state : IdentityState) (failing : Failures) (cache : IdentityCache)
    (address : Address) : Option String × IdentityCache :=
  (resolveIdentity (state.api failing) (state.superOf.size + 1) cache address).getD (none, cache)

/-- **On a chain without cycles, every lookup ends**, whatever is cached and whatever fails. -/
theorem resolveIdentity_eq_resolved {state : IdentityState} (hac : Acyclic state)
    (failing : Failures) (cache : IdentityCache) (address : Address) :
    resolveIdentity (state.api failing) (state.superOf.size + 1) cache address
      = some (resolved state failing cache address) := by
  unfold resolved
  cases h : resolveIdentity (state.api failing) (state.superOf.size + 1) cache address with
  | some r => rfl
  | none =>
      rw [resolveIdentity_eq_none_iff, OrdMap.size_eq_length_keys] at h
      refine absurd (Chase.follow_eq_none mem_keys_of_asksNext ?_) h
      intro hcycle
      obtain ⟨c, -, hcc⟩ := hcycle
      exact hac c (Relation.TransGen.mono
        (fun a b hab => (asksNext_eq_some_iff.mp hab).1.of_empty) _ _ hcc)

/-- Whatever fuel a lookup ends with, it ends with the same. -/
theorem eq_resolved {state : IdentityState} (hac : Acyclic state) {failing : Failures}
    {cache : IdentityCache} {address : Address} {fuel : Nat} {r : Option String × IdentityCache}
    (h : resolveIdentity (state.api failing) fuel cache address = some r) :
    r = resolved state failing cache address := by
  have hmax := resolveIdentity_mono h (Nat.le_max_left fuel (state.superOf.size + 1))
  have hmax' := resolveIdentity_mono (resolveIdentity_eq_resolved hac failing cache address)
    (Nat.le_max_right fuel (state.superOf.size + 1))
  rw [hmax] at hmax'
  exact Option.some.inj hmax'

/-- The name a resolution without failures gives on a fresh cache. -/
def trueName (state : IdentityState) (address : Address) : Option String :=
  (resolved state noFailures ∅ address).1

theorem trueName_empty (state : IdentityState) : trueName state "" = none := rfl

theorem trueName_of_displayName {state : IdentityState} {address : Address} {name : String}
    (hne : address ≠ "") (h : state.displayName address = some name) :
    trueName state address = some name := by
  unfold IdentityState.displayName at h
  unfold trueName resolved
  rw [resolveIdentity, if_neg hne]
  simp [fetchIdentity, IdentityState.api, noFailures, h]

theorem trueName_of_no_parent {state : IdentityState} {address : Address}
    (h : state.displayName address = none) (hparent : state.superOf.get? address = none) :
    trueName state address = none := by
  unfold IdentityState.displayName at h
  unfold trueName resolved
  rw [resolveIdentity]
  split
  · rfl
  · simp [fetchIdentity, IdentityState.api, noFailures, h, hparent]

theorem trueName_of_parent {state : IdentityState} (hac : Acyclic state) {address parent : Address}
    {sub : Option Data} (hne : address ≠ "") (h : state.displayName address = none)
    (hparent : state.superOf.get? address = some (parent, sub)) :
    trueName state address = subName (trueName state parent) (rawToString sub) := by
  have hnext : asksNext (state.api noFailures) ∅ address = some parent :=
    asksNext_eq_some_iff.mpr ⟨⟨hne, rfl, h, sub, hparent⟩, rfl, rfl⟩
  obtain ⟨sub', hsuper, hsub⟩ := resolveIdentity_of_asksNext hnext
  obtain rfl : sub = sub' := by
    have heq : some (state.superOf.get? address) = some (some (parent, sub')) := hsuper
    rw [hparent] at heq
    simpa using heq
  have hall := resolveIdentity_eq_resolved hac noFailures ∅ address
  rw [hsub] at hall
  obtain ⟨r, hr, hall⟩ := Option.map_eq_some_iff.mp hall
  unfold trueName
  -- the parent is looked up with less fuel, and comes to the same
  rw [← hall, ← eq_resolved hac hr]

/-- A name is on record: the account's own, or that of an account it refers to. -/
def Named (state : IdentityState) (address : Address) : Prop :=
  ∃ account, Relation.ReflTransGen (RefersTo state ∅) address account ∧ account ≠ ""
    ∧ state.displayName account ≠ none

theorem subName_ne_none_iff {parentName sub : Option String} :
    subName parentName sub ≠ none ↔ orNull parentName ≠ none := by
  unfold subName
  split
  · rename_i h; simp [h]
  · rename_i p h
    rw [h]
    split <;> simp

theorem orNull_subName (parentName sub : Option String) :
    orNull (subName parentName sub) = subName parentName sub := by
  unfold subName
  split
  · rfl
  · rename_i p hp
    obtain ⟨-, hne⟩ := Option.filter_eq_some_iff.mp hp
    have hne : p ≠ "" := by simpa using hne
    split
    · unfold orNull; rw [Option.filter_some, if_pos (by simpa using hne)]
    · unfold orNull
      rw [Option.filter_some, if_pos]
      simp [hne]

theorem Acyclic.not_runsIntoCycle {state : IdentityState} (hac : Acyclic state) (a : Address) :
    ¬ Chase.RunsIntoCycle (asksNext (state.api noFailures) ∅) a := by
  intro hcycle
  obtain ⟨c, -, hcc⟩ := hcycle
  rw [refers_noFailures] at hcc
  exact hac c hcc

/-- Induction from an account's parent to the account. -/
theorem Acyclic.induct {state : IdentityState} (hac : Acyclic state) {P : Address → Prop}
    (hstep : ∀ a, (∀ b, RefersTo state ∅ a b → P b) → P a) (a : Address) : P a := by
  have hends : Chase.Ends (asksNext (state.api noFailures) ∅) a :=
    (Chase.ends_iff mem_keys_of_asksNext).mpr (hac.not_runsIntoCycle a)
  refine hends.induct fun a ih => hstep a fun b hb => ih b ?_
  exact asksNext_eq_some_iff.mpr ⟨hb, rfl, rfl⟩

/-- An account has a name exactly if the account it refers to has. -/
theorem RefersTo.named_iff {state : IdentityState} {a b : Address} (h : RefersTo state ∅ a b) :
    Named state a ↔ Named state b := by
  refine ⟨?_, ?_⟩
  · intro hnamed
    obtain ⟨account, hreach, hne, hname⟩ := hnamed
    rcases Relation.ReflTransGen.cases_head hreach with rfl | ⟨c, hac, hrest⟩
    · exact absurd h.nameless hname
    · -- the chain has one parent of it on record
      obtain ⟨sub, hsub⟩ := h.onRecord
      obtain ⟨sub', hsub'⟩ := hac.onRecord
      rw [hsub] at hsub'
      obtain ⟨rfl, -⟩ := Prod.mk.inj (Option.some.inj hsub')
      exact ⟨account, hrest, hne, hname⟩
  · intro hnamed
    obtain ⟨account, hreach, hne, hname⟩ := hnamed
    exact ⟨account, .head h hreach, hne, hname⟩

/-- **Names are truthy**, and an account has one exactly if one is on record for it. -/
theorem trueName_spec {state : IdentityState} (hac : Acyclic state) (address : Address) :
    orNull (trueName state address) = trueName state address
      ∧ (trueName state address ≠ none ↔ Named state address) := by
  induction address using hac.induct with
  | hstep a ih =>
      by_cases hne : a = ""
      · subst hne
        refine ⟨rfl, ?_⟩
        rw [trueName_empty]
        refine ⟨fun h => absurd rfl h, ?_⟩
        intro hnamed
        -- nothing refers to the empty address, and it refers to nothing
        obtain ⟨account, hreach, hne, -⟩ := hnamed
        rcases Relation.ReflTransGen.cases_head hreach with rfl | ⟨c, hac, -⟩
        · exact absurd rfl hne
        · exact absurd rfl hac.inhabited
      · cases hname : state.displayName a with
        | some name =>
            rw [trueName_of_displayName hne hname]
            have horNull : orNull (some name) = some name := by
              rw [← hname]
              unfold IdentityState.displayName orNull
              rw [Option.filter_filter]
              simp
            exact ⟨horNull, fun _ => ⟨a, .refl, hne, by simp [hname]⟩, fun _ => by simp⟩
        | none =>
            cases hparent : state.superOf.get? a with
            | none =>
                rw [trueName_of_no_parent hname hparent]
                refine ⟨rfl, fun h => absurd rfl h, ?_⟩
                intro hnamed
                obtain ⟨account, hreach, -, haccount⟩ := hnamed
                rcases Relation.ReflTransGen.cases_head hreach with rfl | ⟨c, hrefers, -⟩
                · exact absurd hname haccount
                · obtain ⟨sub, hsub⟩ := hrefers.onRecord
                  rw [hparent] at hsub
                  exact absurd hsub (by simp)
            | some e =>
                -- no name of its own, so the parent's name is what the induction gives
                have hrefers : RefersTo state ∅ a e.1 := ⟨hne, rfl, hname, e.2, hparent⟩
                obtain ⟨hor, hnamed⟩ := ih e.1 hrefers
                rw [trueName_of_parent hac hne hname hparent]
                refine ⟨orNull_subName _ _, ?_⟩
                rw [subName_ne_none_iff, hor, hnamed, hrefers.named_iff]

theorem trueName_eq_none_iff {state : IdentityState} (hac : Acyclic state) {address : Address} :
    trueName state address = none ↔ ¬ Named state address := by
  rw [← (trueName_spec hac address).2, not_not]

/-! ## What a call leaves in the cache -/

/-- Every cached name is the one the chain has. -/
def CacheTrue (state : IdentityState) (cache : IdentityCache) : Prop :=
  ∀ a name, cache.get? a = some name → name = trueName state a

/--
In this cache, and with these queries failing, the lookup of `address` comes to
`account` and one of the queries about it fails.
-/
structure RunsIntoFailure (state : IdentityState) (failing : Failures) (cache : IdentityCache)
    (address account : Address) : Prop where
  comes : Relation.ReflTransGen
    (fun a b => RefersTo state cache a b ∧ failing.identityOf a = false
      ∧ failing.superOf a = false) address account
  inhabited : account ≠ ""
  uncached : cache.get? account = none
  fails : failing.identityOf account = true
    ∨ state.displayName account = none ∧ failing.superOf account = true

theorem CacheTrue.set {state : IdentityState} {cache : IdentityCache} (h : CacheTrue state cache)
    {a : Address} {name : Option String} (hname : name = trueName state a) :
    CacheTrue state (cache.set a name) := by
  intro b name' hb
  rw [OrdMap.get?_set] at hb
  split at hb
  · rename_i heq
    rw [heq, ← Option.some.inj hb]
    exact hname
  · exact h b name' hb

/-- Everything the lookup of one account can come to. -/
inductive LookedUp (state : IdentityState) (failing : Failures) (fuel : Nat)
    (cache : IdentityCache) (a : Address) : Option String × IdentityCache → Prop where
  | empty (ha : a = "") : LookedUp state failing fuel cache a (none, cache)
  | cached {name : Option String} (h : cache.get? a = some name) :
      LookedUp state failing fuel cache a (name, cache)
  | failed (h : RunsIntoFailure state failing cache a a) :
      LookedUp state failing fuel cache a (none, cache.set a none)
  | own {name : String} (ha : a ≠ "") (h : state.displayName a = some name) :
      LookedUp state failing fuel cache a (some name, cache.set a (some name))
  | nameless (h : state.displayName a = none) (hparent : state.superOf.get? a = none) :
      LookedUp state failing fuel cache a (none, cache.set a none)
  | parent {b : Address} {sub : Option Data} {r : Option String × IdentityCache}
      (h : RefersTo state cache a b) (hparent : state.superOf.get? a = some (b, sub))
      (hid : failing.identityOf a = false) (hsuper : failing.superOf a = false)
      (hr : resolveIdentity (state.api failing) fuel cache b = some r) :
      LookedUp state failing fuel cache a
        (subName r.1 (rawToString sub), r.2.set a (subName r.1 (rawToString sub)))

theorem lookedUp {state : IdentityState} {failing : Failures} {fuel : Nat} {cache : IdentityCache}
    {a : Address} {r : Option String × IdentityCache}
    (h : resolveIdentity (state.api failing) (fuel + 1) cache a = some r) :
    LookedUp state failing fuel cache a r := by
  rw [resolveIdentity] at h
  by_cases ha : a = ""
  · rw [if_pos ha] at h
    rw [← Option.some.inj h]
    exact .empty ha
  · rw [if_neg ha] at h
    cases hcache : cache.get? a with
    | some name =>
        rw [hcache] at h
        rw [← Option.some.inj h]
        exact .cached hcache
    | none =>
        rw [hcache] at h
        obtain ⟨fetched, hfetched, rfl⟩ := Option.map_eq_some_iff.mp h
        unfold fetchIdentity IdentityState.api at hfetched
        dsimp only at hfetched
        -- a query that throws leaves the name null, and null is cached like any other
        by_cases hid : failing.identityOf a = true
        · rw [if_pos hid] at hfetched
          rw [← Option.some.inj hfetched]
          exact .failed ⟨.refl, ha, hcache, .inl hid⟩
        · rw [if_neg hid] at hfetched
          dsimp only at hfetched
          cases hname : state.displayName a with
          | some name =>
              rw [← IdentityState.displayName, hname] at hfetched
              rw [← Option.some.inj hfetched]
              exact .own ha hname
          | none =>
              rw [← IdentityState.displayName, hname] at hfetched
              dsimp only at hfetched
              by_cases hsuper : failing.superOf a = true
              · rw [if_pos hsuper] at hfetched
                rw [← Option.some.inj hfetched]
                exact .failed ⟨.refl, ha, hcache, .inr ⟨hname, hsuper⟩⟩
              · rw [if_neg hsuper] at hfetched
                cases hparent : state.superOf.get? a with
                | none =>
                    rw [hparent] at hfetched
                    rw [← Option.some.inj hfetched]
                    exact .nameless hname hparent
                | some e =>
                    rw [hparent] at hfetched
                    obtain ⟨r, hr, rfl⟩ := Option.map_eq_some_iff.mp hfetched
                    exact .parent ⟨ha, hcache, hname, e.2, hparent⟩ hparent (by simpa using hid)
                      (by simpa using hsuper) hr

/--
**A call that meets no failure about a named account tells the truth**, and leaves a
true cache true.
-/
theorem resolveIdentity_true {state : IdentityState} (hac : Acyclic state) {failing : Failures}
    {cache : IdentityCache} (hcache : CacheTrue state cache) :
    ∀ (fuel : Nat) (a : Address) (r : Option String × IdentityCache),
      (∀ b, RunsIntoFailure state failing cache a b → ¬ Named state b) →
      resolveIdentity (state.api failing) fuel cache a = some r →
        r.1 = trueName state a ∧ CacheTrue state r.2 := by
  intro fuel
  induction fuel with
  | zero => intro a r _ h; exact absurd h (by simp [resolveIdentity])
  | succ fuel ih =>
      intro a r hfail h
      cases lookedUp h with
      | empty ha => exact ⟨by rw [ha, trueName_empty], hcache⟩
      | cached hget => exact ⟨hcache a _ hget, hcache⟩
      | failed hruns =>
          have hnone := (trueName_eq_none_iff hac).mpr (hfail a hruns)
          exact ⟨hnone.symm, hcache.set hnone.symm⟩
      | own ha hname =>
          have htrue := trueName_of_displayName ha hname
          exact ⟨htrue.symm, hcache.set htrue.symm⟩
      | nameless hname hparent =>
          have hnone := trueName_of_no_parent hname hparent
          exact ⟨hnone.symm, hcache.set hnone.symm⟩
      | @parent b sub r' hrefers hparent hid hsuper hr =>
          -- what the parent's lookup runs into, this one runs into by way of the parent
          have hfail' : ∀ c, RunsIntoFailure state failing cache b c → ¬ Named state c :=
            fun c hc => hfail c { hc with comes := .head ⟨hrefers, hid, hsuper⟩ hc.comes }
          obtain ⟨hname, htrue⟩ := ih b r' hfail' hr
          have heq := trueName_of_parent hac hrefers.inhabited hrefers.nameless hparent
          rw [← hname] at heq
          exact ⟨heq.symm, htrue.set heq.symm⟩

theorem resolveIdentity_of_fails {state : IdentityState} {failing : Failures}
    {cache : IdentityCache} {a : Address} (h : RunsIntoFailure state failing cache a a)
    (fuel : Nat) : resolveIdentity (state.api failing) (fuel + 1) cache a
      = some (none, cache.set a none) := by
  have hne := h.inhabited
  have hcache := h.uncached
  rw [resolveIdentity, if_neg hne, hcache]
  dsimp only
  unfold fetchIdentity IdentityState.api
  dsimp only
  rcases h.fails with hid | ⟨hname, hsuper⟩
  · rw [if_pos hid]
    rfl
  · unfold IdentityState.displayName at hname
    by_cases hid : failing.identityOf a = true
    · rw [if_pos hid]
      rfl
    · rw [if_neg hid, if_pos hsuper]
      dsimp only
      rw [hname]
      rfl

/-- **A failure is remembered as the lack of a name**: for the account it was about. -/
theorem get?_of_runsIntoFailure {state : IdentityState} {failing : Failures}
    {cache : IdentityCache} {account : Address} : ∀ (fuel : Nat) (a : Address)
      (r : Option String × IdentityCache), RunsIntoFailure state failing cache a account →
      resolveIdentity (state.api failing) fuel cache a = some r →
        r.2.get? account = some none := by
  intro fuel
  induction fuel with
  | zero => intro a r _ h; exact absurd h (by simp [resolveIdentity])
  | succ fuel ih =>
      intro a r hruns h
      rcases Relation.ReflTransGen.cases_head hruns.comes with rfl | ⟨b, hab, hrest⟩
      · rw [resolveIdentity_of_fails hruns] at h
        rw [← Option.some.inj h, OrdMap.get?_set_self]
      · obtain ⟨hrefers, hid, hsuper⟩ := hab
        obtain ⟨sub, -, hsub⟩ := resolveIdentity_of_asksNext
          (asksNext_eq_some_iff.mpr ⟨hrefers, hid, hsuper⟩)
        rw [hsub] at h
        obtain ⟨r', hr', rfl⟩ := Option.map_eq_some_iff.mp h
        -- what is written on the way back is about accounts whose queries did not fail
        have hne : account ≠ a := by
          intro heq
          subst heq
          rcases hruns.fails with hf | ⟨-, hf⟩
          · rw [hid] at hf; exact absurd hf (by simp)
          · rw [hsuper] at hf; exact absurd hf (by simp)
        dsimp only
        rw [OrdMap.get?_set_ne _ _ hne]
        exact ih b r' { hruns with comes := hrest } hr'

/-! ## Runs of calls -/

/-- A call of `resolveIdentity`, and which queries throw while it is served. -/
structure IdentityCall where
  address : Address
  failing : Failures

/-- The cache, under calls one after the other. -/
def identityMachine (state : IdentityState) : Machine IdentityCache IdentityCall where
  init := ∅
  step := fun cache call => (resolved state call.failing cache call.address).2

/-- The cache can be relied on. -/
structure Trusted (state : IdentityState) (cache : IdentityCache) : Prop where
  /-- Every entry is what a resolution without failures would give. -/
  entries : CacheTrue state cache
  /-- Once no query fails, every address is resolved as on a fresh cache. -/
  answers : ∀ a, ∃ fuel cache', resolveIdentity (state.api noFailures) fuel cache a
    = some (trueName state a, cache')

/-- No query fails, during this call, about an account that has a name. -/
def SparesNamed (state : IdentityState) (cache : IdentityCache) (call : IdentityCall) : Prop :=
  ∀ account, RunsIntoFailure state call.failing cache call.address account → ¬ Named state account

theorem not_runsIntoFailure_noFailures {state : IdentityState} {cache : IdentityCache}
    {a account : Address} : ¬ RunsIntoFailure state noFailures cache a account := by
  intro h
  rcases h.fails with hf | ⟨-, hf⟩
  · exact absurd hf (by simp [noFailures])
  · exact absurd hf (by simp [noFailures])

/-- Answers follow from entries. -/
theorem trusted_iff {state : IdentityState} (hac : Acyclic state) {cache : IdentityCache} :
    Trusted state cache ↔ CacheTrue state cache := by
  refine ⟨fun h => h.entries, ?_⟩
  intro h
  refine ⟨h, ?_⟩
  intro a
  have hres := resolveIdentity_eq_resolved hac noFailures cache a
  obtain ⟨hname, -⟩ := resolveIdentity_true hac h _ a _
    (fun _ hb => absurd hb not_runsIntoFailure_noFailures) hres
  exact ⟨_, _, by rw [hres, ← hname]⟩

/-- From a true cache, a call leads to a true cache exactly if it spares named accounts. -/
theorem cacheTrue_step_iff {state : IdentityState} (hac : Acyclic state) {cache : IdentityCache}
    (h : CacheTrue state cache) (call : IdentityCall) :
    CacheTrue state ((identityMachine state).step cache call) ↔ SparesNamed state cache call := by
  have hres := resolveIdentity_eq_resolved hac call.failing cache call.address
  refine ⟨?_, ?_⟩
  · intro htrue account hruns hnamed
    have hget := get?_of_runsIntoFailure _ _ _ hruns hres
    exact (trueName_eq_none_iff hac).mp (htrue account none hget).symm hnamed
  · intro hspares
    exact (resolveIdentity_true hac h _ _ _ hspares hres).2

/--
**When the identity cache tells the truth.**

On a chain without cycles of parents, over any calls and any failures: the cache can
be relied on after every call if and only if no call runs into a failing query about
an account that has a name. A failure about an account without one costs nothing.
-/
theorem identityCache_iff (state : IdentityState) (hac : Acyclic state)
    (calls : List IdentityCall) :
    (∀ pre, pre <+: calls → Trusted state ((identityMachine state).run pre))
      ↔ (identityMachine state).Guarded (SparesNamed state) ∅ calls := by
  have hempty : CacheTrue state ∅ := by
    intro a name h
    exact absurd h (by simp)
  refine Machine.always_iff_guarded (I := fun _ => True) (A := fun _ _ => True) trivial
    (fun _ _ _ _ => trivial) ((trusted_iff hac).mpr hempty) ?_
    (Machine.guarded_of_forall fun _ _ => trivial)
  intro cache call _ _ h
  rw [trusted_iff hac]
  exact cacheTrue_step_iff hac h.entries call

/-- An account with a name, and a sub-account of it. -/
def aliceAndSub : IdentityState where
  identityOf := fun a => if a = "5Alice" then some { display := some (.raw "Alice") } else none
  superOf := OrdMap.ofList [("5Sub", ("5Alice", some (.raw "stash")))]

theorem acyclic_aliceAndSub : Acyclic aliceAndSub := by
  have hedge : ∀ a b, RefersTo aliceAndSub ∅ a b → a = "5Sub" ∧ b = "5Alice" := by
    intro a b h
    obtain ⟨sub, hsub⟩ := h.onRecord
    have hmem := OrdMap.mem_of_get?_ofList hsub
    simp only [List.mem_singleton, Prod.mk.injEq] at hmem
    exact ⟨hmem.1, hmem.2.1⟩
  intro a hcycle
  obtain ⟨b, hab, hba⟩ := Relation.TransGen.head'_iff.mp hcycle
  obtain ⟨rfl, rfl⟩ := hedge a b hab
  -- nothing leads on from the parent
  rcases Relation.ReflTransGen.cases_head hba with heq | ⟨c, hc, -⟩
  · exact absurd heq (by decide)
  · exact absurd (hedge _ _ hc).1 (by decide)

/-- Every query fails. -/
def allFail : Failures where
  identityOf := fun _ => true
  superOf := fun _ => true

/-- A failure about a stranger, then the sub-account. -/
def strangerFails : List IdentityCall :=
  [{ address := "5Eve", failing := allFail }, { address := "5Sub", failing := noFailures }]

theorem trusted_strangerFails :
    Trusted aliceAndSub ((identityMachine aliceAndSub).run strangerFails) := by
  refine (identityCache_iff aliceAndSub acyclic_aliceAndSub strangerFails).mpr ⟨?_, ?_, trivial⟩
    strangerFails (List.prefix_refl _)
  · intro account hruns hnamed
    have hnone : trueName aliceAndSub "5Eve" = none := rfl
    rcases Relation.ReflTransGen.cases_head hruns.comes with rfl | ⟨b, hab, -⟩
    · exact (trueName_eq_none_iff acyclic_aliceAndSub).mp hnone hnamed
    · exact absurd hab.2.1 (by simp [allFail])
  · intro account hruns
    exact absurd hruns not_runsIntoFailure_noFailures

/-- The sub-account is looked up while the query about its parent fails. -/
def parentFails : List IdentityCall :=
  [{ address := "5Sub", failing := { identityOf := fun a => a = "5Alice", superOf := fun _ => false } }]

/-- One failure, and neither the parent nor the sub-account has a name any more. -/
theorem not_trusted_parentFails :
    Acyclic aliceAndSub
    ∧ trueName aliceAndSub "5Sub" = some "Alice/stash"
    ∧ ((identityMachine aliceAndSub).run parentFails).get? "5Sub" = some none
    ∧ ((identityMachine aliceAndSub).run parentFails).get? "5Alice" = some none
    ∧ ¬ ∀ pre, pre <+: parentFails →
        Trusted aliceAndSub ((identityMachine aliceAndSub).run pre) := by
  have hget : ((identityMachine aliceAndSub).run parentFails).get? "5Sub" = some none := rfl
  refine ⟨acyclic_aliceAndSub, rfl, hget, rfl, ?_⟩
  intro h
  have hname := (h parentFails (List.prefix_refl _)).entries "5Sub" none hget
  exact absurd hname (by decide)

/-! ## A call that waits for the node

A call of `resolveIdentity` waits at each of its queries, and the node may answer them
one by one, or never. Served one after the other, it comes to what `resolveIdentity`
comes to; and on a chain without cycles there is an end to the queries, whatever is
cached meanwhile. -/

/-- What the node answers to the query that is out. -/
def answerOf (api : IdentityApi) (l : Lookup) : IdentityAnswer :=
  match l.query with
  | .identityOf => .identityOf (api.identityOf l.address)
  | .superOf => .superOf (api.superOf l.address)

/-- A call that is alone, after so many answers. -/
def serve (api : IdentityApi) :
    Nat → IdentityCache × Option Lookup → IdentityCache × Option Lookup
  | 0, s => s
  | _ + 1, (cache, none) => (cache, none)
  | n + 1, (cache, some l) => serve api n (l.resume cache (answerOf api l))

/-- **A call that is served comes to what `resolveIdentity` comes to**, and hands it on. -/
theorem serve_startLookup {api : IdentityApi} {fuel : Nat} {cache cache' : IdentityCache}
    {address : Address} {name : Option String}
    (h : resolveIdentity api fuel cache address = some (name, cache'))
    (callers : List (Address × Option Data)) :
    ∃ n, serve api n (startLookup cache address callers)
      = (returnName name callers cache', none) := by
  induction fuel generalizing address name cache' callers with
  | zero => exact absurd h (by simp [resolveIdentity])
  | succ fuel ih =>
      rw [resolveIdentity] at h
      unfold startLookup
      split at h
      · rename_i hempty
        obtain ⟨rfl, rfl⟩ := Prod.mk.inj (Option.some.inj h)
        exact ⟨0, by rw [if_pos hempty]; rfl⟩
      rename_i hempty
      rw [if_neg hempty]
      split at h
      · rename_i displayName hcached
        obtain ⟨rfl, rfl⟩ := Prod.mk.inj (Option.some.inj h)
        exact ⟨0, rfl⟩
      rename_i hcached
      obtain ⟨r, hfetch, heq⟩ := Option.map_eq_some_iff.mp h
      obtain ⟨rfl, rfl⟩ := Prod.mk.inj heq
      unfold fetchIdentity at hfetch
      cases hid : api.identityOf address with
      | none =>
          rw [hid] at hfetch
          obtain rfl := Option.some.inj hfetch
          exact ⟨1, by simp [serve, answerOf, Lookup.resume, Lookup.finish, hid]⟩
      | some identity =>
          rw [hid] at hfetch
          dsimp only at hfetch
          cases hname : orNull (identity.bind extractDisplayName) with
          | some own =>
              rw [hname] at hfetch
              obtain rfl := Option.some.inj hfetch
              exact ⟨1, by simp [serve, answerOf, Lookup.resume, Lookup.finish, hid, hname]⟩
          | none =>
              rw [hname] at hfetch
              dsimp only at hfetch
              -- the account has no name of its own, so its parent is asked for
              cases hsuper : api.superOf address with
              | none =>
                  rw [hsuper] at hfetch
                  obtain rfl := Option.some.inj hfetch
                  exact ⟨2, by
                    simp [serve, answerOf, Lookup.resume, Lookup.finish, hid, hname, hsuper]⟩
              | some parent =>
                  cases parent with
                  | none =>
                      rw [hsuper] at hfetch
                      obtain rfl := Option.some.inj hfetch
                      exact ⟨2, by
                        simp [serve, answerOf, Lookup.resume, Lookup.finish, hid, hname, hsuper]⟩
                  | some e =>
                      obtain ⟨parentAddress, sub⟩ := e
                      rw [hsuper] at hfetch
                      obtain ⟨⟨found, cache₀⟩, hparent, rfl⟩ := Option.map_eq_some_iff.mp hfetch
                      obtain ⟨n, hn⟩ := ih hparent ((address, sub) :: callers)
                      refine ⟨n + 2, ?_⟩
                      simpa [serve, answerOf, Lookup.resume, hid, hname, hsuper, returnName]
                        using hn

/-- An answer of a node whose chain has this state; a query may fail. -/
def Answers (state : IdentityState) (l : Lookup) : IdentityAnswer → Prop
  | .identityOf identity => ∀ found ∈ identity, found = state.identityOf l.address
  | .superOf parent => ∀ found ∈ parent, found = state.superOf.get? l.address

/-- How many accounts are looked up from this one, if nothing is cached. -/
def lookups (state : IdentityState) (address : Address) : Nat :=
  Chase.rank (asksNext (state.api noFailures) ∅) (state.superOf.size + 1) address

/-- The same from the parent on record. -/
def parentLookups (state : IdentityState) (address : Address) : Nat :=
  (state.superOf.get? address).elim 0 fun e => lookups state e.1

/-- How many queries a call needs at most until it returns. -/
def queriesLeft (state : IdentityState) (l : Lookup) : Nat :=
  match l.query with
  | .identityOf =>
      if state.displayName l.address = none then 2 + 2 * parentLookups state l.address else 1
  | .superOf => 1 + 2 * parentLookups state l.address

theorem lookups_of_refers {state : IdentityState} (hac : Acyclic state) {a b : Address}
    (h : RefersTo state ∅ a b) : lookups state a = lookups state b + 1 := by
  have hnext : asksNext (state.api noFailures) ∅ a = some b :=
    asksNext_eq_some_iff.mpr ⟨h, rfl, rfl⟩
  unfold lookups
  rw [OrdMap.size_eq_length_keys]
  exact Chase.rank_of_refers mem_keys_of_asksNext (hac.not_runsIntoCycle a) hnext

/-- A call that starts asks at most twice about each account it looks up. -/
theorem queriesLeft_start {state : IdentityState} (hac : Acyclic state) {cache : IdentityCache}
    {address : Address} {callers : List (Address × Option Data)} {l : Lookup}
    (h : (startLookup cache address callers).2 = some l) :
    queriesLeft state l ≤ 2 * lookups state address := by
  unfold startLookup at h
  split at h
  · exact absurd h (by simp)
  rename_i hempty
  split at h
  · exact absurd h (by simp)
  obtain rfl := Option.some.inj h
  have hpos : 0 < lookups state address := Chase.rank_pos ..
  unfold queriesLeft
  dsimp only
  split
  · rename_i hname
    unfold parentLookups
    cases hparent : state.superOf.get? address with
    | none =>
        rw [Option.elim_none]
        omega
    | some e =>
        have hnext := lookups_of_refers hac
          (b := e.1) ⟨hempty, rfl, hname, e.2, hparent⟩
        rw [Option.elim_some]
        omega
  · omega

/-- **On a chain without cycles, every answer leaves fewer queries.** -/
theorem queriesLeft_resume {state : IdentityState} (hac : Acyclic state) {l : Lookup}
    {answer : IdentityAnswer} (hanswer : Answers state l answer)
    (hexpects : l.expects answer = true) (cache : IdentityCache) :
    (l.resume cache answer).2.elim 0 (queriesLeft state) < queriesLeft state l := by
  obtain ⟨address, query, callers⟩ := l
  have hpos : 0 < queriesLeft state ⟨address, query, callers⟩ := by
    cases query with
    | identityOf =>
        unfold queriesLeft
        dsimp only
        split
        · omega
        · omega
    | superOf => exact Nat.lt_add_right _ Nat.one_pos
  cases query with
  | identityOf =>
      cases answer with
      | superOf => exact absurd hexpects (by simp [Lookup.expects])
      | identityOf identity =>
          cases identity with
          | none => exact hpos
          | some identity =>
              obtain rfl : identity = state.identityOf address := hanswer identity rfl
              unfold Lookup.resume
              dsimp only
              cases hname : orNull ((state.identityOf address).bind extractDisplayName) with
              | some own => exact hpos
              | none =>
                  have hnameless : state.displayName address = none := hname
                  simp only [Option.elim_some, queriesLeft, if_pos hnameless]
                  omega
  | superOf =>
      cases answer with
      | identityOf => exact absurd hexpects (by simp [Lookup.expects])
      | superOf parent =>
          cases parent with
          | none => exact hpos
          | some parent =>
              obtain rfl : parent = state.superOf.get? address := hanswer parent rfl
              unfold Lookup.resume
              dsimp only
              cases hparent : state.superOf.get? address with
              | none => exact hpos
              | some e =>
                  obtain ⟨parentAddress, sub⟩ := e
                  dsimp only
                  cases hstart : (startLookup cache parentAddress
                      ((address, sub) :: callers)).2 with
                  | none => exact hpos
                  | some l' =>
                      have hle := queriesLeft_start hac hstart
                      simp only [Option.elim_some, queriesLeft, parentLookups, hparent] at hle ⊢
                      omega

end ForkWatch.Proof
