import ForkWatch.Monitor.BlockTree

/-!
# Names for addresses

`src/monitor/author-extractor.js`: the on-chain identity of an address, and the
cache of the identities looked up so far. An account without a name of its own may
be the sub-account of a parent, whose name is then looked up the same way.

The two functions of the source call each other, along whatever the chain says about
parents. `fuel` is the number of accounts that may still be looked up: `none` is a
lookup that has not ended by then. A call of the node that throws is a `none` of
`IdentityApi`; a chain without the identity pallet, or without its half that knows
about parents, is one that answers nothing about any account.

That is a call left alone. Among other handlers it suspends at every query: `Lookup` is
the call while it waits for the node, and `Lookup.resume` what it does with an answer.

How the author of a block is extracted from its header is left out.
-/

namespace ForkWatch

open Lib

/-- A substrate `Data` field, as text. -/
inductive Data where
  | none
  | raw (utf8 : String)
  /-- Anything else, a hash say, as its `toString` has it. -/
  | other (text : String)
  deriving DecidableEq

/-- What is read of an identity registration; the field may be missing. -/
structure Registration where
  display : Option Data
  deriving DecidableEq

/-- Convert a substrate `Data` field to a string. -/
def rawToString (data : Option Data) : Option String :=
  match data with
  | .none => .none
  | .some (.raw utf8) => some utf8
  | .some .none => .none
  | .some (.other text) => orNull (some text)

/-- Extract the display name from an identity registration. -/
def extractDisplayName (registration : Registration) : Option String :=
  rawToString registration.display

/-- The two queries of the identity pallet; an outer `none` is a failure. -/
structure IdentityApi where
  identityOf : Address → Option (Option Registration)
  superOf : Address → Option (Option (Address × Option Data))

/-- `identityCache`: names, or null for accounts without one. -/
abbrev IdentityCache := OrdMap Address (Option String)

/-- A parent's name and the name of the sub-account. -/
def subName (parentName sub : Option String) : Option String :=
  match orNull parentName with
  | none => none
  | some parentName =>
      match orNull sub with
      | none => some parentName
      | some sub => some (parentName ++ "/" ++ sub)

/--
Ask the chain about one account. `resolveIdentity` is the function that calls this
one, for the parent.

The inner `none` of the outcome is a query that threw.
-/
def fetchIdentity (api : IdentityApi)
    (resolveIdentity : IdentityCache → Address → Option (Option String × IdentityCache))
    (cache : IdentityCache) (address : Address) :
    Option (Option (Option String) × IdentityCache) :=
  match api.identityOf address with
  | none => some (none, cache)
  | some identity =>
      match orNull (identity.bind extractDisplayName) with
      | some name => some (some (some name), cache)
      | none =>
          match api.superOf address with
          | none => some (none, cache)
          | some none => some (some none, cache)
          | some (some (parentAddress, sub)) =>
              (resolveIdentity cache parentAddress).map fun r =>
                (some (subName r.1 (rawToString sub)), r.2)

/-- Resolve the on-chain identity of an address; results are cached permanently. -/
def resolveIdentity (api : IdentityApi) :
    Nat → IdentityCache → Address → Option (Option String × IdentityCache)
  | 0, _, _ => none
  | fuel + 1, cache, address =>
      if address = "" then some (none, cache)
      else
        match cache.get? address with
        | some displayName => some (displayName, cache)
        | none =>
            -- an error leaves the name null, and null is cached
            (fetchIdentity api (resolveIdentity api fuel) cache address).map fun r =>
              (r.1.join, r.2.set address r.1.join)

/-! ## A call that waits for the node -/

inductive IdentityQuery where
  | identityOf
  | superOf
  deriving DecidableEq

/-- What the node answers to either query; an outer `none` is a failure. -/
inductive IdentityAnswer where
  | identityOf (identity : Option (Option Registration))
  | superOf (parent : Option (Option (Address × Option Data)))

/-- A call of `resolveIdentity` at an await of `fetchIdentity`. -/
structure Lookup where
  address : Address
  query : IdentityQuery
  /-- The accounts that wait for the name of this one, the last caller first. -/
  callers : List (Address × Option Data)

/-- A call returns a name to its callers; each of them caches its own and returns it. -/
def returnName (displayName : Option String) :
    List (Address × Option Data) → IdentityCache → IdentityCache
  | [], cache => cache
  | (address, sub) :: callers, cache =>
      let name := subName displayName (rawToString sub)
      returnName name callers (cache.set address name)

/-- `resolveIdentity` up to its first query, if it needs one. -/
def startLookup (cache : IdentityCache) (address : Address)
    (callers : List (Address × Option Data)) : IdentityCache × Option Lookup :=
  if address = "" then (returnName none callers cache, none)
  else
    match cache.get? address with
    | some displayName => (returnName displayName callers cache, none)
    | none => (cache, some { address, query := .identityOf, callers })

namespace Lookup

/-- The name of the account has been found, or there is none. -/
def finish (l : Lookup) (cache : IdentityCache) (displayName : Option String) :
    IdentityCache × Option Lookup :=
  (returnName displayName l.callers (cache.set l.address displayName), none)

/-- The answer is one to the query that is out. -/
def expects (l : Lookup) : IdentityAnswer → Bool
  | .identityOf _ => l.query = .identityOf
  | .superOf _ => l.query = .superOf

/-- The call goes on with an answer; one it does not wait for changes nothing. -/
def resume (l : Lookup) (cache : IdentityCache) (answer : IdentityAnswer) :
    IdentityCache × Option Lookup :=
  match l.query, answer with
  | .identityOf, .identityOf none => l.finish cache none
  | .identityOf, .identityOf (some identity) =>
      match orNull (identity.bind extractDisplayName) with
      | some name => l.finish cache (some name)
      | none => (cache, some { l with query := .superOf })
  | .superOf, .superOf none => l.finish cache none
  | .superOf, .superOf (some none) => l.finish cache none
  | .superOf, .superOf (some (some (parentAddress, sub))) =>
      startLookup cache parentAddress ((l.address, sub) :: l.callers)
  | _, _ => (cache, some l)

end Lookup

/-! ## The chain behind the API -/

/-- The storage of the identity pallet. -/
structure IdentityState where
  identityOf : Address → Option Registration
  superOf : OrdMap Address (Address × Option Data)

/-- Which queries fail while a call is served. -/
structure Failures where
  identityOf : Address → Bool
  superOf : Address → Bool

/-- No query fails. -/
def noFailures : Failures where
  identityOf := fun _ => false
  superOf := fun _ => false

namespace IdentityState

/-- A node that has this state, some of whose queries fail. -/
def api (state : IdentityState) (failing : Failures) : IdentityApi where
  identityOf := fun a => if failing.identityOf a then none else some (state.identityOf a)
  superOf := fun a => if failing.superOf a then none else some (state.superOf.get? a)

/-- The name an account has set for itself. -/
def displayName (state : IdentityState) (address : Address) : Option String :=
  orNull ((state.identityOf address).bind extractDisplayName)

end IdentityState

end ForkWatch
