import ForkWatch.Monitor.BlockTree

/-!
# Trackable extrinsics

`src/monitor/extrinsic-utils.js`. What polkadot.js decodes from the bytes is
taken as given; an extrinsic whose decoding throws is `unreadable`. Recovering
the sender of a wrapped Ethereum transaction is third-party work too: the outcome
of `recoverEvmSender` is part of the extrinsic, and both ways in which it can
fail (returning null, throwing) are `none`.
-/

namespace ForkWatch

/-- Mortality as encoded: a phase within a period. -/
structure MortalEra where
  period : Nat
  phase : Nat
  deriving DecidableEq

namespace MortalEra

/-- First block of the era, reckoned from a reference height. -/
def birth (e : MortalEra) (refHeight : Nat) : Nat :=
  (max refHeight e.phase - e.phase) / e.period * e.period + e.phase

/-- First block past the era. -/
def death (e : MortalEra) (refHeight : Nat) : Nat := e.birth refHeight + e.period

end MortalEra

/-- What `recoverEvmSender` returns. -/
structure EvmSender where
  «from» : Address
  nonce : Nat
  hash : Hash
  deriving DecidableEq

inductive Extrinsic where
  /-- Decoding it throws. -/
  | unreadable
  /-- `ext.isSigned`. -/
  | signed (signer : Address) (nonce : Nat) (hash : Hash) (pallet method : String)
      (era : Option MortalEra) (raw : String)
  /-- An unsigned `ethereum.transact`, with its own hash and what sender recovery yields. -/
  | transact (hash : Hash) (raw : String) (recovered : Option EvmSender)
  /-- Any other unsigned extrinsic. -/
  | other
  deriving DecidableEq

inductive TxKind where
  | substrate
  | evm
  deriving DecidableEq

/-- An era in absolute block numbers. -/
structure Era where
  birth : Nat
  death : Nat
  deriving DecidableEq

/-- A tracked extrinsic. -/
structure Tx where
  kind : TxKind
  signer : Option Address
  nonce : Option Nat
  hash : Hash
  pallet : String
  method : String
  era : Option Era
  raw : String
  deriving DecidableEq

/--
`ethereum.transact`: the wrapper's own hash is the identity unless sender, nonce
and inner hash can be recovered.
-/
def extractEvmExtrinsic (hash : Hash) (raw : String) (recovered : Option EvmSender) : Tx where
  kind := .evm
  signer := recovered.map EvmSender.from
  nonce := recovered.map EvmSender.nonce
  hash := (recovered.map EvmSender.hash).getD hash
  pallet := "ethereum"
  method := "transact"
  era := none
  raw := raw

def extractTracked (refHeight : Nat) : Extrinsic → Option Tx
  | .unreadable => none
  | .signed signer nonce hash pallet method era raw =>
      some { kind := .substrate, signer := some signer, nonce := some nonce, hash, pallet, method,
             era := era.map fun e => ⟨e.birth refHeight, e.death refHeight⟩, raw }
  | .transact hash raw recovered => some (extractEvmExtrinsic hash raw recovered)
  | .other => none

def extractTrackedExtrinsics (extrinsics : List Extrinsic) (refHeight : Nat) : List Tx :=
  extrinsics.filterMap (extractTracked refHeight)

end ForkWatch
