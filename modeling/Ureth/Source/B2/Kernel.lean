import Ureth.Source.B2.Semantics

/-!
# The B2 call (`b2/src/abi.rs` and `run`, `relation` of `b2/src/lib.rs`)

`run` is the metered call with its canonical ABI. `relation` is the evaluation
the composition uses: no ABI and no gas, and a history without a transfer or item
aggregate.
-/

namespace Ureth.Source.B2
open Ureth.Foundation
open Cbor (Item Items)
open Ureth.Source.B1.Cbor (usizeMax)

def maxHistory : Nat := 131072
def maxInput : Nat := maxHistory + 4096
def maxTransfers : Nat := 64

structure Call where
  op : Nat
  cfg : Bytes
  payload : Bytes

/-! ## ABI -/

namespace Abi

def number (b : Bytes) (pos : Nat) : Res Error Nat := do
  let stop ← Res.checkedAdd .abiFraming pos 32
  let w ← Res.okOr .abiFraming (byteRange b pos stop)
  Res.refuse ((w.take 24).any (· ≠ 0) = true) .abiFraming
  return beNat (w.drop 24)

/-- A `bytes` value: its data and the position after its padding. -/
def blob (b : Bytes) (off : Nat) : Res Error (Bytes × Nat) := do
  let n ← number b off
  let start ← Res.checkedAdd .abiFraming off 32
  let stop ← Res.checkedAdd .abiFraming start n
  let above ← Res.checkedAdd .abiFraming stop 31
  let padded := above / 32 * 32
  let data ← Res.okOr .abiFraming (byteRange b start stop)
  let padding ← Res.okOr .abiFraming (byteRange b stop padded)
  Res.refuse (padding.any (· ≠ 0) = true) .abiFraming
  return (data, padded)

def decode (b : Bytes) : Res Error Call := do
  let op ← number b 0
  Res.refuse (op > 255) .abiFraming
  Res.refuse (op > 2) .badOperation
  let cfgOffset ← number b 32
  Res.refuse (cfgOffset ≠ 96) .abiFraming
  let (cfg, stop) ← blob b 96
  let payloadOffset ← number b 64
  Res.refuse (payloadOffset ≠ stop) .abiFraming
  let (payload, stop) ← blob b stop
  Res.refuse (stop ≠ b.length) .abiFraming
  Res.refuse (payload.length > maxHistory ∨ cfg.length > 1024) .inputTooLarge
  return { op, cfg, payload }

def word (n : Nat) : Bytes := List.replicate 24 0 ++ beBytes 8 n

def encodeLeaf (leaf : Leaf) : Bytes :=
  leaf.sid.val ++ leaf.txHash.val ++ word leaf.referenceTime ++ leaf.value.val

/-- The head words, the outcome's words and the leaves. -/
def encode (valid : Bool) (out : Outcome) : Bytes :=
  ascii "UNICITY_TOKEN_SEMANTICS" ++ List.replicate 9 0 ++
    (List.replicate 31 0 ++ [if valid then 1 else 0]) ++ word 96 ++
    out.cfg.val ++ word out.nonce ++ out.amount.val ++ out.tokenId.val ++ out.salt.val ++
    out.firstPredicateHash.val ++ out.lockDigest.val ++
    (List.replicate 12 0 ++ out.releaseTo.val) ++ out.nullifier.val ++ word 320 ++
    word out.leaves.length ++ out.leaves.flatMap encodeLeaf

end Abi

/-! ## The call -/

/-- A fully charged success, including a shaped false. -/
structure Output where
  gas : Nat
  bytes : Bytes
  /-- Diagnostic only; never part of the ABI. -/
  invalid : Option Error

section Call

variable (H : Bytes → Bytes32) (K : K256)

/-- The leaf count of an operation, before anything is evaluated. -/
def leafCount (op : Nat) (payload : Item) (max : Nat) : Res Error Nat :=
  if op = 0 then .ok 0
  else do
    let h ← payload.array 2
    let n ← h[1].count max
    Res.u64 (1 + n)

/-- The decoded call with its configuration and payload scanned. -/
structure Opened where
  call : Call
  cfg : Item
  payload : Item

def openCall (input : Bytes) : Res Error Opened := do
  let call ← Abi.decode input
  let cfg ← Cbor.one call.cfg .default
  checkCfgNetwork cfg
  let payload ← Cbor.one call.payload .default
  return { call, cfg, payload }

/-- The outcome of the evaluation: a relation failure is a shaped false. -/
def answer (charge : Nat) : Res Error Outcome → Res Error Output
  | .ok out => .ok { gas := charge, bytes := Abi.encode true out, invalid := none }
  | .error (.error e) =>
    if e.isInvalid then .ok { gas := charge, bytes := Abi.encode false .default, invalid := some e }
    else Res.fail e
  | .error .panic => Res.panic

def run (input : Bytes) (gas : Nat) : Res Error Output := do
  Res.refuse (input.length > maxInput) .inputTooLarge
  let base ← Res.u64 (26000 + 20 * input.length)
  Res.refuse (gas < base) .outOfGas
  let o ← openCall input
  let m ← leafCount o.call.op o.payload maxTransfers
  let charge ← Res.u64 (base + 14000 * m)
  Res.refuse (gas < charge) .outOfGas
  answer charge (evaluate H K o.call.op o.cfg o.payload maxTransfers .default)

/-- The relation of one composed redemption; `charge` is given the leaf count. -/
def relation (op : Nat) (cfg payload : Bytes) (charge : Nat → Res Error Unit) : Res Error Outcome := do
  let cfg ← Cbor.one cfg (.perObject Items.max)
  checkCfgNetwork cfg
  let payload ← Cbor.one payload (.perObject usizeMax)
  let m ← leafCount op payload u64Max
  charge m
  evaluate H K op cfg payload u64Max (.perObject Items.max)

end Call

end Ureth.Source.B2
