import Ureth.Source.Bridge.Wire

/-!
# The bridge configuration (`bridge/src/cfg.rs`)

`decode` reads the fields and keeps what the composition uses itself;
`validate` checks the derived identifiers. The B2 relation parses the same bytes
again with its own rules.
-/

namespace Ureth.Source.Bridge
open Ureth.Foundation
open Ureth.Source.B2.Cbor (Item)
open Ureth.Source.B1.Cbor (usizeMax)

structure Cfg where
  evmPartition : Nat
  aggregatorPolicyHash : Bytes32

namespace Cfg

def domain : Bytes := ascii "UNICITY_BR_CFG"

def fixed (it : Item) (n : Nat) : Res Status Bytes := orStatus (it.bytes n)

structure Fields where
  network : Nat
  rootGenesis : Bytes
  chain : Nat
  executionGenesis : Bytes
  evmPartition : Nat
  rest : List Bytes

/-- The fixed-width fields from index 7 on, with their widths. -/
def restFields (k : FieldList Item 16) : List (Item × Nat) :=
  [(k[7], 20), (k[8], 20), (k[9], 32), (k[10], 32), (k[11], 32), (k[12], 20), (k[13], 32),
   (k[14], 32), (k[15], 32)]

def fields (b : Bytes) : Res Status Fields := do
  Res.refuse (b.length > maxCfgBytes) .inputTooLarge
  let root ← orStatus (B2.Cbor.one b .default)
  let k ← (root.array 16).mapErr fun _ => .shape
  Res.refuse (k[0].major ≠ 2 ∨ k[0].data ≠ domain) .shape
  let network ← orStatus (k[1].uint 65535)
  Res.refuse (network = 0) .intRange
  let rootGenesis ← fixed k[2] 32
  let chain ← orStatus (k[3].uint usizeMax)
  let executionGenesis ← fixed k[4] 32
  let evmPartition ← orStatus (k[5].uint (2 ^ 32 - 1))
  Res.refuse (k[6].major ≠ 2) .shape
  let rest ← Res.collect (fun f => fixed f.1 f.2) (restFields k)
  return { network, rootGenesis, chain, executionGenesis, evmPartition, rest }

def decode (b : Bytes) : Res Status Cfg := do
  let f ← fields b
  let hash ← Res.index f.rest 8
  let aggregatorPolicyHash ← Res.unwrap (Fixed.ofBytes? 32 hash)
  return { evmPartition := f.evmPartition, aggregatorPolicyHash }

/-- `D = network:rootGenesisHex:executionGenesisHex:chainId:zeroAddressHex`. -/
def identity (network : Nat) (rootGenesis executionGenesis : Bytes) (chain : Nat) : Bytes :=
  decimal network ++ ascii ":" ++ hex rootGenesis ++ ascii ":" ++ hex executionGenesis ++
    (ascii ":" ++ decimal chain ++ ascii ":0000000000000000000000000000000000000000")

def validate (H : Bytes → Bytes32) (b : Bytes) : Res Status Unit := do
  let f ← fields b
  let vault ← Res.index f.rest 0
  let zero ← Res.index f.rest 1
  let ty ← Res.index f.rest 2
  let aid ← Res.index f.rest 3
  let d := identity f.network f.rootGenesis f.executionGenesis f.chain
  Res.refuse (ty ≠ (H (ascii "unicity-bridge:unicity-native:" ++ d)).val ∨
    aid ≠ (H (ascii "unicity-bridge-coin:unicity-native:" ++ d)).val ∨
    zero.any (· ≠ 0) = true ∨ vault.all (· = 0) = true) .cfgMismatch

end Cfg

end Ureth.Source.Bridge
