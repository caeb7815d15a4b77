import Ureth.Source.Bridge.Wire

/-!
# Canonical call and envelope (`bridge/src/abi.rs`)

Every offset is the one the canonical encoder writes and every padding byte is
zero. An absent value of the source's `Option` results is the one error `()`
here, so that arithmetic outside `checked_*` can still panic.
-/

namespace Ureth.Source.Bridge
open Ureth.Foundation

structure Call where
  op : Nat
  cfg : Bytes
  envelope : Bytes

structure Anchor where
  partition : Nat
  shard : Bytes
  shardConfHash : Bytes
  expectedStateRoot : Bytes
  expectedIrHash : Bytes
  uc : Bytes
  inputRecord : Bytes

structure LeafProof where
  anchorIndex : Nat
  bitmap : Bytes
  siblings : Bytes

def LeafProof.siblingCount (p : LeafProof) : Nat := p.siblings.length / 32

structure Envelope where
  policyBody : Bytes
  history : Bytes
  anchors : List Anchor
  leafProofs : List LeafProof

namespace Abi

/-- `n.div_ceil(32) * 32`. -/
def pad32 {ε : Type} (n : Nat) : Res ε Nat := Res.u64 ((n + 31) / 32 * 32)

/-- The 32 bytes at `off`. -/
def word32 (b : Bytes) (off : Nat) : Res Unit Bytes := do
  let stop ← Res.checkedAdd () off 32
  Res.okOr () (byteRange b off stop)

/-- A word read as an integer of at most 64 bits. -/
def word (b : Bytes) (off : Nat) : Res Unit Nat := do
  let w ← word32 b off
  Res.refuse ((w.take 24).any (· ≠ 0) = true) ()
  return beNat (w.drop 24)

/-- The word at `off` as a length or offset that fits the input. -/
def size (b : Bytes) (off : Nat) : Res Unit Nat := do
  let v ← word b off
  Res.refuse (v > b.length) ()
  return v

/-- The canonical `bytes` at `pos`: its data and the position after the padding. -/
def bytesAt (b : Bytes) (pos : Nat) : Res Unit (Bytes × Nat) := do
  let len ← size b pos
  let start ← Res.checkedAdd () pos 32
  let stop ← Res.checkedAdd () start len
  let width ← pad32 len
  let padded ← Res.checkedAdd () start width
  let data ← Res.okOr () (byteRange b start stop)
  let padding ← Res.okOr () (byteRange b stop padded)
  Res.refuse (padding.any (· ≠ 0) = true) ()
  return (data, padded)

def decodeCall (b : Bytes) : Res Unit Call := do
  let op ← word b 0
  Res.refuse (op > 255) ()
  let cfgOffset ← word b 32
  Res.refuse (cfgOffset ≠ 96) ()
  let (cfg, afterCfg) ← bytesAt b 96
  let envelopeOffset ← size b 64
  Res.refuse (envelopeOffset ≠ afterCfg) ()
  let (envelope, stop) ← bytesAt b afterCfg
  Res.refuse (stop ≠ b.length) ()
  return { op, cfg, envelope }

/-! ## The envelope -/

/-- `usize::try_from(off).ok().and_then(|o| word(b, o)).ok_or(ABIFraming)`. -/
def countWord (b : Bytes) (off : Nat) : Res Status Nat := (word b off).mapErr fun _ => .abiFraming

/-- The declared siblings of the leaf proofs from index `i` on. -/
def boundLeaves (b : Bytes) (offLeaves room : Nat) : Nat → Nat → Nat → Res Status Unit
  | 0, _, _ => .ok ()
  | n + 1, i, steps => do
    let relative ← Res.u64 (32 + 32 * i)
    let pos ← Res.checkedAdd .abiFraming offLeaves relative
    let rel ← countWord b pos
    let base ← Res.u64 (offLeaves + 32)
    let t ← Res.checkedAdd .abiFraming base rel
    let field ← Res.checkedAdd .abiFraming t 64
    let offset ← countWord b field
    let sOff ← Res.checkedAdd .abiFraming t offset
    let ns ← countWord b sOff
    let left ← Res.sub room steps
    Res.refuse (ns > left) .tooManyPaths
    let steps ← Res.u64 (steps + ns)
    boundLeaves b offLeaves room n (i + 1) steps

/-- The declared counts, before anything is collected. -/
def boundCounts (b : Bytes) : Res Status Unit := do
  let offAnchors ← countWord b 64
  let offLeaves ← countWord b 96
  Res.refuse (offAnchors > b.length ∨ offLeaves > b.length) .abiFraming
  let na ← countWord b offAnchors
  Res.refuse (na > b.length) .abiFraming
  Res.refuse (na > maxAnchors) .tooManyPaths
  let nl ← countWord b offLeaves
  Res.refuse (nl > b.length) .abiFraming
  boundLeaves b offLeaves (b.length / 32) nl 0 0

/-- The elements of a dynamic tuple array from index `i` on, each starting where
the previous one ended. -/
def tupleElems {α : Type} (b : Bytes) (elem : Bytes → Nat → Res Unit (α × Nat)) (base : Nat) :
    Nat → Nat → Nat → Res Unit (List α × Nat)
  | 0, _, next => .ok ([], next)
  | n + 1, i, next => do
    let pos ← Res.u64 (base + 32 * i)
    let offset ← size b pos
    let rel ← Res.sub next base
    Res.refuse (offset ≠ rel) ()
    let (v, stop) ← elem b next
    let (vs, last) ← tupleElems b elem base n (i + 1) stop
    return (v :: vs, last)

def tupleArray {α : Type} (b : Bytes) (pos : Nat) (elem : Bytes → Nat → Res Unit (α × Nat)) :
    Res Unit (List α × Nat) := do
  let n ← size b pos
  let base ← Res.checkedAdd () pos 32
  Res.refuse (n * 32 ≥ 2 ^ 64) ()
  let next ← Res.checkedAdd () base (n * 32)
  tupleElems b elem base n 0 next

/-- One anchor tuple at `t`. -/
def anchorAt (b : Bytes) (t : Nat) : Res Unit (Anchor × Nat) := do
  let partition ← word b t
  Res.refuse (partition ≥ 2 ^ 32) ()
  let tail ← Res.u64 (t + 224)
  let shardOffset ← size b (t + 32)
  Res.refuse (shardOffset ≠ 224) ()
  let (shard, afterShard) ← bytesAt b tail
  let ucOffset ← size b (t + 160)
  let ucRel ← Res.sub afterShard t
  Res.refuse (ucOffset ≠ ucRel) ()
  let (uc, afterUc) ← bytesAt b afterShard
  let irOffset ← size b (t + 192)
  let irRel ← Res.sub afterUc t
  Res.refuse (irOffset ≠ irRel) ()
  let (inputRecord, stop) ← bytesAt b afterUc
  let shardConfHash ← word32 b (t + 64)
  let expectedStateRoot ← word32 b (t + 96)
  let expectedIrHash ← word32 b (t + 128)
  return ({ partition, shard, shardConfHash, expectedStateRoot, expectedIrHash, uc, inputRecord },
    stop)

/-- One leaf proof tuple at `t`. -/
def leafAt (b : Bytes) (t : Nat) : Res Unit (LeafProof × Nat) := do
  let anchorIndex ← word b t
  Res.refuse (anchorIndex ≥ 2 ^ 16) ()
  let start ← Res.u64 (t + 128)
  let siblingsOffset ← size b (t + 64)
  Res.refuse (siblingsOffset ≠ 96) ()
  let n ← size b (t + 96)
  Res.refuse (n * 32 ≥ 2 ^ 64) ()
  let stop ← Res.checkedAdd () start (n * 32)
  let bitmap ← word32 b (t + 32)
  let siblings ← Res.okOr () (byteRange b start stop)
  return ({ anchorIndex, bitmap, siblings }, stop)

/-- The canonical layout, after the counts are known to be bounded. -/
def layout (b : Bytes) : Res Unit Envelope := do
  let policyOffset ← size b 0
  Res.refuse (policyOffset ≠ 128) ()
  let (policyBody, pos) ← bytesAt b 128
  let historyOffset ← size b 32
  Res.refuse (historyOffset ≠ pos) ()
  let (history, pos) ← bytesAt b pos
  let anchorsOffset ← size b 64
  Res.refuse (anchorsOffset ≠ pos) ()
  let (anchors, pos) ← tupleArray b pos anchorAt
  let leavesOffset ← size b 96
  Res.refuse (leavesOffset ≠ pos) ()
  let (leafProofs, stop) ← tupleArray b pos leafAt
  Res.refuse (stop ≠ b.length) ()
  return { policyBody, history, anchors, leafProofs }

def decodeEnvelope (b : Bytes) : Res Status Envelope := do
  Res.refuse (b.length > maxEnvelopeBytes) .inputTooLarge
  Res.refuse (b.length % 32 ≠ 0 ∨ b.length < 4 * 32) .abiFraming
  boundCounts b
  (layout b).mapErr fun _ => .abiFraming

end Abi

end Ureth.Source.Bridge
