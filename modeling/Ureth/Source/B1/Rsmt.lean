import Ureth.Foundation.Bytes
import Ureth.Foundation.Outcome
import Ureth.Source.B1.Wire

/-!
# RSMT membership (`b1/src/rsmt.rs` and `membership` of `b1/src/lib.rs`)

A stateless check that a value stands under a key of a radix sparse Merkle tree
with a given root. The proof is a bitmap of the depths that have a sibling and
the siblings themselves, shallowest first; the climb goes from the deepest up.
-/

namespace Ureth.Source.B1
open Ureth.Foundation

/-- The first `d` bits of a key, the rest zero. -/
def region {ε : Type} (key : Bytes) (d : Nat) : Res ε Bytes := do
  let b ← Res.index key (d / 8)
  let partialByte := if d % 8 ≠ 0 then b &&& UInt8.ofNat (256 - 2 ^ (8 - d % 8)) else 0
  return key.take (d / 8) ++ [partialByte] ++ List.replicate (31 - d / 8) 0

/-- The preimage of the node at depth `d`. -/
def rsmtNode (d : Nat) (region : Bytes) (left right : Bytes) : Bytes :=
  [1, UInt8.ofNat d] ++ region ++ left ++ right

section Climb

variable (H : Bytes → Bytes32)

/-- The node above `h` at depth `d`. -/
def climbStep {ε : Type} (key sibling : Bytes) (d : Nat) (h : Bytes32) : Res ε Bytes32 := do
  let area ← region key d
  let right ← bitAt key d
  return H (if right then rsmtNode d area sibling h.val else rsmtNode d area h.val sibling)

/-- The depths below `n`, deepest first; `idx` siblings are left. -/
def climb {ε : Type} (key bitmap siblings : Bytes) : Nat → Nat → Bytes32 → Res ε Bytes32
  | 0, _, h => .ok h
  | d + 1, idx, h => do
    let present ← bitAt bitmap d
    if present then do
      let idx ← Res.sub idx 1
      let sibling ← slice siblings (idx * 32) 32
      let h ← climbStep H key sibling d h
      climb key bitmap siblings d idx h
    else climb key bitmap siblings d idx h

/-- The leaf of a value under a key. -/
def rsmtLeaf (key value : Bytes) : Bytes := 0 :: key ++ value

/-- The framing of a membership request. -/
structure MemberRequest where
  root : Bytes
  key : Bytes
  value : Bytes
  bitmap : Bytes
  siblings : Bytes

def memberRequest (input : Bytes) : Res Malformed MemberRequest := do
  let (count, r) ← header input
  Res.refuse (count ≠ 1) .count
  let (root, r) ← take 32 r
  let (key, r) ← take 32 r
  let (len, r) ← uint 4 r
  Res.refuse (len > 4096) .limit
  let (value, r) ← take len r
  let (bitmap, siblings) ← take 32 r
  Res.refuse (siblings.length ≠ 32 * popCount bitmap) .shape
  return { root, key, value, bitmap, siblings }

/-- The relation a membership request states. -/
def memberHolds {ε : Type} (q : MemberRequest) : Res ε Bool := do
  let h ← climb H q.key q.bitmap q.siblings 256 (popCount q.bitmap) (H (rsmtLeaf q.key q.value))
  return decide (q.root ≠ List.replicate 32 0) && decide (h.val = q.root)

/-- `rsmt::run`. -/
def rsmtRun {ε : Type} (input : Bytes) (gas : Nat) : Res (Error ε) Output := do
  let q ← (memberRequest input).mapErr .malformed
  let charge ← Res.u64 (2000 + 16 * input.length + 250 * (1 + popCount q.bitmap))
  Res.refuse (gas < charge) .outOfGas
  let valid ← memberHolds H q
  return Output.new charge valid

/-- Stateless RSMT membership. -/
def membership {ε : Type} (input : Bytes) (gas : Nat) : Res (Error ε) Output := do
  Res.refuse (input.length > 12392) (.malformed .limit)
  let base ← Res.u64 (2000 + 16 * input.length)
  Res.refuse (gas < base) .outOfGas
  rsmtRun H input gas

end Climb

end Ureth.Source.B1
