import Ureth.Source.B1.Cbor
import Ureth.Source.B2.Wire

/-!
# B2 CBOR views and encoders (`b2/src/cbor.rs`)

`one` starts a fresh item count, so a budget carries only its ceiling and its
mode. As for the B1 scanner, the containers still allowed are passed down in
place of the depth, and the children of an item are collected at once.
-/

namespace Ureth.Source.B2.Cbor
open Ureth.Foundation
open Ureth.Source.B1.Cbor (consumed usizeMax)

structure Item where
  raw : Bytes
  major : Nat
  arg : Nat
  data : Bytes
  deriving DecidableEq, Repr, Inhabited

/-- The argument of a head by its additional information. -/
def headArg (ai : Nat) (data : Bytes) : Res Error (Nat × Bytes) :=
  if ai < 24 then .ok (ai, data)
  else if ai < 28 then
    let len := 2 ^ (ai - 24)
    if data.length < len then Res.fail .truncated
    else
      let n := beNat (data.take len)
      if n < [24, 256, 65536, 4294967296].getD (ai - 24) 0 then Res.fail .nonCanonical
      else .ok (n, data.drop len)
  else if ai < 31 then Res.fail .nonCanonical
  else Res.fail .forbiddenCbor

/-- Major type, argument and the bytes after the head. -/
def head : Bytes → Res Error (Nat × Nat × Bytes)
  | [] => Res.fail .truncated
  | first :: data => do
    let (n, data) ← headArg (first.toNat % 32) data
    return (first.toNat / 32, n, data)

/-- The budget of each scanned object. -/
structure Items where
  cap : Nat
  native : Bool

namespace Items

/-- The item ceiling of one object, `Items::MAX`. -/
def max : Nat := 32768

def perObject (cap : Nat) : Items := { cap, native := false }

/-- Text strings and maps are admitted as structure. -/
def nativeMode (cap : Nat) : Items := { cap, native := true }

def default : Items := perObject max

end Items

/-- What scanning one item leaves: the unread bytes and the running item count. -/
abbrev Scan := Bytes → Nat → Res Error (Bytes × Nat)

def scanChildren (child : Scan) : Nat → Scan
  | 0, data, tokens => .ok (data, tokens)
  | count + 1, data, tokens => do
    let (data, tokens) ← child data tokens
    scanChildren child count data tokens

/-- How many items a container holds directly. -/
def childCount (m n : Nat) : Res Error Nat :=
  if m = 6 then .ok 1 else if m = 5 then Res.u64 (n * 2) else .ok n

/-- The body of `scan`; `below` scans an item one level deeper. -/
def scanItem (items : Items) (below : Option Scan) : Scan := fun data tokens => do
  let tokens ← Res.u64 (tokens + 1)
  Res.refuse (tokens > items.cap) .tooManyItems
  Res.refuse (data.head?.any (fun b => (!items.native && (b.toNat / 32 = 3 || b.toNat / 32 = 5)) ||
    (b.toNat / 32 = 7 && b ≠ 0xf6)) = true) .forbiddenCbor
  let (m, n, data) ← head data
  if m = 0 then .ok (data, tokens)
  else if m = 2 ∨ m = 3 then
    if n > data.length then Res.fail .truncated else .ok (data.drop n, tokens)
  else if 4 ≤ m ∧ m ≤ 6 then
    match below with
    | none => Res.fail .tooDeep
    | some child => do
      -- the pair count is bounded before it is doubled
      Res.refuse (m = 5 ∧ n > data.length) .truncated
      let count ← childCount m n
      Res.refuse (count > data.length) .truncated
      scanChildren child count data tokens
  else if m = 7 ∧ n = 22 then .ok (data, tokens)
  else Res.fail .forbiddenCbor

def scan (items : Items) : Nat → Scan
  | 0 => scanItem items none
  | room + 1 => scanItem items (some (scan items room))

/-- The depth bound: containers nest at most this deep. -/
def maxDepth : Nat := 16

def item (data : Bytes) : Res Error Item := do
  let (major, arg, rest) ← head data
  return { raw := data, major, arg, data := rest }

def one (data : Bytes) (items : Items) : Res Error Item := do
  let (rest, _) ← scan items maxDepth data 0
  Res.refuse (rest ≠ []) .trailing
  item data

/-- `Children::next` until the bytes are used up; a child that does not scan panics. -/
def childrenOf : Nat → Bytes → Res Error (List Item)
  | _, [] => .ok []
  | 0, _ :: _ => Res.panic
  | fuel + 1, b :: tail => do
    let (rest, _) ← (scan (.nativeMode usizeMax) maxDepth (b :: tail) 0).expect
    let raw ← consumed (b :: tail) rest
    let it ← (item raw).expect
    let more ← childrenOf fuel rest
    return it :: more

namespace Item

def null (it : Item) : Bool := it.major = 7 && it.arg = 22

def uint (it : Item) (max : Nat) : Res Error Nat := do
  Res.refuse (it.major ≠ 0) .shape
  Res.refuse (it.arg > max) .intRange
  return it.arg

def bytes (it : Item) (n : Nat) : Res Error Bytes := do
  Res.refuse (it.major ≠ 2) .shape
  Res.refuse (it.arg ≠ n) .length
  return it.data

def blob (it : Item) (max : Nat) : Res Error Bytes := do
  Res.refuse (it.major ≠ 2) .shape
  Res.refuse (it.data.length > max) .proofTooLarge
  return it.data

def count (it : Item) (max : Nat) : Res Error Nat := do
  Res.refuse (it.major ≠ 4) .shape
  Res.refuse (it.arg > max) .tooManyTx
  return it.arg

def children (it : Item) : Res Error (List Item) := childrenOf it.data.length it.data

/-- The first `n` children; missing ones keep the array item itself. -/
def array (it : Item) (n : Nat) : Res Error (FieldList Item n) := do
  Res.refuse (it.major ≠ 4 ∨ it.arg ≠ n) .shape
  let kids ← it.children
  return .padded kids n it

def tagged (it : Item) (n : Nat) (tag version : Nat) : Res Error (FieldList Item n) := do
  Res.refuse (it.major ≠ 6) .shape
  Res.refuse (it.arg ≠ tag) .tag
  let inner ← item it.data
  let a ← inner.array n
  let found ← a[0].uint usizeMax
  Res.refuse (found ≠ version) .version
  return a

end Item

/-! Encoders. -/

def header (major n : Nat) : Bytes :=
  if n < 24 then [UInt8.ofNat (32 * major + n)]
  else
    let (ai, size) := if n ≤ 255 then (24, 1) else if n ≤ 65535 then (25, 2)
      else if n ≤ 2 ^ 32 - 1 then (26, 4) else (27, 8)
    UInt8.ofNat (32 * major + ai) :: beBytes size n

def uint (n : Nat) : Bytes := header 0 n

def bytes (b : Bytes) : Bytes := header 2 b.length ++ b

def array (parts : List Bytes) : Bytes := header 4 parts.length ++ parts.flatten

def tag (n : Nat) (body : Bytes) : Bytes := header 6 n ++ body

end Ureth.Source.B2.Cbor
