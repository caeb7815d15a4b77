import Ureth.Foundation.CborTree
import Ureth.Foundation.FieldList
import Ureth.Foundation.Utf8
import Ureth.Source.B1.Wire

/-!
# B1 CBOR scanner (`b1/src/cbor.rs`)

`scan` walks a whole item with one running item count; `children` rescans an
accepted item to find the boundaries of the items directly below it. The
source's `depth` counts up from 0 to 16; here the containers still allowed are
passed down instead, `none` standing for depth 16.

The source iterates children lazily and may stop at a field error. Here they are
collected first, which differs only where a later child would panic.
-/

namespace Ureth.Source.B1.Cbor
open Ureth.Foundation

structure Item where
  raw : Bytes
  major : Nat
  arg : Nat
  data : Bytes
  deriving DecidableEq, Repr, Inhabited

/-- The argument of a head by its additional information. -/
def headArg (ai : Nat) (data : Bytes) : Res Malformed (Nat × Bytes) :=
  if ai < 24 then .ok (ai, data)
  else if ai < 28 then uint (2 ^ (ai - 24)) data
  else if ai < 31 then Res.fail .canonical
  else Res.fail .cbor

/-- Major type, argument and the bytes after the head. -/
def head (data : Bytes) : Res Malformed (Nat × Nat × Bytes) := do
  let (first, data) ← uint 1 data
  let (n, data) ← headArg (first % 32) data
  Res.refuse ((first % 32 = 24 ∧ n < 24) ∨ (first % 32 = 25 ∧ n ≤ 255) ∨
    (first % 32 = 26 ∧ n ≤ 65535) ∨ (first % 32 = 27 ∧ n ≤ 2 ^ 32 - 1)) .canonical
  return (first / 32, n, data)

/-- The item ceiling of one scan budget. -/
def maxItems : Nat := 32768

/-- `usize::MAX`. -/
def usizeMax : Nat := 2 ^ 64 - 1

/-- What scanning one item leaves: the unread bytes and the running item count. -/
abbrev Scan := Bytes → Nat → Res Malformed (Bytes × Nat)

/-- The bytes read between two positions of one reader. -/
def consumed {ε : Type} (start rest : Bytes) : Res ε Bytes := do
  let n ← Res.sub start.length rest.length
  return start.take n

/-- The loop over the items of a container. With `keyed` every even position is a
map key, compared with all keys before it and stored in the 64-slot table. -/
def scanChildren (child : Scan) (keyed : Bool) : Nat → Nat → List Bytes → Scan
  | 0, _, _, data, tokens => .ok (data, tokens)
  | count + 1, i, keys, data, tokens => do
    let (rest, tokens) ← child data tokens
    if keyed && i % 2 = 0 then
      let key ← consumed data rest
      Res.refuse (key ∈ keys ∨ keys.getLast?.any (fun last => key ≤ last) = true) .canonical
      if keys.length < 64 then
        scanChildren child keyed count (i + 1) (keys ++ [key]) rest tokens
      else Res.panic
    else scanChildren child keyed count (i + 1) keys rest tokens

/-- How many items a container holds directly. -/
def childCount (m n : Nat) : Res Malformed Nat :=
  if m = 5 then Res.u64 (n * 2) else .ok (if m = 6 then 1 else n)

/-- The body of `scan`; `below` scans an item one level deeper. -/
def scanItem (cap : Nat) (strict utf8 : Bool) (below : Option Scan) : Scan := fun data tokens => do
  let tokens ← Res.u64 (tokens + 1)
  Res.refuse (tokens > cap) .limit
  Res.refuse (data.head?.any (fun b => b.toNat / 32 = 7 && b ≠ 0xf6) = true) .cbor
  let (m, n, data) ← head data
  if m = 0 then .ok (data, tokens)
  else if m = 2 ∨ m = 3 then do
    let (content, data) ← take n data
    Res.refuse ((strict || utf8) = true ∧ m = 3 ∧ validUtf8 content = false) .utf8
    return (data, tokens)
  else if 4 ≤ m ∧ m ≤ 6 then
    match below with
    | none => Res.fail .limit
    | some child => do
      Res.refuse (m = 5 ∧ strict = true ∧ n > 64) .limit
      -- the pair count is bounded before it is doubled
      Res.refuse (m = 5 ∧ n > data.length) .truncated
      let count ← childCount m n
      Res.refuse (count > data.length) .truncated
      scanChildren child (strict && m = 5) count 0 [] data tokens
  else if m = 7 ∧ n = 22 then .ok (data, tokens)
  else Res.fail .cbor

def scan (cap : Nat) (strict utf8 : Bool) : Nat → Scan
  | 0 => scanItem cap strict utf8 none
  | room + 1 => scanItem cap strict utf8 (some (scan cap strict utf8 room))

/-- The depth bound: containers nest at most this deep. -/
def maxDepth : Nat := 16

def item (data : Bytes) : Res Malformed Item := do
  let (major, arg, rest) ← head data
  return { raw := data, major, arg, data := rest }

/-- A complete scan of `data` as one item under the given rules. -/
def oneWith (strict utf8 : Bool) (data : Bytes) (tokens cap : Nat) : Res Malformed (Item × Nat) := do
  let (rest, tokens) ← scan cap strict utf8 maxDepth data tokens
  Res.refuse (rest ≠ []) .trailing
  let it ← item data
  return (it, tokens)

def oneCapped (data : Bytes) (tokens cap : Nat) : Res Malformed (Item × Nat) :=
  oneWith true true data tokens cap

def one (data : Bytes) (tokens : Nat) : Res Malformed (Item × Nat) := oneCapped data tokens maxItems

def oneLoose (data : Bytes) (tokens cap : Nat) : Res Malformed (Item × Nat) :=
  oneWith false false data tokens cap

def oneTyped (data : Bytes) (tokens cap : Nat) : Res Malformed (Item × Nat) :=
  oneWith false true data tokens cap

/-- `Children::next` until the bytes are used up; a child that does not scan panics. -/
def childrenOf {ε : Type} : Nat → Bytes → Res ε (List Item)
  | _, [] => .ok []
  | 0, _ :: _ => Res.panic
  | fuel + 1, b :: tail => do
    let (rest, _) ← (scan usizeMax false false maxDepth (b :: tail) 0).expect
    let raw ← consumed (b :: tail) rest
    let it ← (item raw).expect
    let more ← childrenOf fuel rest
    return it :: more

namespace Item

def null (it : Item) : Bool := it.major = 7 && it.arg = 22

def uint (it : Item) (max : Nat) : Res Malformed Nat := do
  Res.refuse (it.major ≠ 0 ∨ it.arg > max) .shape
  return it.arg

def blob (it : Item) (major min max : Nat) : Res Malformed Bytes := do
  Res.refuse (it.major ≠ major ∨ it.data.length < min) .shape
  Res.refuse (it.data.length > max) .limit
  return it.data

def bytes (it : Item) (n : Nat) : Res Malformed Bytes := do
  Res.refuse (it.major ≠ 2 ∨ it.arg ≠ n) .shape
  return it.data

def children {ε : Type} (it : Item) : Res ε (List Item) :=
  if it.null then .ok [] else childrenOf it.data.length it.data

/-- The first `n` children; missing ones keep the array item itself. -/
def array (it : Item) (n : Nat) : Res Malformed (FieldList Item n) := do
  Res.refuse (it.major ≠ 4 ∨ it.arg ≠ n) .shape
  let kids ← it.children
  return .padded kids n it

def tagged (it : Item) (n : Nat) (tag : Nat) : Res Malformed (FieldList Item n) := do
  Res.refuse (it.major ≠ 6 ∨ it.arg ≠ tag) .shape
  let inner ← item it.data
  let a ← inner.array n
  let version ← a[0].uint usizeMax
  Res.refuse (version ≠ 1) .version
  return a

def collection (it : Item) (major max : Nat) : Res Malformed Nat := do
  if it.null then return 0
  Res.refuse (it.major ≠ major) .shape
  Res.refuse (it.arg > max) .limit
  return it.arg

end Item

end Ureth.Source.B1.Cbor
