import Ureth.Source.B1.Cbor
import Ureth.Source.Crypto

/-!
# B1 certificates (`b1/src/certificate.rs`)

The packed claim and its structural checks, the folds of a claim, and the scans
the bridge makes of certificates it carries. The checks of `parse_claim` and of
`scan_body` are the same, in the same order; they are `certificateBody` here.
`H` stands for SHA-256 of the concatenated parts.
-/

namespace Ureth.Source.B1
open Ureth.Foundation
open Cbor (Item usizeMax)

/-- `u8::trailing_zeros`. -/
def trailingZeros (b : UInt8) : Nat := (List.range 8).findIdx b.toNat.testBit

/-- The bits before the terminating one bit of a shard ID. -/
def shardDepth (b : Bytes) : Res Malformed Nat := do
  let last ← Res.okOr .shard b.getLast?
  Res.refuse (last = 0) .shard
  let bits ← Res.sub (b.length * 8) (trailingZeros last)
  let depth ← Res.sub bits 1
  Res.refuse (b.length > 33 ∨ depth > 256) .shard
  return depth

def nullableHash (v : Item) : Res Malformed Unit :=
  if v.null then .ok () else do
    let _ ← v.bytes 32
    return ()

/-- Names and values of the signature map in turn. -/
def signaturePairs : List Item → Res Malformed Unit
  | [] => .ok ()
  | id :: rest => do
    let _ ← id.blob 3 0 128
    match rest with
    | [] => Res.fail .shape
    | sig :: rest => do
      let _ ← sig.blob 2 0 usizeMax
      signaturePairs rest

/-- The scanned parts of a certificate. -/
structure Body where
  ir : FieldList Item 10
  shardCert : FieldList Item 3
  treeCert : FieldList Item 3
  sealFields : FieldList Item 8
  /-- Shard siblings plus Unicity-tree steps. -/
  paths : Nat
  /-- Signature-map cardinality. -/
  sigs : Nat

/-- The input record: round, epoch, previous hash, hash, summary, timestamp, block
hash, fees and executed transactions hash after the version. -/
def inputRecord (it : Item) : Res Malformed (FieldList Item 10) := do
  let ir ← it.tagged 10 39002
  Res.each (fun v => do let _ ← v.uint usizeMax; return ()) [ir[1], ir[2], ir[6], ir[8]]
  Res.each nullableHash [ir[3], ir[7], ir[9]]
  let _ ← ir[4].bytes 32
  if ir[5].null then return ir
  let _ ← ir[5].blob 2 0 256
  return ir

/-- The shard tree certificate: the shard ID and its siblings. -/
def shardCertificate (it : Item) : Res Malformed (FieldList Item 3 × Nat) := do
  let sc ← it.tagged 3 39003
  let shard ← sc[1].blob 2 1 33
  let _ ← shardDepth shard
  let n ← sc[2].collection 4 256
  let kids ← sc[2].children
  Res.each (fun sib => do let _ ← sib.bytes 32; return ()) kids
  return (sc, n)

/-- One step of the Unicity tree: a partition and a hash. -/
def treeStep (step : Item) : Res Malformed Unit := do
  let pair ← step.array 2
  let _ ← pair[0].uint (2 ^ 32 - 1)
  let _ ← pair[1].bytes 32
  return ()

/-- The Unicity tree certificate: the partition and its steps. -/
def treeCertificate (it : Item) : Res Malformed (FieldList Item 3 × Nat) := do
  let tc ← it.tagged 3 39004
  let _ ← tc[1].uint (2 ^ 32 - 1)
  let n ← tc[2].collection 4 32
  let kids ← tc[2].children
  Res.each treeStep kids
  return (tc, n)

/-- The seal: network, root round, epoch, timestamp, previous hash, hash and the
signature map after the version. -/
def unicitySeal (it : Item) : Res Malformed (FieldList Item 8 × Nat) := do
  let sf ← it.tagged 8 39005
  let _ ← sf[1].uint (2 ^ 16 - 1)
  Res.each (fun v => do let _ ← v.uint usizeMax; return ()) [sf[2], sf[3], sf[4]]
  let _ ← sf[5].bytes 32
  let _ ← sf[6].bytes 32
  let n ← sf[7].collection 5 64
  let kids ← sf[7].children
  signaturePairs kids
  return (sf, n)

/-- The field structure and sublimits of a certificate's scanned items. -/
def certificateBody (uc : FieldList Item 7) : Res Malformed Body := do
  let ir ← inputRecord uc[1]
  let _ ← uc[2].bytes 32
  let _ ← uc[3].bytes 32
  let (shardCert, siblings) ← shardCertificate uc[4]
  let (treeCert, steps) ← treeCertificate uc[5]
  let (sealFields, sigs) ← unicitySeal uc[6]
  let paths ← Res.u64 (siblings + steps)
  return { ir, shardCert, treeCert, sealFields, paths, sigs }

structure Claim where
  partition : Nat
  shard : Bytes
  config : Bytes
  state : Bytes
  irHash : Bytes
  ir : Item
  tr : Item
  conf : Item
  shardCert : FieldList Item 3
  treeCert : FieldList Item 3
  sealItem : Item
  sealFields : FieldList Item 8

structure Parsed where
  claim : Claim
  paths : Nat
  sigs : Nat

/-- One packed claim against the caller's cumulative item budget: the parsed
claim, the unread bytes and the items counted so far. -/
def parseClaim (r : Bytes) (tokens : Nat) : Res Malformed (Parsed × Bytes × Nat) := do
  let (partition, r) ← uint 4 r
  let (sl, r) ← uint 2 r
  Res.refuse (sl > 33) .shard
  let (shard, r) ← take sl r
  let _ ← shardDepth shard
  let (config, r) ← take 32 r
  let (state, r) ← take 32 r
  let (irHash, r) ← take 32 r
  let (ucLen, r) ← uint 4 r
  Res.refuse (ucLen > 24576) .limit
  let (raw, r) ← take ucLen r
  let (it, tokens) ← Cbor.one raw tokens
  let uc ← it.tagged 7 39001
  let body ← certificateBody uc
  return ({
    claim := {
      partition, shard, config, state, irHash
      ir := uc[1], tr := uc[2], conf := uc[3]
      shardCert := body.shardCert, treeCert := body.treeCert
      sealItem := uc[6], sealFields := body.sealFields }
    paths := body.paths
    sigs := body.sigs }, r, tokens)

/-! ## Folds -/

section Folds

variable (H : Bytes → Bytes32)

/-- `0x5820`, the head of a 32-byte string. -/
def head32 : Bytes := [0x58, 0x20]

/-- The parent of `h` in the shard tree at a bit of the shard ID. -/
def shardNode (bit : Bool) (h : Bytes32) (sib : Bytes) : Bytes :=
  if bit then head32 ++ sib ++ head32 ++ h.val else head32 ++ h.val ++ head32 ++ sib

/-- The siblings from the leaf up; sibling `i` stands at bit `depth - 1 - i`. -/
def foldShard {ε : Type} (shard : Bytes) (depth : Nat) : Nat → List Item → Bytes32 → Res ε Bytes32
  | _, [], h => .ok h
  | i, sib :: rest, h => do
    let last ← Res.sub depth 1
    let d ← Res.sub last i
    let bit ← bitAt shard d
    foldShard shard depth (i + 1) rest (H (shardNode bit h sib.data))

/-- The leaf of a partition in the Unicity tree. -/
def partitionLeaf (partition : Nat) (data : Bytes32) : Bytes :=
  [0x41, 1, 0x44] ++ beBytes 4 partition ++ head32 ++ data.val

/-- The node of the Unicity tree above `h` at a step. -/
def partitionNode (partition key : Nat) (h : Bytes32) (sib : Bytes) : Bytes :=
  [0x41, 0, 0x44] ++ beBytes 4 key ++
    (if partition > key then head32 ++ sib ++ head32 ++ h.val else head32 ++ h.val ++ head32 ++ sib)

def foldTree {ε : Type} (partition : Nat) : List Item → Bytes32 → Res ε Bytes32
  | [], h => .ok h
  | step :: rest, h => do
    let pair ← (step.array 2).expect
    foldTree partition rest (H (partitionNode partition (pair[0].arg % 2 ^ 32) h pair[1].data))

/-- The checks of a claim before its folds: the certificate is usable, and the
claim's own fields are those of the certificate. -/
def claimMatches (c : Claim) (ir : FieldList Item 10) : Bool :=
  let sf := c.sealFields
  !((ir[1].arg ≠ 0 && (ir[5].null || ir[6].arg = 0)) ||
    (decide (ir[3].data = ir[4].data) == !ir[7].null) ||
    sf[2].arg = 0 || sf[4].arg < 1681971084 || sf[7].null || sf[7].arg = 0) &&
  !(c.treeCert[1].arg ≠ c.partition || c.shardCert[1].data ≠ c.shard || c.conf.data ≠ c.config ||
    ir[4].data ≠ c.state || (H c.ir.raw).val ≠ c.irHash)

/-- The root of a claim: the shard tree over its input record, then the Unicity tree. -/
def claimRoot {ε : Type} (c : Claim) (depth : Nat) (siblings : List Item) : Res ε Bytes32 := do
  let h ← foldShard H c.shardCert[1].data depth 0 siblings (H (c.ir.raw ++ c.tr.raw ++ c.conf.raw))
  let steps ← c.treeCert[2].children
  let partition := c.treeCert[1].arg % 2 ^ 32
  foldTree H partition steps (H (partitionLeaf partition (H (head32 ++ h.val))))

def folds {ε : Type} (c : Claim) : Res ε Bool := do
  let ir ← (c.ir.tagged 10 39002).expect
  if !claimMatches H c ir then return false
  let depth ← (shardDepth c.shardCert[1].data).expect
  let siblings ← c.shardCert[2].children
  if siblings.length ≠ depth then return false
  let h ← claimRoot H c depth siblings
  return h.val = c.sealFields[6].data

end Folds

/-! ## Certificates the bridge carries -/

/-- One part of a certificate as the SDK codec requires it: the tag, the arity
and the major type of one field. -/
def requiredPart (uc : FieldList Item 7) (part : Nat × Nat × Nat × Nat × Nat) :
    Res Malformed Unit := do
  let (i, tag, arity, req, major) := part
  let body := uc[i]
  Res.refuse (body.major ≠ 6 ∨ body.arg ≠ tag) .shape
  let (inner, _) ← Cbor.one body.data 0
  Res.refuse (inner.major ≠ 4 ∨ inner.arg ≠ arity) .shape
  let kids ← inner.children
  Res.refuse (kids[req]?.all (fun c => c.major ≠ major) = true) .shape

/-- The values at odd positions of a seal's signature map are byte strings. -/
def oddBytes : Nat → List Item → Res Malformed Unit
  | _, [] => .ok ()
  | i, v :: rest => do
    Res.refuse (i % 2 = 1 ∧ v.major ≠ 2) .shape
    oddBytes (i + 1) rest

/-- One Unicity certificate scanned on its own item budget. -/
def scanCertificate (raw : Bytes) : Res Malformed Unit := do
  Res.refuse (raw.length > 24576) .limit
  let (root, _) ← Cbor.one raw 0
  let uc ← root.tagged 7 39001
  Res.each (requiredPart uc)
    [(1, 39002, 10, 5, 2), (4, 39003, 3, 2, 4), (5, 39004, 3, 2, 4), (6, 39005, 8, 7, 5)]
  let (sealItem, _) ← Cbor.one uc[6].data 0
  let sf ← sealItem.array 8
  Res.refuse (sf[1].major ≠ 0 ∨ sf[1].arg = 0 ∨ sf[1].arg > 65535) .shape
  let kids ← sf[7].children
  oddBytes 0 kids
  let _ ← certificateBody uc
  return ()

def uintOrNull (it : Item) (max : Nat) : Res Malformed Unit :=
  if it.null then .ok () else do
    let _ ← it.uint max
    return ()

/-- What a byte-string field of the typed decode takes. -/
def bytesLike (it : Item) : Res Malformed Unit :=
  if it.null ∨ it.major = 2 then .ok () else do
    Res.refuse (it.major ≠ 4) .shape
    let kids ← it.children
    Res.each (fun e => do let _ ← e.uint 255; return ()) kids

def listOfBytes (it : Item) : Res Malformed Unit :=
  if it.null then .ok () else do
    Res.refuse (it.major ≠ 4) .shape
    let kids ← it.children
    Res.each bytesLike kids

/-- `tag(n, [version, ...])` with version 0, 1 or null; the fields as a list of known length. -/
def typed (it : Item) (tag n : Nat) : Res Malformed (FieldList Item n) := do
  Res.refuse (it.major ≠ 6 ∨ it.arg ≠ tag) .shape
  let (inner, _) ← Cbor.oneLoose it.data 0 usizeMax
  Res.refuse (inner.major ≠ 4 ∨ inner.arg ≠ n) .shape
  let kids ← inner.children
  let a ← Res.unwrap (if h : kids.length = n then some ⟨kids, h⟩ else none)
  uintOrNull a[0] 1
  return a

def typedStep (step : Item) : Res Malformed Unit := do
  let pair ← step.array 2
  uintOrNull pair[0] (2 ^ 32 - 1)
  bytesLike pair[1]

/-- Names and values of the signature map in the typed decode. -/
def typedPairs : List Item → Res Malformed Unit
  | [] => .ok ()
  | k :: rest => do
    let _ ← k.blob 3 0 usizeMax
    match rest with
    | [] => Res.fail .shape
    | v :: rest => do
      bytesLike v
      typedPairs rest

/-- The steps of a typed Unicity tree certificate. -/
def typedSteps (it : Item) : Res Malformed Unit :=
  if it.null then .ok () else do
    Res.refuse (it.major ≠ 4) .shape
    let kids ← it.children
    Res.each typedStep kids

/-- The signature map of a typed seal. -/
def typedSignatures (it : Item) : Res Malformed Unit :=
  if it.null then .ok () else do
    Res.refuse (it.major ≠ 5) .shape
    let kids ← it.children
    typedPairs kids

/-- The shape a typed decode of a certificate requires. -/
def certificateShape (raw : Bytes) : Res Malformed Unit := do
  let (root, _) ← Cbor.oneTyped raw 0 Cbor.maxItems
  let uc ← typed root 39001 7
  let ir ← typed uc[1] 39002 10
  Res.each (fun v => uintOrNull v usizeMax) [ir[1], ir[2], ir[6], ir[8]]
  Res.each bytesLike [ir[3], ir[4], ir[5], ir[7], ir[9]]
  bytesLike uc[2]
  bytesLike uc[3]
  let sc ← typed uc[4] 39003 3
  bytesLike sc[1]
  listOfBytes sc[2]
  let tc ← typed uc[5] 39004 3
  uintOrNull tc[1] (2 ^ 32 - 1)
  typedSteps tc[2]
  let sf ← typed uc[6] 39005 8
  let version ← sf[0].uint 1
  Res.refuse (version ≠ 1) .version
  let _ ← sf[1].uint (2 ^ 16 - 1)
  Res.each (fun v => do let _ ← v.uint usizeMax; return ()) [sf[2], sf[3], sf[4]]
  bytesLike sf[5]
  bytesLike sf[6]
  typedSignatures sf[7]

/-- The bytes of a byte-string field as the typed decode reads them. -/
def typedBytes (it : Item) : Res Malformed Bytes :=
  if it.null then .ok []
  else if it.major = 2 then .ok it.data
  else do
    let kids ← it.children
    Res.collect (fun e => do
      let v ← e.uint 255
      return UInt8.ofNat v) kids

/-- The shard a certificate names, read after `certificateShape` succeeded. -/
def certificateShard (raw : Bytes) : Res Malformed Bytes := do
  let (uc, _) ← Cbor.oneLoose raw 0 usizeMax
  let (inner, _) ← Cbor.oneLoose uc.data 0 usizeMax
  let parts ← inner.children
  let scTag ← Res.okOr .shape parts[4]?
  let (sc, _) ← Cbor.oneLoose scTag.data 0 usizeMax
  let fields ← sc.children
  let shard ← Res.okOr .shape fields[1]?
  typedBytes shard

end Ureth.Source.B1
