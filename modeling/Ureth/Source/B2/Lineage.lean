import Ureth.Source.B1.Certificate
import Ureth.Source.B2.Allocation
import Ureth.Source.B2.Semantics

/-!
# The lineage relation (`b2/src/lineage.rs`)

A redeemed part, its ancestors inside the split justifications, and the
verification from the lock-backed root to the part. The charge is a parameter
with a state of its own, as the source's `&mut dyn FnMut`; the state outlives a
refusal. The walk's loop has fuel, and running out of it is a panic: absence of
panics therefore says that the walk ends.
-/

namespace Ureth.Source.B2
open Ureth.Foundation
open Cbor (Item Items bytes uint array)
open Ureth.Source.B1 (Malformed)
open Ureth.Source.B1.Cbor (usizeMax)

/-- Items of the native scanner, of which an embedded token consists. -/
abbrev NativeItem := B1.Cbor.Item

def splitPerByte : Nat := 16
def perItem : Nat := 20
def perLeaf : Nat := 16000
def edgeBase : Nat := 20000
def edgePerStep : Nat := 1500

def tagLock : Nat := 39049
def tagSplit : Nat := 39044
def tagManifest : Nat := 39046
def tagToken : Nat := 39040
def tagInclusion : Nat := 39033
def maxProofUcBytes : Nat := 24 * 1024
def maxSteps : Nat := 256

/-- The error of a native scan, in this kernel's terms. -/
def nerr : Malformed → Error
  | .truncated => .truncated
  | .trailing => .trailing
  | .canonical => .nonCanonical
  | .cbor | .utf8 => .forbiddenCbor
  | .limit => .tooManyItems
  | .version => .version
  | _ => .shape

/-! ## Justifications -/

/-- One step of an encoded allocation proof; `prev` is the depth of the step before. -/
def decodeStep (k : NativeItem) (prev : Nat) : Res Error Step := do
  let f ← (k.array 3).mapErr nerr
  let depth ← (f[0].uint 255).mapErr fun _ => .splitProofShape
  Res.refuse (depth ≥ prev) .splitProofShape
  let h ← (f[1].bytes 32).mapErr nerr
  let hash ← Res.unwrap (Fixed.ofBytes? 32 h)
  Res.refuse (f[2].major ≠ 2) .splitProofShape
  let sum ← Res.okOr .splitProofShape (U256.amount f[2].data)
  return { depth := UInt8.ofNat depth, hash, sum }

def decodeSteps : List NativeItem → Nat → Res Error Proof
  | [], _ => .ok []
  | k :: rest, prev => do
    let s ← decodeStep k prev
    let steps ← decodeSteps rest s.depth.toNat
    return s :: steps

def decodeProof (it : NativeItem) : Res Error Proof := do
  Res.refuse (it.major ≠ 4) .shape
  Res.refuse (it.arg > maxSteps) .splitProofShape
  let kids ← it.children
  decodeSteps kids 256

/-- The tag number of a justification, if it starts with a tag. -/
def justificationTag (j : Bytes) : Option Nat :=
  match j with
  | [] => none
  | first :: rest =>
    if first.toNat / 32 ≠ 6 then none
    else
      let ai := first.toNat % 32
      if ai < 24 then some ai
      else if ai < 28 then
        let len := 2 ^ (ai - 24)
        if rest.length < len then none else some (beNat (rest.take len))
      else none

/-! ## Projection of an ancestor -/

section Relation

variable (H : Bytes → Bytes32) (K : K256)

/-- The bitmap and siblings of an inclusion path agree in number. -/
def checkPath (f : NativeItem) : Res Error Unit := do
  Res.refuse (f.major ≠ 2) .shape
  Res.refuse (f.data.length < 32 ∨ f.data.length % 32 ≠ 0) .length
  Res.refuse (f.data.length ≠ 32 + 32 * popCount (f.data.take 32)) .length

/-- An inclusion proof `tag(39033, [1, CD, t, b(path), UC])`: its certification
data and reference time. -/
def inclusion (it : NativeItem) : Res Error (NativeItem × Nat) := do
  Res.refuse (it.major ≠ 6) .shape
  Res.refuse (it.arg ≠ tagInclusion) .tag
  let f ← (it.tagged 5 tagInclusion).mapErr nerr
  let c ← Cbor.one f[1].raw (.nativeMode Items.max)
  let _ ← cdStrict K c
  let t ← (f[2].uint u64Max).mapErr nerr
  checkPath f[3]
  Res.refuse (f[4].raw.length > maxProofUcBytes) .inputTooLarge
  Res.refuse (f[4].major ≠ 6) .shape
  (B1.scanCertificate f[4].raw).mapErr fun _ => .certScan
  return (f[1], t)

/-- The fields of an SDK token, whose version is 2. -/
def openToken (token : NativeItem) : Res Error (FieldList NativeItem 3) := do
  Res.refuse (token.major ≠ 6) .shape
  Res.refuse (token.arg ≠ tagToken) .tag
  let (inner, _) ← (B1.Cbor.oneLoose token.data 0 usizeMax).mapErr nerr
  let a ← (inner.array 3).mapErr nerr
  let version ← (a[0].uint u64Max).mapErr nerr
  Res.refuse (version ≠ 2) .version
  return a

/-- A triple of the compact history form. -/
def triple (raw : Bytes) (cd : NativeItem) (t : Nat) : Bytes := array [raw, cd.raw, uint t]

/-- One transfer of a token: checked, and projected from its own item bytes. -/
def projectTransfer (p : NativeItem) : Res Error Bytes := do
  let pair ← (p.array 2).mapErr nerr
  let it ← Cbor.one pair[0].raw (.nativeMode Items.max)
  let _ ← transferStrict K it
  let (cd, t) ← inclusion K pair[1]
  return triple pair[0].raw cd t

/-- The compact history of an embedded token and its number of leaves. -/
def project (token : NativeItem) : Res Error (Bytes × Nat) := do
  let parts ← openToken token
  let g ← (parts[1].array 2).mapErr nerr
  let it ← Cbor.one g[0].raw (.nativeMode Items.max)
  let _ ← decodeMint K it
  let (cd0, t0) ← inclusion K g[1]
  Res.refuse (parts[2].major ≠ 4) .shape
  let kids ← parts[2].children
  let triples ← Res.collect (projectTransfer K) kids
  let leaves ← Res.u64 (1 + triples.length)
  return (array [triple g[0].raw cd0 t0, array triples], leaves)

/-! ## One level -/

/-- One verified token. -/
structure Verified where
  last : Leaf
  id : Bytes32
  amount : Bytes32
  base : Option Outcome
  leaves : List Leaf
  network : Nat
  recipient : Bytes
  salt : Bytes32
  ty : Bytes32
  data : Bytes

/-- The identity of a level's token, with the derived outcome of a root. -/
def levelIdentity (cfg : Cfg) (m : Mint) (n : Option Nat) (amt : Bytes) :
    Res Error (Bytes32 × Option Outcome) :=
  match n with
  | some n => do
    let out ← derive H K cfg n amt m.fields[2]
    return (out.tokenId, some out)
  | none => .ok (hashArray H [bytes m.fields[3].data, uint cfg.network], none)

/-- The transfers of a level; only the interior ones are classified here. -/
def levelTransfers : List Transfer → Item → Bytes32 → List Bytes32 → Res Error (List Leaf × List Bytes32)
  | [], _, _, seen => .ok ([], seen)
  | tr :: rest, owner, state, seen => do
    let (leaf, seen) ← spend H K owner state tr seen
    (if rest = [] then .ok () else interior K tr.tx)
    let (leaves, seen) ← levelTransfers rest tr.tx.pred (outputState H state tr.tx.mask) seen
    return (leaf :: leaves, seen)

/-- A token's mint and complete transfer history, except for the kind of its
terminal transfer. -/
def level (cfg : Cfg) (payload : Bytes) (root : Bool) (seen : List Bytes32) (items : Items) :
    Res Error (Verified × List Bytes32) := do
  let it ← Cbor.one payload items
  let h ← decodeFields K it u64Max
  Res.refuse (h.count = 0) .noTransfers
  let (n, amt) ← verifyMint H cfg h.mint root items
  let (id, base) ← levelIdentity H K cfg h.mint n amt
  let amount ← word amt
  let (first, seen) ← mintLeaf H K id h.mintItem.raw h.mint.deadline h.cd0 h.t0 seen
  let (rest, seen) ← levelTransfers H K h.transfers h.mint.fields[2]
    (outputState H (mintSource H id) id.val) seen
  let last ← Res.unwrap (first :: rest).getLast?
  let salt ← Res.unwrap (Fixed.ofBytes? 32 h.mint.fields[3].data)
  let ty ← Res.unwrap (Fixed.ofBytes? 32 h.mint.fields[4].data)
  let data ← Res.unwrap h.mint.data
  return ({ last, id, amount, base, leaves := first :: rest, network := h.mint.fields[1].arg,
            recipient := h.mint.fields[2].raw, salt, ty, data }, seen)

/-- `splitOutputCommitment`: what a manifest leaf commits to for a child. -/
def commitment (source : Bytes32) (child : Verified) : Bytes32 :=
  hashArray H [bytes (ascii "UNICITY_SPLIT_OUTPUT"), bytes source.val, uint child.network,
    bytes child.recipient, bytes child.salt.val, bytes child.id.val, bytes child.ty.val,
    bytes child.data]

/-- The manifest root of a split burn's data: `tag(39046, [b(root32)])`, nothing else. -/
def manifestRoot (data : Bytes) : Res Error Bytes32 := do
  let root ← (Cbor.one data .default).mapErr fun _ => .splitManifest
  Res.refuse (root.major ≠ 6 ∨ root.arg ≠ tagManifest) .splitManifest
  let inner ← (Cbor.one root.data .default).mapErr fun _ => .splitManifest
  let a ← (inner.array 1).mapErr fun _ => .splitManifest
  let b ← (a[0].bytes 32).mapErr fun _ => .splitManifest
  Res.okOr .splitManifest (Fixed.ofBytes? 32 b)

/-! ## The relation -/

structure Walked where
  /-- The allocation proof of `projs[i]`, `i` below the depth. -/
  proofs : List Proof
  projs : List Bytes

variable {σ : Type} (charge : Nat → Run σ Error Unit)

/-- A charge of `n` units of a 64-bit product. -/
def chargeU64 (n : Nat) : Run σ Error Unit := do
  let n ← Run.lift (Res.u64 n)
  charge n

/-- The justification of a history's mint. -/
def mintJustification (cur : Bytes) : Res Error Bytes := do
  let p ← Cbor.one cur (.perObject usizeMax)
  let h ← p.array 2
  let g ← h[0].array 3
  let m ← g[0].tagged 8 39041 2
  (m[5].blob usizeMax).mapErr fun _ => .mintJustif

/-- The token and the allocation proof of a split justification, and its item count. -/
def openSplit (j : Bytes) : Res Error (NativeItem × Proof × Nat) := do
  let (sj, items) ← (B1.Cbor.oneLoose j 0 usizeMax).mapErr fun _ => .splitJustif
  Res.refuse (sj.major ≠ 6 ∨ sj.arg ≠ tagSplit) .splitJustif
  let (body, _) ← (B1.Cbor.oneLoose sj.data 0 usizeMax).mapErr fun _ => .splitJustif
  Res.refuse (body.major ≠ 4 ∨ body.arg ≠ 2) .splitJustif
  let kids ← body.children
  let token ← Res.unwrap kids[0]?
  let proofs ← Res.unwrap kids[1]?
  Res.refuse (token.major ≠ 6 ∨ proofs.major ≠ 4) .splitJustif
  Res.refuse (proofs.arg ≠ 1) .splitProofCount
  let inner ← proofs.children
  let first ← Res.unwrap inner[0]?
  let proof ← decodeProof first
  return (token, proof, items)

/-- Descend into one split justification: its proof and its projected parent. -/
def descend (j : Bytes) : Run σ Error (Proof × Bytes) := do
  chargeU64 charge (splitPerByte * j.length)
  let (token, proof, items) ← Run.lift (openSplit j)
  chargeU64 charge (perItem * items)
  let (proj, leaves) ← Run.lift (project K token)
  chargeU64 charge (perLeaf * leaves)
  return (proof, proj)

/-- From the part to the root. -/
def walk : Nat → Walked → Run σ Error Walked
  | 0, _ => Run.lift Res.panic
  | fuel + 1, w => do
    let cur ← Run.lift (Res.unwrap w.projs.getLast?)
    let j ← Run.lift (mintJustification cur)
    if justificationTag j = some tagLock then return w
    else if justificationTag j = some tagSplit then do
      let (proof, proj) ← descend K charge j
      walk fuel { proofs := w.proofs ++ [proof], projs := w.projs ++ [proj] }
    else Run.fail .mintJustif

/-- What a child is checked against: identity, amount and manifest root. -/
structure Parent where
  id : Bytes32
  amount : Bytes32
  root : Bytes32

/-- An allocation edge under a parent: the proof verifies against the manifest
root and the reconstructed sum is the parent's whole amount. -/
def allocationEdge (parent : Parent) (proof : Proof) (id data : Bytes32) (value : U256) :
    Res Error Unit := do
  let sum ← Res.okOr .splitProof (proof.verify H id data value parent.root)
  Res.refuse (sum ≠ parent.amount) .splitSum

/-- The allocation edge of a verified child. -/
def checkEdge (parent : Parent) (proof : Proof) (child : Verified) : Res Error Unit :=
  allocationEdge H parent proof child.id (commitment H parent.id child) child.amount

structure VerifyState where
  seen : List Bytes32
  out : Outcome
  parent : Option Parent

/-- Before the root of a walk of depth `d`. -/
def VerifyState.start (d : Nat) : VerifyState :=
  { seen := [], out := { Outcome.default with depth := d }, parent := none }

/-- The terminal transaction of a level. -/
def terminalTx (proj : Bytes) : Res Error Tx := do
  let p ← Cbor.one proj (.perObject usizeMax)
  let h ← p.array 2
  let kids ← h[1].children
  let last ← Res.unwrap kids.getLast?
  let a ← last.array 3
  transfer a[0]

/-- The return burn of the part. -/
def partTerminal (cfg : Cfg) (lv : Verified) (tx : Tx) (out : Outcome) : Res Error Outcome := do
  let releaseTo ← burn H cfg lv.amount tx .default
  let nullifier := nullifierOf H (H cfg.raw) lv.last
  Res.refuse (nullifier = .zero 32) .zeroDigest
  return { out with nullifier, releaseTo, partTokenId := lv.id, partAmount := lv.amount }

/-- The split burn of a parent: its manifest root. -/
def splitTerminal (tx : Tx) : Res Error Bytes32 := do
  let (typ, params) ← (predicate tx.pred).mapErr fun _ => .splitBurn
  Res.refuse (typ ≠ 2) .splitBurn
  let data ← Res.okOr .splitBurn tx.data
  let root ← manifestRoot data
  Res.refuse (params ≠ (H data).val) .splitBurn
  return root

/-- The terminal transfer of level `i`: the outcome so far and the manifest root. -/
def levelTerminal (cfg : Cfg) (i : Nat) (lv : Verified) (proj : Bytes) (out : Outcome) :
    Res Error (Outcome × Bytes32) := do
  let tx ← terminalTx proj
  if i = 0 then do
    let out ← partTerminal H cfg lv tx out
    return (out, .zero 32)
  else do
    let root ← splitTerminal H tx
    return (out, root)

/-- The root's derived fields, taken over at the first level. -/
def takeBase (out : Outcome) (lv : Verified) (isRoot : Bool) : Res Error Outcome :=
  if isRoot then do
    let base ← Res.unwrap lv.base
    return { out with cfg := base.cfg, nonce := base.nonce, amount := base.amount,
                      tokenId := base.tokenId, salt := base.salt,
                      firstPredicateHash := base.firstPredicateHash, lockDigest := base.lockDigest }
  else .ok out

/-- The edge of level `i` below the root. -/
def verifyEdge (w : Walked) (i : Nat) (lv : Verified) (parent : Option Parent) :
    Run σ Error Unit := do
  let parent ← Run.lift (Res.unwrap parent)
  let proof ← Run.lift (Res.index w.proofs i)
  chargeU64 charge (edgeBase + edgePerStep * proof.length)
  Run.lift (checkEdge H parent proof lv)

/-- Level `i` of a walk of depth `d`. -/
def verifyLevel (cfg : Cfg) (w : Walked) (d i : Nat) (st : VerifyState) :
    Run σ Error VerifyState := do
  let proj ← Run.lift (Res.index w.projs i)
  let (lv, seen) ← Run.lift (level H K cfg proj (decide (i = d)) st.seen (.perObject Items.max))
  (if i < d then verifyEdge H charge w i lv st.parent else pure ())
  let (out, splitRoot) ← Run.lift (levelTerminal H cfg i lv proj st.out)
  let out ← Run.lift (takeBase { out with leaves := out.leaves ++ lv.leaves } lv (decide (i = d)))
  return { seen, out, parent := some { id := lv.id, amount := lv.amount, root := splitRoot } }

/-- The levels below `n`, root first. -/
def verifyLevels (cfg : Cfg) (w : Walked) (d : Nat) : Nat → VerifyState → Run σ Error VerifyState
  | 0, st => pure st
  | i + 1, st => do
    let st ← verifyLevel H K charge cfg w d i st
    verifyLevels cfg w d i st

/-- `cbor::one` of the configuration, then its checks. -/
def parseCfg (cfgBytes : Bytes) : Res Error Cfg := do
  let cfgItem ← Cbor.one cfgBytes (.perObject Items.max)
  checkCfgNetwork cfgItem
  Cfg.parse H cfgItem

/-- `DecodeHistory`: every wire field, and none of the relation. -/
def decodeHistory (history : Bytes) : Res Error Unit := do
  let p ← Cbor.one history (.perObject usizeMax)
  let _ ← decodeFields K p u64Max
  return ()

/-- The outer mint of a history that has transfers. -/
def outerMint (history : Bytes) : Res Error Item := do
  let payload ← Cbor.one history (.perObject usizeMax)
  let top ← payload.array 2
  let count ← top[1].count u64Max
  Res.refuse (count = 0) .noTransfers
  let g ← top[0].array 3
  return g[0]

/-- The lineage relation (`lineage::relation`). -/
def Lineage.relation (cfgBytes history : Bytes) : Run σ Error Outcome := do
  let cfg ← Run.lift (parseCfg H cfgBytes)
  Run.lift (decodeHistory K history)
  let mint ← Run.lift (outerMint history)
  chargeU64 charge (splitPerByte * mint.raw.length)
  let w ← walk K charge (history.length + 1) { proofs := [], projs := [history] }
  let d ← Run.lift (Res.sub w.projs.length 1)
  let st ← verifyLevels H K charge cfg w d (d + 1) (.start d)
  return st.out

end Relation

end Ureth.Source.B2
