import Ureth.Source.B2.Cbor
import Ureth.Source.Crypto

/-!
# Token semantics (`b2/src/semantics.rs`)

The configuration, the mint and transfer records, the certification of each
transition and the evaluation of one history. Short-circuited comparisons of
fields are written as checks in the same order, so the error and the fields read
before it are those of the source. The set of state IDs seen so far is a list.
-/

namespace Ureth.Source.B2
open Ureth.Foundation
open Cbor (Item Items bytes uint array tag)
open Ureth.Source.B1.Cbor (usizeMax)

/-- `u64::MAX`, the bound of an unrestricted integer field. -/
abbrev u64Max : Nat := usizeMax

structure Cfg where
  raw : Bytes
  network : Nat
  chain : Nat
  vault : Bytes
  ty : Bytes
  aid : Bytes

/-- The inclusive range 1..=65535 of a network ID. -/
def network (it : Item) : Res Error Nat := do
  let n ← it.uint 65535
  Res.refuse (n = 0) .intRange
  return n

def cfgDomain : Bytes := ascii "UNICITY_BR_CFG"

/-- The network diagnostic, before the payload's shape is looked at. -/
def checkCfgNetwork (it : Item) : Res Error Unit := do
  match ← (it.array 16).attempt with
  | none => return ()
  | some a =>
    match ← (a[0].blob 32).attempt with
    | none => return ()
    | some domain =>
      if domain = cfgDomain then
        let _ ← network a[1]
        return ()
      else return ()

def zero20 : Bytes := List.replicate 20 0

/-- The deployment string the token type and asset identity are hashes of. -/
def deployment (network chain : Nat) (a2 a4 : Bytes) : Bytes :=
  decimal network ++ ascii ":" ++ hex a2 ++ ascii ":" ++ hex a4 ++ ascii ":" ++ decimal chain ++
    ascii ":0000000000000000000000000000000000000000"

section Semantics

variable (H : Bytes → Bytes32) (K : K256)

def Cfg.parse (it : Item) : Res Error Cfg := do
  let a ← it.array 16
  let domain ← a[0].blob 32
  Res.refuse (domain ≠ cfgDomain) .cfgMismatch
  let network ← B2.network a[1]
  let _ ← a[2].bytes 32
  let chain ← a[3].uint u64Max
  let _ ← a[4].bytes 32
  let _ ← a[5].uint (2 ^ 32 - 1)
  let _ ← a[6].blob 33
  let vault ← a[7].bytes 20
  Res.refuse (vault = zero20) .cfgMismatch
  let asset ← a[8].bytes 20
  Res.refuse (asset ≠ zero20) .cfgMismatch
  let ty ← a[9].bytes 32
  let aid ← a[10].bytes 32
  Res.each (fun v => do let _ ← v.bytes 32; return ()) [a[11], a[13], a[14], a[15]]
  let _ ← a[12].bytes 20
  let d := deployment network chain a[2].data a[4].data
  Res.refuse (ty ≠ (H (ascii "unicity-bridge:unicity-native:" ++ d)).val ∨
    aid ≠ (H (ascii "unicity-bridge-coin:unicity-native:" ++ d)).val) .cfgMismatch
  return { raw := it.raw, network, chain, vault, ty, aid }

/-- A positive minimal big-endian amount of at most 32 bytes. -/
def amount (it : Item) : Res Error Bytes := do
  let b ← it.blob usizeMax
  Res.refuse (b = [] ∨ b.length > 32 ∨ b.head? = some 0) .intRange
  return b

def deadline (it : Item) : Res Error (Option Nat) :=
  if it.null then .ok none else do
    let e ← (it.uint u64Max).mapErr fun _ => .deadline
    Res.refuse (e = 0) .deadline
    return some e

/-- The kind of an owner predicate and its parameters: 1 is a compressed key, 2 a burn reason. -/
def predicate (it : Item) : Res Error (Nat × Bytes) := do
  let a ← (it.tagged 3 39032 1).mapErr fun e => if e = .version then .predicate else e
  let code ← a[1].blob usizeMax
  let params ← a[2].blob usizeMax
  if code = [1] ∧ params.length = 33 ∧ (params.head? = some 2 ∨ params.head? = some 3) then
    return (1, params)
  else if code = [2] ∧ params.length = 32 then return (2, params)
  else Res.fail .predicate

def key (params : Bytes) : Res Error K.VerifyingKey := Res.okOr .predicate (K.fromSec1Bytes params)

/-- The signature predicate of a key, encoded. -/
def signaturePred (k : K.VerifyingKey) : Bytes :=
  tag 39032 (array [uint 1, bytes [1], bytes (K.encodedPoint k).val])

def hashArray (parts : List Bytes) : Bytes32 := H (array parts)

/-- The mint salt of a lock nonce. -/
def saltOf (cfg : Cfg) (n : Nat) : Bytes32 :=
  hashArray H [bytes (ascii "UNICITY_BR_SALT"), bytes (H cfg.raw).val, uint n]

/-- `w[32 - b.len()..].copy_from_slice(b)`. -/
def word (b : Bytes) : Res Error Bytes32 := Res.unwrap (Fixed.padLeft? 32 b)

def derive (cfg : Cfg) (n : Nat) (amt : Bytes) (p : Item) : Res Error Outcome := do
  Res.refuse (n = 0) .lockInput
  let (typ, params) ← predicate p
  Res.refuse (typ ≠ 1) .predicate
  let _ ← key K params
  let ch := H cfg.raw
  let salt := saltOf H cfg n
  let id := hashArray H [bytes salt.val, uint cfg.network]
  let first := H p.raw
  let k := array [bytes zero20, bytes cfg.ty, bytes cfg.aid, bytes amt, bytes id.val, bytes first.val]
  let d := hashArray H [bytes (ascii "UNICITY_BR_LOCK"), bytes ch.val, uint n, k]
  Res.refuse (d = .zero 32) .zeroDigest
  let amount ← word amt
  return { Outcome.default with
    cfg := ch, nonce := n, amount, tokenId := id, salt, firstPredicateHash := first, lockDigest := d }

/-! ## The mint -/

def proofBlob (it : Item) (max : Nat) : Res Error Bytes := do
  let b ← (it.blob max).mapErr fun e =>
    if e = .proofTooLarge then .lockProofTooLarge else .lockProofShape
  Res.refuse (b = []) .lockProofShape
  return b

/-- The node blobs of one trie proof, added to the running total. -/
def trieTotal : List Item → Nat → Res Error Nat
  | [], total => .ok total
  | node :: rest, total => do
    let b ← proofBlob node 1024
    let total ← Res.u64 (total + b.length)
    trieTotal rest total

def trieProof (trie : Item) (total : Nat) : Res Error Nat := do
  let count ← (trie.count 65).mapErr fun e =>
    if e = .tooManyTx then .lockProofTooLarge else .lockProofShape
  Res.refuse (count = 0) .lockProofShape
  let nodes ← trie.children
  trieTotal nodes total

/-- The lock reason's own fields; its nonce. -/
def lockFields (cfg : Cfg) (j : FieldList Item 6) : Res Error Nat := do
  let chain ← j[1].uint u64Max
  Res.refuse (chain ≠ cfg.chain) .mintJustif
  let vault ← j[2].bytes 20
  Res.refuse (vault ≠ cfg.vault) .mintJustif
  let asset ← j[3].bytes 20
  Res.refuse (asset ≠ zero20) .mintJustif
  let n ← j[4].uint u64Max
  Res.refuse (n = 0) .mintJustif
  return n

/-- The lock proof carried by the reason: parsed, bounded and bound to the configuration. -/
def lockProof (cfg : Cfg) (it : Item) : Res Error Unit := do
  let p ← (it.array 8).mapErr fun _ => .lockProofShape
  let version ← (p[0].uint u64Max).mapErr fun _ => .lockProofShape
  Res.refuse (version ≠ 1) .lockProofShape
  let cfgHash ← (p[1].bytes 32).mapErr fun _ => .lockProofShape
  Res.refuse (cfgHash ≠ (H cfg.raw).val) .lockProofCfg
  let _ ← (p[2].bytes 32).mapErr fun _ => .lockProofShape
  let _ ← proofBlob p[3] 16384
  let _ ← proofBlob p[4] 16384
  let _ ← proofBlob p[5] 2048
  let total ← trieProof p[6] 0
  let total ← trieProof p[7] total
  Res.refuse (total > 24576) .lockProofTooLarge

/-- The nonce of a lock reason. -/
def justification (cfg : Cfg) (b : Bytes) (items : Items) : Res Error Nat := do
  Res.refuse (b.length > 65536) .justificationTooLarge
  let j ← ((Cbor.one b items) >>= fun it => it.tagged 6 39049 2).mapErr fun _ => .mintJustif
  let n ← (lockFields cfg j).mapErr fun _ => .mintJustif
  lockProof H cfg j[5]
  return n

/-- The amount of the mint data. -/
def mintData (cfg : Cfg) (b : Bytes) (items : Items) : Res Error Bytes :=
  Res.mapErr (fun _ => .mintData) do
    let it ← Cbor.one b items
    let d ← it.tagged 3 39050 1
    let list ← d[1].array 1
    let a ← list[0].array 2
    let aid ← a[0].bytes 32
    Res.refuse (aid ≠ cfg.aid ∨ d[2].null = false) .mintData
    amount a[1]

/-- The wire fields of a mint transaction. -/
structure Mint where
  fields : FieldList Item 8
  justification : Option Bytes
  data : Option Bytes
  deadline : Option Nat

/-- A byte string or null. -/
def nullable (it : Item) : Res Error (Option Bytes) :=
  if it.null then .ok none else do
    let b ← it.blob usizeMax
    return some b

def predStrict (it : Item) : Res Error Unit := do
  let (typ, params) ← predicate it
  if typ = 1 then
    let _ ← key K params
    return ()
  else return ()

def decodeMint (it : Item) : Res Error Mint := do
  let m ← it.tagged 8 39041 2
  let _ ← network m[1]
  predStrict K m[2]
  let _ ← m[3].bytes 32
  let _ ← m[4].bytes 32
  let justification ← nullable m[5]
  let data ← nullable m[6]
  let deadline ← deadline m[7]
  return { fields := m, justification, data, deadline }

/-- The lock nonce of a root, with its derived salt checked. -/
def rootNonce (cfg : Cfg) (m : Mint) (items : Items) : Res Error Nat := do
  let j ← Res.okOr .mintJustif m.justification
  let n ← justification H cfg j items
  Res.refuse (m.fields[3].data ≠ (saltOf H cfg n).val) .mintSalt
  return n

def mintNonce (cfg : Cfg) (m : Mint) (root : Bool) (items : Items) : Res Error (Option Nat) :=
  if root then do
    let n ← rootNonce H cfg m items
    return some n
  else .ok none

/-- The mint checks: the lock nonce of a root and the mint amount. -/
def verifyMint (cfg : Cfg) (m : Mint) (root : Bool) (items : Items) :
    Res Error (Option Nat × Bytes) := do
  Res.refuse (m.fields[1].arg ≠ cfg.network) .mintShape
  let (typ, _) ← predicate m.fields[2]
  Res.refuse (typ ≠ 1) .mintShape
  Res.refuse (m.fields[4].data ≠ cfg.ty) .mintType
  let nonce ← mintNonce H cfg m root items
  let data ← Res.okOr .mintData m.data
  let amt ← mintData cfg data items
  return (nonce, amt)

/-! ## Transitions -/

structure Tx where
  raw : Bytes
  pred : Item
  mask : Bytes
  data : Option Bytes
  e : Option Nat

/-- Certification data of one transition. -/
structure Cd where
  pred : Item
  source : Bytes
  tx : Bytes
  e : Option Nat
  unlock : Bytes

def cd (it : Item) : Res Error Cd := do
  let a ← it.tagged 6 39031 2
  let _ ← predicate a[1]
  let source ← a[2].bytes 32
  let tx ← a[3].bytes 32
  let e ← deadline a[4]
  let unlock ← a[5].blob 65
  return { pred := a[1], source, tx, e, unlock }

def transfer (it : Item) : Res Error Tx := do
  let a ← it.tagged 5 39045 2
  let _ ← predicate a[1]
  let mask ← a[2].bytes 32
  let data ← nullable a[3]
  let e ← deadline a[4]
  return { raw := it.raw, pred := a[1], mask, data, e }

def cdStrict (it : Item) : Res Error Cd := do
  let c ← cd it
  predStrict K c.pred
  return c

def transferStrict (it : Item) : Res Error Tx := do
  let t ← transfer it
  predStrict K t.pred
  return t

/-- The unlocking signature: a canonical recoverable signature of the transition by `k`. -/
def unlock (k : K.VerifyingKey) (source tx u : Bytes) : Res Error Unit := do
  Res.refuse (u.length ≠ 65) .unlockLength
  let sig ← Res.okOr .unlockScalars (K.fromSlice (u.take 64))
  Res.refuse (K.highS sig = true) .unlockScalars
  let last ← Res.index u 64
  let rid ← Res.okOr .unlockRecovery (recoveryId last)
  let msg := hashArray H [bytes source, bytes tx]
  let recovered ← Res.okOr .unlockKey (K.recoverFromPrehash msg sig rid)
  Res.refuse (recovered ≠ k) .unlockKey
  Res.refuse (K.verifyPrehash k msg sig = false) .unlock

def insertSid (seen : List Bytes32) (sid : Bytes32) : Res Error (List Bytes32) := do
  Res.refuse (sid ∈ seen) .repeatedSid
  return sid :: seen

/-- The state ID of an owner predicate at a source state. -/
def sidOf (pred : Bytes) (source : Bytes32) : Bytes32 := hashArray H [pred, bytes source.val]

/-- One certified transition: its leaf and the state IDs seen after it. -/
def step (pred : Bytes) (source : Bytes32) (raw : Bytes) (e : Option Nat) (cd : Cd) (t : Nat)
    (k : K.VerifyingKey) (seen : List Bytes32) : Res Error (Leaf × List Bytes32) := do
  let th := H raw
  Res.refuse (cd.pred.raw ≠ pred ∨ cd.source ≠ source.val ∨ cd.tx ≠ th.val) .cdMismatch
  Res.refuse (cd.e ≠ e) .deadlineMismatch
  unlock H K k source.val th.val cd.unlock
  Res.refuse (e.any (fun e => t ≥ e) = true) .deadlineExpired
  let sid := sidOf H pred source
  let seen ← insertSid seen sid
  return ({ sid, txHash := th, referenceTime := t, value := hashArray H [bytes th.val, uint t] }, seen)

def outputState (source : Bytes32) (mask : Bytes) : Bytes32 :=
  hashArray H [bytes (0 :: 0 :: source.val), bytes mask]

/-- The return data of a terminal burn: the recipient. -/
def burnInner (cfg : Cfg) (amt : Bytes32) (tx : Tx) (items : Items) : Res Error (Fixed 20) := do
  let (typ, params) ← predicate tx.pred
  Res.refuse (typ ≠ 2) .notBurn
  let data ← Res.okOr .returnData tx.data
  let it ← Cbor.one data items
  let r ← it.tagged 11 39048 1
  let chain ← r[1].uint u64Max
  Res.refuse (chain ≠ cfg.chain) .returnData
  let vault ← r[2].bytes 20
  Res.refuse (vault ≠ cfg.vault) .returnData
  let asset ← r[3].bytes 20
  Res.refuse (asset ≠ zero20) .returnData
  let ty ← r[4].bytes 32
  Res.refuse (ty ≠ cfg.ty) .returnData
  let aid ← r[5].bytes 32
  Res.refuse (aid ≠ cfg.aid) .returnData
  let recipient ← r[6].bytes 20
  let a ← (amount r[7]).mapErr fun _ => .returnAmount
  let aw ← word a
  Res.refuse (aw ≠ amt) .returnAmount
  let feeTo ← r[8].bytes 20
  Res.refuse (feeTo ≠ zero20) .returnData
  let feeData ← r[9].bytes 0
  Res.refuse (feeData ≠ []) .returnData
  let fee ← r[10].uint u64Max
  Res.refuse (fee ≠ 0) .returnData
  Res.refuse (recipient = zero20 ∨ recipient = cfg.vault) .returnRecip
  Res.refuse (params ≠ (H data).val) .burnReason
  Res.unwrap (Fixed.ofBytes? 20 recipient)

def burn (cfg : Cfg) (amt : Bytes32) (tx : Tx) (items : Items) : Res Error (Fixed 20) :=
  (burnInner H cfg amt tx items).mapErr fun e => if e.isInvalid then e else .returnData

/-! ## Evaluation of one history -/

/-- One decoded transfer: transaction, certification and reference time. -/
structure Transfer where
  tx : Tx
  cert : Cd
  t : Nat

def decodeTuple (tuple : Item) : Res Error Transfer := do
  let a ← tuple.array 3
  let tx ← transferStrict K a[0]
  let cert ← cdStrict K a[1]
  let t ← a[2].uint u64Max
  return { tx, cert, t }

/-- The minter's key of a token. -/
def minterKey (id : Bytes32) : Res Error K.VerifyingKey :=
  Res.okOr .minterKey (K.verifyingKey
    (hashArray H [bytes (ascii "I_AM_UNIVERSAL_MINTER_FOR_"), bytes id.val]))

/-- The source state of a token's mint. -/
def mintSource (id : Bytes32) : Bytes32 :=
  hashArray H [bytes id.val, bytes (H (ascii "TOKENID")).val]

/-- The leaf of a mint. -/
def mintLeaf (id : Bytes32) (raw : Bytes) (e : Option Nat) (cd0 : Cd) (t0 : Nat)
    (seen : List Bytes32) : Res Error (Leaf × List Bytes32) := do
  let mk ← minterKey H K id
  step H K (signaturePred K mk) (mintSource H id) raw e cd0 t0 mk seen

/-- The leaf of a transfer by the current owner. -/
def spend (owner : Item) (state : Bytes32) (tr : Transfer) (seen : List Bytes32) :
    Res Error (Leaf × List Bytes32) := do
  let (_, params) ← predicate owner
  let k ← key K params
  step H K owner.raw state tr.tx.raw tr.tx.e tr.cert tr.t k seen

/-- A transfer that is not the last: to a key, without data. -/
def interior (tx : Tx) : Res Error Unit := do
  let (typ, p) ← predicate tx.pred
  Res.refuse (typ ≠ 1) .burnNotFinal
  let _ ← key K p
  Res.refuse (tx.data.isSome = true) .transferData

/-- The nullifier of a terminal burn. -/
def nullifierOf (cfgHash : Bytes32) (leaf : Leaf) : Bytes32 :=
  let btid := hashArray H
    [bytes (ascii "unicity-burn-transition:v1"), bytes leaf.sid.val, bytes leaf.txHash.val]
  hashArray H [bytes (ascii "UNICITY_BR_NUL"), bytes cfgHash.val, bytes btid.val]

/-- The terminal transfer of a redemption. -/
def terminal (cfg : Cfg) (items : Items) (out : Outcome) (leaf : Leaf) (tx : Tx) :
    Res Error Outcome := do
  let releaseTo ← burn H cfg out.amount tx items
  let nullifier := nullifierOf H out.cfg leaf
  Res.refuse (nullifier = .zero 32) .zeroDigest
  return { out with releaseTo, nullifier }

/-- The transfers in order; the last one is the return burn. -/
def evaluateTransfers (cfg : Cfg) (items : Items) :
    List Transfer → Item → Bytes32 → List Bytes32 → Outcome → Res Error Outcome
  | [], _, _, _, out => .ok out
  | tr :: rest, owner, state, seen, out => do
    let (leaf, seen) ← spend H K owner state tr seen
    let out ← (if rest = [] then terminal H cfg items out leaf tr.tx
      else do interior K tr.tx; return out)
    evaluateTransfers cfg items rest tr.tx.pred (outputState H state tr.tx.mask) seen
      { out with leaves := out.leaves ++ [leaf] }

/-- A history decoded in document order, before any of it is verified. -/
structure History where
  count : Nat
  mintItem : Item
  mint : Mint
  cd0 : Cd
  t0 : Nat
  transfers : List Transfer

def decodeFields (payload : Item) (maxTransfers : Nat) : Res Error History := do
  let h ← payload.array 2
  let g ← h[0].array 3
  let count ← h[1].count maxTransfers
  let mint ← decodeMint K g[0]
  let cd0 ← cdStrict K g[1]
  let t0 ← g[2].uint u64Max
  let tuples ← h[1].children
  let transfers ← Res.collect (decodeTuple K) tuples
  return { count, mintItem := g[0], mint, cd0, t0, transfers }

def evaluate (op : Nat) (cfgItem payload : Item) (maxTransfers : Nat) (items : Items) :
    Res Error Outcome := do
  let cfg ← Cfg.parse H cfgItem
  if op = 0 then do
    let a ← payload.array 3
    let n ← a[0].uint u64Max
    let amt ← amount a[1]
    derive H K cfg n amt a[2]
  else do
    let h ← decodeFields K payload maxTransfers
    Res.refuse (op = 1 ∧ h.count ≠ 0) .hasTransfers
    Res.refuse (op = 2 ∧ h.count = 0) .noTransfers
    let (n, amt) ← verifyMint H cfg h.mint true items
    let n ← Res.unwrap n
    let out ← derive H K cfg n amt h.mint.fields[2]
    let (leaf, seen) ← mintLeaf H K out.tokenId h.mintItem.raw h.mint.deadline h.cd0 h.t0 []
    evaluateTransfers H K cfg items h.transfers h.mint.fields[2]
      (outputState H (mintSource H out.tokenId) out.tokenId.val) seen
      { out with leaves := [leaf] }

end Semantics

end Ureth.Source.B2
