import Ureth.Source.B1.Rsmt
import Ureth.Source.B2.Lineage
import Ureth.Source.Bridge.Abi
import Ureth.Source.Bridge.Cfg

/-!
# The composition (`bridge/src/compose.rs`, `run` and `run_v2` of `bridge/src/lib.rs`)

The composed relation of one bridge redemption: framing and policy, the B2
kernel, the anchor table with its one batch verdict, the opened input records and
one membership per leaf. Every stage is paid before it runs; the first failure
decides the status.
-/

namespace Ureth.Source.Bridge
open Ureth.Foundation
open Ureth.Source.B1.Cbor (usizeMax maxItems)

/-! ## Scans the charges use -/

/-- An object's item heads under the native scan, zero if it does not scan. -/
def items {ε : Type} (b : Bytes) : Res ε Nat := do
  let scanned ← (B1.Cbor.oneLoose b 0 maxItems).attempt
  return scanned.elim 0 Prod.snd

/-- The history's native scan, without an item ceiling. -/
def historyScan {ε : Type} (history : Bytes) : Res ε (Option (B1.Cbor.Item × Nat)) :=
  (B1.Cbor.oneLoose history 0 usizeMax).attempt

def historyItems {ε : Type} (history : Bytes) : Res ε Nat := do
  let scanned ← historyScan history
  return scanned.elim 0 Prod.snd

/-- One plus the transfers of a history that scans as `[genesis, [tx...]]`. -/
def rootLeaves {ε : Type} (root : B1.Cbor.Item) : Res ε Nat := do
  match ← (root.array 2).attempt with
  | none => return 0
  | some a => if a[1].major ≠ 4 then return 0 else Res.u64 (1 + a[1].arg)

def historyLeaves {ε : Type} (history : Bytes) : Res ε Nat := do
  match ← historyScan history with
  | none => return 0
  | some (root, _) => rootLeaves root

/-! ## Policy and anchors -/

def policyDomain : Bytes := ascii "UNICITY_BR_AGG_PARTITION"

section Stages

variable (H : Bytes → Bytes32)

/-- Hash first, interpretation second. -/
def checkPolicy (cfg : Cfg) (env : Envelope) : Res Status Nat := do
  Res.refuse (env.policyBody.length > maxPolicyBytes) .inputTooLarge
  Res.refuse (H env.policyBody ≠ cfg.aggregatorPolicyHash) .policyHash
  let root ← orStatus (B2.Cbor.one env.policyBody .default)
  let k ← (root.array 3).mapErr fun _ => .shape
  Res.refuse (k[0].major ≠ 2 ∨ k[0].data ≠ policyDomain) .shape
  let version ← orStatus (k[1].uint usizeMax)
  Res.refuse (version ≠ 2) .version
  let partition ← orStatus (k[2].uint (2 ^ 32 - 1))
  Res.refuse (partition = 0) .intRange
  Res.refuse (partition = cfg.evmPartition) .policyPartition
  Res.refuse (env.anchors.length > maxAnchors) .tooManyPaths
  Res.refuse (env.anchors = []) .policyAnchors
  return partition

/-- The depth of a canonical native shard ID, if it is one. -/
def shardDepth {ε : Type} (shard : Bytes) : Res ε (Option Nat) :=
  match shard.getLast? with
  | none => .ok none
  | some last =>
    if last = 0 ∨ shard.length > 33 then .ok none
    else do
      let bits ← Res.sub (8 * shard.length) (B1.trailingZeros last)
      let d ← Res.sub bits 1
      return if d ≤ 256 then some d else none

/-- Whether two byte strings agree on the listed bits. -/
def sameBits {ε : Type} (a b : Bytes) : List Nat → Res ε Bool
  | [] => .ok true
  | i :: rest => do
    let x ← B1.bitAt a i
    let y ← B1.bitAt b i
    if x = y then sameBits a b rest else return false

def inShard {ε : Type} (shard : Bytes) (sid : Bytes32) : Res ε Bool := do
  match ← shardDepth shard with
  | none => return false
  | some d => sameBits shard sid.val (List.range d)

/-- The anchor table: canonical shards of the policy's partition, distinct by digest. -/
def checkTable (partition : Nat) : List Anchor → List Bytes32 → Res Status Unit
  | [], _ => .ok ()
  | a :: rest, digests => do
    let depth ← shardDepth a.shard
    Res.refuse (depth = none ∨ a.partition ≠ partition) .policyTuple
    Res.refuse (H a.uc ∈ digests) .policyAnchors
    checkTable partition rest (H a.uc :: digests)

/-- Each leaf's anchor, numbered by first use: `next` anchors are used so far. -/
def planLeaves (anchors : List Anchor) :
    List (B2.Leaf × LeafProof) → Nat → Res Status (List Nat × Nat)
  | [], next => .ok ([], next)
  | (leaf, p) :: rest, next => do
    Res.refuse (p.anchorIndex ≥ anchors.length) .policyLeafIndex
    Res.refuse (p.anchorIndex > next) .policyLeafIndex
    let anchor ← Res.index anchors p.anchorIndex
    let inside ← inShard anchor.shard leaf.sid
    Res.refuse (inside = false) .policyLeafIndex
    let (plan, last) ← planLeaves anchors rest (if p.anchorIndex = next then next + 1 else next)
    return (p.anchorIndex :: plan, last)

def planAnchors (partition : Nat) (env : Envelope) (outcome : B2.Outcome) : Res Status (List Nat) := do
  Res.refuse (env.leafProofs.length ≠ outcome.leaves.length) .policyLeafCount
  Res.refuse (env.anchors.length > maxAnchors) .tooManyPaths
  Res.refuse (env.anchors = [] ∨ env.anchors.length > outcome.leaves.length) .policyAnchors
  checkTable H partition env.anchors []
  let (plan, next) ← planLeaves env.anchors (outcome.leaves.zip env.leafProofs) 0
  Res.refuse (next ≠ env.anchors.length) .policyAnchors
  return plan

/-- The bridge's byte bounds, the certificate's shape, and its shard equal to the anchor's. -/
def scanAnchor (a : Anchor) : Res Status Unit := do
  Res.refuse (a.uc.length > maxAnchorUcBytes ∨ a.inputRecord.length > maxInputRecordBytes)
    .inputTooLarge
  (B1.certificateShape a.uc).mapErr fun _ => .anchorAuth
  let shard ← (B1.certificateShard a.uc).mapErr fun _ => .anchorAuth
  Res.refuse (shard ≠ a.shard) .anchorAuth

/-- One object of `bridge_j`: it scans natively within its item bound. -/
def scanNative (b : Bytes) (malformed : Status) : Res Status Unit := do
  let _ ← (B1.Cbor.oneLoose b 0 maxItems).mapErr fun e =>
    if e = .limit then .tooManyItems else malformed
  return ()

def bridgeJ (cfg : Bytes) (env : Envelope) : Res Status Unit := do
  scanNative cfg .shape
  scanNative env.policyBody .shape
  Res.each (fun a => do
    scanNative a.uc .anchorAuth
    scanNative a.inputRecord .irShape) env.anchors

/-- The bitmap's popcount equals the siblings, at most the per-leaf bound. -/
def leafPath (p : LeafProof) : Res Status Nat := do
  Res.refuse (popCount p.bitmap ≠ p.siblingCount) .pathBitmap
  Res.refuse (popCount p.bitmap > maxRsmtSiblings) .tooManyPaths
  return popCount p.bitmap

/-- One packed claim of the batch request. -/
def packedClaim (a : Anchor) : Bytes :=
  beBytes 4 a.partition ++ beBytes 2 a.shard.length ++ a.shard ++ a.shardConfHash ++
    a.expectedStateRoot ++ a.expectedIrHash ++ beBytes 4 a.uc.length ++ a.uc

/-- The `CERT_BATCH_V2` request of the anchor table, in table order. -/
def batchRequest (anchors : List Anchor) : Bytes :=
  [2, 0] ++ beBytes 2 anchors.length ++ anchors.flatMap packedClaim

/-- A hash of 32 bytes or null. -/
def irHash (it : B2.Cbor.Item) : Res B2.Error Unit :=
  if it.null then .ok () else do
    let _ ← it.bytes 32
    return ()

/-- The timestamp and state hash of an input record. -/
def irFields (record : Bytes) : Res B2.Error (Nat × Bytes) := do
  let root ← B2.Cbor.one record .default
  Res.refuse (root.major ≠ 6 ∨ root.arg ≠ 39002) .shape
  let inner ← B2.Cbor.one root.data .default
  let k ← inner.array 10
  let version ← k[0].uint usizeMax
  Res.refuse (version ≠ 1) .shape
  Res.each (fun v => do let _ ← v.uint usizeMax; return ()) [k[1], k[2], k[6], k[8]]
  Res.each irHash [k[3], k[7], k[9]]
  let state ← k[4].bytes 32
  (if k[5].null then .ok () else do
    let _ ← k[5].blob maxSummaryBytes
    return ())
  return (k[6].arg, state)

/-- The exact input record hashes to the anchor's expected hash and opens to its
expected state root; its timestamp. -/
def openAnchor (a : Anchor) : Res Status Nat := do
  Res.refuse (a.inputRecord = [] ∨ a.inputRecord.length > maxInputRecordBytes) .irShape
  Res.refuse ((H a.inputRecord).val ≠ a.expectedIrHash) .irOpening
  let (timestamp, state) ← (irFields a.inputRecord).mapErr fun _ => .irShape
  Res.refuse (state ≠ a.expectedStateRoot) .irState
  return timestamp

/-- The reference time of each leaf is at most its anchor's timestamp. -/
def checkTimes (times : List Nat) : List (B2.Leaf × Nat) → Res Status Unit
  | [] => .ok ()
  | (leaf, j) :: rest => do
    let time ← Res.index times j
    Res.refuse (leaf.referenceTime > time) .irTime
    checkTimes times rest

/-- `RSMT_MEMBER_V1`: header, root, key, value length, value, bitmap, siblings. -/
def memberInput (root : Bytes) (key value : Bytes32) (p : LeafProof) : Bytes :=
  [1, 0, 0, 1] ++ root ++ key.val ++ beBytes 4 32 ++ value.val ++ p.bitmap ++ p.siblings

/-- Whether the membership of a leaf's value under a state root verifies. -/
def memberValid {ε : Type} (root : Bytes) (leaf : B2.Leaf) (p : LeafProof) : Res ε Bool := do
  let out ← (B1.membership H (memberInput root leaf.sid leaf.value p) usizeMax :
    Res (B1.Error Empty) B1.Output).attempt
  return out.any B1.Output.verdict

end Stages

/-! ## The composition -/

/-- The state of one call: the meter and the oracle. -/
structure Composition (υ : Type) where
  meter : Meter
  oracle : υ

section Compose

variable {υ ε : Type} (V : Verdict υ ε) (H : Bytes → Bytes32) (K : K256)

def pay (gas : Nat) : Run (Composition υ) (Stop ε) Unit := fun c =>
  match c.meter.charge gas with
  | some meter => (.ok (), { c with meter })
  | none => (Res.fail (.halt .outOfGas), c)

/-- A charge computed on 64 bits. -/
def payFor (gas : Res (Stop ε) Nat) : Run (Composition υ) (Stop ε) Unit := do
  let gas ← Run.lift gas
  pay gas

/-- A stage that reads no state and fails with a status. -/
def stage {α : Type} (x : Res Status α) : Run (Composition υ) (Stop ε) α := Run.lift (x.mapErr .status)

/-- The charge the lineage relation is given. -/
def lineageCharge (gas : Nat) : Run (Composition υ) B2.Error Unit :=
  Run.mapErr (fun _ => .outOfGas) (pay (ε := ε) gas)

/-- How a failure of the lineage relation ends the call. -/
def lineageStop : B2.Error → Res (Stop ε) B2.Outcome
  | .outOfGas => Res.fail (.halt .outOfGas)
  | e => do
    let s ← statusOfB2 e
    Res.fail (.status s)

def lineageKernel (cfg history : Bytes) : Run (Composition υ) (Stop ε) B2.Outcome := fun c =>
  match B2.Lineage.relation H K (lineageCharge (ε := ε)) cfg history c with
  | (.ok out, c) => (.ok out, c)
  | (.error (.error e), c) => (lineageStop e, c)
  | (.error .panic, c) => (Res.panic, c)

/-- The B2 kernel of a call. -/
def kernel (lineage : Bool) (op : Nat) (cfg history : Bytes) :
    Run (Composition υ) (Stop ε) B2.Outcome :=
  if lineage = true ∧ op = 2 then lineageKernel H K cfg history
  else stage (orStatus (B2.relation H K op cfg history fun _ => .ok ()))

def itemGas (b : Bytes) : Res (Stop ε) Nat := do
  let n ← items b
  Res.u64 (Meter.perItem * n)

def historyGas (history : Bytes) : Res (Stop ε) Nat := do
  let n ← historyItems history
  let m ← historyLeaves history
  Res.u64 (Meter.perItem * n + Meter.perLeaf * m)

/-- The items of the anchors' certificates and input records. -/
def anchorItems : List Anchor → Res (Stop ε) Nat
  | [] => .ok 0
  | a :: rest => do
    let n ← items a.uc
    let m ← items a.inputRecord
    let more ← anchorItems rest
    Res.u64 (n + m + more)

def anchorGas (anchors : List Anchor) : Res (Stop ε) Nat := do
  let n ← anchorItems anchors
  Res.u64 (Meter.perItem * n)

/-- The one batch verdict of a call. -/
def askVerdict (request : Bytes) : Run (Composition υ) (Stop ε) Unit := fun c =>
  let (answer, oracle) := V.batch request c.oracle
  let c := { c with oracle }
  match answer with
  | .ok true => (.ok (), c)
  | .ok false => (Res.fail (.status .anchorAuth), c)
  | .error h => (Res.fail (.halt h), c)

/-- One membership per leaf, each paid by its steps. -/
def proveLeaves (anchors : List Anchor) :
    List (((B2.Leaf × Nat) × LeafProof) × Nat) → Run (Composition υ) (Stop ε) Unit
  | [] => pure ()
  | (((leaf, j), p), s) :: rest => do
    payFor (Res.u64 (Meter.perStep * s))
    let anchor ← Run.lift (Res.index anchors j)
    let valid ← Run.lift (memberValid H anchor.expectedStateRoot leaf p)
    Run.refuse (valid = false) (.status .leafProof)
    proveLeaves anchors rest

/-- The request's dimensions under the composed limits. -/
def requestDimensions (request : Bytes) : Res Status B1.Dimensions :=
  (B1.dimensionsWith request .composed).mapErr fun _ => .anchorAuth

/-- What the stages before the kernel establish. -/
structure Admitted where
  env : Envelope
  partition : Nat

/-- Framing, configuration and policy, up to the kernel's prepayment. -/
def admitCall (call : Call) : Run (Composition υ) (Stop ε) Admitted := do
  Run.refuse (call.op ≠ 1 ∧ call.op ≠ 2) (.status .badOperation)
  let cfg ← stage (Cfg.decode call.cfg)
  payFor (itemGas call.cfg)
  stage (Cfg.validate H call.cfg)
  let env ← stage (Abi.decodeEnvelope call.envelope)
  let partition ← stage (checkPolicy H cfg env)
  payFor (itemGas env.policyBody)
  payFor (historyGas env.history)
  return { env, partition }

/-- The anchor table of an outcome, up to and including its verdict: the plan and
the steps of each leaf. -/
def authenticate (call : Call) (adm : Admitted) (outcome : B2.Outcome) :
    Run (Composition υ) (Stop ε) (List Nat × List Nat) := do
  let plan ← stage (planAnchors H adm.partition adm.env outcome)
  stage (Res.each scanAnchor adm.env.anchors)
  stage (bridgeJ call.cfg adm.env)
  payFor (anchorGas adm.env.anchors)
  let dims ← stage (requestDimensions (batchRequest adm.env.anchors))
  payFor (Meter.batch dims)
  let steps ← stage (Res.collect leafPath adm.env.leafProofs)
  askVerdict V (batchRequest adm.env.anchors)
  return (plan, steps)

/-- The opened input records, the leaf times and the memberships. -/
def discharge (env : Envelope) (outcome : B2.Outcome) (plan steps : List Nat) :
    Run (Composition υ) (Stop ε) Unit := do
  let times ← stage (Res.collect (openAnchor H) env.anchors)
  stage (checkTimes times (outcome.leaves.zip plan))
  proveLeaves H env.anchors (((outcome.leaves.zip plan).zip env.leafProofs).zip steps)

def composeOutcome (call : Call) (lineage : Bool) : Run (Composition υ) (Stop ε) B2.Outcome := do
  let adm ← admitCall H call
  let outcome ← kernel H K lineage call.op call.cfg adm.env.history
  let (plan, steps) ← authenticate V H call adm outcome
  discharge H adm.env outcome plan steps
  return outcome

def compose (call : Call) : Run (Composition υ) (Stop ε) Fixed := do
  let o ← composeOutcome V H K call false
  return Fixed.of o

/-- `BRIDGE_COMPOSE_V2`: a return is verified as a lineage. -/
def composeV2 (call : Call) : Run (Composition υ) (Stop ε) FixedV2 := do
  let o ← composeOutcome V H K call true
  return FixedV2.of
    (if call.op = 1 then { o with partTokenId := o.tokenId, partAmount := o.amount } else o)

/-- The framing of a call around its composition. -/
def callWith {α : Type} (body : Call → Run (Composition υ) (Stop ε) α) (input : Bytes) :
    Run (Composition υ) (Stop ε) α := do
  pay (min usizeMax (Meter.base + min usizeMax (Meter.perByte * input.length)))
  Run.refuse (input.length > maxInputBytes) (.status .inputTooLarge)
  let call ← Run.lift ((Abi.decodeCall input).mapErr fun _ => .halt .malformed)
  body call

/-- The output of a call: a status is a success that carries no result. -/
def finish {α : Type} (encode : α → Nat → Bytes) (default : α) :
    Res (Stop ε) α × Composition υ → Res (Halt ε) Output × υ
  | (.ok f, c) => (.ok { gas := c.meter.used, bytes := encode f Status.ok.code, status := .ok }, c.oracle)
  | (.error (.error (.status s)), c) =>
    (.ok { gas := c.meter.used, bytes := encode default s.code, status := s }, c.oracle)
  | (.error (.error (.halt h)), c) => (Res.fail h, c.oracle)
  | (.error .panic, c) => (Res.panic, c.oracle)

/-- Evaluate one `BRIDGE_COMPOSE_V1` call with `gas` forwarded. -/
def run (input : Bytes) (gas : Nat) : Run υ (Halt ε) Output := fun v =>
  finish Fixed.encode .default (callWith (compose V H K) input ⟨⟨gas, 0⟩, v⟩)

/-- Evaluate one `BRIDGE_COMPOSE_V2` call with `gas` forwarded. -/
def runV2 (input : Bytes) (gas : Nat) : Run υ (Halt ε) Output := fun v =>
  finish FixedV2.encode .default (callWith (composeV2 V H K) input ⟨⟨gas, 0⟩, v⟩)

end Compose

end Ureth.Source.Bridge
