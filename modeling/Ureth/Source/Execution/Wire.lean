import Ureth.Foundation.Cursor
import Ureth.Foundation.Utf8

/-!
# The root input and its canonical codec

`RootInputV2` with its encoder, its profile check `originClass`, and the
deterministic CBOR decoder of the execution crate. Encoder and decoder are
translated separately, as the source has them. The encoder's `out` argument is
the returned byte string; a `usize` is a 64-bit number, so `usize::try_from` of a
length never fails. SHA-256 is the parameter `H`.
-/

namespace Ureth.Source.Execution
open Ureth.Foundation

structure InputRecordV2 where
  round : UInt64
  epoch : UInt64
  previousHash : Option Bytes32
  stateHash : Option Bytes32
  timestamp : UInt64
  blockHash : Option Bytes32
  deriving DecidableEq

structure RootOriginV2 where
  networkId : UInt64
  rootRound : UInt64
  rootEpoch : UInt64
  referenceTime : UInt64
  treeRoot : Bytes32
  inputRecordVersion : UInt64
  inputRecord : InputRecordV2
  trHash : Bytes32
  shardConfHash : Bytes32
  deriving DecidableEq

structure TechnicalRecordV2 where
  round : UInt64
  epoch : UInt64
  leader : Text
  statHash : Bytes32
  feeHash : Bytes32
  deriving DecidableEq

structure RootInputV2 where
  version : UInt64
  networkId : UInt64
  partitionId : UInt64
  shardId : ByteVec
  authorizedRound : UInt64
  certifiedEpoch : UInt64
  authorizedEpoch : UInt64
  parentHash : Bytes32
  origin : RootOriginV2
  technical : TechnicalRecordV2
  transitions : List ByteVec
  b1UpdateHash : Bytes32
  rootRecordsHash : Bytes32
  deriving DecidableEq

structure EpochTransition where
  oldRootEpoch : UInt64
  newRootEpoch : UInt64
  oldShardEpoch : UInt64
  newShardEpoch : UInt64
  oldActiveConfHash : Bytes32
  newActiveConfHash : Bytes32
  supersessionSpan : UInt64
  supersessionCommitment : Bytes32
  bodyId : Bytes32
  genesisId : Bytes32
  frozenId : Bytes32
  commitId : Bytes32
  frozenParent : Bytes32
  successorTr : Bytes32
  evmRound : UInt64
  deriving DecidableEq

inductive OriginClass where
  | bootstrap
  | firstCertified
  | ordinary
  deriving DecidableEq, Repr

/-- The refusals of input validation. -/
inductive ExecutionError where
  | invalidInput (reason : String)
  deriving DecidableEq, Repr

inductive CanonicalCborError where
  | unexpectedEof
  | trailingBytes
  | indefiniteLength
  | reservedAdditionalInfo (info : Nat)
  | nonMinimalLength
  | unexpectedItem (major : Nat) (expected : String)
  | wrongArity (expected found : Nat)
  | wrongByteStringLength (expected found : Nat)
  | lengthOutOfRange
  | invalidUtf8
  | tooLarge (what : String) (len limit : Nat)
  | invalidRootInput (reason : String)
  deriving DecidableEq, Repr

def maxEpochTransitionBytes : Nat := 16 * 1024
def maxSupersessionSpan : UInt64 := 2
def maxRootTransitions : Nat := 1
def maxRootInputBytes : Nat := 32 * 1024
def maxShardIdBytes : Nat := 32
def maxLeaderBytes : Nat := 256

/-! ## The encoder -/

def major (kind : UInt8) (value : UInt64) : Bytes :=
  if value.toNat ≤ 23 then [(kind <<< 5) ||| value.toUInt8]
  else if value.toNat ≤ 0xff then [(kind <<< 5) ||| 24, value.toUInt8]
  else if value.toNat ≤ 0xffff then ((kind <<< 5) ||| 25) :: beBytes 2 value.toNat
  else if value.toNat ≤ 0xffffffff then ((kind <<< 5) ||| 26) :: beBytes 4 value.toNat
  else ((kind <<< 5) ||| 27) :: beBytes 8 value.toNat

def uint (value : UInt64) : Bytes := major 0 value

def text (value : Bytes) : Bytes := major 3 (.ofNat value.length) ++ value

def bytes (value : Bytes) : Bytes := major 2 (.ofNat value.length) ++ value

def array (len : UInt64) : Bytes := major 4 len

def nullableWord : Option Bytes32 → Bytes
  | some word => bytes word.val
  | none => [0xf6]

def encodeTechnical (record : TechnicalRecordV2) : Bytes :=
  array 5 ++ uint record.round ++ uint record.epoch ++ text record.leader.val ++
    bytes record.statHash.val ++ bytes record.feeHash.val

def encodeInputRecord (ir : InputRecordV2) : Bytes :=
  array 6 ++ uint ir.round ++ uint ir.epoch ++ nullableWord ir.previousHash ++
    nullableWord ir.stateHash ++ uint ir.timestamp ++ nullableWord ir.blockHash

/-- The record version is not part of the encoding. -/
def encodeOrigin (origin : RootOriginV2) : Bytes :=
  array 8 ++ uint origin.networkId ++ uint origin.rootRound ++ uint origin.rootEpoch ++
    uint origin.referenceTime ++ bytes origin.treeRoot.val ++ encodeInputRecord origin.inputRecord ++
    bytes origin.trHash.val ++ bytes origin.shardConfHash.val

/-- The canonical array of transition bodies. -/
def encodeTransitions (transitions : List ByteVec) : Bytes :=
  array (.ofNat transitions.length) ++ transitions.flatMap fun t => bytes t.val

/-- The thirteen fields in their fixed order, without the check that precedes them. -/
def RootInputV2.encode (root : RootInputV2) : Bytes :=
  array 13 ++ uint root.version ++ uint root.networkId ++ uint root.partitionId ++
    bytes root.shardId.val ++ uint root.authorizedRound ++ uint root.certifiedEpoch ++
    uint root.authorizedEpoch ++ bytes root.parentHash.val ++ encodeOrigin root.origin ++
    encodeTechnical root.technical ++ encodeTransitions root.transitions ++
    bytes root.b1UpdateHash.val ++ bytes root.rootRecordsHash.val

/-! ## The decoder -/

abbrev Decode (α : Type) := Run Cursor CanonicalCborError α

namespace Decoder

def take (length : Nat) : Decode ByteVec := Cursor.take .lengthOutOfRange .unexpectedEof length

def readU8 : Decode UInt8 := do
  let slice ← take 1
  Run.lift (Res.index slice.val 0)

def peek : Decode UInt8 := fun c => (Res.okOr .unexpectedEof c.rest.head?, c)

def finish : Decode Unit := Cursor.finish .trailingBytes

/-- The argument in the `width` bytes after the initial one, at least `least`. -/
def wideArgument (width least : Nat) : Decode UInt64 := do
  let slice ← take width
  let value := beNat slice.val
  Run.refuse (value < least) .nonMinimalLength
  return .ofNat value

/-- The argument that the additional information of an initial byte announces. -/
def readArgument (info : Nat) : Decode UInt64 :=
  if info ≤ 23 then pure (.ofNat info)
  else if info = 24 then wideArgument 1 24
  else if info = 25 then wideArgument 2 (0xff + 1)
  else if info = 26 then wideArgument 4 (0xffff + 1)
  else if info = 27 then wideArgument 8 (0xffffffff + 1)
  else if info = 31 then Run.fail .indefiniteLength
  else Run.fail (.reservedAdditionalInfo info)

/-- One item head, with the shortest argument only. -/
def readHead : Decode (Nat × UInt64) := do
  let initial ← readU8
  let argument ← readArgument (initial.toNat % 32)
  return (initial.toNat / 32, argument)

/-- The argument of a head of major type `kind`. -/
def readKind (kind : Nat) (expected : String) : Decode UInt64 := do
  let (major, argument) ← readHead
  Run.refuse (major ≠ kind) (.unexpectedItem major expected)
  return argument

def readUint : Decode UInt64 := readKind 0 "unsigned integer"

def readBytes : Decode ByteVec := do
  let length ← readKind 2 "byte string"
  take length.toNat

def readBoundedBytes (what : String) (limit : Nat) : Decode ByteVec := do
  let length ← readKind 2 "byte string"
  Run.refuse (limit < length.toNat) (.tooLarge what length.toNat limit)
  take length.toNat

/-- `std::str::from_utf8`. -/
def fromUtf8 (slice : ByteVec) : Res CanonicalCborError Text :=
  if h : validUtf8 slice.val = true then .ok (Text.ofVec slice h)
  else Res.fail .invalidUtf8

def readText : Decode Text := do
  let length ← readKind 3 "text string"
  let slice ← take length.toNat
  Run.lift (fromUtf8 slice)

def readBoundedText (what : String) (limit : Nat) : Decode Text := do
  let length ← readKind 3 "text string"
  Run.refuse (limit < length.toNat) (.tooLarge what length.toNat limit)
  let slice ← take length.toNat
  Run.lift (fromUtf8 slice)

def readArray : Decode Nat := do
  let length ← readKind 4 "array"
  return length.toNat

def readWord : Decode Bytes32 := do
  let slice ← readBytes
  Run.lift (Res.okOr (.wrongByteStringLength 32 slice.val.length) (Fixed.ofBytes? 32 slice.val))

def readNullableWord : Decode (Option Bytes32) := do
  if (← peek) = 0xf6 then
    let _ ← take 1
    return none
  return some (← readWord)

/-- One value and nothing after it. -/
def whole {α : Type} (read : Decode α) : Decode α := Cursor.whole .trailingBytes read

/-- An array head of exactly `expected` items. -/
def readArity (expected : Nat) : Decode Unit := do
  let arity ← readArray
  Run.refuse (arity ≠ expected) (.wrongArity expected arity)

end Decoder

open Decoder

def decodeByteStringArray : Decode (List ByteVec) := do
  let length ← readArray
  Run.refuse (maxRootTransitions < length)
    (.tooLarge "transition count" length maxRootTransitions)
  Cursor.repeatRead (readBoundedBytes "transition" maxEpochTransitionBytes) length

def decodeTechnical : Decode TechnicalRecordV2 := do
  readArity 5
  let round ← readUint
  let epoch ← readUint
  let leader ← readBoundedText "leader" maxLeaderBytes
  let statHash ← readWord
  let feeHash ← readWord
  return { round, epoch, leader, statHash, feeHash }

def decodeInputRecord : Decode InputRecordV2 := do
  readArity 6
  let round ← readUint
  let epoch ← readUint
  let previousHash ← readNullableWord
  let stateHash ← readNullableWord
  let timestamp ← readUint
  let blockHash ← readNullableWord
  return { round, epoch, previousHash, stateHash, timestamp, blockHash }

def decodeOrigin : Decode RootOriginV2 := do
  readArity 8
  let networkId ← readUint
  let rootRound ← readUint
  let rootEpoch ← readUint
  let referenceTime ← readUint
  let treeRoot ← readWord
  let inputRecord ← decodeInputRecord
  let trHash ← readWord
  let shardConfHash ← readWord
  return { networkId, rootRound, rootEpoch, referenceTime, treeRoot, inputRecordVersion := 1,
           inputRecord, trHash, shardConfHash }

def decodeRootInput : Decode RootInputV2 := do
  readArity 13
  let version ← readUint
  let networkId ← readUint
  let partitionId ← readUint
  let shardId ← readBoundedBytes "shard id" maxShardIdBytes
  let authorizedRound ← readUint
  let certifiedEpoch ← readUint
  let authorizedEpoch ← readUint
  let parentHash ← readWord
  let origin ← decodeOrigin
  let technical ← decodeTechnical
  let transitions ← decodeByteStringArray
  let b1UpdateHash ← readWord
  let rootRecordsHash ← readWord
  return { version, networkId, partitionId, shardId, authorizedRound, certifiedEpoch,
           authorizedEpoch, parentHash, origin, technical, transitions, b1UpdateHash,
           rootRecordsHash }

/-- The domain text and version that open a record; the version is read only after
the right domain. -/
def readDomain (domain : String) (version : UInt64) (reason : String) : Decode Unit := do
  let found ← readText
  Run.refuse (found.val ≠ ascii domain) (.invalidRootInput reason)
  let v ← readUint
  Run.refuse (v ≠ version) (.invalidRootInput reason)

/-- The eleven items after the domain of a transition, and the acknowledgement in the last. -/
structure TransitionBody where
  oldRootEpoch : UInt64
  newRootEpoch : UInt64
  oldShardEpoch : UInt64
  newShardEpoch : UInt64
  oldActiveConfHash : Bytes32
  newActiveConfHash : Bytes32
  supersessionSpan : UInt64
  supersessionCommitment : Bytes32
  bodyId : Bytes32
  genesisId : Bytes32
  ackBytes : ByteVec
  deriving DecidableEq

structure Ack where
  frozenId : Bytes32
  commitId : Bytes32
  frozenParent : Bytes32
  successorParent : Bytes32
  successorTr : Bytes32
  evmRound : UInt64
  deriving DecidableEq

def decodeTransitionBody : Decode TransitionBody := do
  readArity 13
  readDomain "UNICITY_HANDOFF_EVM_TRANSITION" 3 "invalid epoch transition domain or version"
  let oldRootEpoch ← readUint
  let newRootEpoch ← readUint
  let oldShardEpoch ← readUint
  let newShardEpoch ← readUint
  let oldActiveConfHash ← readWord
  let newActiveConfHash ← readWord
  let supersessionSpan ← readUint
  let supersessionCommitment ← readWord
  let bodyId ← readWord
  let genesisId ← readWord
  let ackBytes ← readBytes
  return { oldRootEpoch, newRootEpoch, oldShardEpoch, newShardEpoch, oldActiveConfHash,
           newActiveConfHash, supersessionSpan, supersessionCommitment, bodyId, genesisId, ackBytes }

def decodeAck : Decode Ack := do
  readArity 8
  readDomain "UNICITY_HANDOFF_ACK" 2 "invalid acknowledgement domain or version"
  let frozenId ← readWord
  let commitId ← readWord
  let frozenParent ← readWord
  let successorParent ← readWord
  let successorTr ← readWord
  let evmRound ← readUint
  return { frozenId, commitId, frozenParent, successorParent, successorTr, evmRound }

/-- `checked_sub` of two epochs. -/
def epochDelta (new old : UInt64) : Option UInt64 := if old ≤ new then some (new - old) else none

/-- The relation between the two epoch steps, the configurations and the folded span. -/
def TransitionBody.spanOk (body : TransitionBody) : Bool :=
  let shardDelta := epochDelta body.newShardEpoch body.oldShardEpoch
  let assignmentChanged := body.newShardEpoch ≠ body.oldShardEpoch ∨
    body.newActiveConfHash ≠ body.oldActiveConfHash
  match epochDelta body.newRootEpoch body.oldRootEpoch with
  | none => false
  | some delta =>
    if delta = 1 ∧ ¬ assignmentChanged then
      shardDelta = some 0 ∧ body.supersessionSpan = 0 ∧
        body.supersessionCommitment = Fixed.zero 32
    else if delta = 1 then
      shardDelta = some 1 ∧ body.newActiveConfHash ≠ body.oldActiveConfHash ∧
        body.supersessionSpan = 0 ∧ body.supersessionCommitment = Fixed.zero 32
    else if delta > 1 then
      shardDelta = some delta ∧ body.newActiveConfHash ≠ body.oldActiveConfHash ∧
        body.supersessionSpan = delta ∧ body.supersessionCommitment ≠ Fixed.zero 32
    else false

def decodeEpochTransition (input : ByteVec) : Res CanonicalCborError EpochTransition := do
  Res.refuse (maxEpochTransitionBytes < input.val.length)
    (.invalidRootInput "epoch transition exceeds size limit")
  let body ← (whole decodeTransitionBody (Cursor.ofVec input)).1
  let ack ← (whole decodeAck (Cursor.ofVec body.ackBytes)).1
  let rootDelta := epochDelta body.newRootEpoch body.oldRootEpoch
  Res.refuse (∃ delta ∈ rootDelta, delta > maxSupersessionSpan)
    (.invalidRootInput "supersession span exceeds bound")
  Res.refuse (body.spanOk = false ∨ body.oldActiveConfHash = Fixed.zero 32 ∨
      body.newActiveConfHash = Fixed.zero 32 ∨
      Fixed.zero 32 ∈ [body.bodyId, body.genesisId, ack.frozenId, ack.commitId, ack.frozenParent,
        ack.successorTr] ∨
      ack.frozenParent ≠ ack.successorParent ∨ ack.evmRound = 0)
    (.invalidRootInput "invalid epoch transition fields")
  return { oldRootEpoch := body.oldRootEpoch
           newRootEpoch := body.newRootEpoch
           oldShardEpoch := body.oldShardEpoch
           newShardEpoch := body.newShardEpoch
           oldActiveConfHash := body.oldActiveConfHash
           newActiveConfHash := body.newActiveConfHash
           supersessionSpan := body.supersessionSpan
           supersessionCommitment := body.supersessionCommitment
           bodyId := body.bodyId
           genesisId := body.genesisId
           frozenId := ack.frozenId
           commitId := ack.commitId
           frozenParent := ack.frozenParent
           successorTr := ack.successorTr
           evmRound := ack.evmRound }

/-! ## Validation and the two entry points -/

section Commitment

variable (H : Bytes → Bytes32)

def technicalRecordHash (record : TechnicalRecordV2) : Bytes32 := H (encodeTechnical record)

/-- The acknowledgement carried by a root input, or the quiet-epoch rule without one. -/
def RootInputV2.checkTransition (root : RootInputV2) : Res ExecutionError Unit :=
  match root.transitions.head? with
  | some raw => do
    let transition ← (decodeEpochTransition raw).mapErr
      fun _ => .invalidInput "invalid epoch transition encoding"
    Res.refuse (transition.evmRound ≠ root.authorizedRound ∨
        transition.newRootEpoch ≠ root.origin.rootEpoch ∨
        transition.frozenParent ≠ root.parentHash ∨
        root.certifiedEpoch ≠ transition.oldShardEpoch ∨
        root.authorizedEpoch ≠ transition.newShardEpoch ∨
        root.origin.inputRecord.epoch ≠ transition.oldShardEpoch ∨
        root.origin.shardConfHash ≠ transition.newActiveConfHash)
      (.invalidInput "epoch transition context mismatch")
  | none =>
    Res.refuse (root.certifiedEpoch ≠ root.authorizedEpoch)
      (.invalidInput "ordinary execution must use one certified and authorized shard epoch")

/-- The class of the nullable fields of the input record. -/
def InputRecordV2.shape (ir : InputRecordV2) : Res ExecutionError OriginClass :=
  match ir.previousHash, ir.stateHash, ir.blockHash with
  | none, none, none =>
    if ir.round = 0 ∧ ir.timestamp = 0 then
      if ir.epoch = 0 then .ok .bootstrap
      else Res.fail (.invalidInput "bootstrap input-record epoch must be zero")
    else Res.fail (.invalidInput "invalid v2 origin shape")
  | none, some _, some _ =>
    if ir.round > 0 then .ok .firstCertified
    else Res.fail (.invalidInput "invalid v2 origin shape")
  | some previous, some state, none =>
    if ir.round > 0 ∧ previous = state then .ok .ordinary
    else Res.fail (.invalidInput "invalid v2 origin shape")
  | some previous, some state, some _ =>
    if ir.round > 0 ∧ previous ≠ state then .ok .ordinary
    else Res.fail (.invalidInput "invalid v2 origin shape")
  | _, _, _ => Res.fail (.invalidInput "invalid v2 origin shape")

def RootInputV2.originClass (root : RootInputV2) : Res ExecutionError OriginClass := do
  Res.refuse (root.version ≠ 2) (.invalidInput "profile version must be 2")
  Res.refuse (root.b1UpdateHash = Fixed.zero 32) (.invalidInput "B1 update hash must be non-zero")
  Res.refuse (root.rootRecordsHash = Fixed.zero 32)
    (.invalidInput "root records hash must be non-zero")
  Res.refuse (root.origin.inputRecordVersion ≠ 1) (.invalidInput "input record version must be 1")
  Res.refuse (root.authorizedRound = 0 ∨ root.technical.round ≠ root.authorizedRound)
    (.invalidInput "authorized round must be positive and equal the technical-record round")
  Res.refuse (root.certifiedEpoch ≠ root.origin.inputRecord.epoch)
    (.invalidInput "certified epoch must match the authenticated input-record epoch")
  Res.refuse (root.technical.epoch ≠ root.authorizedEpoch)
    (.invalidInput "technical-record epoch must match the authorized epoch")
  Res.refuse (root.networkId ≠ root.origin.networkId) (.invalidInput "network identity mismatch")
  Res.refuse (1 < root.transitions.length)
    (.invalidInput "only one epoch transition is supported")
  root.checkTransition
  Res.refuse (technicalRecordHash H root.technical ≠ root.origin.trHash)
    (.invalidInput "technical record hash mismatch")
  root.origin.inputRecord.shape

def RootInputV2.canonicalCbor (root : RootInputV2) : Res ExecutionError Bytes := do
  let _ ← root.originClass H
  return root.encode

def RootInputV2.inputCommitment (root : RootInputV2) : Res ExecutionError Bytes32 := do
  let encoded ← root.canonicalCbor H
  return H encoded

def RootInputV2.originIdentity (root : RootInputV2) : Res ExecutionError Bytes32 := do
  let _ ← root.originClass H
  return H (encodeOrigin root.origin)

/-- A validation error in the decoder's terms. -/
def ExecutionError.asCbor : ExecutionError → CanonicalCborError
  | .invalidInput reason => .invalidRootInput reason

def RootInputV2.fromCanonicalCbor (input : Bytes) : Res CanonicalCborError RootInputV2 :=
  if h : maxRootInputBytes < input.length then
    Res.fail (.tooLarge "root input" input.length maxRootInputBytes)
  else do
    let decoder := Cursor.start input (lt_of_le_of_lt (Nat.le_of_not_lt h) (by decide))
    let value ← (whole decodeRootInput decoder).1
    let _ ← (value.originClass H).mapErr ExecutionError.asCbor
    return value

end Commitment

end Ureth.Source.Execution
