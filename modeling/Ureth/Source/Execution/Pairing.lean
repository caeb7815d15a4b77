import Ureth.Source.Execution.Wire
import Ureth.Source.Execution.Block

/-!
# The paired-execution binding

What the local Go verification vouches for, its canonical encoding, and the gate
that compares every field with what the node holds: its pins, the configured
genesis, the parent header, the decoded root input and the build job or block.
-/

namespace Ureth.Source.Execution
open Ureth.Foundation

def pairBindingDomain : String := "UNICITY_PAIR_BINDING"
def pairBindingVersion : UInt64 := 1
def pairJobDomain : String := "UNICITY_PAIR_JOB"
def maxPairBindingBytes : Nat := 512
def subjectBuild : UInt64 := 1
def subjectImport : UInt64 := 2

/-- The build job or block a binding is about; `ExpectedSubject` has the same shape. -/
inductive PairSubject where
  | build (attributesDigest : Bytes32)
  | imported (blockHash : Bytes32)
  deriving DecidableEq

namespace PairSubject

def kind : PairSubject → UInt64
  | .build _ => subjectBuild
  | .imported _ => subjectImport

def id : PairSubject → Bytes32
  | .build attributesDigest => attributesDigest
  | .imported blockHash => blockHash

end PairSubject

abbrev ExpectedSubject := PairSubject

structure PairBinding where
  networkId : UInt64
  rootGenesisId : Bytes32
  executionGenesisHash : Bytes32
  parentHash : Bytes32
  parentNumber : UInt64
  originRootEpoch : UInt64
  originRootRound : UInt64
  configurationId : Bytes32
  activationId : Bytes32
  rootInputHash : Bytes32
  transitionsHash : Bytes32
  subject : PairSubject
  deriving DecidableEq

inductive PairBindingError where
  | missing
  | tooLarge (len : Nat)
  | malformed (error : CanonicalCborError)
  | wrongDomain
  | wrongVersion (version : UInt64)
  | unknownSubject (kind : UInt64)
  | zeroIdentity (name : String)
  | rootInput (error : ExecutionError)
  | networkMismatch
  | rootGenesisMismatch
  | executionGenesisMismatch
  | inputNetworkMismatch
  | parentHashMismatch
  | parentNumberMismatch
  | originEpochMismatch
  | originRoundMismatch
  | configurationMismatch
  | activationMismatch
  | rootInputMismatch
  | transitionsMismatch
  | wrongSubjectKind (expected found : UInt64)
  | jobMismatch
  | blockMismatch
  deriving DecidableEq, Repr

structure PairPins where
  networkId : UInt64
  rootGenesisId : Bytes32
  deriving DecidableEq

structure PairContext where
  pins : PairPins
  executionGenesisHash : Bytes32
  parent : SealedHeader
  root : RootInputV2
  subject : ExpectedSubject

namespace PairBinding

/-- The array head, the domain and the version that open every binding. -/
def encodeOpening : Bytes := array 15 ++ text (ascii pairBindingDomain) ++ uint pairBindingVersion

/-- The thirteen items after the opening. -/
def encodeFields (b : PairBinding) : Bytes :=
  uint b.networkId ++ bytes b.rootGenesisId.val ++ bytes b.executionGenesisHash.val ++
    bytes b.parentHash.val ++ uint b.parentNumber ++ uint b.originRootEpoch ++
    uint b.originRootRound ++ bytes b.configurationId.val ++ bytes b.activationId.val ++
    bytes b.rootInputHash.val ++ bytes b.transitionsHash.val ++ uint b.subject.kind ++
    bytes b.subject.id.val

def canonicalCbor (b : PairBinding) : Bytes := encodeOpening ++ b.encodeFields

/-- The 32-byte identities under their wire names, in the order they are checked. -/
def identities (b : PairBinding) : List (String × Bytes32) :=
  [("rootGenesisId", b.rootGenesisId), ("executionGenesisHash", b.executionGenesisHash),
    ("parentHash", b.parentHash), ("configurationId", b.configurationId),
    ("activationId", b.activationId), ("rootInputHash", b.rootInputHash),
    ("transitionsHash", b.transitionsHash), ("subjectId", b.subject.id)]

end PairBinding

open Decoder

abbrev DecodePair (α : Type) := Run Cursor PairBindingError α

/-- A reader whose refusals are reported as malformed bytes. -/
def malformed {α : Type} (read : Decode α) : DecodePair α := Run.mapErr .malformed read

def decodeSubject (kind : UInt64) (subjectId : Bytes32) : Res PairBindingError PairSubject :=
  if kind = subjectBuild then .ok (.build subjectId)
  else if kind = subjectImport then .ok (.imported subjectId)
  else Res.fail (.unknownSubject kind)

/-- Refuses the first identity that is all zero. -/
def checkIdentities (b : PairBinding) : Res PairBindingError Unit :=
  Res.each (fun (name, word) => Res.refuse (word = Fixed.zero 32) (.zeroIdentity name)) b.identities

def decodeOpening : DecodePair Unit := do
  let arity ← malformed readArray
  Run.refuse (arity ≠ 15) (.malformed (.wrongArity 15 arity))
  let domain ← malformed readText
  Run.refuse (domain.val ≠ ascii pairBindingDomain) .wrongDomain
  let version ← malformed readUint
  Run.refuse (version ≠ pairBindingVersion) (.wrongVersion version)

/-- The subject kind is judged only after the last byte was read. -/
def decodePairBinding : DecodePair PairBinding := do
  decodeOpening
  let networkId ← malformed readUint
  let rootGenesisId ← malformed readWord
  let executionGenesisHash ← malformed readWord
  let parentHash ← malformed readWord
  let parentNumber ← malformed readUint
  let originRootEpoch ← malformed readUint
  let originRootRound ← malformed readUint
  let configurationId ← malformed readWord
  let activationId ← malformed readWord
  let rootInputHash ← malformed readWord
  let transitionsHash ← malformed readWord
  let kind ← malformed readUint
  let subjectId ← malformed readWord
  malformed finish
  let subject ← Run.lift (decodeSubject kind subjectId)
  let binding : PairBinding :=
    { networkId, rootGenesisId, executionGenesisHash, parentHash, parentNumber, originRootEpoch,
      originRootRound, configurationId, activationId, rootInputHash, transitionsHash, subject }
  Run.lift (checkIdentities binding)
  return binding

def PairBinding.fromCanonicalCbor (raw : Bytes) : Res PairBindingError PairBinding :=
  if raw = [] then Res.fail .missing
  else if h : maxPairBindingBytes < raw.length then Res.fail (.tooLarge raw.length)
  else (decodePairBinding (Cursor.start raw (lt_of_le_of_lt (Nat.le_of_not_lt h) (by decide)))).1

section Hash

variable (H : Bytes → Bytes32)

def transitionsHash (transitions : List ByteVec) : Bytes32 := H (encodeTransitions transitions)

def attributesDigest (timestamp : UInt64) (prevRandao : Bytes32) (suggestedFeeRecipient : Fixed 20)
    (parentBeaconBlockRoot : Bytes32) : Bytes32 :=
  H (array 6 ++ text (ascii pairJobDomain) ++ uint 1 ++ uint timestamp ++ bytes prevRandao.val ++
    bytes suggestedFeeRecipient.val ++ bytes parentBeaconBlockRoot.val)

/-- The commit identity of the transition a root input carries. -/
def RootInputV2.commitId (root : RootInputV2) : Option (Res PairBindingError Bytes32) :=
  root.transitions.head?.map fun raw => do
    let transition ← (decodeEpochTransition raw).mapErr fun _ => .activationMismatch
    return transition.commitId

/-- The activation of a binding is the transition's commit identity, and free without one. -/
def checkActivation (root : RootInputV2) (activationId : Bytes32) : Res PairBindingError Unit :=
  match root.commitId with
  | some commit => do
    let id ← commit
    Res.refuse (activationId ≠ id) .activationMismatch
  | none => .ok ()

def checkSubject (found : PairSubject) (expected : ExpectedSubject) : Res PairBindingError Unit :=
  match found, expected with
  | .build digest, .build digest' => Res.refuse (digest ≠ digest') .jobMismatch
  | .imported hash, .imported hash' => Res.refuse (hash ≠ hash') .blockMismatch
  | found, .build _ => Res.fail (.wrongSubjectKind subjectBuild found.kind)
  | found, .imported _ => Res.fail (.wrongSubjectKind subjectImport found.kind)

def verifyPairBinding (raw : Bytes) (context : PairContext) : Res PairBindingError PairBinding := do
  let binding ← PairBinding.fromCanonicalCbor raw
  let root := context.root
  Res.refuse (binding.networkId ≠ context.pins.networkId) .networkMismatch
  Res.refuse (binding.rootGenesisId ≠ context.pins.rootGenesisId) .rootGenesisMismatch
  Res.refuse (binding.executionGenesisHash ≠ context.executionGenesisHash) .executionGenesisMismatch
  Res.refuse (root.networkId ≠ binding.networkId) .inputNetworkMismatch
  Res.refuse (binding.parentHash ≠ context.parent.hash) .parentHashMismatch
  Res.refuse (binding.parentNumber ≠ context.parent.header.number) .parentNumberMismatch
  Res.refuse (binding.originRootEpoch ≠ root.origin.rootEpoch) .originEpochMismatch
  Res.refuse (binding.originRootRound ≠ root.origin.rootRound) .originRoundMismatch
  Res.refuse (binding.configurationId ≠ root.origin.shardConfHash) .configurationMismatch
  checkActivation root binding.activationId
  let commitment ← (root.inputCommitment H).mapErr .rootInput
  Res.refuse (binding.rootInputHash ≠ commitment) .rootInputMismatch
  Res.refuse (binding.transitionsHash ≠ transitionsHash H root.transitions) .transitionsMismatch
  checkSubject binding.subject context.subject
  return binding

/-- The binding the Go side would produce for a context. -/
def referenceBinding (context : PairContext) (activationId : Bytes32) :
    Res PairBindingError PairBinding := do
  let root := context.root
  let activationId ← root.commitId.getD (.ok activationId)
  let rootInputHash ← (root.inputCommitment H).mapErr .rootInput
  return { networkId := context.pins.networkId
           rootGenesisId := context.pins.rootGenesisId
           executionGenesisHash := context.executionGenesisHash
           parentHash := context.parent.hash
           parentNumber := context.parent.header.number
           originRootEpoch := root.origin.rootEpoch
           originRootRound := root.origin.rootRound
           configurationId := root.origin.shardConfHash
           activationId
           rootInputHash
           transitionsHash := transitionsHash H root.transitions
           subject := context.subject }

end Hash

end Ureth.Source.Execution
