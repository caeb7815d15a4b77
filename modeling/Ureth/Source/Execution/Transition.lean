import Ureth.Source.B1.Registry
import Ureth.Source.Execution.Environment
import Ureth.Source.Execution.Records

/-!
# The registry transition of a block

The system prefix of a block: the parent registry is checked, the update and the record import
are admitted, and `open`, `importRootRecords` and `finalize` are called with what is left of the
system gas. The database and the EVM are one machine with a state of its own, which answers every
read and every call or refuses it; the Solidity encoders of the calls are parameters.
-/

namespace Ureth.Source.Execution
open Ureth.Foundation Ureth.Source.B1

/-! ## The machine -/

/-- The environment of the hooks' calls: the executing block's. -/
structure HookEnv where
  chainId : UInt64
  block : EvmEnv
  deriving DecidableEq

/-- A system transaction of the fixed caller. -/
structure SystemTx where
  target : Fixed 20
  data : Bytes
  gasLimit : UInt64
  deriving DecidableEq

/-- What a system call reports: gross gas, refund, returned bytes, and its text in an error. -/
structure CallResult where
  success : Bool
  totalGasSpent : UInt64
  innerRefunded : UInt64
  output : Bytes
  debug : String
  deriving DecidableEq

/-- The candidate database and the EVM on it. -/
structure Machine (σ : Type) where
  /-- The code hash of an account, if it exists. -/
  basic : Fixed 20 → σ → Except String (Option Bytes32) × σ
  storage : Fixed 20 → Word → σ → Except String Word × σ
  /-- A system call in the default environment or in a block's. -/
  runSystemCall : Option HookEnv → SystemTx → σ → Except String CallResult × σ
  /-- The journal is taken and committed. -/
  commit : σ → σ
  /-- The journal is taken and dropped. -/
  discard : σ → σ

inductive TransitionError where
  | input (error : ExecutionError)
  | database (reason : String)
  | openFailed (reason : String)
  | registryEpochRefused (assigned received : UInt64)
  | importFailed (reason : String)
  | finalizeFailed (reason : String)
  | recordImport (error : ImportError)
  | b1Update (error : UpdateError)
  | b1ProfileMismatch (what : String)
  | hook (error : HookError)
  | gasBudgetExceeded (spent limit : UInt64)
  deriving DecidableEq

def TransitionError.invalidInput (reason : String) : TransitionError := .input (.invalidInput reason)

/-! ## Fixed addresses and slots -/

def openSelector : Bytes := [0x72, 0x42, 0x36, 0xc0]

def systemCaller : Fixed 20 := .literal 20 0xff00000000000000000000000000000000000001

def sealRegistry : Fixed 20 := .literal 20 0xff00000000000000000000000000000000000002

def sealRegistryCodeHash : Bytes32 :=
  .literal 32 0x8c5b57fd322b9ca1370fca310564a1fba8e80b6ad29a78ceb23aa9ae4113cfe4

def genesisShardConfHashSlot : Word :=
  .literal 32 0x4d19b7530faa2fa3495319b01857830cdc6ca35a5b20c4084d10119118d44afe

def assignmentEpochSlot : Word :=
  .literal 32 0xd1358cd157e8920f4cfe36f79ae73373716b602bf47f574ea08d5281befa59ef

def assignmentRootEpochSlot : Word :=
  .literal 32 0x52ff97c9251b51e7f509a2b0fc46b23b06051f0336a4c2214c3a1b91f9bd79ad

def assignmentActiveConfHashSlot : Word :=
  .literal 32 0xd56125ba33c296e14f68d6694333af40f3cc48fa5a36f9e92163bf6a6a427ce1

def outcomesRoundSlot : Word :=
  .literal 32 0xdf6054d2856db510df05f205217ce7e44e297a6e8637b87280ec2ea8c9f4c7ee

def outcomesCommitmentSlot : Word :=
  .literal 32 0xa20cac25b5a8a5560378675c46b953deb71e952d3a217adf06a367755ed9e14c

def b1NetworkSlot : Word :=
  .literal 32 0x36655612ed573010c759ea2241753af111519811fe26d69e6b788feffd5d8a5a

def b1ProfileHashSlot : Word :=
  .literal 32 0x134a17ec577b5250d3bf72a1025982cb0e0dcc333f6fcb9e4b09f238d462e907

def b1InitializedSlot : Word :=
  .literal 32 0x86dbc6fb003fd76a5c36b58ac720e220e7b567a5a78a807dd5110458760d889b

def phaseSlot : Word :=
  .literal 32 0xbd46d80656ebd65ff40d271a180003a97a8f7200d2b0562e68a0b3455cd447d1

/-! ## The calls' arguments -/

structure B1MemberAbi where
  nodeIDLength : UInt64
  nodeID : List Bytes32
  key : List Bytes32
  weight : UInt64

structure B1EntryAbi where
  epoch : UInt64
  bodyKind : UInt64
  bodyID : Bytes32
  activationCommitID : Bytes32
  start : UInt64
  hasEnd : Bool
  stop : UInt64
  signingScheme : UInt64
  signingConfigHash : Bytes32
  members : List B1MemberAbi

structure B1UpdateAbi where
  priorTipEpoch : UInt64
  hasOldTipEnd : Bool
  oldTipEnd : UInt64
  newEntries : List B1EntryAbi

structure AssignmentProjection where
  oldRootEpoch : UInt64
  oldShardEpoch : UInt64
  oldActiveConfHash : Bytes32
  newRootEpoch : UInt64
  newShardEpoch : UInt64
  newActiveConfHash : Bytes32
  supersessionSpan : UInt64
  supersessionCommitment : Bytes32
  projectionHash : Bytes32

structure OpenHead where
  n : UInt64
  rootRound : UInt64
  rootEpoch : UInt64
  timestamp : UInt64
  treeRoot : Bytes32
  originIdentity : Bytes32
  trHash : Bytes32
  shardConfHash : Bytes32
  certifiedRound : UInt64
  certEpoch : UInt64
  authEpoch : UInt64
  stateHash : Bytes32
  hasBlockHash : Bool
  blockHash : Bytes32
  inputCommitment : Bytes32
  transitionCount : UInt64
  bodyID : Bytes32
  genesisID : Bytes32
  frozenID : Bytes32
  commitID : Bytes32
  frozenParent : Bytes32
  successorTR : Bytes32
  activeConfHash : Bytes32

/-- The Solidity encoders: the arguments of `open` without their selector, the other two calls
whole. -/
structure CallEncoders where
  openArguments : OpenHead → AssignmentProjection → B1UpdateAbi → Bytes
  importRootRecords : UInt64 → RecordImport → Bytes
  finalize : UInt64 → Bytes32 → Bytes

/-- Word `i` of a string left-aligned in words with zero right padding. -/
def padWord (raw : Bytes) (i : Nat) : Bytes32 :=
  ⟨((raw.drop (32 * i)).take 32) ++ List.replicate (32 - ((raw.drop (32 * i)).take 32).length) 0, by
    simp only [List.length_append, List.length_replicate, List.length_take]
    omega⟩

def padWords (n : Nat) (raw : Bytes) : List Bytes32 := (List.range n).map (padWord raw)

def Member.abi (member : Member) : B1MemberAbi where
  nodeIDLength := .ofNat member.nodeId.val.length
  nodeID := padWords 4 member.nodeId.val
  key := padWords 2 member.key.val
  weight := member.weight

def Entry.abi (entry : Entry) : B1EntryAbi where
  epoch := entry.epoch
  bodyKind := entry.bodyKind
  bodyID := entry.bodyId
  activationCommitID := entry.activationCommitId
  start := entry.start
  hasEnd := entry.stop.isSome
  stop := entry.stop.getD 0
  signingScheme := entry.signingScheme
  signingConfigHash := entry.signingConfigHash
  members := entry.members.map Member.abi

def updateAbi (update : Update) : B1UpdateAbi where
  priorTipEpoch := update.priorTipEpoch
  hasOldTipEnd := update.oldTipEnd.isSome
  oldTipEnd := update.oldTipEnd.getD 0
  newEntries := update.newEntries.map Entry.abi

def zeroAssignmentProjection : AssignmentProjection :=
  ⟨0, 0, .zero 32, 0, 0, .zero 32, 0, .zero 32, .zero 32⟩

section Prepare

variable (keccak : Bytes → Bytes32)

def assignmentProjectionHash (t : EpochTransition) : Bytes32 :=
  keccak ((keccak (ascii "unicity.seal-registry.v2/assignment-ack-projection")).val ++
    (Word.ofNat t.oldRootEpoch.toNat).val ++ (Word.ofNat t.oldShardEpoch.toNat).val ++
    t.oldActiveConfHash.val ++ (Word.ofNat t.newRootEpoch.toNat).val ++
    (Word.ofNat t.newShardEpoch.toNat).val ++ t.newActiveConfHash.val ++
    (Word.ofNat t.supersessionSpan.toNat).val ++ t.supersessionCommitment.val)

def assignmentProjection (t : EpochTransition) : AssignmentProjection where
  oldRootEpoch := t.oldRootEpoch
  oldShardEpoch := t.oldShardEpoch
  oldActiveConfHash := t.oldActiveConfHash
  newRootEpoch := t.newRootEpoch
  newShardEpoch := t.newShardEpoch
  newActiveConfHash := t.newActiveConfHash
  supersessionSpan := t.supersessionSpan
  supersessionCommitment := t.supersessionCommitment
  projectionHash := assignmentProjectionHash keccak t

structure PreparedTransition where
  n : UInt64
  openData : Bytes
  inputCommitment : Bytes32
  originIdentity : Bytes32
  technicalRecordHash : Bytes32

variable (H : Bytes → Bytes32) (encoders : CallEncoders)

/-- The transition a root input carries, decoded again. -/
def RootInputV2.epochTransition (input : RootInputV2) : Res TransitionError (Option EpochTransition) :=
  match input.transitions.head? with
  | none => .ok none
  | some raw => do
    let t ← (decodeEpochTransition raw).mapErr fun _ =>
      .invalidInput "invalid epoch transition encoding"
    return some t

/-- The certified figures of the head: nothing for bootstrap, else the input record's. -/
def InputRecordV2.certified (ir : InputRecordV2) :
    OriginClass → Res TransitionError (UInt64 × Bytes32 × Bool × Bytes32)
  | .bootstrap => .ok (0, .zero 32, false, .zero 32)
  | _ => do
    let stateHash ← Res.unwrap ir.stateHash
    return (ir.round, stateHash, ir.blockHash.isSome, ir.blockHash.getD (.zero 32))

def prepareTransition (input : RootInputV2) (update : Update) (genesisShardConfHash : Bytes32) :
    Res TransitionError PreparedTransition := do
  let cls ← (input.originClass H).mapErr .input
  let transition ← input.epochTransition
  let inputCommitment ← (input.inputCommitment H).mapErr .input
  let originIdentity ← (input.originIdentity H).mapErr .input
  let trHash := technicalRecordHash H input.technical
  let certified ← input.origin.inputRecord.certified cls
  let field (f : EpochTransition → Bytes32) : Bytes32 := (transition.map f).getD (.zero 32)
  let head : OpenHead :=
    { n := input.authorizedRound, rootRound := input.origin.rootRound
      rootEpoch := input.origin.rootEpoch, timestamp := input.origin.referenceTime
      treeRoot := input.origin.treeRoot, originIdentity, trHash
      shardConfHash := genesisShardConfHash, certifiedRound := certified.1
      certEpoch := input.certifiedEpoch, authEpoch := input.authorizedEpoch
      stateHash := certified.2.1, hasBlockHash := certified.2.2.1, blockHash := certified.2.2.2
      inputCommitment, transitionCount := if transition.isSome then 1 else 0
      bodyID := field (·.bodyId), genesisID := field (·.genesisId), frozenID := field (·.frozenId)
      commitID := field (·.commitId), frozenParent := field (·.frozenParent)
      successorTR := field (·.successorTr)
      activeConfHash := (transition.map (·.newActiveConfHash)).getD input.origin.shardConfHash }
  let assignment := (transition.map (assignmentProjection keccak)).getD zeroAssignmentProjection
  return { n := input.authorizedRound
           openData := openSelector ++ encoders.openArguments head assignment (updateAbi update)
           inputCommitment, originIdentity, technicalRecordHash := trHash }

/-- The commitment finalize writes; its gas is everything debited before finalize. -/
def systemOutcomeCommitment (gasSpent : UInt64) (inputCommitment : Bytes32) : Bytes32 :=
  H (array 1 ++ array 5 ++ text (ascii "system") ++ uint gasSpent ++ uint 1 ++ text [] ++
    bytes inputCommitment.val)

end Prepare

/-! ## The transition -/

structure ExecutionConfig where
  systemGasLimit : UInt64
  b1 : B1Context

structure UpdateInput where
  bytes : ByteVec
  records : ByteVec
  parentNumber : UInt64

structure ExecutionResult where
  admissionGas : UInt64
  recordsAdmissionGas : UInt64
  openGasSpent : UInt64
  openGasRefunded : UInt64
  importGasSpent : UInt64
  importGasRefunded : UInt64
  finalizeGasSpent : UInt64
  finalizeGasRefunded : UInt64
  totalGasSpent : UInt64
  inputCommitment : Bytes32
  originIdentity : Bytes32
  technicalRecordHash : Bytes32
  registryCommitment : Bytes32
  deriving DecidableEq

/-- What is outside the repository: the hashes, the keys and the call encoders. -/
structure Primitives where
  sha256 : Bytes → Bytes32
  keccak : Bytes → Bytes32
  secp : Secp256k1
  encoders : CallEncoders

section Execute

variable {σ : Type} (P : Primitives) (M : Machine σ) (input : RootInputV2) (update : UpdateInput)
  (config : ExecutionConfig)

abbrev Executing (σ α : Type) := Run σ TransitionError α

def readSlot (slot : Word) : Executing σ Word :=
  Run.mapErr .database (Run.ask (M.storage sealRegistry slot))

/-- The registry words a profile pins, each with the text of its refusal. -/
def registryPins (b1 : B1Context) : List (Word × Word × String) :=
  [(b1InitializedSlot, Word.ofNat 1, "B1 registry is not initialized"),
   (b1NetworkSlot, Word.ofNat b1.network.toNat, "B1 network differs from the profile"),
   (fixedSlot P.keccak "b1.format", Word.ofNat 2, "B1 registry layout is not the permanent format 2"),
   (b1ProfileHashSlot, b1.profileHash, "B1 profile hash differs from the profile"),
   (fixedSlot P.keccak "genesisCommitment", b1.genesisCommitment,
     "B1 genesis commitment differs from the deployment pin")]

def checkPins : List (Word × Word × String) → Executing σ Unit
  | [] => pure ()
  | (slot, expected, what) :: rest => do
    let found ← readSlot M slot
    Run.refuse (found ≠ expected) (.b1ProfileMismatch what)
    checkPins rest

/-- A word as a 64-bit number, or the largest one. -/
def saturateWord (w : Word) : UInt64 :=
  if w.toNat < 2 ^ 64 then .ofNat w.toNat else .ofNat (2 ^ 64 - 1)

/-- The assignment stored by the parent is the one the input continues or leaves. -/
def RootInputV2.EpochOk (transition : Option EpochTransition) (assigned assignedShard : Word)
    (active : Bytes32) : Prop :=
  match transition with
  | some t =>
    assigned = Word.ofNat t.oldRootEpoch.toNat ∧ assignedShard = Word.ofNat t.oldShardEpoch.toNat ∧
      active = t.oldActiveConfHash ∧ input.origin.rootEpoch = t.newRootEpoch ∧
      input.authorizedEpoch = t.newShardEpoch ∧ input.certifiedEpoch = t.oldShardEpoch ∧
      input.origin.shardConfHash = t.newActiveConfHash
  | none =>
    assigned = Word.ofNat input.origin.rootEpoch.toNat ∧
      assignedShard = Word.ofNat input.authorizedEpoch.toNat ∧
      active = input.origin.shardConfHash ∧ input.certifiedEpoch = input.authorizedEpoch

instance (transition : Option EpochTransition) (assigned assignedShard : Word) (active : Bytes32) :
    Decidable (input.EpochOk transition assigned assignedShard active) :=
  match transition with
  | some _ => inferInstanceAs (Decidable (_ ∧ _))
  | none => inferInstanceAs (Decidable (_ ∧ _))

/-- The checks of the parent state; the result is the shard configuration of genesis. -/
def checkParent : Executing σ Bytes32 := do
  let registry ← Run.mapErr .database (Run.ask (M.basic sealRegistry))
  let codeHash ← Run.lift (Res.okOr
    (.invalidInput "SealRegistry account missing from parent state") registry)
  Run.refuse (codeHash ≠ sealRegistryCodeHash)
    (.invalidInput "SealRegistry parent code hash does not match pinned artifact")
  checkPins M (registryPins P config.b1)
  let ready ← readSlot M (fixedSlot P.keccak "b1.originReady")
  let usable ← readSlot M (fixedSlot P.keccak "origin.rootEpoch")
  let imported ← readSlot M (fixedSlot P.keccak "b1.importedTipEpoch")
  Run.refuse (ready = Word.ofNat 1 ∧ usable ≠ imported)
    (.b1ProfileMismatch "B1 registry usable origin differs from its imported tip")
  let assigned ← readSlot M assignmentRootEpochSlot
  let assignedShard ← readSlot M assignmentEpochSlot
  let assignedActive ← readSlot M assignmentActiveConfHashSlot
  let genesisShardConfHash ← readSlot M genesisShardConfHashSlot
  Run.refuse (assignedActive = .zero 32 ∨ genesisShardConfHash = .zero 32)
    (.invalidInput "SealRegistry assignment is not initialized")
  let transition ← Run.lift input.epochTransition
  Run.refuse (¬ input.EpochOk transition assigned assignedShard assignedActive)
    (.registryEpochRefused (saturateWord assigned) input.origin.rootEpoch)
  return genesisShardConfHash

/-- Both admissions, the second from what the first left, and their sum. -/
def admitBoth : Res TransitionError (Admitted × AdmittedImport × UInt64) := do
  let limit := config.systemGasLimit
  let originIdentity ← (input.originIdentity P.sha256).mapErr .input
  let binding : UpdateBinding :=
    { committedHash := input.b1UpdateHash, parentHash := input.parentHash
      parentNumber := update.parentNumber, originEpoch := input.origin.rootEpoch
      originRound := input.origin.rootRound, originIdentity }
  let admitted ← (admitUpdate P.sha256 P.secp update.bytes config.b1 binding limit).mapErr .b1Update
  let rest ← Res.okOr (.gasBudgetExceeded admitted.gas limit) (subWithin limit admitted.gas)
  let records ← (admitImport P.sha256 update.records input.rootRecordsHash rest).mapErr .recordImport
  let admissionGas ← Res.okOr (.gasBudgetExceeded (.ofNat (2 ^ 64 - 1)) limit)
    (addWithin admitted.gas records.gas)
  return (admitted, records, admissionGas)

/-- One privileged call of the registry, committed when it succeeds. -/
def registryCall (failed : String → TransitionError) (data : Bytes) (gasLimit : UInt64) :
    Executing σ CallResult := do
  let result ← Run.mapErr failed (Run.ask (M.runSystemCall none ⟨sealRegistry, data, gasLimit⟩))
  Run.refuse (result.success = false) (failed result.debug)
  Run.modify M.commit
  return result

/-- `spent` and the next debit, within 64 bits. -/
def debit (spent gas : UInt64) : Res TransitionError UInt64 :=
  Res.okOr (.gasBudgetExceeded (.ofNat (2 ^ 64 - 1)) config.systemGasLimit) (addWithin spent gas)

/-- What the system gas limit leaves after `spent`. -/
def remainingGas (spent : UInt64) : Res TransitionError UInt64 :=
  Res.okOr (.gasBudgetExceeded spent config.systemGasLimit) (subWithin config.systemGasLimit spent)

/-- The registry holds the finalized round and the commitment. -/
def checkFinalized (commitment : Bytes32) : Executing σ Unit := do
  let storedRound ← readSlot M outcomesRoundSlot
  let storedCommitment ← readSlot M outcomesCommitmentSlot
  let storedPhase ← readSlot M phaseSlot
  Run.refuse (storedRound ≠ Word.ofNat input.authorizedRound.toNat ∨ storedCommitment ≠ commitment ∨
      storedPhase ≠ Word.ofNat 2)
    (.finalizeFailed
      "registry post-state does not contain the finalized round and outcome commitment")

/-- The three calls and their accounting. -/
def executeCalls (records : AdmittedImport) (admissionGas : UInt64) (prepared : PreparedTransition) :
    Executing σ ExecutionResult := do
  let limit := config.systemGasLimit
  -- the one difference of the source without a check
  let openLimit ← Run.lift (Res.subU64 limit admissionGas)
  let opened ← registryCall M .openFailed prepared.openData openLimit
  let afterOpen ← Run.lift (debit config admissionGas opened.totalGasSpent)
  let importRemaining ← Run.lift (remainingGas config afterOpen)
  let imported ← registryCall M .importFailed
    (P.encoders.importRootRecords prepared.n records.companion) importRemaining
  let stagedGas ← Run.lift (debit config afterOpen imported.totalGasSpent)
  let commitment := systemOutcomeCommitment P.sha256 stagedGas prepared.inputCommitment
  let remaining ← Run.lift (remainingGas config stagedGas)
  let finalized ← registryCall M .finalizeFailed (P.encoders.finalize prepared.n commitment) remaining
  let total ← Run.lift (debit config stagedGas finalized.totalGasSpent)
  Run.refuse (limit < total) (.gasBudgetExceeded total limit)
  checkFinalized M input commitment
  return { admissionGas, recordsAdmissionGas := records.gas
           openGasSpent := opened.totalGasSpent, openGasRefunded := opened.innerRefunded
           importGasSpent := imported.totalGasSpent, importGasRefunded := imported.innerRefunded
           finalizeGasSpent := finalized.totalGasSpent
           finalizeGasRefunded := finalized.innerRefunded, totalGasSpent := total
           inputCommitment := prepared.inputCommitment, originIdentity := prepared.originIdentity
           technicalRecordHash := prepared.technicalRecordHash, registryCommitment := commitment }

def executeRegistryTransitionOnDb : Executing σ ExecutionResult := do
  Run.refuse (config.systemGasLimit = 0) (.invalidInput "system gas limit must be positive")
  let _ ← Run.lift ((input.originClass P.sha256).mapErr TransitionError.input)
  let genesisShardConfHash ← checkParent P M input config
  let admission ← Run.lift (admitBoth P input update config)
  let prepared ← Run.lift
    (prepareTransition P.keccak P.sha256 P.encoders input admission.1.update genesisShardConfHash)
  executeCalls P M input config admission.2.1 admission.2.2 prepared

end Execute

end Ureth.Source.Execution
