import Ureth.Source.Execution.Wire
import Ureth.Source.Execution.Block

/-!
# Execution inputs bound to their parent

A root input with its parent's accounting: the profile's system-gas envelope a job is checked
against, the two ways a job is bound, and the token a checked replay mints. The execution
itself is a parameter where it is used; what it reports is the gas it spent.
-/

namespace Ureth.Source.Execution
open Ureth.Foundation

/-! ## The system-gas envelope -/

/-- Why the hooks invalidate a block. -/
inductive HookError where
  | profile (reason : String)
  | call (what : String) (reason : String)
  | badReturn (what : String)
  | badOutcome (outcome : UInt64)
  | inconsistent (cursor count target : UInt64)
  | cursorMoved (before applied after : UInt64)
  | hExceedsMaxBatch (hRecords : UInt32) (maxBatch : UInt64)
  | budget
  deriving DecidableEq

structure RecordsHook where
  custody : Fixed 20
  hRecords : UInt32
  recordGas : UInt64
  election : Fixed 20
  electGas : UInt64
  deriving DecidableEq

def maxHRecords : UInt32 := 32
def hookReadsGas : Nat := 150000

namespace RecordsHook

def Enabled (hook : RecordsHook) : Prop := hook.custody ≠ Fixed.zero 20

instance (hook : RecordsHook) : Decidable hook.Enabled := inferInstanceAs (Decidable (¬ _))

def ElectionEnabled (hook : RecordsHook) : Prop := hook.election ≠ Fixed.zero 20

instance (hook : RecordsHook) : Decidable hook.ElectionEnabled := inferInstanceAs (Decidable (¬ _))

def validate (hook : RecordsHook) : Res HookError Unit := do
  Res.refuse (¬ hook.ElectionEnabled ∧ hook.electGas ≠ 0)
    (.profile "the elect gas without an election contract")
  Res.refuse (hook.ElectionEnabled ∧ (¬ hook.Enabled ∨ hook.electGas = 0))
    (.profile "the election hook needs the records hook and a positive elect gas")
  if ¬ hook.Enabled then
    Res.refuse (¬ (hook.hRecords = 0 ∧ hook.recordGas = 0))
      (.profile "hook parameters without a custody contract")
  else do
    Res.refuse (hook.hRecords = 0 ∨ hook.hRecords > maxHRecords)
      (.profile "H_records must be within 1..=32")
    Res.refuse (hook.recordGas = 0) (.profile "the per-record hook gas must be positive")

/-- The gross gas the profile reserves. The product and both sums are checked; a final value within
64 bits has every partial one within. -/
def envelopeGas (hook : RecordsHook) : Res HookError Nat :=
  if ¬ hook.Enabled then .ok 0
  else do
    hook.validate
    let gas := hook.hRecords.toNat * hook.recordGas.toNat + hookReadsGas + hook.electGas.toNat
    Res.refuse (2 ^ 64 ≤ gas) (.profile "hook envelope overflows")
    return gas

end RecordsHook

structure B1Context where
  network : UInt16
  rootGenesisId : Bytes32
  executionChainId : UInt64
  profileHash : Bytes32
  genesisCommitment : Bytes32
  maxEpochs : UInt64
  hook : RecordsHook
  deriving DecidableEq

/-- The refusals of an update; the first three are those of the envelope. -/
inductive UpdateError where
  | unmeasuredEpochs (epochs : UInt64)
  | epochsBelowSpan (epochs : UInt64)
  | overflow
  | tooLarge (len limit : Nat)
  | scanBudget
  | memberBudget
  | encoding
  | updateHashMismatch
  | networkMismatch
  | rootGenesisMismatch
  | chainMismatch
  | profileMismatch
  | parentMismatch
  | blockNumberMismatch
  | originEpochMismatch
  | originRoundMismatch
  | originIdentityMismatch
  | entryIdentity
  | membersNotSorted
  | invalidKey
  | duplicateKey
  | zeroWeight
  | weightOverflow
  | weightCap
  | emptyInterval
  | genesisKindInUpdate
  | epochNotNewer
  | startAfterOrigin
  | endAfterOrigin
  | notContiguous
  | oldTipEndMismatch
  | tailNotOrigin
  | emptyUpdateMismatch
  deriving DecidableEq

def maxUpdateMembers : Nat := 16
def updateGasBase : Nat := 155936
def epochGas : Nat := 505244 + 177800 * maxUpdateMembers
def restGasBase : Nat := 1150000
def restGasPerEpoch : Nat := 250000
def maxMeasuredB : UInt64 := 2
def minEpochsPerUpdate : UInt64 := 2
def maxImportBytes : Nat := 16384
def maxImportEntries : Nat := 32
def maxAdmissionGas : Nat := 2000 + 16 * maxImportBytes + 1000 * maxImportEntries
def importEnvelopeGas : Nat := maxAdmissionGas + 18000000

namespace B1Context

def b (context : B1Context) : Res UpdateError UInt64 := do
  Res.refuse (context.maxEpochs < minEpochsPerUpdate) (.epochsBelowSpan context.maxEpochs)
  Res.refuse (context.maxEpochs > maxMeasuredB) (.unmeasuredEpochs context.maxEpochs)
  return context.maxEpochs

/-- The least system gas of the profile. The last sum is not checked for overflow. -/
def requiredSystemGas (context : B1Context) : Res UpdateError Nat := do
  let b ← context.b
  let hook ← context.hook.envelopeGas.mapErr fun _ => .overflow
  Res.u64 (updateGasBase + restGasBase + (epochGas + restGasPerEpoch) * b.toNat + importEnvelopeGas +
    hook)

end B1Context

/-! ## Binding -/

structure B1Job where
  context : B1Context
  update : ByteVec
  records : ByteVec

structure BoundExecutionInput where
  input : RootInputV2
  profile : BlockProfile
  parentHash : Bytes32
  parentNumber : UInt64
  parentTimestamp : UInt64
  parentExecution : ParentExecutionOutcome
  feeCollector : Fixed 20
  b1 : B1Job

section

variable (H : Bytes → Bytes32) (hashSlow : Header → Bytes32)

def B1Job.checkBound (job : B1Job) (input : RootInputV2) (profile : BlockProfile) :
    Accounted Unit := do
  Res.refuse (H job.update.val ≠ input.b1UpdateHash) .updateHashMismatch
  Res.refuse (H job.records.val ≠ input.rootRecordsHash) .recordsHashMismatch
  let required ← job.context.requiredSystemGas.mapErr fun _ => .b1Profile
  Res.refuse (profile.systemGas.toNat < required) .b1Profile

namespace BoundExecutionInput

def fromValidatedGenesis (input : RootInputV2) (b1 : B1Job) (profile : BlockProfile)
    (parent : SealedHeader) (configuredGenesisHash : Bytes32) (feeCollector : Fixed 20) :
    Accounted BoundExecutionInput := do
  Res.refuse (parent.hash ≠ hashSlow parent.header ∨ parent.hash ≠ configuredGenesisHash ∨
    parent.header.number ≠ 0 ∨ parent.header.gasUsed ≠ 0 ∨ input.parentHash ≠ parent.hash)
    .parentGasMismatch
  b1.checkBound H input profile
  let baseFee ← Res.okOr .invalidParentBaseFee parent.header.baseFeePerGas
  let parentExecution ← ParentExecutionOutcome.reconcile profile parent.hash parent.header.gasUsed 0
    baseFee
  return { input, profile, parentHash := parent.hash, parentNumber := parent.header.number,
           parentTimestamp := parent.header.timestamp, parentExecution, feeCollector, b1 }

def fromCompletedParent (input : RootInputV2) (b1 : B1Job) (profile : BlockProfile)
    (parent : SealedHeader) (completed : CompletedParent) (feeCollector : Fixed 20) :
    Accounted BoundExecutionInput := do
  Res.refuse (hashSlow parent.header ≠ parent.hash ∨ input.parentHash ≠ parent.hash ∨
    completed.outcome.parentHash ≠ parent.hash ∨ completed.outcome.profile ≠ profile)
    .parentGasMismatch
  b1.checkBound H input profile
  let _ ← completed.checkedNextBaseFee hashSlow parent profile
  return { input, profile, parentHash := parent.hash, parentNumber := parent.header.number,
           parentTimestamp := parent.header.timestamp, parentExecution := completed.outcome,
           feeCollector, b1 }

end BoundExecutionInput

/-! ## Replay -/

/-- A block as the provider returns it. -/
structure Block (β : Type) where
  header : Header
  body : β

/-- What the execution of a block reports: the gross gas and the last receipt's cumulative gas. -/
structure ExecutedBlock where
  gasUsed : UInt64
  ordinary : UInt64

/-- The token of a replay whose execution passed every check. -/
def CompletedParent.ofReplay {β : Type} (bound : BoundExecutionInput) (block : Block β)
    (executed : ExecutedBlock) : Res String CompletedParent := do
  Res.refuse (executed.gasUsed < executed.ordinary) "gross gas below ordinary receipt gas"
  let baseFee ← Res.okOr "base fee missing" block.header.baseFeePerGas
  let accounting ← (ParentExecutionOutcome.reconcile bound.profile (hashSlow block.header)
    executed.gasUsed (executed.gasUsed - executed.ordinary) baseFee).mapErr reprStr
  return ⟨accounting⟩

end

end Ureth.Source.Execution
