import Ureth.Foundation.Word64
import Ureth.Source.Execution.Binding
import Ureth.Source.Execution.Pairing
import Ureth.Source.Payload.Prune
import Ureth.Source.Payload.Tokens

/-!
# Recovery admission

The admission of the canonical head after a restart. The node's chain, the bodies and the
execution of a block are services that answer as they like and keep a state of their own;
the companion store is only read. The token store is the state the admission changes.
-/

namespace Ureth.Source.Payload
open Ureth.Foundation Ureth.Source.Execution Ureth.Source.Store

/-- The causes of a refused admission: the typed ones of the source, the messages of its reports,
and the errors it passes on. -/
inductive RecoveryError where
  | companionMissing (number : UInt64)
  | retainedUnusable (number : UInt64) (source : PairBindingError)
  | retainedRefused (number : UInt64) (source : PairBindingError)
  | presentedRefused (number : UInt64) (source : PairBindingError)
  | presentedDiffers (number : UInt64)
  | noBeaconRoot (number : UInt64)
  | canonicalHashMissing (number : UInt64)
  | canonicalHeaderMissing (hash : Bytes32)
  | noTokenForHead (head : UInt64)
  | bodyMissing (number : UInt64)
  | senderRecovery (number : UInt64) (error : String)
  | identityMismatch (number : UInt64)
  | predecessorMissing (number : UInt64)
  | bindingFailed (number : UInt64) (error : BlockAccountingError)
  | replayFailed (number : UInt64) (error : String)
  | headChanged
  | genesisAnchor (error : BlockAccountingError)
  | noAnchor (limit target : UInt64)
  | provider (error : String)
  | store (error : StoreError)
  | rootInput (error : CanonicalCborError)
  | pairBinding (error : PairBindingError)
  deriving DecidableEq

structure UnicitySealConfig where
  profile : BlockProfile
  feeCollector : Fixed 20
  pins : PairPins
  b1 : B1Context

/-- What recovery calls on: the chain reader, the block bodies and the execution. -/
structure RecoveryServices (π β : Type) where
  bestBlockNumber : Run π String UInt64
  blockHash : UInt64 → Run π String (Option Bytes32)
  sealedHeaderByHash : Bytes32 → Run π String (Option SealedHeader)
  blockByHash : Bytes32 → Run π String (Option (Block β))
  recoverSenders : Block β → Res String Unit
  stateByBlockHash : Bytes32 → Run π String Unit
  /-- The checked execution of a block on the state of its parent. -/
  execute : BoundExecutionInput → Block β → Run π String ExecutedBlock

/-- What a call of recovery is given and does not change. -/
structure RecoveryCall (π β : Type) where
  provider : RecoveryServices π β
  /-- The chain identifier and the genesis hash of the provider's chain specification. -/
  chain : Identity
  store : CompanionStore
  sealConfig : UnicitySealConfig

abbrev Asking (π α : Type) := Run π RecoveryError α

abbrev Recovery (π α : Type) := Run (π × UnicityParentAccountings) RecoveryError α

section

variable {π α : Type}

def onTokens {ε : Type} (f : ε → RecoveryError) (operation : Tokens ε α) : Recovery π α := fun s =>
  ((operation s.2).1.mapErr f, (s.1, (operation s.2).2))

end

section

variable (H : Bytes → Bytes32) (hashSlow : Header → Bytes32) {π β : Type}

def SealCompanion.decodeRootInput (companion : SealCompanion) : Res CanonicalCborError RootInputV2 := do
  let root ← RootInputV2.fromCanonicalCbor H companion.rootInput.val
  Res.refuse (H companion.b1Update.val ≠ root.b1UpdateHash)
    (.invalidRootInput "B1 update does not hash to the committed value")
  Res.refuse (H companion.records.val ≠ root.rootRecordsHash)
    (.invalidRootInput "root-record import does not hash to the committed value")
  return root

namespace RecoveryCall

variable (call : RecoveryCall π β)

def genesis : Bytes32 := call.chain.2

def canonicalHash (number : UInt64) : Asking π Bytes32 := do
  let answer ← Run.mapErr .provider (call.provider.blockHash number)
  Run.lift (Res.okOr (.canonicalHashMissing number) answer)

def canonicalHeader (hash : Bytes32) : Asking π SealedHeader := do
  let answer ← Run.mapErr .provider (call.provider.sealedHeaderByHash hash)
  Run.lift (Res.okOr (.canonicalHeaderMissing hash) answer)

def restoreExact (header : SealedHeader) : Recovery π (Option CompletedParent) :=
  onTokens .store
    (UnicityParentAccountings.restoreExact hashSlow header call.chain call.sealConfig.profile)

/-! ## Repair -/

/-- The anchor that stands in when no token was found: the genesis, if it is within the limit. -/
def genesisAnchor (target limit : UInt64) : Asking π UInt64 :=
  if satSub target limit = 0 then do
    let hash ← call.canonicalHash 0
    let header ← call.canonicalHeader hash
    let _ ← Run.lift ((CompletedParent.genesisNextBaseFee hashSlow header call.genesis
      call.sealConfig.profile).mapErr .genesisAnchor)
    return 0
  else Run.fail (.noAnchor limit target)

def replayComplete (number : UInt64) (parentHash : Bytes32) (bound : BoundExecutionInput)
    (block : Block β) : Asking π CompletedParent := do
  Run.mapErr .provider (call.provider.stateByBlockHash parentHash)
  let executed ← Run.mapErr (.replayFailed number) (call.provider.execute bound block)
  Run.lift ((CompletedParent.ofReplay hashSlow bound block executed).mapErr (.replayFailed number))

end RecoveryCall

end

end Ureth.Source.Payload
