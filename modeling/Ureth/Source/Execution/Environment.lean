import Ureth.Foundation.Word64
import Ureth.Source.Execution.Binding
import Ureth.Source.Execution.BlockSpec

/-!
# The environment of one block job

`UnicityEvmConfig` builds and replays one block for one bound input. Building checks the
next-block attributes and derives the environment from them; replaying checks the header. The
stock Ethereum configuration and block assembler that it wraps are translated for the fields that
reach the header. Which fork a chain specification selects at a height and time is the parameter
`cancun`.
-/

namespace Ureth.Source.Execution
open Ureth.Foundation

/-! ## Derived header fields -/

section Derived

variable (H : Bytes → Bytes32)

def deriveRoundDomain (domain : String) (rootRound shardRound : UInt64) : Bytes32 :=
  H (array 3 ++ text (ascii domain) ++ uint rootRound ++ uint shardRound)

def derivePrevRandao (rootRound shardRound : UInt64) : Bytes32 :=
  deriveRoundDomain H "UNICITY_EVM_RANDAO" rootRound shardRound

def deriveBeaconRoot (rootRound shardRound : UInt64) : Bytes32 :=
  deriveRoundDomain H "UNICITY_EVM_BEACON" rootRound shardRound

/-- The root's reference time, but after the parent's. -/
def deriveTimestamp (referenceTime parentTimestamp : UInt64) : Option UInt64 :=
  (addWithin parentTimestamp 1).map fun least => max referenceTime least

end Derived

/-! ## The stock configuration -/

structure Withdrawal where
  index : UInt64
  validatorIndex : UInt64
  address : Fixed 20
  amount : UInt64
  deriving DecidableEq

structure NextBlockEnvAttributes where
  timestamp : UInt64
  suggestedFeeRecipient : Fixed 20
  prevRandao : Bytes32
  gasLimit : UInt64
  parentBeaconBlockRoot : Option Bytes32
  withdrawals : Option (List Withdrawal)
  extraData : Bytes
  slotNumber : Option UInt64
  deriving DecidableEq

/-- The block environment the EVM sees, as far as the header copies it. -/
structure EvmEnv where
  number : UInt64
  beneficiary : Fixed 20
  timestamp : UInt64
  prevRandao : Bytes32
  gasLimit : UInt64
  basefee : UInt64
  deriving DecidableEq

structure EthBlockExecutionCtx where
  parentHash : Bytes32
  parentBeaconBlockRoot : Option Bytes32
  withdrawals : Option (List Withdrawal)
  extraData : Bytes
  deriving DecidableEq

namespace EthEvmConfig

/-- The environment of the child; its own base fee is replaced by the caller. -/
def nextEvmEnv {ε : Type} (stockFee : UInt64) (parent : Header) (attributes : NextBlockEnvAttributes) :
    Res ε EvmEnv := do
  let number ← Res.addU64 parent.number 1
  return { number, beneficiary := attributes.suggestedFeeRecipient
           timestamp := attributes.timestamp, prevRandao := attributes.prevRandao
           gasLimit := attributes.gasLimit, basefee := stockFee }

def contextForBlock (header : Header) (withdrawals : Option (List Withdrawal)) :
    EthBlockExecutionCtx where
  parentHash := header.parentHash
  parentBeaconBlockRoot := header.parentBeaconBlockRoot
  withdrawals := withdrawals
  extraData := header.extraData

def contextForNextBlock (parent : SealedHeader) (attributes : NextBlockEnvAttributes) :
    EthBlockExecutionCtx where
  parentHash := parent.hash
  parentBeaconBlockRoot := attributes.parentBeaconBlockRoot
  withdrawals := attributes.withdrawals
  extraData := attributes.extraData

end EthEvmConfig

/-- The header the stock assembler makes from the environment, the context and the execution's
gas; `other` holds the roots and the fork-dependent fields. -/
def assembleHeader (env : EvmEnv) (ctx : EthBlockExecutionCtx) (gasUsed : UInt64) (other : Bytes) :
    Header where
  parentHash := ctx.parentHash
  number := env.number
  gasLimit := env.gasLimit
  gasUsed := gasUsed
  timestamp := env.timestamp
  mixHash := env.prevRandao
  beneficiary := env.beneficiary
  baseFeePerGas := some env.basefee
  parentBeaconBlockRoot := ctx.parentBeaconBlockRoot
  extraData := ctx.extraData
  other := other

/-! ## The Unicity configuration -/

structure BindingError where
  message : String
  deriving DecidableEq

structure UnicityEvmConfig where
  bound : BoundExecutionInput
  /-- Whether the chain specification selects Cancun at a height and a time. -/
  cancun : UInt64 → UInt64 → Bool
  /-- The fee the stock configuration computes for a child. -/
  stockFee : Header → UInt64 → UInt64

namespace UnicityEvmConfig

variable (H : Bytes → Bytes32) (hashSlow : Header → Bytes32) (config : UnicityEvmConfig)

def prevRandao : Bytes32 :=
  derivePrevRandao H config.bound.input.origin.rootRound config.bound.input.authorizedRound

def beaconRoot : Bytes32 :=
  deriveBeaconRoot H config.bound.input.origin.rootRound config.bound.input.authorizedRound

/-- The timestamp both directions require. -/
def expectedTimestamp : Res BindingError UInt64 :=
  Res.okOr ⟨"timestamp overflow"⟩
    (deriveTimestamp config.bound.input.origin.referenceTime config.bound.parentTimestamp)

/-- The extra data both directions require. -/
def expectedCommitment : Res BindingError Bytes32 :=
  (config.bound.input.inputCommitment H).mapErr fun _ => ⟨"invalid bound root input"⟩

/-- The base fee both directions require. -/
def expectedBaseFee : Res BindingError UInt64 :=
  (nextBaseFee config.bound.parentExecution).mapErr fun _ => ⟨"next base fee derivation failed"⟩

def validateParent (parent : SealedHeader) : Res BindingError Unit := do
  Res.refuse (hashSlow parent.header ≠ parent.hash ∨ parent.hash ≠ config.bound.parentHash ∨
    config.bound.input.parentHash ≠ parent.hash) ⟨"bound parent hash mismatch"⟩
  Res.refuse (config.bound.parentExecution.parentHash ≠ parent.hash)
    ⟨"parent execution identity mismatch"⟩

def validateNextAttributes (attributes : NextBlockEnvAttributes) : Res BindingError Unit := do
  let timestamp ← config.expectedTimestamp
  Res.refuse (attributes.timestamp ≠ timestamp) ⟨"next-block timestamp mismatch"⟩
  Res.refuse (attributes.prevRandao ≠ config.prevRandao H) ⟨"next-block prev_randao mismatch"⟩
  Res.refuse (attributes.parentBeaconBlockRoot ≠ some (config.beaconRoot H))
    ⟨"next-block parent_beacon_block_root mismatch"⟩
  Res.refuse (attributes.gasLimit ≠ config.bound.profile.maxGas) ⟨"next-block gas_limit mismatch"⟩
  Res.refuse (attributes.suggestedFeeRecipient ≠ config.bound.feeCollector)
    ⟨"next-block suggested_fee_recipient mismatch"⟩
  Res.refuse (∃ withdrawals ∈ attributes.withdrawals, withdrawals ≠ [])
    ⟨"next-block withdrawals mismatch"⟩
  Res.refuse (attributes.slotNumber.isSome = true) ⟨"next-block slot_number mismatch"⟩
  let commitment ← config.expectedCommitment H
  Res.refuse (attributes.extraData ≠ commitment.val) ⟨"next-block extra_data mismatch"⟩

def nextEvmEnv (parent : Header) (attributes : NextBlockEnvAttributes) : Res BindingError EvmEnv := do
  config.validateParent hashSlow ⟨parent, hashSlow parent⟩
  config.validateNextAttributes H attributes
  let env ← EthEvmConfig.nextEvmEnv (config.stockFee parent attributes.timestamp) parent attributes
  Res.refuse (config.cancun env.number env.timestamp = false)
    ⟨"only the fixed Cancun profile is supported"⟩
  let basefee ← config.expectedBaseFee
  return { env with basefee, gasLimit := config.bound.profile.maxGas }

def contextForNextBlock (parent : SealedHeader) (attributes : NextBlockEnvAttributes) :
    Res BindingError EthBlockExecutionCtx := do
  config.validateParent hashSlow parent
  config.validateNextAttributes H attributes
  return EthEvmConfig.contextForNextBlock parent attributes

/-- The checks of one `if`: its operands are evaluated in order, and two of them can fail. -/
def contextForBlock (header : Header) (withdrawals : Option (List Withdrawal)) :
    Res BindingError EthBlockExecutionCtx := do
  let diverges : BindingError := ⟨"block header diverges from bound execution input"⟩
  let commitment ← config.expectedCommitment H
  let timestamp ← config.expectedTimestamp
  Res.refuse (config.bound.input.parentHash ≠ config.bound.parentHash ∨
    header.parentHash ≠ config.bound.parentHash) diverges
  let number ← Res.okOr ⟨"parent block number overflow"⟩ (addWithin config.bound.parentNumber 1)
  Res.refuse (header.number ≠ number ∨ header.extraData ≠ commitment.val ∨
    header.timestamp ≠ timestamp ∨ header.mixHash ≠ config.prevRandao H ∨
    header.parentBeaconBlockRoot ≠ some (config.beaconRoot H)) diverges
  let basefee ← config.expectedBaseFee
  Res.refuse (header.baseFeePerGas ≠ some basefee ∨
    header.gasLimit ≠ config.bound.profile.maxGas ∨
    header.beneficiary ≠ config.bound.feeCollector) diverges
  return EthEvmConfig.contextForBlock header withdrawals

end UnicityEvmConfig

/-! ## Bound inputs -/

/-- A bound input is made from its parent in one of two ways. -/
inductive BoundExecutionInput.BoundTo (H : Bytes → Bytes32) (hashSlow : Header → Bytes32)
    (parent : SealedHeader) (bound : BoundExecutionInput) : Prop
  | genesis {input : RootInputV2} {b1 : B1Job} {profile : BlockProfile} {genesisHash : Bytes32}
      {feeCollector : Fixed 20}
      (made : fromValidatedGenesis H hashSlow input b1 profile parent genesisHash feeCollector =
        .ok bound)
  | completed {input : RootInputV2} {b1 : B1Job} {profile : BlockProfile}
      {token : CompletedParent} {feeCollector : Fixed 20}
      (made : fromCompletedParent H hashSlow input b1 profile parent token feeCollector = .ok bound)

namespace BoundExecutionInput

variable {H : Bytes → Bytes32} {hashSlow : Header → Bytes32} {parent : SealedHeader}
  {bound : BoundExecutionInput} {input : RootInputV2} {b1 : B1Job} {profile : BlockProfile}
  {genesisHash : Bytes32} {feeCollector : Fixed 20} {token : CompletedParent}

theorem fromValidatedGenesis_eq_ok :
    fromValidatedGenesis H hashSlow input b1 profile parent genesisHash feeCollector = .ok bound ↔
      parent.hash = hashSlow parent.header ∧ parent.hash = genesisHash ∧ parent.header.number = 0 ∧
        parent.header.gasUsed = 0 ∧ input.parentHash = parent.hash ∧
        b1.checkBound H input profile = .ok () ∧
        ∃ fee outcome, parent.header.baseFeePerGas = some fee ∧
          ParentExecutionOutcome.reconcile profile parent.hash 0 0 fee = .ok outcome ∧
          bound = ⟨input, profile, parent.hash, parent.header.number, parent.header.timestamp,
            outcome, feeCollector, b1⟩ := by
  simp only [fromValidatedGenesis, Res.bind_eq_ok, Res.refuse_eq_ok, Res.okOr_eq_ok, Res.pure_eq_ok, not_or, not_not]
  constructor
  · rintro ⟨_, ⟨hseal, hgenesis, hnumber, hgas, hinput⟩, _, hbound, fee, hfee, outcome, houtcome, rfl⟩
    rw [hgas] at houtcome
    exact ⟨hseal, hgenesis, hnumber, hgas, hinput, hbound, fee, outcome, hfee, houtcome, rfl⟩
  · rintro ⟨hseal, hgenesis, hnumber, hgas, hinput, hbound, fee, outcome, hfee, houtcome, rfl⟩
    exact ⟨(), ⟨hseal, hgenesis, hnumber, hgas, hinput⟩, (), hbound, fee, hfee, outcome,
      by rw [hgas]; exact houtcome, rfl⟩

theorem fromCompletedParent_eq_ok :
    fromCompletedParent H hashSlow input b1 profile parent token feeCollector = .ok bound ↔
      token.Fits hashSlow parent profile ∧ input.parentHash = parent.hash ∧
        b1.checkBound H input profile = .ok () ∧
        bound = ⟨input, profile, parent.hash, parent.header.number, parent.header.timestamp,
          token.outcome, feeCollector, b1⟩ := by
  simp only [fromCompletedParent, Res.bind_eq_ok, Res.refuse_eq_ok, Res.pure_eq_ok,
    CompletedParent.checkedNextBaseFee_eq_ok, not_or, not_not]
  constructor
  · rintro ⟨_, ⟨-, hinput, -, -⟩, _, hbound, _, ⟨hfits, -⟩, rfl⟩
    exact ⟨hfits, hinput, hbound, rfl⟩
  · rintro ⟨hfits, hinput, hbound, rfl⟩
    obtain ⟨hp, hh, -⟩ := CompletedParent.reconcile_eq_ok hfits.outcome
    obtain ⟨fee, hfee, -⟩ := hfits.exists_fee
    exact ⟨(), ⟨hfits.sealed, hinput, hh, hp⟩, (), hbound, fee, ⟨hfits, hfee⟩, rfl⟩

/-- What the parent gives a bound input, whichever way it was made. -/
structure Parented (hashSlow : Header → Bytes32) (parent : SealedHeader)
    (bound : BoundExecutionInput) : Prop where
  sealed : hashSlow parent.header = parent.hash
  parentHash : bound.parentHash = parent.hash
  input : bound.input.parentHash = parent.hash
  number : bound.parentNumber = parent.header.number
  timestamp : bound.parentTimestamp = parent.header.timestamp
  outcome : ∃ system fee, parent.header.baseFeePerGas = some fee ∧
    ParentExecutionOutcome.reconcile bound.profile parent.hash parent.header.gasUsed system fee =
      .ok bound.parentExecution

theorem BoundTo.parented (h : BoundTo H hashSlow parent bound) : Parented hashSlow parent bound := by
  cases h with
  | genesis made =>
    obtain ⟨hseal, -, -, hgas, hinput, -, fee, outcome, hfee, houtcome, rfl⟩ :=
      fromValidatedGenesis_eq_ok.mp made
    exact ⟨hseal.symm, rfl, hinput, rfl, rfl, 0, fee, hfee, hgas.symm ▸ houtcome⟩
  | completed made =>
    obtain ⟨hfits, hinput, -, rfl⟩ := fromCompletedParent_eq_ok.mp made
    exact ⟨hfits.sealed, rfl, hinput, rfl, rfl, _, _, hfits.baseFee, hfits.outcome⟩

theorem Parented.exists_fee (h : Parented hashSlow parent bound) :
    ∃ fee, nextBaseFee bound.parentExecution = .ok fee := by
  obtain ⟨_, _, -, houtcome⟩ := h.outcome
  exact exists_nextBaseFee houtcome

end BoundExecutionInput

/-! ## What each direction requires -/

theorem deriveTimestamp_eq_some {reference parent t : UInt64} (h : deriveTimestamp reference parent = some t) :
    parent.toNat < t.toNat := by
  obtain ⟨least, hleast, rfl⟩ := Option.map_eq_some_iff.mp h
  have hsum := addWithin_eq_some.mp hleast
  rw [toNat_max]
  have hone : (1 : UInt64).toNat = 1 := rfl
  omega

namespace UnicityEvmConfig

variable {H : Bytes → Bytes32} {hashSlow : Header → Bytes32} {config : UnicityEvmConfig}
  {parent : SealedHeader} {attributes : NextBlockEnvAttributes} {env : EvmEnv}
  {ctx : EthBlockExecutionCtx} {header : Header} {withdrawals : Option (List Withdrawal)}

variable (H config) in
/-- The header fields a bound input determines. -/
structure Determines (header : Header) : Prop where
  parentHash : header.parentHash = config.bound.parentHash
  number : config.bound.parentNumber.toNat + 1 = header.number.toNat
  timestamp : deriveTimestamp config.bound.input.origin.referenceTime config.bound.parentTimestamp =
    some header.timestamp
  mixHash : header.mixHash = config.prevRandao H
  beaconRoot : header.parentBeaconBlockRoot = some (config.beaconRoot H)
  extraData : ∃ commitment, config.bound.input.inputCommitment H = .ok commitment ∧
    header.extraData = commitment.val
  baseFee : ∃ fee, nextBaseFee config.bound.parentExecution = .ok fee ∧
    header.baseFeePerGas = some fee
  gasLimit : header.gasLimit = config.bound.profile.maxGas
  beneficiary : header.beneficiary = config.bound.feeCollector

theorem contextForBlock_eq_ok :
    config.contextForBlock H header withdrawals = .ok ctx ↔
      config.bound.input.parentHash = config.bound.parentHash ∧ config.Determines H header ∧
        ctx = EthEvmConfig.contextForBlock header withdrawals := by
  simp only [contextForBlock, expectedCommitment, expectedTimestamp, expectedBaseFee,
    Res.bind_eq_ok, Res.refuse_eq_ok, Res.okOr_eq_ok, Res.mapErr_eq_ok, Res.pure_eq_ok, addWithin_eq_some, not_or, not_not]
  constructor
  · rintro ⟨commitment, hcommitment, _, htime, _, ⟨hinput, hparent⟩, _, hnumber, _,
      ⟨rfl, hextra, rfl, hmix, hbeacon⟩, fee, hfee, _, ⟨hbase, hlimit, hbeneficiary⟩, rfl⟩
    exact ⟨hinput, ⟨hparent, hnumber, htime, hmix, hbeacon, ⟨_, hcommitment, hextra⟩,
      ⟨_, hfee, hbase⟩, hlimit, hbeneficiary⟩, rfl⟩
  · rintro ⟨hinput, h, rfl⟩
    obtain ⟨commitment, hcommitment, hextra⟩ := h.extraData
    obtain ⟨fee, hfee, hbase⟩ := h.baseFee
    exact ⟨commitment, hcommitment, _, h.timestamp, (), ⟨hinput, h.parentHash⟩, _, h.number, (),
      ⟨rfl, hextra, rfl, h.mixHash, h.beaconRoot⟩, fee, hfee, (), ⟨hbase, h.gasLimit, h.beneficiary⟩,
      rfl⟩

/-- One bound input determines these fields completely. -/
theorem Determines.agree {header' : Header} (h : config.Determines H header)
    (h' : config.Determines H header') :
    header.parentHash = header'.parentHash ∧ header.number = header'.number ∧
      header.timestamp = header'.timestamp ∧ header.mixHash = header'.mixHash ∧
      header.parentBeaconBlockRoot = header'.parentBeaconBlockRoot ∧
      header.baseFeePerGas = header'.baseFeePerGas ∧ header.gasLimit = header'.gasLimit ∧
      header.beneficiary = header'.beneficiary ∧ header.extraData = header'.extraData := by
  obtain ⟨commitment, hcommitment, hextra⟩ := h.extraData
  obtain ⟨commitment', hcommitment', hextra'⟩ := h'.extraData
  obtain ⟨fee, hfee, hbase⟩ := h.baseFee
  obtain ⟨fee', hfee', hbase'⟩ := h'.baseFee
  obtain rfl := Except.ok.inj (hcommitment.symm.trans hcommitment')
  obtain rfl := Except.ok.inj (hfee.symm.trans hfee')
  exact ⟨h.parentHash.trans h'.parentHash.symm, UInt64.toNat_inj.mp (h.number.symm.trans h'.number),
    Option.some.inj (h.timestamp.symm.trans h'.timestamp), h.mixHash.trans h'.mixHash.symm,
    h.beaconRoot.trans h'.beaconRoot.symm, hbase.trans hbase'.symm, h.gasLimit.trans h'.gasLimit.symm,
    h.beneficiary.trans h'.beneficiary.symm, hextra.trans hextra'.symm⟩

variable (H config) in
/-- The attributes a bound input determines. -/
structure Admits (attributes : NextBlockEnvAttributes) : Prop where
  timestamp : deriveTimestamp config.bound.input.origin.referenceTime config.bound.parentTimestamp =
    some attributes.timestamp
  prevRandao : attributes.prevRandao = config.prevRandao H
  beaconRoot : attributes.parentBeaconBlockRoot = some (config.beaconRoot H)
  gasLimit : attributes.gasLimit = config.bound.profile.maxGas
  feeRecipient : attributes.suggestedFeeRecipient = config.bound.feeCollector
  withdrawals : ∀ w ∈ attributes.withdrawals, w = []
  slotNumber : attributes.slotNumber = none
  extraData : ∃ commitment, config.bound.input.inputCommitment H = .ok commitment ∧
    attributes.extraData = commitment.val

theorem validateNextAttributes_eq_ok {u : Unit} :
    config.validateNextAttributes H attributes = .ok u ↔ config.Admits H attributes := by
  simp only [validateNextAttributes, expectedCommitment, expectedTimestamp, Res.bind_eq_ok,
    Res.refuse_eq_ok, Res.okOr_eq_ok, Res.mapErr_eq_ok, not_exists, not_and, not_not,
    Option.isSome_iff_ne_none, ne_eq]
  constructor
  · rintro ⟨_, htime, _, rfl, _, hmix, _, hbeacon, _, hlimit, _, hfee, _, hwithdrawals, _, hslot,
      commitment, hcommitment, hextra⟩
    exact ⟨htime, hmix, hbeacon, hlimit, hfee, hwithdrawals, hslot, commitment, hcommitment, hextra⟩
  · rintro ⟨htime, hmix, hbeacon, hlimit, hfee, hwithdrawals, hslot, commitment, hcommitment, hextra⟩
    exact ⟨_, htime, (), rfl, (), hmix, (), hbeacon, (), hlimit, (), hfee, (), hwithdrawals, (), hslot,
      commitment, hcommitment, hextra⟩

theorem validateParent_of_parented (h : BoundExecutionInput.Parented hashSlow parent config.bound) :
    config.validateParent hashSlow parent = .ok () := by
  obtain ⟨_, _, -, houtcome⟩ := h.outcome
  obtain ⟨-, hhash, -⟩ := CompletedParent.reconcile_eq_ok houtcome
  simp only [validateParent, Res.bind_eq_ok, Res.refuse_eq_ok, not_or, not_not]
  exact ⟨(), ⟨h.sealed, h.parentHash.symm, h.input⟩, hhash⟩

theorem nextEvmEnv_eq_ok (h : BoundExecutionInput.Parented hashSlow parent config.bound) :
    config.nextEvmEnv H hashSlow parent.header attributes = .ok env ↔
      config.Admits H attributes ∧ parent.header.number.toNat + 1 = env.number.toNat ∧
        config.cancun env.number env.timestamp = true ∧
        nextBaseFee config.bound.parentExecution = .ok env.basefee ∧
        env.beneficiary = attributes.suggestedFeeRecipient ∧
        env.timestamp = attributes.timestamp ∧ env.prevRandao = attributes.prevRandao ∧
        env.gasLimit = config.bound.profile.maxGas := by
  have hparent := validateParent_of_parented h
  have hseal : (⟨parent.header, hashSlow parent.header⟩ : SealedHeader) = parent := by
    rw [h.sealed]
  have hone : (1 : UInt64).toNat = 1 := rfl
  simp only [nextEvmEnv, EthEvmConfig.nextEvmEnv, expectedBaseFee, hseal, hparent, Res.bind_ok,
    Res.bind_eq_ok, validateNextAttributes_eq_ok, Res.addU64_eq_ok, Res.refuse_eq_ok,
    Res.mapErr_eq_ok, Res.pure_eq_ok, Bool.not_eq_false, hone]
  constructor
  · rintro ⟨_, hadmits, _, ⟨number, hnumber, rfl⟩, _, hcancun, fee, hfee, rfl⟩
    exact ⟨hadmits, hnumber, hcancun, hfee, rfl, rfl, rfl, rfl⟩
  · rintro ⟨hadmits, hnumber, hcancun, hfee, hbeneficiary, htime, hmix, hlimit⟩
    refine ⟨(), hadmits, _, ⟨env.number, hnumber, rfl⟩, (), ?_, env.basefee, hfee, ?_⟩
    · rw [← htime]
      exact hcancun
    · rw [← hbeneficiary, ← htime, ← hmix, ← hlimit]

theorem contextForNextBlock_eq_ok (h : BoundExecutionInput.Parented hashSlow parent config.bound) :
    config.contextForNextBlock H hashSlow parent attributes = .ok ctx ↔
      config.Admits H attributes ∧ ctx = EthEvmConfig.contextForNextBlock parent attributes := by
  simp only [contextForNextBlock, validateParent_of_parented h, Res.bind_ok, Res.bind_eq_ok,
    validateNextAttributes_eq_ok, Res.pure_eq_ok]
  constructor
  · rintro ⟨_, hadmits, rfl⟩
    exact ⟨hadmits, rfl⟩
  · rintro ⟨hadmits, rfl⟩
    exact ⟨(), hadmits, rfl⟩

/-- The header assembled from a build's environment is the one a replay requires. -/
theorem determines_assembleHeader (h : BoundExecutionInput.Parented hashSlow parent config.bound)
    (henv : config.nextEvmEnv H hashSlow parent.header attributes = .ok env)
    (hctx : config.contextForNextBlock H hashSlow parent attributes = .ok ctx) (gasUsed : UInt64)
    (other : Bytes) : config.Determines H (assembleHeader env ctx gasUsed other) := by
  obtain ⟨hadmits, hnumber, -, hfee, hbeneficiary, htime, hmix, hlimit⟩ := (nextEvmEnv_eq_ok h).mp henv
  obtain ⟨-, rfl⟩ := (contextForNextBlock_eq_ok h).mp hctx
  exact
    { parentHash := h.parentHash.symm
      number := by rw [h.number]; exact hnumber
      timestamp := hadmits.timestamp.trans (congrArg some htime.symm)
      mixHash := hmix.trans hadmits.prevRandao
      beaconRoot := hadmits.beaconRoot
      extraData := hadmits.extraData
      baseFee := ⟨_, hfee, rfl⟩
      gasLimit := hlimit
      beneficiary := hbeneficiary.trans hadmits.feeRecipient }

end UnicityEvmConfig

end Ureth.Source.Execution
