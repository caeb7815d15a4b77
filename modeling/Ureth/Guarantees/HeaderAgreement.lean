import Ureth.Source.Execution.Environment
import Ureth.Guarantees.ExecutionInput

/-!
# Build and replay agree on the header

The header a build assembles is one its replay accepts, and a bound input leaves a replay no
choice in the fields it determines.
-/

namespace Ureth.Guarantees
open Ureth.Foundation Ureth.Source.Execution

/-- Attributes that pass the build's checks give, on the fixed fork and below the last height, an
environment and a context, and every header assembled from them passes the replay's checks. Two
headers that pass them agree on every field the bound input determines; their time is after the
parent's and their number is the next. -/
theorem build_replay_agree {H : Bytes → Bytes32} {hashSlow : Header → Bytes32}
    {parent : SealedHeader} {config : UnicityEvmConfig}
    (hbound : BoundExecutionInput.BoundTo H hashSlow parent config.bound) :
    (∀ attributes, config.validateNextAttributes H attributes = .ok () →
      (∀ number, parent.header.number.toNat + 1 = UInt64.toNat number →
        config.cancun number attributes.timestamp = true →
        ∃ env ctx, config.nextEvmEnv H hashSlow parent.header attributes = .ok env ∧
          config.contextForNextBlock H hashSlow parent attributes = .ok ctx) ∧
      ∀ env ctx, config.nextEvmEnv H hashSlow parent.header attributes = .ok env →
        config.contextForNextBlock H hashSlow parent attributes = .ok ctx →
        ∀ gasUsed other withdrawals, ∃ replayed,
          config.contextForBlock H (assembleHeader env ctx gasUsed other) withdrawals =
            .ok replayed) ∧
    ∀ header withdrawals ctx, config.contextForBlock H header withdrawals = .ok ctx →
      parent.header.timestamp < header.timestamp ∧
      header.number.toNat = parent.header.number.toNat + 1 ∧
      ∀ header' withdrawals' ctx', config.contextForBlock H header' withdrawals' = .ok ctx' →
        header.parentHash = header'.parentHash ∧ header.number = header'.number ∧
          header.timestamp = header'.timestamp ∧ header.mixHash = header'.mixHash ∧
          header.parentBeaconBlockRoot = header'.parentBeaconBlockRoot ∧
          header.baseFeePerGas = header'.baseFeePerGas ∧ header.gasLimit = header'.gasLimit ∧
          header.beneficiary = header'.beneficiary ∧ header.extraData = header'.extraData := by
  have hparented := hbound.parented
  refine ⟨?_, ?_⟩
  · intro attributes hvalid
    have hadmits := UnicityEvmConfig.validateNextAttributes_eq_ok.mp hvalid
    refine ⟨?_, ?_⟩
    · intro number hnumber hcancun
      obtain ⟨fee, hfee⟩ := hparented.exists_fee
      let env : EvmEnv :=
        { number, beneficiary := attributes.suggestedFeeRecipient, timestamp := attributes.timestamp
          prevRandao := attributes.prevRandao, gasLimit := config.bound.profile.maxGas
          basefee := fee }
      refine ⟨env, EthEvmConfig.contextForNextBlock parent attributes, ?_, ?_⟩
      · exact (UnicityEvmConfig.nextEvmEnv_eq_ok hparented).mpr
          ⟨hadmits, hnumber, hcancun, hfee, rfl, rfl, rfl, rfl⟩
      · exact (UnicityEvmConfig.contextForNextBlock_eq_ok hparented).mpr ⟨hadmits, rfl⟩
    · intro env ctx henv hctx gasUsed other withdrawals
      have hdetermined :=
        UnicityEvmConfig.determines_assembleHeader hparented henv hctx gasUsed other
      exact ⟨_, UnicityEvmConfig.contextForBlock_eq_ok.mpr
        ⟨hparented.input.trans hparented.parentHash.symm, hdetermined, rfl⟩⟩
  · intro header withdrawals ctx hok
    obtain ⟨-, hheader, -⟩ := UnicityEvmConfig.contextForBlock_eq_ok.mp hok
    refine ⟨?_, ?_, ?_⟩
    · rw [UInt64.lt_iff_toNat_lt, ← hparented.timestamp]
      exact deriveTimestamp_eq_some hheader.timestamp
    · rw [← hparented.number]
      exact hheader.number.symm
    · intro header' withdrawals' ctx' hok'
      obtain ⟨-, hheader', -⟩ := UnicityEvmConfig.contextForBlock_eq_ok.mp hok'
      exact hheader.agree hheader'

/-! ## The first block of a chain -/

/-- Thirty million gas on either side. -/
def evenProfile : BlockProfile := ⟨60000000, 30000000, 7, 2, 8⟩

def genesisHeader : SealedHeader where
  header := { parentHash := .zero 32, number := 0, gasLimit := 60000000, gasUsed := 0,
              timestamp := 1800000000, mixHash := .zero 32, beneficiary := .zero 20,
              baseFeePerGas := some 7, parentBeaconBlockRoot := none, extraData := [], other := [] }
  hash := .literal 32 0x11

/-- A job whose update and records are empty, on a chain without hooks. -/
def emptyJob : B1Job where
  context := { network := 3, rootGenesisId := .literal 32 2, executionChainId := 7,
               profileHash := .literal 32 3, genesisCommitment := .literal 32 4, maxEpochs := 2,
               hook := ⟨.zero 20, 0, 0, .zero 20, 0⟩ }
  update := ByteVec.empty
  records := ByteVec.empty

def genesisBound : BoundExecutionInput where
  input := smallInput
  profile := evenProfile
  parentHash := .literal 32 0x11
  parentNumber := 0
  parentTimestamp := 1800000000
  parentExecution := ⟨evenProfile, .literal 32 0x11, ⟨0, 0, 0⟩, 7⟩
  feeCollector := .literal 20 5
  b1 := emptyJob

def genesisConfig : UnicityEvmConfig := ⟨genesisBound, fun _ _ => true, fun _ _ => 0⟩

/-- The root's time is before genesis, so the block takes the next second. -/
def genesisAttributes : NextBlockEnvAttributes where
  timestamp := 1800000001
  suggestedFeeRecipient := .literal 20 5
  prevRandao := .literal 32 1
  gasLimit := 60000000
  parentBeaconBlockRoot := some (.literal 32 1)
  withdrawals := some []
  extraData := (Fixed.literal 32 1).val
  slotNumber := none

theorem reconcile_evenProfile : ParentExecutionOutcome.reconcile evenProfile (.literal 32 0x11) 0 0 7 =
    .ok genesisBound.parentExecution := rfl

theorem evenProfile_fee : nextBaseFee genesisBound.parentExecution = .ok 7 := by decide

theorem boundTo_genesis : BoundExecutionInput.BoundTo oneWord (fun _ => .literal 32 0x11) genesisHeader
    genesisBound :=
  .genesis (BoundExecutionInput.fromValidatedGenesis_eq_ok.mpr
    ⟨rfl, rfl, rfl, rfl, rfl, by decide, 7, _, rfl, reconcile_evenProfile, rfl⟩)

theorem smallInput_commitment : smallInput.inputCommitment oneWord = .ok (.literal 32 1) :=
  inputCommitment_eq_ok.mpr ⟨⟨_, smallInput_originClass⟩, rfl⟩

theorem genesisAttributes_valid :
    genesisConfig.validateNextAttributes oneWord genesisAttributes = .ok () :=
  UnicityEvmConfig.validateNextAttributes_eq_ok.mpr
    { timestamp := by decide
      prevRandao := rfl
      beaconRoot := rfl
      gasLimit := rfl
      feeRecipient := rfl
      withdrawals := by simp [genesisAttributes]
      slotNumber := rfl
      extraData := ⟨_, smallInput_commitment, rfl⟩ }

/-- The first block after genesis is built and its header accepted. -/
theorem build_replay_agree_genesis :
    ∃ env ctx, genesisConfig.nextEvmEnv oneWord (fun _ => .literal 32 0x11) genesisHeader.header
        genesisAttributes = .ok env ∧
      ∃ replayed, genesisConfig.contextForBlock oneWord (assembleHeader env ctx 21000 []) none =
        .ok replayed := by
  have hbound : BoundExecutionInput.BoundTo oneWord (fun _ => .literal 32 0x11) genesisHeader
      genesisConfig.bound := boundTo_genesis
  obtain ⟨hmade, haccepted⟩ := (build_replay_agree hbound).1 _ genesisAttributes_valid
  obtain ⟨env, ctx, henv, hctx⟩ := hmade 1 rfl rfl
  exact ⟨env, ctx, henv, haccepted env ctx henv hctx 21000 [] none⟩

end Ureth.Guarantees
