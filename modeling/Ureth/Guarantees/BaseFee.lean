import Ureth.Guarantees.HeaderAgreement
import Ureth.Source.Execution.Complete
import Ureth.Source.Payload.Consensus

/-!
# One base fee

A block has one parent and one next fee: building on the parent, replaying a child and validating
a child's header read the same accounting. The accounting survives its durable record, and the
three ways to mint it from an executed block agree.
-/

namespace Ureth.Guarantees
open Ureth.Foundation Ureth.Source.Execution Ureth.Source.Payload

section

variable (H : Bytes → Bytes32) (hashSlow : Header → Bytes32)

/-- `fee` is what a build on `parent` sets and what a replay of a child requires. -/
structure Executes (bound : BoundExecutionInput) (parent : SealedHeader) (fee : UInt64) : Prop where
  build : ∀ (config : UnicityEvmConfig) attributes env, config.bound = bound →
    config.nextEvmEnv H hashSlow parent.header attributes = .ok env → env.basefee = fee
  replay : ∀ (config : UnicityEvmConfig) header withdrawals ctx, config.bound = bound →
    config.contextForBlock H header withdrawals = .ok ctx → header.baseFeePerGas = some fee

/-- `fee` is what consensus expects of a child of `parent`, and what a child it accepts has. -/
structure Validates (consensus : UnicityConsensus) (tokens : UnicityParentAccountings)
    (parent : SealedHeader) (fee : UInt64) : Prop where
  expected : ∀ required t, consensus.expectedBaseFee hashSlow parent tokens = (.ok required, t) →
    required = fee
  accepted : ∀ header u t,
    consensus.validateHeaderAgainstParent hashSlow header parent tokens = (.ok u, t) →
      header.header.baseFeePerGas = some fee

end

section

variable {H : Bytes → Bytes32} {hashSlow : Header → Bytes32} {parent : SealedHeader}
  {bound : BoundExecutionInput} {consensus : UnicityConsensus} {tokens : UnicityParentAccountings}
  {fee : UInt64}

theorem executes_nextBaseFee (h : BoundExecutionInput.Parented hashSlow parent bound)
    (hfee : nextBaseFee bound.parentExecution = .ok fee) : Executes H hashSlow bound parent fee := by
  refine ⟨?_, ?_⟩
  · rintro config attributes env rfl henv
    obtain ⟨-, -, -, hbase, -⟩ := (UnicityEvmConfig.nextEvmEnv_eq_ok h).mp henv
    exact Except.ok.inj (hbase.symm.trans hfee)
  · rintro config header withdrawals ctx rfl hctx
    obtain ⟨-, hheader, -⟩ := UnicityEvmConfig.contextForBlock_eq_ok.mp hctx
    obtain ⟨fee', hfee', hbase⟩ := hheader.baseFee
    rw [hbase, Except.ok.inj (hfee'.symm.trans hfee)]

theorem validates_of_expected
    (h : ∀ required t, consensus.expectedBaseFee hashSlow parent tokens = (.ok required, t) →
      required = fee) : Validates hashSlow consensus tokens parent fee := by
  refine ⟨h, ?_⟩
  intro header u t hok
  obtain ⟨required, t', hrequired, hheader⟩ := UnicityConsensus.validateHeaderAgainstParent_eq_ok hok
  rw [hheader, h required t' hrequired]

end

/-- The three ways to mint the token of the block sealed as `sealed`, by a configuration of `bound`
whose execution of the block left `system` in the slot. -/
inductive MintedBy {σ τ ρ : Type} (P : Primitives) (hashSlow : Header → Bytes32) (M : Machine σ)
    (N : EthNode σ τ ρ) (bound : BoundExecutionInput) (sealed : SealedHeader) (system : UInt64) :
    CompletedParent → Prop
  | build {config : UnicityEvmConfig} {parent : SealedHeader} {attributes : NextBlockEnvAttributes}
      {inner : σ} {transactions : List (RecoveredTx τ)} {slot : Option UInt64}
      {block : RecoveredBlock τ} {token : CompletedParent} (job : config.bound = bound)
      (built : buildComplete P hashSlow M N config parent attributes inner transactions slot =
        (.ok (block, token), some system))
      (same : block.sealed = sealed) : MintedBy P hashSlow M N bound sealed system token
  | replay {config : UnicityEvmConfig} {inner : σ} {slot : Option UInt64} {block : RecoveredBlock τ}
      {token : CompletedParent} (job : config.bound = bound)
      (replayed : replayComplete P hashSlow M N config inner block slot = (.ok token, some system))
      (same : block.sealed = sealed) : MintedBy P hashSlow M N bound sealed system token
  | slot {config : UnicityEvmConfig} {token : CompletedParent} (job : config.bound = bound)
      (completed : config.completedParentFor sealed (some system) = .ok token) :
      MintedBy P hashSlow M N bound sealed system token

theorem MintedBy.minted {σ τ ρ : Type} {P : Primitives} {hashSlow : Header → Bytes32} {M : Machine σ}
    {N : EthNode σ τ ρ} (hN : ∀ env ctx, (N.createExecutor env ctx).Receipted)
    {bound : BoundExecutionInput} {sealed : SealedHeader} {system : UInt64} {token : CompletedParent}
    (h : MintedBy P hashSlow M N bound sealed system token) :
    Minted bound.profile sealed system token := by
  cases h with
  | build job built same =>
    subst job same
    exact minted_of_buildComplete hN built
  | replay job replayed same =>
    subst job same
    exact minted_of_replayComplete hN replayed
  | slot job completed =>
    subst job
    exact minted_of_completedParentFor completed

/-- For a bound input made from a token the build, the replay and consensus agree on the fee the
token gives its parent header, and for one made from genesis on the fee of genesis. A token that
gives a header a fee is restored from its record. A record that restores has the header's hash,
gas and fee and the given profile, splits the gas within the profile's shares, and its token gives
the header a fee. And the tokens a build, a replay and a configuration's slot mint for one block
are one token, if the executions left the same system gas. -/
theorem one_base_fee (H : Bytes → Bytes32) (hashSlow : Header → Bytes32) :
    (∀ input b1 profile parent token feeCollector bound,
      BoundExecutionInput.fromCompletedParent H hashSlow input b1 profile parent token feeCollector =
        .ok bound →
      ∃ fee, token.checkedNextBaseFee hashSlow parent profile = .ok fee ∧
        Executes H hashSlow bound parent fee ∧
        ∀ consensus tokens, consensus.profile = profile →
          (∀ lease t, UnicityParentAccountings.resolve hashSlow parent
              (consensus.chainSpec.chainId, consensus.chainSpec.genesisHash) profile tokens =
            (.ok lease, t) → lease.token = token) →
          Validates hashSlow consensus tokens parent fee) ∧
    (∀ input b1 profile parent genesisHash feeCollector bound,
      BoundExecutionInput.fromValidatedGenesis H hashSlow input b1 profile parent genesisHash
        feeCollector = .ok bound →
      ∃ fee, CompletedParent.genesisNextBaseFee hashSlow parent genesisHash profile = .ok fee ∧
        Executes H hashSlow bound parent fee ∧
        ∀ consensus tokens, consensus.profile = profile →
          consensus.chainSpec.genesisHash = genesisHash →
          Validates hashSlow consensus tokens parent fee) ∧
    (∀ token header profile fee, token.checkedNextBaseFee hashSlow header profile = .ok fee →
      CompletedParent.fromLocalStorage hashSlow token.forLocalStorage header profile = .ok token) ∧
    (∀ record header profile token,
      CompletedParent.fromLocalStorage hashSlow record header profile = .ok token →
      record.blockHash = header.hash ∧ record.headerGas = header.header.gasUsed ∧
        header.header.baseFeePerGas = some record.baseFee ∧ record.profile = profile ∧
        record.systemGas.toNat + record.ordinaryGas.toNat = record.headerGas.toNat ∧
        profile.Fits record.systemGas record.ordinaryGas ∧
        ∃ fee, token.checkedNextBaseFee hashSlow header profile = .ok fee) ∧
    ∀ (σ τ ρ : Type) (P : Primitives) (M : Machine σ) (N : EthNode σ τ ρ),
      (∀ env ctx, (N.createExecutor env ctx).Receipted) →
      ∀ bound sealed system token token', MintedBy P hashSlow M N bound sealed system token →
        MintedBy P hashSlow M N bound sealed system token' → token = token' := by
  refine ⟨?_, ?_, ?_, ?_, ?_⟩
  · intro input b1 profile parent token feeCollector bound hmade
    have hparented := (BoundExecutionInput.BoundTo.completed hmade).parented
    obtain ⟨hfits, -, -, rfl⟩ := BoundExecutionInput.fromCompletedParent_eq_ok.mp hmade
    obtain ⟨fee, hnext, hfee⟩ := hfits.exists_fee
    refine ⟨fee, hfee, executes_nextBaseFee hparented hnext, ?_⟩
    rintro consensus tokens rfl htoken
    refine validates_of_expected fun required t hrequired => ?_
    rcases UnicityConsensus.expectedBaseFee_eq_ok hrequired with
      ⟨-, -, hgenesis⟩ | ⟨lease, t', hlease, hrequired⟩
    · exact (CompletedParent.fee_unique_genesis hfee hgenesis).symm
    · rw [htoken lease t' hlease] at hrequired
      exact Except.ok.inj (hrequired.symm.trans hfee)
  · intro input b1 profile parent genesisHash feeCollector bound hmade
    have hparented := (BoundExecutionInput.BoundTo.genesis hmade).parented
    obtain ⟨hseal, rfl, hnumber, hgas, -, -, base, outcome, hbase, houtcome, rfl⟩ :=
      BoundExecutionInput.fromValidatedGenesis_eq_ok.mp hmade
    obtain ⟨fee, hnext⟩ := exists_nextBaseFee houtcome
    have hfee : CompletedParent.genesisNextBaseFee hashSlow parent parent.hash profile = .ok fee :=
      CompletedParent.genesisNextBaseFee_eq_ok.mpr
        ⟨hnumber, rfl, hseal.symm, hgas, base, outcome, hbase, houtcome, hnext⟩
    refine ⟨fee, hfee, executes_nextBaseFee hparented hnext, ?_⟩
    rintro consensus tokens rfl hgenesis
    refine validates_of_expected fun required t hrequired => ?_
    rcases UnicityConsensus.expectedBaseFee_eq_ok hrequired with
      ⟨-, -, hrequired⟩ | ⟨lease, t', -, hrequired⟩
    · rw [hgenesis] at hrequired
      exact Except.ok.inj (hrequired.symm.trans hfee)
    · exact CompletedParent.fee_unique_genesis hrequired hfee
  · intro token header profile fee hfee
    obtain ⟨hfits, -⟩ := CompletedParent.checkedNextBaseFee_eq_ok.mp hfee
    exact CompletedParent.fromLocalStorage_eq_ok.mpr ⟨rfl, hfits⟩
  · intro record header profile token hrestored
    obtain ⟨rfl, hfits⟩ := CompletedParent.fromLocalStorage_eq_ok.mp hrestored
    obtain ⟨fee, -, hfee⟩ := hfits.exists_fee
    obtain ⟨hshares, hle, -, -, houtcome⟩ := reconcile_iff.mp hfits.outcome
    have hsum := UInt64.toNat_sub_of_le _ _ hle
    have hnat := UInt64.le_iff_toNat_le.mp hle
    obtain ⟨hprofile, hhash, hgas, -, hordinary, -⟩ := CompletedParent.reconcile_eq_ok hfits.outcome
    refine ⟨hhash, hgas, hfits.baseFee, hprofile, ?_, ?_, fee, hfee⟩
    · show token.outcome.gas.system.toNat + token.outcome.gas.ordinary.toNat =
        token.outcome.gas.header.toNat
      rw [hordinary, hgas, hsum]
      omega
    · show profile.Fits token.outcome.gas.system token.outcome.gas.ordinary
      rw [hordinary]
      exact hshares
  · intro σ τ ρ P M N hN bound sealed system token token' h h'
    exact (h.minted hN).unique (h'.minted hN)

/-- On the first block after genesis all three read the floor. -/
theorem one_base_fee_genesis :
    CompletedParent.genesisNextBaseFee (fun _ => .literal 32 0x11) genesisHeader (.literal 32 0x11)
        evenProfile = .ok 7 ∧
      Executes oneWord (fun _ => .literal 32 0x11) genesisBound genesisHeader 7 := by
  have hmade : BoundExecutionInput.fromValidatedGenesis oneWord (fun _ => .literal 32 0x11) smallInput
      emptyJob evenProfile genesisHeader (.literal 32 0x11) (.literal 20 5) = .ok genesisBound :=
    BoundExecutionInput.fromValidatedGenesis_eq_ok.mpr
      ⟨rfl, rfl, rfl, rfl, rfl, by decide, 7, _, rfl, reconcile_evenProfile, rfl⟩
  obtain ⟨fee, hgenesis, hexecutes, -⟩ := (one_base_fee oneWord _).2.1 _ _ _ _ _ _ _ hmade
  have hseven : CompletedParent.genesisNextBaseFee (fun _ => .literal 32 0x11) genesisHeader
      (.literal 32 0x11) evenProfile = .ok 7 :=
    CompletedParent.genesisNextBaseFee_eq_ok.mpr
      ⟨rfl, rfl, rfl, rfl, 7, _, rfl, reconcile_evenProfile, evenProfile_fee⟩
  obtain rfl := Except.ok.inj (hgenesis.symm.trans hseven)
  exact ⟨hgenesis, hexecutes⟩

end Ureth.Guarantees
