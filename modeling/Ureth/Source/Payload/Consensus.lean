import Ureth.Source.Payload.TokensSpec

/-!
# Headers against their parents

`UnicityConsensus` checks a header against its parent with the stock Ethereum rules, but for the
base fee: that one is the fee of the parent's token, or of genesis. The fork schedule and the
EIP-4844 rule of the chain specification are parameters.
-/

namespace Ureth.Source.Payload
open Ureth.Foundation Ureth.Source.Execution

inductive ConsensusError where
  | parentHashMismatch (got expected : Bytes32)
  | parentBlockNumberMismatch (parentBlockNumber blockNumber : UInt64)
  | timestampIsInPast (parentTimestamp timestamp : UInt64)
  | gasLimitInvalidIncrease (parentGasLimit childGasLimit : UInt64)
  | gasLimitInvalidDecrease (parentGasLimit childGasLimit : UInt64)
  | gasLimitInvalidMinimum (childGasLimit : UInt64)
  | other (error : ParentAccountingUnavailable)
  | baseFeeMissing
  | baseFeeDiff (got expected : UInt64)
  | blob (reason : String)
  deriving DecidableEq

def gasLimitBoundDivisor : UInt64 := 1024
def minimumGasLimit : UInt64 := 5000

structure ChainSpec where
  chainId : UInt64
  genesisHash : Bytes32
  isLondonActive : UInt64 → Bool
  elasticityMultiplier : UInt64 → UInt64
  /-- `validate_against_parent_4844`, where the time has blob parameters. -/
  validateBlobs : Header → Header → Except String Unit

structure UnicityConsensus where
  chainSpec : ChainSpec
  profile : BlockProfile

def validateAgainstParentHashNumber (header : Header) (parent : SealedHeader) :
    Res ConsensusError Unit := do
  Res.refuse (parent.hash ≠ header.parentHash) (.parentHashMismatch header.parentHash parent.hash)
  let number ← Res.okOr (.parentBlockNumberMismatch parent.header.number (.ofNat (2 ^ 64 - 1)))
    (addWithin parent.header.number 1)
  Res.refuse (number ≠ header.number)
    (.parentBlockNumberMismatch parent.header.number header.number)

def validateAgainstParentTimestamp (header parent : Header) : Res ConsensusError Unit :=
  Res.refuse (header.timestamp ≤ parent.timestamp) (.timestampIsInPast parent.timestamp header.timestamp)

/-- The product is on 64 bits and not checked. -/
def ChainSpec.parentGasLimit (spec : ChainSpec) (header parent : Header) : Res ConsensusError UInt64 :=
  if spec.isLondonActive parent.number = false ∧ spec.isLondonActive header.number = true then do
    let limit ← Res.u64 (parent.gasLimit.toNat * (spec.elasticityMultiplier header.timestamp).toNat)
    return .ofNat limit
  else .ok parent.gasLimit

def validateAgainstParentGasLimit (spec : ChainSpec) (header parent : Header) :
    Res ConsensusError Unit := do
  let limit ← spec.parentGasLimit header parent
  if limit < header.gasLimit then
    Res.refuse (limit / gasLimitBoundDivisor ≤ header.gasLimit - limit)
      (.gasLimitInvalidIncrease limit header.gasLimit)
  else
    Res.refuse (limit / gasLimitBoundDivisor ≤ limit - header.gasLimit)
      (.gasLimitInvalidDecrease limit header.gasLimit)
  Res.refuse (header.gasLimit < minimumGasLimit) (.gasLimitInvalidMinimum header.gasLimit)

section

variable (hashSlow : Header → Bytes32) (consensus : UnicityConsensus)

/-- The fee a child of `parent` must have. The lease is dropped once its fee is read. -/
def UnicityConsensus.expectedBaseFee (parent : SealedHeader) : Tokens ConsensusError UInt64 :=
  if parent.header.number = 0 ∧ parent.hash = consensus.chainSpec.genesisHash then
    Run.lift ((CompletedParent.genesisNextBaseFee hashSlow parent consensus.chainSpec.genesisHash
      consensus.profile).mapErr fun _ => .other ⟨parent.hash⟩)
  else do
    let lease ← Run.mapErr ConsensusError.other (UnicityParentAccountings.resolve hashSlow parent
      (consensus.chainSpec.chainId, consensus.chainSpec.genesisHash) consensus.profile)
    UnicityParentAccountings.unpin lease.hash
    return lease.nextFee

def UnicityConsensus.validateHeaderAgainstParent (header parent : SealedHeader) :
    Tokens ConsensusError Unit := do
  Run.lift (validateAgainstParentHashNumber header.header parent)
  Run.lift (validateAgainstParentTimestamp header.header parent.header)
  Run.lift (validateAgainstParentGasLimit consensus.chainSpec header.header parent.header)
  let expected ← consensus.expectedBaseFee hashSlow parent
  let got ← Run.lift (Res.okOr .baseFeeMissing header.header.baseFeePerGas)
  Run.refuse (got ≠ expected) (.baseFeeDiff got expected)
  Run.lift ((consensus.chainSpec.validateBlobs header.header parent.header).mapError
    (.error ∘ .blob))

end

/-! ## The fee that is required -/

variable {hashSlow : Header → Bytes32} {consensus : UnicityConsensus} {parent header : SealedHeader}
  {tokens tokens' : UnicityParentAccountings} {fee : UInt64}

/-- A lease carries the fee of its own token. -/
theorem resolve_eq_ok {identity : Identity} {profile : BlockProfile} {lease : ParentAccountingLease}
    (h : UnicityParentAccountings.resolve hashSlow parent identity profile tokens =
      (.ok lease, tokens')) :
    lease.token.checkedNextBaseFee hashSlow parent profile = .ok lease.nextFee := by
  have hlease : ∃ t t', UnicityParentAccountings.lease hashSlow parent identity profile t =
      (.ok lease, t') := by
    unfold UnicityParentAccountings.resolve at h
    split at h
    · exact ⟨_, _, h⟩
    · obtain ⟨_, t, -, hlease⟩ := Run.bind_eq_ok.mp h
      exact ⟨t, _, hlease⟩
  obtain ⟨t, t', hlease⟩ := hlease
  unfold UnicityParentAccountings.lease at hlease
  split at hlease
  next l inner hl =>
    obtain ⟨hval, -⟩ := Prod.mk.inj hlease
    obtain rfl := Except.ok.inj hval
    obtain ⟨e, -, -, -, hfee, -, htoken, -⟩ := leaseToken_eq_ok.mp hl
    rw [htoken]
    exact hfee
  next => cases (Prod.mk.inj hlease).1

namespace UnicityConsensus

/-- The required fee is the fee of genesis, or the fee of the token that is resolved. -/
theorem expectedBaseFee_eq_ok (h : consensus.expectedBaseFee hashSlow parent tokens = (.ok fee, tokens')) :
    (parent.header.number = 0 ∧ parent.hash = consensus.chainSpec.genesisHash ∧
      CompletedParent.genesisNextBaseFee hashSlow parent consensus.chainSpec.genesisHash
        consensus.profile = .ok fee) ∨
    ∃ lease t, UnicityParentAccountings.resolve hashSlow parent
        (consensus.chainSpec.chainId, consensus.chainSpec.genesisHash) consensus.profile tokens =
          (.ok lease, t) ∧
      lease.token.checkedNextBaseFee hashSlow parent consensus.profile = .ok fee := by
  unfold expectedBaseFee at h
  split at h
  next hgenesis =>
    obtain ⟨hfee, -⟩ := Run.lift_eq_ok.mp h
    exact .inl ⟨hgenesis.1, hgenesis.2, Res.mapErr_eq_ok.mp hfee⟩
  next =>
    obtain ⟨lease, t, hlease, hrest⟩ := Run.bind_eq_ok.mp h
    obtain ⟨_, _, -, hpure⟩ := Run.bind_eq_ok.mp hrest
    obtain ⟨rfl, -⟩ := Run.pure_eq_ok.mp hpure
    have hresolve := Run.mapErr_eq_ok.mp hlease
    exact .inr ⟨lease, t, hresolve, resolve_eq_ok hresolve⟩

/-- A header that passes has the required fee. -/
theorem validateHeaderAgainstParent_eq_ok {u : Unit}
    (h : consensus.validateHeaderAgainstParent hashSlow header parent tokens = (.ok u, tokens')) :
    ∃ fee t, consensus.expectedBaseFee hashSlow parent tokens = (.ok fee, t) ∧
      header.header.baseFeePerGas = some fee := by
  simp only [validateHeaderAgainstParent, Run.bind_eq_ok, Run.lift_eq_ok, Run.refuse_eq_ok,
    Res.okOr_eq_ok, not_not] at h
  obtain ⟨_, _, ⟨-, rfl⟩, _, _, ⟨-, rfl⟩, _, _, ⟨-, rfl⟩, fee, t, hfee, got, _, ⟨hgot, rfl⟩, _, _,
    ⟨rfl, rfl⟩, -, -⟩ := h
  exact ⟨got, _, hfee, hgot⟩

end UnicityConsensus

end Ureth.Source.Payload
