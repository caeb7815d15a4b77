import Ureth.Foundation.Bytes

/-!
# Headers, gas accounting and the next base fee

The block-accounting primitives of the execution crate and the completed-parent
token. Fields are 64-bit words as in the source; sums, products and quotients are
computed on their values with the source's overflow checks. The header hash
(`hash_slow`: Keccak-256 of the RLP encoding) is the parameter `hashSlow`.
-/

namespace Ureth.Source.Execution
open Ureth.Foundation

/-- The header fields that modelled functions read; `other` stands for the rest of
what `hash_slow` covers. -/
structure Header where
  parentHash : Bytes32
  number : UInt64
  gasLimit : UInt64
  gasUsed : UInt64
  timestamp : UInt64
  mixHash : Bytes32
  beneficiary : Fixed 20
  baseFeePerGas : Option UInt64
  parentBeaconBlockRoot : Option Bytes32
  extraData : Bytes
  other : Bytes
  deriving DecidableEq

/-- A header with the hash it was sealed under, which may not be its own. -/
structure SealedHeader where
  header : Header
  hash : Bytes32
  deriving DecidableEq

def maxBaseFee : UInt64 := (1 : UInt64) <<< 62

structure BlockProfile where
  maxGas : UInt64
  systemGas : UInt64
  baseFeeFloor : UInt64
  elasticity : UInt64
  changeDenominator : UInt64
  deriving DecidableEq

inductive BlockAccountingError where
  | zeroParameter
  | unsupportedProfile
  | noOrdinaryCapacity
  | overflow
  | capacityExceeded
  | parentGasMismatch
  | invalidParentBaseFee
  | updateHashMismatch
  | recordsHashMismatch
  | b1Profile
  deriving DecidableEq, Repr

abbrev Accounted (α : Type) := Res BlockAccountingError α

namespace BlockProfile

def validate (p : BlockProfile) : Accounted BlockProfile := do
  Res.refuse (p.maxGas = 0 ∨ p.systemGas = 0 ∨ p.baseFeeFloor = 0 ∨ p.elasticity = 0 ∨
    p.changeDenominator = 0) .zeroParameter
  Res.refuse (p.systemGas ≥ p.maxGas) .noOrdinaryCapacity
  Res.refuse (p.baseFeeFloor > maxBaseFee) .invalidParentBaseFee
  Res.refuse (p.elasticity ≠ 2 ∨ (p.maxGas - p.systemGas) % p.elasticity ≠ 0) .unsupportedProfile
  return p

def ordinaryCapacity (p : BlockProfile) : Accounted UInt64 := do
  let _ ← p.validate
  return p.maxGas - p.systemGas

end BlockProfile

structure BlockGasAccounting where
  system : UInt64
  ordinary : UInt64
  header : UInt64
  deriving DecidableEq

def BlockGasAccounting.derive (profile : BlockProfile) (system ordinary : UInt64) :
    Accounted BlockGasAccounting := do
  let capacity ← profile.ordinaryCapacity
  Res.refuse (system > profile.systemGas ∨ ordinary > capacity) .capacityExceeded
  let header ← Res.checkedAdd .overflow system.toNat ordinary.toNat
  Res.refuse (UInt64.ofNat header > profile.maxGas) .capacityExceeded
  return { system, ordinary, header := .ofNat header }

structure ParentExecutionOutcome where
  profile : BlockProfile
  parentHash : Bytes32
  gas : BlockGasAccounting
  baseFee : UInt64
  deriving DecidableEq

def ParentExecutionOutcome.reconcile (profile : BlockProfile) (parentHash : Bytes32)
    (headerGas systemGas baseFee : UInt64) : Accounted ParentExecutionOutcome := do
  let _ ← profile.validate
  Res.refuse (baseFee < profile.baseFeeFloor ∨ baseFee > maxBaseFee) .invalidParentBaseFee
  Res.refuse (headerGas < systemGas) .parentGasMismatch
  let gas ← BlockGasAccounting.derive profile systemGas (headerGas - systemGas)
  Res.refuse (gas.header ≠ headerGas) .parentGasMismatch
  return { profile, parentHash, gas, baseFee }

/-- The next base fee; the product is 128 bits wide, so it fits. -/
def nextBaseFee (parent : ParentExecutionOutcome) : Accounted UInt64 := do
  let profile := parent.profile
  let capacity ← profile.ordinaryCapacity
  let target := (capacity / profile.elasticity).toNat
  Res.refuse (target = 0) .noOrdinaryCapacity
  -- truncated subtraction both ways is `abs_diff`
  let used := parent.gas.ordinary.toNat
  let base := parent.baseFee.toNat
  let next ←
    if used = target then pure base
    else do
      let delta := base * (used - target + (target - used)) / target /
        profile.changeDenominator.toNat
      Res.refuse (2 ^ 64 ≤ delta) .overflow
      if used > target then Res.checkedAdd .overflow base (max delta 1)
      else pure (base - delta)
  return .ofNat (max profile.baseFeeFloor.toNat (min next maxBaseFee.toNat))

/-! ## The completed-parent token -/

/-- The token of a completed build or replay; its content is private to the crate. -/
structure CompletedParent where
  outcome : ParentExecutionOutcome
  deriving DecidableEq

structure LocalParentAccounting where
  blockHash : Bytes32
  profile : BlockProfile
  headerGas : UInt64
  systemGas : UInt64
  ordinaryGas : UInt64
  baseFee : UInt64
  deriving DecidableEq

namespace CompletedParent

def forLocalStorage (token : CompletedParent) : LocalParentAccounting where
  blockHash := token.outcome.parentHash
  profile := token.outcome.profile
  headerGas := token.outcome.gas.header
  systemGas := token.outcome.gas.system
  ordinaryGas := token.outcome.gas.ordinary
  baseFee := token.outcome.baseFee

variable (hashSlow : Header → Bytes32)

def fromLocalStorage (record : LocalParentAccounting) (header : SealedHeader)
    (profile : BlockProfile) : Accounted CompletedParent := do
  Res.refuse (hashSlow header.header ≠ header.hash ∨ record.blockHash ≠ header.hash ∨
    record.profile ≠ profile ∨ header.header.gasLimit ≠ profile.maxGas ∨
    header.header.gasUsed ≠ record.headerGas ∨
    header.header.baseFeePerGas ≠ some record.baseFee) .parentGasMismatch
  let outcome ← ParentExecutionOutcome.reconcile profile record.blockHash record.headerGas
    record.systemGas record.baseFee
  Res.refuse (outcome.gas.ordinary ≠ record.ordinaryGas) .parentGasMismatch
  return ⟨outcome⟩

def checkedNextBaseFee (token : CompletedParent) (parent : SealedHeader) (profile : BlockProfile) :
    Accounted UInt64 := do
  Res.refuse (hashSlow parent.header ≠ parent.hash ∨ token.outcome.parentHash ≠ parent.hash ∨
    token.outcome.profile ≠ profile ∨ parent.header.gasLimit ≠ profile.maxGas ∨
    parent.header.gasUsed ≠ token.outcome.gas.header ∨
    parent.header.baseFeePerGas ≠ some token.outcome.baseFee) .parentGasMismatch
  let checked ← ParentExecutionOutcome.reconcile profile parent.hash parent.header.gasUsed
    token.outcome.gas.system token.outcome.baseFee
  Res.refuse (checked.gas.ordinary ≠ token.outcome.gas.ordinary) .parentGasMismatch
  nextBaseFee checked

/-- The fee of the first block, from the configured genesis. -/
def genesisNextBaseFee (parent : SealedHeader) (genesisHash : Bytes32) (profile : BlockProfile) :
    Accounted UInt64 := do
  Res.refuse (parent.header.number ≠ 0 ∨ parent.hash ≠ genesisHash ∨
    hashSlow parent.header ≠ genesisHash ∨ parent.header.gasUsed ≠ 0) .parentGasMismatch
  let baseFee ← Res.okOr .invalidParentBaseFee parent.header.baseFeePerGas
  let accounting ← ParentExecutionOutcome.reconcile profile genesisHash 0 0 baseFee
  nextBaseFee accounting

/-! ## What the checks give -/

/-- Reconciled accounting carries the figures it was reconciled from. -/
theorem reconcile_eq_ok {profile : BlockProfile} {hash : Bytes32} {headerGas systemGas fee : UInt64}
    {outcome : ParentExecutionOutcome}
    (h : ParentExecutionOutcome.reconcile profile hash headerGas systemGas fee = .ok outcome) :
    outcome.profile = profile ∧ outcome.parentHash = hash ∧ outcome.gas.header = headerGas ∧
      outcome.gas.system = systemGas ∧ outcome.gas.ordinary = headerGas - systemGas ∧
      outcome.baseFee = fee := by
  simp only [ParentExecutionOutcome.reconcile, BlockGasAccounting.derive, Res.bind_eq_ok,
    Res.refuse_eq_ok, Res.pure_eq_ok, not_not] at h
  obtain ⟨_, -, _, -, _, -, gas, ⟨_, -, _, -, header, -, _, -, rfl⟩, _, hheader, rfl⟩ := h
  exact ⟨rfl, rfl, hheader, rfl, rfl, rfl⟩

variable {hashSlow}

/-- A restored token is the record. -/
theorem forLocalStorage_of_fromLocalStorage {record : LocalParentAccounting} {header : SealedHeader}
    {profile : BlockProfile} {token : CompletedParent}
    (h : fromLocalStorage hashSlow record header profile = .ok token) :
    token.forLocalStorage = record := by
  simp only [fromLocalStorage, Res.bind_eq_ok, Res.refuse_eq_ok, Res.pure_eq_ok,
    not_or, not_not] at h
  obtain ⟨_, ⟨-, -, hprofile, -, -, -⟩, outcome, houtcome, _, hordinary, rfl⟩ := h
  obtain ⟨hp, hh, hg, hs, -, hf⟩ := reconcile_eq_ok houtcome
  obtain ⟨_, _, _, _, _, _⟩ := record
  simp only at hprofile hordinary hp hh hg hs hf
  simp only [forLocalStorage, hp, hh, hg, hs, hf, hordinary, hprofile]

end CompletedParent

end Ureth.Source.Execution
