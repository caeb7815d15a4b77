import Ureth.Foundation.Feedback
import Ureth.Source.Execution.Block

/-!
# What accepted accounting is

A profile that validates, the accounting that reconciles with it, and the token that fits a
header. Each is one condition on the figures, so the three readers of a token (the fee check, the
restored record, the bound input) can be compared through it.
-/

namespace Ureth.Source.Execution
open Ureth.Foundation

/-- A supported profile, as its numbers. -/
structure BlockProfile.Valid (p : BlockProfile) : Prop where
  maxGas : p.maxGas ≠ 0
  systemGas : p.systemGas ≠ 0
  baseFeeFloor : p.baseFeeFloor ≠ 0
  changeDenominator : p.changeDenominator ≠ 0
  reserve : p.systemGas.toNat < p.maxGas.toNat
  floor : p.baseFeeFloor.toNat ≤ maxBaseFee.toNat
  elasticity : p.elasticity = 2
  even : (p.maxGas.toNat - p.systemGas.toNat) % 2 = 0

namespace BlockProfile

variable {p q : BlockProfile}

/-- The ordinary share of the gas limit. -/
def capacity (p : BlockProfile) : Nat := p.maxGas.toNat - p.systemGas.toNat

theorem toNat_capacity (h : p.systemGas.toNat < p.maxGas.toNat) :
    (p.maxGas - p.systemGas).toNat = p.capacity := by
  rw [capacity, UInt64.toNat_sub_of_le _ _ (UInt64.le_iff_toNat_le.mpr (Nat.le_of_lt h))]

theorem validate_eq_ok : p.validate = .ok q ↔ p.Valid ∧ q = p := by
  simp only [validate, Res.bind_eq_ok, Res.refuse_eq_ok, Res.pure_eq_ok, not_or,
    not_not, ge_iff_le, gt_iff_lt, UInt64.le_iff_toNat_le, UInt64.lt_iff_toNat_lt, not_le, not_lt]
  constructor
  · rintro ⟨-, ⟨hmax, hsys, hfloor, -, hden⟩, -, hlt, -, hle, -, ⟨hel, heven⟩, rfl⟩
    refine ⟨⟨hmax, hsys, hfloor, hden, hlt, hle, hel, ?_⟩, rfl⟩
    have hnat := congrArg UInt64.toNat heven
    rwa [hel, UInt64.toNat_mod, toNat_capacity hlt] at hnat
  · rintro ⟨h, rfl⟩
    refine ⟨(), ⟨h.maxGas, h.systemGas, h.baseFeeFloor, ?_, h.changeDenominator⟩, (), h.reserve, (),
      h.floor, (), ⟨h.elasticity, ?_⟩, rfl⟩
    · rw [h.elasticity]
      decide
    · apply UInt64.toNat_inj.mp
      rw [h.elasticity, UInt64.toNat_mod, toNat_capacity h.reserve]
      exact h.even

theorem ordinaryCapacity_eq_ok {c : UInt64} :
    p.ordinaryCapacity = .ok c ↔ p.Valid ∧ c = p.maxGas - p.systemGas := by
  simp only [ordinaryCapacity, Res.bind_eq_ok, validate_eq_ok, Res.pure_eq_ok]
  constructor
  · rintro ⟨_, ⟨h, -⟩, rfl⟩
    exact ⟨h, rfl⟩
  · rintro ⟨h, rfl⟩
    exact ⟨p, ⟨h, rfl⟩, rfl⟩

theorem ordinaryCapacity_ok (h : p.Valid) : p.ordinaryCapacity = .ok (p.maxGas - p.systemGas) :=
  ordinaryCapacity_eq_ok.mpr ⟨h, rfl⟩

end BlockProfile

/-! ## Gas -/

/-- Both shares of the gas are within what the profile gives them. -/
structure BlockProfile.Fits (p : BlockProfile) (system ordinary : UInt64) : Prop where
  valid : p.Valid
  system : system.toNat ≤ p.systemGas.toNat
  ordinary : ordinary.toNat ≤ p.capacity

theorem BlockProfile.Fits.sum_le {p : BlockProfile} {system ordinary : UInt64}
    (h : p.Fits system ordinary) : system.toNat + ordinary.toNat ≤ p.maxGas.toNat := by
  have hs := h.system
  have ho := h.ordinary
  have hr := h.valid.reserve
  rw [BlockProfile.capacity] at ho
  omega

theorem derive_eq_ok {p : BlockProfile} {system ordinary : UInt64} {gas : BlockGasAccounting} :
    BlockGasAccounting.derive p system ordinary = .ok gas ↔
      p.Fits system ordinary ∧ gas = ⟨system, ordinary, .ofNat (system.toNat + ordinary.toNat)⟩ := by
  simp only [BlockGasAccounting.derive, Res.bind_eq_ok, BlockProfile.ordinaryCapacity_eq_ok,
    Res.refuse_eq_ok, Res.checkedAdd_eq_ok, Res.pure_eq_ok, not_or, gt_iff_lt,
    UInt64.lt_iff_toNat_lt, not_lt]
  constructor
  · rintro ⟨_, ⟨hvalid, rfl⟩, _, ⟨hs, ho⟩, _, ⟨-, rfl⟩, -, -, rfl⟩
    rw [BlockProfile.toNat_capacity hvalid.reserve] at ho
    exact ⟨⟨hvalid, hs, ho⟩, rfl⟩
  · rintro ⟨h, rfl⟩
    have hsum := h.sum_le
    have hmax := p.maxGas.toNat_lt
    refine ⟨_, ⟨h.valid, rfl⟩, (), ⟨h.system, ?_⟩, _, ⟨by omega, rfl⟩, (), ?_, rfl⟩
    · rw [BlockProfile.toNat_capacity h.valid.reserve]
      exact h.ordinary
    · rw [UInt64.toNat_ofNat', Nat.mod_eq_of_lt (by omega)]
      exact hsum

/-- Accounting reconciles exactly when its split fits the profile and its fee is in range. -/
theorem reconcile_iff {p : BlockProfile} {hash : Bytes32} {headerGas systemGas fee : UInt64}
    {outcome : ParentExecutionOutcome} :
    ParentExecutionOutcome.reconcile p hash headerGas systemGas fee = .ok outcome ↔
      p.Fits systemGas (headerGas - systemGas) ∧ systemGas ≤ headerGas ∧ p.baseFeeFloor ≤ fee ∧
        fee ≤ maxBaseFee ∧
        outcome = ⟨p, hash, ⟨systemGas, headerGas - systemGas, headerGas⟩, fee⟩ := by
  have hsum : systemGas ≤ headerGas →
      UInt64.ofNat (systemGas.toNat + (headerGas - systemGas).toNat) = headerGas := by
    intro hle
    apply UInt64.toNat_inj.mp
    have hlt := headerGas.toNat_lt
    have hnat := UInt64.le_iff_toNat_le.mp hle
    rw [UInt64.toNat_ofNat', UInt64.toNat_sub_of_le _ _ hle, Nat.add_sub_cancel' hnat,
      Nat.mod_eq_of_lt hlt]
  simp only [ParentExecutionOutcome.reconcile, Res.bind_eq_ok, BlockProfile.validate_eq_ok,
    derive_eq_ok, Res.refuse_eq_ok, Res.pure_eq_ok, not_or, gt_iff_lt,
    UInt64.not_lt, not_not]
  constructor
  · rintro ⟨_, -, _, ⟨hfloor, hmax⟩, _, hle, _, ⟨hfits, rfl⟩, _, -, rfl⟩
    exact ⟨hfits, hle, hfloor, hmax, by rw [hsum hle]⟩
  · rintro ⟨hfits, hle, hfloor, hmax, rfl⟩
    refine ⟨p, ⟨hfits.valid, rfl⟩, (), ⟨hfloor, hmax⟩, (), hle, _, ⟨hfits, rfl⟩, (), hsum hle, ?_⟩
    rw [hsum hle]

/-! ## The next fee -/

/-- The ordinary gas at which the fee stays. -/
def BlockProfile.target (p : BlockProfile) : Nat := p.capacity / p.elasticity.toNat

theorem BlockProfile.Valid.capacity_eq {p : BlockProfile} (h : p.Valid) : p.capacity = 2 * p.target := by
  have heven : p.capacity % 2 = 0 := h.even
  have htwo : p.elasticity.toNat = 2 := by rw [h.elasticity]; rfl
  rw [BlockProfile.target, htwo]
  omega

theorem BlockProfile.Valid.target_pos {p : BlockProfile} (h : p.Valid) : 0 < p.target := by
  have hpos : 0 < p.capacity := Nat.sub_pos_of_lt h.reserve
  have hcapacity := h.capacity_eq
  omega

/-- The next fee of a reconciled parent is the clamped adjustment of its own; nothing overflows,
for the fee at most doubles. -/
theorem nextBaseFee_eq {p : BlockProfile} {hash : Bytes32} {headerGas systemGas fee : UInt64}
    {outcome : ParentExecutionOutcome}
    (h : ParentExecutionOutcome.reconcile p hash headerGas systemGas fee = .ok outcome) :
    nextBaseFee outcome = .ok (.ofNat (Feedback.clamp p.baseFeeFloor.toNat maxBaseFee.toNat
      (Feedback.adjust p.changeDenominator.toNat p.target fee.toNat outcome.gas.ordinary.toNat))) := by
  obtain ⟨hfits, -, -, hmax, rfl⟩ := reconcile_iff.mp h
  have hfee : fee.toNat ≤ 2 ^ 62 := UInt64.le_iff_toNat_le.mp hmax
  have hcapacity := hfits.valid.capacity_eq
  have hpos := hfits.valid.target_pos
  have htarget : ((p.maxGas - p.systemGas) / p.elasticity).toNat = p.target := by
    rw [UInt64.toNat_div, BlockProfile.toNat_capacity hfits.valid.reserve, BlockProfile.target]
  have hused : (headerGas - systemGas).toNat ≤ 2 * p.target := hcapacity ▸ hfits.ordinary
  have hdrift : Feedback.drift p.changeDenominator.toNat p.target fee.toNat
      (headerGas - systemGas).toNat ≤ fee.toNat :=
    (Feedback.drift_le hused).trans (Nat.div_le_self _ _)
  simp only [nextBaseFee, BlockProfile.ordinaryCapacity_ok hfits.valid, Res.bind_ok, htarget,
    Feedback.clamp, Feedback.adjust]
  rw [Res.refuse_of_not (by omega), Res.bind_ok]
  unfold Feedback.drift at hdrift ⊢
  split
  · rfl
  · rw [Res.refuse_of_not (by omega), Res.bind_ok]
    split
    · rw [Res.checkedAdd_eq_ok.mpr ⟨by omega, rfl⟩]
      rfl
    · rfl

/-- The next fee as a number: its clamped value is below 2^64. -/
theorem nextBaseFee_toNat {p : BlockProfile} {hash : Bytes32} {headerGas systemGas fee : UInt64}
    {outcome : ParentExecutionOutcome}
    (h : ParentExecutionOutcome.reconcile p hash headerGas systemGas fee = .ok outcome) :
    ∃ next, nextBaseFee outcome = .ok next ∧
      next.toNat = Feedback.clamp p.baseFeeFloor.toNat maxBaseFee.toNat
        (Feedback.adjust p.changeDenominator.toNat p.target fee.toNat outcome.gas.ordinary.toNat) := by
  have hvalid := (reconcile_iff.mp h).1.valid
  refine ⟨_, nextBaseFee_eq h, ?_⟩
  have hcap := Feedback.clamp_le_cap hvalid.floor
    (Feedback.adjust p.changeDenominator.toNat p.target fee.toNat outcome.gas.ordinary.toNat)
  have hlt : maxBaseFee.toNat < 2 ^ 64 := maxBaseFee.toNat_lt
  rw [UInt64.toNat_ofNat', Nat.mod_eq_of_lt (by omega)]

theorem ordinary_le_of_reconcile {p : BlockProfile} {hash : Bytes32} {headerGas systemGas fee : UInt64}
    {outcome : ParentExecutionOutcome}
    (h : ParentExecutionOutcome.reconcile p hash headerGas systemGas fee = .ok outcome) :
    outcome.gas.ordinary.toNat ≤ 2 * p.target := by
  obtain ⟨hfits, -, -, -, rfl⟩ := reconcile_iff.mp h
  rw [← hfits.valid.capacity_eq]
  exact hfits.ordinary

/-- A reconciled parent always has a next fee. -/
theorem exists_nextBaseFee {p : BlockProfile} {hash : Bytes32} {headerGas systemGas fee : UInt64}
    {outcome : ParentExecutionOutcome}
    (h : ParentExecutionOutcome.reconcile p hash headerGas systemGas fee = .ok outcome) :
    ∃ next, nextBaseFee outcome = .ok next :=
  ⟨_, nextBaseFee_eq h⟩

/-! ## Tokens -/

namespace CompletedParent

variable {hashSlow : Header → Bytes32} {token : CompletedParent} {parent : SealedHeader}
  {profile : BlockProfile} {fee : UInt64}

variable (hashSlow) in
/-- The token is the accounting of this sealed header under this profile. -/
structure Fits (token : CompletedParent) (parent : SealedHeader) (profile : BlockProfile) : Prop where
  sealed : hashSlow parent.header = parent.hash
  gasLimit : parent.header.gasLimit = profile.maxGas
  baseFee : parent.header.baseFeePerGas = some token.outcome.baseFee
  outcome : ParentExecutionOutcome.reconcile profile parent.hash parent.header.gasUsed
    token.outcome.gas.system token.outcome.baseFee = .ok token.outcome

/-- The outcome reconciled from the token's figures is the token's own when the split agrees. -/
private theorem outcome_eq {o checked : ParentExecutionOutcome} {hash : Bytes32}
    {gasUsed : UInt64}
    (h : ParentExecutionOutcome.reconcile profile hash gasUsed o.gas.system o.baseFee = .ok checked)
    (hhash : o.parentHash = hash) (hprofile : o.profile = profile) (hgas : gasUsed = o.gas.header)
    (hordinary : checked.gas.ordinary = o.gas.ordinary) : checked = o := by
  obtain ⟨-, -, -, -, rfl⟩ := reconcile_iff.mp h
  obtain ⟨op, oh, ⟨os, oo, og⟩, of⟩ := o
  simp only at hhash hprofile hgas hordinary ⊢
  rw [← hhash, ← hprofile, hordinary, hgas]

theorem checkedNextBaseFee_eq_ok :
    token.checkedNextBaseFee hashSlow parent profile = .ok fee ↔
      token.Fits hashSlow parent profile ∧ nextBaseFee token.outcome = .ok fee := by
  simp only [checkedNextBaseFee, Res.bind_eq_ok, Res.refuse_eq_ok, not_or, not_not]
  constructor
  · rintro ⟨_, ⟨hseal, hhash, hprofile, hlimit, hgas, hfee⟩, checked, hchecked, _, hordinary, hnext⟩
    obtain rfl := outcome_eq hchecked hhash hprofile hgas hordinary
    exact ⟨⟨hseal, hlimit, hfee, hchecked⟩, hnext⟩
  · rintro ⟨h, hnext⟩
    obtain ⟨hp, hh, hg, -, -, -⟩ := reconcile_eq_ok h.outcome
    exact ⟨(), ⟨h.sealed, hh, hp, h.gasLimit, hg.symm, h.baseFee⟩, _, h.outcome, (), rfl, hnext⟩

theorem fromLocalStorage_eq_ok {record : LocalParentAccounting} :
    fromLocalStorage hashSlow record parent profile = .ok token ↔
      token.forLocalStorage = record ∧ token.Fits hashSlow parent profile := by
  constructor
  · intro h
    have hrecord := forLocalStorage_of_fromLocalStorage h
    subst hrecord
    simp only [fromLocalStorage, Res.bind_eq_ok, Res.refuse_eq_ok, Res.pure_eq_ok,
      not_or, not_not] at h
    obtain ⟨_, ⟨hseal, hhash, -, hlimit, hgas, hfee⟩, outcome, houtcome, _, -, rfl⟩ := h
    refine ⟨rfl, hseal, hlimit, hfee, ?_⟩
    rw [hgas, ← hhash]
    exact houtcome
  · rintro ⟨rfl, h⟩
    obtain ⟨hp, hh, hg, -, -, -⟩ := reconcile_eq_ok h.outcome
    simp only [fromLocalStorage, Res.bind_eq_ok, Res.refuse_eq_ok, Res.pure_eq_ok,
      not_or, not_not]
    refine ⟨(), ⟨h.sealed, hh, hp, h.gasLimit, hg.symm, h.baseFee⟩, token.outcome, ?_, (), rfl, rfl⟩
    have houtcome := h.outcome
    rwa [← hh, ← hg] at houtcome

/-- A token that fits a header gives the header a next fee. -/
theorem Fits.exists_fee (h : token.Fits hashSlow parent profile) :
    ∃ fee, nextBaseFee token.outcome = .ok fee ∧
      token.checkedNextBaseFee hashSlow parent profile = .ok fee := by
  obtain ⟨fee, hfee⟩ := exists_nextBaseFee h.outcome
  exact ⟨fee, hfee, checkedNextBaseFee_eq_ok.mpr ⟨h, hfee⟩⟩

theorem genesisNextBaseFee_eq_ok {genesisHash : Bytes32} :
    genesisNextBaseFee hashSlow parent genesisHash profile = .ok fee ↔
      parent.header.number = 0 ∧ parent.hash = genesisHash ∧ hashSlow parent.header = genesisHash ∧
        parent.header.gasUsed = 0 ∧ ∃ base outcome, parent.header.baseFeePerGas = some base ∧
          ParentExecutionOutcome.reconcile profile genesisHash 0 0 base = .ok outcome ∧
          nextBaseFee outcome = .ok fee := by
  simp only [genesisNextBaseFee, Res.bind_eq_ok, Res.refuse_eq_ok, Res.okOr_eq_ok, not_or, not_not]
  constructor
  · rintro ⟨_, ⟨hnumber, hhash, hseal, hgas⟩, base, hbase, outcome, houtcome, hfee⟩
    exact ⟨hnumber, hhash, hseal, hgas, base, outcome, hbase, houtcome, hfee⟩
  · rintro ⟨hnumber, hhash, hseal, hgas, base, outcome, hbase, houtcome, hfee⟩
    exact ⟨(), ⟨hnumber, hhash, hseal, hgas⟩, base, hbase, outcome, houtcome, hfee⟩

/-- A token that fits genesis gives it the fee of genesis: there is no gas to split. -/
theorem fee_unique_genesis {genesisHash : Bytes32} {fee' : UInt64}
    (h : token.checkedNextBaseFee hashSlow parent profile = .ok fee)
    (h' : genesisNextBaseFee hashSlow parent genesisHash profile = .ok fee') : fee = fee' := by
  obtain ⟨hfits, hfee⟩ := checkedNextBaseFee_eq_ok.mp h
  obtain ⟨-, rfl, -, hgas, base, outcome, hbase, houtcome, hfee'⟩ := genesisNextBaseFee_eq_ok.mp h'
  obtain ⟨-, hle, -, -, -⟩ := reconcile_iff.mp hfits.outcome
  rw [hgas] at hle
  have hsystem : token.outcome.gas.system = 0 := UInt64.le_zero_iff.mp hle
  have htoken := hfits.outcome
  rw [hgas, hsystem, Option.some.inj (hfits.baseFee.symm.trans hbase)] at htoken
  rw [← Except.ok.inj (houtcome.symm.trans htoken)] at hfee
  exact Except.ok.inj (hfee.symm.trans hfee')

end CompletedParent

end Ureth.Source.Execution
