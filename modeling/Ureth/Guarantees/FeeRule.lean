import Ureth.Guarantees.HeaderAgreement

/-!
# The base-fee rule

The next fee of a reconciled parent as a function of its ordinary gas, and the descent of the fee
over blocks without ordinary gas.
-/

namespace Ureth.Guarantees
open Ureth.Foundation Ureth.Source.Execution

/-- Every reconciled parent has a next fee. It is between the floor and the cap; at the target it
is the parent's, above it strictly larger unless the parent's is the cap; and it is within one or
the parent's share of it. Of two parents with one profile and one fee the one with more ordinary
gas has no smaller next fee, whatever their system gas; with the same ordinary gas they have the
same. -/
theorem base_fee_rule {p : BlockProfile} {hash : Bytes32} {headerGas systemGas fee : UInt64}
    {outcome : ParentExecutionOutcome}
    (h : ParentExecutionOutcome.reconcile p hash headerGas systemGas fee = .ok outcome) :
    ∃ next, nextBaseFee outcome = .ok next ∧
      p.baseFeeFloor ≤ next ∧ next ≤ maxBaseFee ∧
      (outcome.gas.ordinary.toNat = p.target → next = fee) ∧
      (next.toNat ≤ fee.toNat + max 1 (fee.toNat / p.changeDenominator.toNat) ∧
        fee.toNat ≤ next.toNat + max 1 (fee.toNat / p.changeDenominator.toNat)) ∧
      (p.target < outcome.gas.ordinary.toNat → fee < next ∨ fee = maxBaseFee) ∧
      ∀ hash' headerGas' systemGas' outcome' next',
        ParentExecutionOutcome.reconcile p hash' headerGas' systemGas' fee = .ok outcome' →
        nextBaseFee outcome' = .ok next' →
        (outcome.gas.ordinary ≤ outcome'.gas.ordinary → next ≤ next') ∧
          (outcome.gas.ordinary = outcome'.gas.ordinary → next = next') := by
  obtain ⟨hfits, -, hfloor, hmax, -⟩ := reconcile_iff.mp h
  have hfloor' := UInt64.le_iff_toNat_le.mp hfloor
  have hmax' := UInt64.le_iff_toNat_le.mp hmax
  have hused := ordinary_le_of_reconcile h
  obtain ⟨next, hnext, hvalue⟩ := nextBaseFee_toNat h
  refine ⟨next, hnext, ?_, ?_, ?_, ?_, ?_, ?_⟩
  · rw [UInt64.le_iff_toNat_le, hvalue]
    exact Feedback.floor_le_clamp _
  · rw [UInt64.le_iff_toNat_le, hvalue]
    exact Feedback.clamp_le_cap hfits.valid.floor _
  · intro htarget
    apply UInt64.toNat_inj.mp
    rw [hvalue, htarget, Feedback.adjust_target, Feedback.clamp_of_mem hfloor' hmax']
  · rw [hvalue]
    exact Feedback.clamp_near hfloor' hmax' (Feedback.adjust_le hused) (Feedback.base_le_adjust_add hused)
  · intro habove
    rcases hmax'.lt_or_eq with hlt | heq
    · have hgrows : fee.toNat < Feedback.adjust p.changeDenominator.toNat p.target fee.toNat
          outcome.gas.ordinary.toNat := Feedback.base_lt_adjust habove
      refine .inl (UInt64.lt_iff_toNat_lt.mpr ?_)
      rw [hvalue, Feedback.clamp]
      omega
    · exact .inr (UInt64.toNat_inj.mp heq)
  · intro hash' headerGas' systemGas' outcome' next' h' hnext'
    obtain ⟨found, hfound, hvalue'⟩ := nextBaseFee_toNat h'
    obtain rfl := Except.ok.inj (hfound.symm.trans hnext')
    have hmono : outcome.gas.ordinary ≤ outcome'.gas.ordinary → next ≤ found := by
      intro hle
      rw [UInt64.le_iff_toNat_le, hvalue, hvalue']
      exact Feedback.clamp_mono (Feedback.adjust_mono (UInt64.le_iff_toNat_le.mp hle))
    refine ⟨hmono, fun heq => UInt64.toNat_inj.mp ?_⟩
    rw [hvalue, hvalue', heq]

/-- The genesis of the sample chain used nothing, so its fee stays at the floor. -/
theorem base_fee_rule_genesis :
    ∃ next, nextBaseFee genesisBound.parentExecution = .ok next ∧ evenProfile.baseFeeFloor ≤ next ∧
      next.toNat ≤ 7 + max 1 (7 / 8) := by
  obtain ⟨next, hnext, hfloor, -, -, ⟨hnear, -⟩, -⟩ := base_fee_rule reconcile_evenProfile
  exact ⟨next, hnext, hfloor, hnear⟩

/-! ## Blocks without ordinary gas -/

/-- The fees of a chain of blocks without ordinary gas: the block at height `k` has the hash
`hash k` and all its gas is the system gas `system k`. -/
def idleFees (p : BlockProfile) (hash : ℕ → Bytes32) (system : ℕ → UInt64) (fee : UInt64) :
    ℕ → Accounted UInt64
  | 0 => .ok fee
  | k + 1 => do
    let current ← idleFees p hash system fee k
    let outcome ← ParentExecutionOutcome.reconcile p (hash k) (system k) (system k) current
    nextBaseFee outcome

/-- One block without ordinary gas. -/
theorem idle_step {p : BlockProfile} (hvalid : p.Valid) {fee system : UInt64}
    (hfloor : p.baseFeeFloor ≤ fee) (hmax : fee ≤ maxBaseFee) (hsystem : system ≤ p.systemGas)
    (hash : Bytes32) :
    ∃ outcome next, ParentExecutionOutcome.reconcile p hash system system fee = .ok outcome ∧
      nextBaseFee outcome = .ok next ∧
      next.toNat = Feedback.idle p.changeDenominator.toNat p.baseFeeFloor.toNat fee.toNat := by
  have hzero : (system - system).toNat = 0 := by simp
  have hfits : p.Fits system (system - system) :=
    ⟨hvalid, UInt64.le_iff_toNat_le.mp hsystem, hzero ▸ Nat.zero_le _⟩
  have houtcome : ParentExecutionOutcome.reconcile p hash system system fee = .ok _ :=
    reconcile_iff.mpr ⟨hfits, UInt64.le_refl system, hfloor, hmax, rfl⟩
  obtain ⟨next, hnext, hvalue⟩ := nextBaseFee_toNat houtcome
  refine ⟨_, next, houtcome, hnext, ?_⟩
  rw [hvalue, hzero]
  exact Feedback.clamp_adjust_zero hvalid.target_pos (UInt64.le_iff_toNat_le.mp hmax)

/-- Blocks without ordinary gas never fail, and their fees are an idle descent. -/
theorem idleFees_idles {p : BlockProfile} (hvalid : p.Valid) {fee : UInt64}
    (hfloor : p.baseFeeFloor ≤ fee) (hmax : fee ≤ maxBaseFee) (hash : ℕ → Bytes32)
    {system : ℕ → UInt64} (hsystem : ∀ k, system k ≤ p.systemGas) :
    ∃ fees : ℕ → UInt64, fees 0 = fee ∧ (∀ k, idleFees p hash system fee k = .ok (fees k)) ∧
      Feedback.Idles p.changeDenominator.toNat p.baseFeeFloor.toNat fun k => (fees k).toNat := by
  -- a fee in range has a next fee in range
  have hstep : ∀ current : {f : UInt64 // p.baseFeeFloor ≤ f ∧ f ≤ maxBaseFee}, ∀ k,
      ∃ next : {f : UInt64 // p.baseFeeFloor ≤ f ∧ f ≤ maxBaseFee},
        (do
          let outcome ← ParentExecutionOutcome.reconcile p (hash k) (system k) (system k) current.1
          nextBaseFee outcome) = .ok next.1 ∧
        next.1.toNat =
          Feedback.idle p.changeDenominator.toNat p.baseFeeFloor.toNat current.1.toNat := by
    intro current k
    obtain ⟨outcome, next, houtcome, hnext, hvalue⟩ :=
      idle_step hvalid current.2.1 current.2.2 (hsystem k) (hash k)
    have hlow := UInt64.le_iff_toNat_le.mp current.2.1
    have hhigh := UInt64.le_iff_toNat_le.mp current.2.2
    have hfall : next.toNat ≤ current.1.toNat := hvalue ▸ Feedback.idle_le hlow
    refine ⟨⟨next, ?_, ?_⟩, ?_, hvalue⟩
    · rw [UInt64.le_iff_toNat_le, hvalue]
      exact Feedback.floor_le_idle
    · exact UInt64.le_iff_toNat_le.mpr (hfall.trans hhigh)
    · rw [houtcome]
      exact hnext
  choose step hok hvalue using hstep
  let fees : ℕ → {f : UInt64 // p.baseFeeFloor ≤ f ∧ f ≤ maxBaseFee} := fun k =>
    Nat.rec ⟨fee, hfloor, hmax⟩ (fun k current => step current k) k
  refine ⟨fun k => (fees k).1, rfl, fun k => ?_, UInt64.le_iff_toNat_le.mp hfloor, fun k => hvalue _ _⟩
  induction k with
  | zero => rfl
  | succ k ih =>
    rw [idleFees, ih]
    exact hok _ _

/-- Without ordinary gas the fee never rises and never falls below the larger of the floor and the
smaller of its start and the denominator less one; it reaches that value and stays there. -/
theorem idle_descent {p : BlockProfile} (hvalid : p.validate = .ok p) {fee : UInt64}
    (hfloor : p.baseFeeFloor ≤ fee) (hmax : fee ≤ maxBaseFee) (hash : ℕ → Bytes32)
    {system : ℕ → UInt64} (hsystem : ∀ k, system k ≤ p.systemGas) :
    ∃ fees : ℕ → UInt64, (∀ k, idleFees p hash system fee k = .ok (fees k)) ∧
      (∀ k, fees (k + 1) ≤ fees k) ∧
      (∀ k, max p.baseFeeFloor.toNat (min fee.toNat (p.changeDenominator.toNat - 1)) ≤ (fees k).toNat) ∧
      ∃ n, ∀ k, n ≤ k → (fees k).toNat =
        max p.baseFeeFloor.toNat (min fee.toNat (p.changeDenominator.toNat - 1)) := by
  have hprofile := (BlockProfile.validate_eq_ok.mp hvalid).1
  have hden : 0 < p.changeDenominator.toNat := by
    apply Nat.pos_of_ne_zero
    intro hzero
    exact hprofile.changeDenominator (UInt64.toNat_inj.mp hzero)
  obtain ⟨fees, rfl, hfees, hidles⟩ := idleFees_idles hprofile hfloor hmax hash hsystem
  refine ⟨fees, hfees, ?_, fun k => hidles.rest_le hden k, hidles.eventually hden⟩
  intro k
  exact UInt64.le_iff_toNat_le.mpr (hidles.antitone (Nat.le_succ k))

theorem evenProfile_validate : evenProfile.validate = .ok evenProfile :=
  BlockProfile.validate_eq_ok.mpr ⟨(reconcile_iff.mp reconcile_evenProfile).1.valid, rfl⟩

/-- From a fee of a hundred over a floor of seven and a denominator of eight the descent stops at
the floor, which is the denominator less one. -/
theorem idle_descent_hundred : ∃ fees : ℕ → UInt64,
    (∀ k, idleFees evenProfile (fun _ => .zero 32) (fun _ => 21000) 100 k = .ok (fees k)) ∧
      ∃ n, ∀ k, n ≤ k → (fees k).toNat = 7 := by
  obtain ⟨fees, hfees, -, -, hend⟩ := idle_descent evenProfile_validate
    (by decide : evenProfile.baseFeeFloor ≤ 100) (by decide) (fun _ => .zero 32)
    (fun _ => (by decide : (21000 : UInt64) ≤ evenProfile.systemGas))
  exact ⟨fees, hfees, hend⟩

end Ureth.Guarantees
