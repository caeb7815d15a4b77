import Ureth.Source.Execution.TransitionSpec

/-!
# System gas accounting

Five debits make up the system gas of a block: the two admissions and the three registry calls.
-/

namespace Ureth.Guarantees
open Ureth.Foundation Ureth.Source.Execution

/-- The transition makes no undefined sum or difference on any path. Where it succeeds, the
admissions fit the limit one after the other; the three calls are given exactly what the debits
before them left; the total is the sum of the five debits and within the limit; the commitment
covers the admissions, `open` and `importRootRecords`, and `finalize` is given that commitment; and
a machine that reports other refunds leads to the same calls, the same state and the same figures. -/
theorem system_gas_accounted {σ : Type} (P : Primitives) (M : Machine σ) (input : RootInputV2)
    (update : UpdateInput) (config : ExecutionConfig) :
    (∀ s, (executeRegistryTransitionOnDb P M input update config s).1.NoPanic) ∧
    ∀ s t calls r,
      executeRegistryTransitionOnDb P M.recorded input update config (s, []) = (.ok r, (t, calls)) →
      (∃ binding admitted rest records,
        admitUpdate P.sha256 P.secp update.bytes config.b1 binding config.systemGasLimit =
          .ok admitted ∧
        config.systemGasLimit.toNat = admitted.gas.toNat + UInt64.toNat rest ∧
        admitImport P.sha256 update.records input.rootRecordsHash rest = .ok records ∧
        r.recordsAdmissionGas = records.gas ∧
        r.admissionGas.toNat = admitted.gas.toNat + records.gas.toNat ∧
        r.totalGasSpent.toNat = admitted.gas.toNat + records.gas.toNat + r.openGasSpent.toNat +
          r.importGasSpent.toNat + r.finalizeGasSpent.toNat) ∧
      r.totalGasSpent.toNat ≤ config.systemGasLimit.toNat ∧
      (∃ opening importing finalizing : SystemTx, calls = [opening, importing, finalizing] ∧
        config.systemGasLimit.toNat = r.admissionGas.toNat + opening.gasLimit.toNat ∧
        config.systemGasLimit.toNat =
          r.admissionGas.toNat + r.openGasSpent.toNat + importing.gasLimit.toNat ∧
        config.systemGasLimit.toNat = r.admissionGas.toNat + r.openGasSpent.toNat +
          r.importGasSpent.toNat + finalizing.gasLimit.toNat ∧
        finalizing.data = P.encoders.finalize input.authorizedRound r.registryCommitment) ∧
      (∃ staged : UInt64,
        staged.toNat = r.admissionGas.toNat + r.openGasSpent.toNat + r.importGasSpent.toNat ∧
        r.registryCommitment = systemOutcomeCommitment P.sha256 staged r.inputCommitment) ∧
      ∀ refund, ∃ r',
        executeRegistryTransitionOnDb P (M.withRefunds refund).recorded input update config (s, []) =
          (.ok r', (t, calls)) ∧ r'.unrefunded = r.unrefunded := by
  refine ⟨safe_executeRegistryTransitionOnDb, ?_⟩
  intro s t calls r hrun
  have hrefunds : ∀ refund, ∃ r',
      executeRegistryTransitionOnDb P (M.withRefunds refund).recorded input update config (s, []) =
        (.ok r', (t, calls)) ∧ r'.unrefunded = r.unrefunded := by
    intro refund
    rw [Machine.recorded_withRefunds]
    exact executeRegistryTransitionOnDb_withRefunds _ hrun
  obtain ⟨-, -, shardConf, mid, ⟨admitted, records, gas⟩, prepared, hparent, hadmission, hprepared,
    hcalls⟩ := executeRegistryTransitionOnDb_eq_ok.mp hrun
  obtain ⟨binding, rest, hadmitted, hrest, hrecords, hgas⟩ := admitBoth_eq_ok hadmission
  obtain ⟨c, total, hchains, hmade, rfl⟩ := executeCalls_eq_ok.mp hcalls
  have hmid : mid.2 = [] := (keeps_checkParent (M.readsKeep_record []) (s, []) rfl).1 _ _ hparent
  have hlog := hmade.calls
  rw [hmid, List.nil_append] at hlog
  have hround : prepared.n = input.authorizedRound := by
    simp only [prepareTransition, Res.bind_eq_ok, Res.pure_eq_ok] at hprepared
    obtain ⟨_, -, _, -, _, -, _, -, _, -, rfl⟩ := hprepared
    rfl
  have hstaged := hchains.staged
  refine ⟨⟨binding, admitted, rest, records, hadmitted, hrest, hrecords, rfl, hgas, ?_⟩,
    hchains.within, ⟨_, _, _, hlog, hchains.openLimit, hchains.importLimit, ?_, ?_⟩,
    ⟨c.stagedGas, hstaged, rfl⟩, ?_⟩
  · show total.toNat = _ + c.opened.totalGasSpent.toNat + c.imported.totalGasSpent.toNat +
      c.finalized.totalGasSpent.toNat
    rw [hchains.sum, hstaged, hgas]
  · show config.systemGasLimit.toNat = gas.toNat + c.opened.totalGasSpent.toNat +
      c.imported.totalGasSpent.toNat + c.finalizeLimit.toNat
    rw [hchains.finalizeLimit, hstaged]
  · rw [hround]
    rfl
  · exact hrefunds

end Ureth.Guarantees
