import Ureth.Foundation.Triple
import Ureth.Source.Execution.Transition

/-!
# The accounting of the system prefix

Each debit of the registry transition and the gas each call is given, read off a machine that
records its calls. The transition never panics, and what the calls report as refunded reaches
none of its figures.
-/

namespace Ureth.Source.Execution
open Ureth.Foundation Ureth.Source.B1

variable {σ : Type}

/-! ## Machines -/

namespace Machine

/-- The machine with a record of the system calls it was asked for. -/
def recorded (M : Machine σ) : Machine (σ × List SystemTx) where
  basic a s := ((M.basic a s.1).1, (M.basic a s.1).2, s.2)
  storage a w s := ((M.storage a w s.1).1, (M.storage a w s.1).2, s.2)
  runSystemCall env tx s :=
    ((M.runSystemCall env tx s.1).1, (M.runSystemCall env tx s.1).2, s.2 ++ [tx])
  commit s := (M.commit s.1, s.2)
  discard s := (M.discard s.1, s.2)

/-- The machine with other refunds. -/
def withRefunds (M : Machine σ) (refund : SystemTx → σ → UInt64) : Machine σ where
  basic := M.basic
  storage := M.storage
  runSystemCall env tx s :=
    ((M.runSystemCall env tx s).1.map fun r => { r with innerRefunded := refund tx s },
      (M.runSystemCall env tx s).2)
  commit := M.commit
  discard := M.discard

theorem recorded_withRefunds (M : Machine σ) (refund : SystemTx → σ → UInt64) :
    (M.withRefunds refund).recorded = M.recorded.withRefunds fun tx s => refund tx s.1 := rfl

/-- No call reports more gas than it was given. -/
def SpendsWithin (M : Machine σ) : Prop :=
  ∀ env tx s r t, M.runSystemCall env tx s = (.ok r, t) → r.totalGasSpent.toNat ≤ tx.gasLimit.toNat

end Machine

/-- The figures of a transition without its refunds. -/
def ExecutionResult.unrefunded (r : ExecutionResult) : ExecutionResult :=
  { r with openGasRefunded := 0, importGasRefunded := 0, finalizeGasRefunded := 0 }

variable {P : Primitives} {M : Machine σ} {input : RootInputV2} {update : UpdateInput}
  {config : ExecutionConfig} {s t : σ}

/-! ## Admission -/

theorem admitBoth_eq_ok {admitted : Admitted} {records : AdmittedImport} {gas : UInt64}
    (h : admitBoth P input update config = .ok (admitted, records, gas)) :
    ∃ binding rest,
      admitUpdate P.sha256 P.secp update.bytes config.b1 binding config.systemGasLimit = .ok admitted ∧
      config.systemGasLimit.toNat = admitted.gas.toNat + UInt64.toNat rest ∧
      admitImport P.sha256 update.records input.rootRecordsHash rest = .ok records ∧
      gas.toNat = admitted.gas.toNat + records.gas.toNat := by
  simp only [admitBoth, Res.bind_eq_ok, Res.mapErr_eq_ok, Res.okOr_eq_ok, Res.pure_eq_ok, Prod.mk.injEq, subWithin_eq_some, addWithin_eq_some] at h
  obtain ⟨_, -, _, hadmitted, rest, hrest, _, hrecords, _, hgas, rfl, rfl, rfl⟩ := h
  exact ⟨_, rest, hadmitted, hrest, hrecords, hgas.symm⟩

/-- Both admissions together stay within the limit, so the difference after them is defined. -/
theorem admitBoth_le {admission : Admitted × AdmittedImport × UInt64}
    (h : admitBoth P input update config = .ok admission) :
    admission.2.2.toNat ≤ config.systemGasLimit.toNat := by
  obtain ⟨admitted, records, gas⟩ := admission
  obtain ⟨_, rest, -, hrest, hrecords, hgas⟩ := admitBoth_eq_ok h
  have hfit := gas_le_of_admitImport hrecords
  show gas.toNat ≤ _
  omega

/-! ## The calls -/

theorem registryCall_eq_ok {failed : String → TransitionError} {data : Bytes} {gasLimit : UInt64}
    {r : CallResult} :
    registryCall M failed data gasLimit s = (.ok r, t) ↔
      ∃ u, M.runSystemCall none ⟨sealRegistry, data, gasLimit⟩ s = (.ok r, u) ∧ r.success = true ∧
        t = M.commit u := by
  simp only [registryCall, Run.bind_eq_ok, Run.mapErr_eq_ok, Run.ask_eq_ok, Run.refuse_eq_ok,
    Run.modify_eq_ok, Run.pure_eq_ok, Bool.not_eq_false]
  constructor
  · rintro ⟨_, u, hcall, _, _, ⟨hsuccess, rfl⟩, _, _, rfl, rfl, rfl⟩
    exact ⟨_, hcall, hsuccess, rfl⟩
  · rintro ⟨u, hcall, hsuccess, rfl⟩
    exact ⟨r, u, hcall, (), u, ⟨hsuccess, rfl⟩, (), _, rfl, rfl, rfl⟩

/-- The three calls of a transition: what each was given, what it reported, and where it ended. -/
structure CallTrace (σ : Type) where
  opened : CallResult
  imported : CallResult
  finalized : CallResult
  openLimit : UInt64
  importLimit : UInt64
  finalizeLimit : UInt64
  stagedGas : UInt64
  afterOpen : σ
  afterImport : σ
  afterFinalize : σ

namespace CallTrace

/-- The commitment finalize is given. -/
def commitment (c : CallTrace σ) (P : Primitives) (prepared : PreparedTransition) : Bytes32 :=
  systemOutcomeCommitment P.sha256 c.stagedGas prepared.inputCommitment

def result (c : CallTrace σ) (P : Primitives) (records : AdmittedImport) (admissionGas total : UInt64)
    (prepared : PreparedTransition) : ExecutionResult where
  admissionGas := admissionGas
  recordsAdmissionGas := records.gas
  openGasSpent := c.opened.totalGasSpent
  openGasRefunded := c.opened.innerRefunded
  importGasSpent := c.imported.totalGasSpent
  importGasRefunded := c.imported.innerRefunded
  finalizeGasSpent := c.finalized.totalGasSpent
  finalizeGasRefunded := c.finalized.innerRefunded
  totalGasSpent := total
  inputCommitment := prepared.inputCommitment
  originIdentity := prepared.originIdentity
  technicalRecordHash := prepared.technicalRecordHash
  registryCommitment := c.commitment P prepared

/-- Every limit is what the debits before it left. -/
structure Chains (c : CallTrace σ) (limit admissionGas total : UInt64) : Prop where
  openLimit : limit.toNat = admissionGas.toNat + c.openLimit.toNat
  importLimit : limit.toNat =
    admissionGas.toNat + c.opened.totalGasSpent.toNat + c.importLimit.toNat
  staged : c.stagedGas.toNat =
    admissionGas.toNat + c.opened.totalGasSpent.toNat + c.imported.totalGasSpent.toNat
  finalizeLimit : limit.toNat = c.stagedGas.toNat + c.finalizeLimit.toNat
  sum : total.toNat = c.stagedGas.toNat + c.finalized.totalGasSpent.toNat
  within : total.toNat ≤ limit.toNat

/-- The calls were made one after the other, and the last left what is checked. -/
structure Made (c : CallTrace σ) (P : Primitives) (M : Machine σ) (input : RootInputV2)
    (records : AdmittedImport) (prepared : PreparedTransition) (s t : σ) : Prop where
  opening : registryCall M .openFailed prepared.openData c.openLimit s = (.ok c.opened, c.afterOpen)
  importing : registryCall M .importFailed
    (P.encoders.importRootRecords prepared.n records.companion) c.importLimit c.afterOpen =
      (.ok c.imported, c.afterImport)
  finalizing : registryCall M .finalizeFailed
    (P.encoders.finalize prepared.n (c.commitment P prepared)) c.finalizeLimit c.afterImport =
      (.ok c.finalized, c.afterFinalize)
  stored : checkFinalized M input (c.commitment P prepared) c.afterFinalize = (.ok (), t)

end CallTrace

theorem debit_eq_ok {spent gas total : UInt64} :
    debit config spent gas = .ok total ↔ spent.toNat + gas.toNat = total.toNat := by
  rw [debit, Res.okOr_eq_ok, addWithin_eq_some]

theorem remainingGas_eq_ok {spent rest : UInt64} :
    remainingGas config spent = .ok rest ↔ config.systemGasLimit.toNat = spent.toNat + rest.toNat := by
  rw [remainingGas, Res.okOr_eq_ok, subWithin_eq_some]

variable {records : AdmittedImport} {admissionGas : UInt64} {prepared : PreparedTransition}
  {r : ExecutionResult}

theorem executeCalls_eq_ok :
    executeCalls P M input config records admissionGas prepared s = (.ok r, t) ↔
      ∃ (c : CallTrace σ) (total : UInt64), c.Chains config.systemGasLimit admissionGas total ∧
        c.Made P M input records prepared s t ∧ r = c.result P records admissionGas total prepared := by
  simp only [executeCalls, Run.bind_eq_ok, Run.lift_eq_ok, Run.refuse_eq_ok, Run.pure_eq_ok,
    Res.subU64_eq_ok, debit_eq_ok, remainingGas_eq_ok, UInt64.not_lt, UInt64.le_iff_toNat_le]
  constructor
  · rintro ⟨openLimit, _, ⟨hopen, rfl⟩, opened, _, hopened, gasOpen, _, ⟨hgasOpen, rfl⟩, importLimit, _,
      ⟨himport, rfl⟩, imported, _, himported, staged, _, ⟨hstaged, rfl⟩, finalizeLimit, _,
      ⟨hfinalize, rfl⟩, finalized, _, hfinalized, total, _, ⟨htotal, rfl⟩, _, _, ⟨hle, rfl⟩, _, _,
      hstored, rfl, rfl⟩
    refine ⟨⟨opened, imported, finalized, openLimit, importLimit, finalizeLimit, staged, _, _, _⟩,
      total, ⟨hopen, ?_, ?_, hfinalize, htotal.symm, hle⟩, ⟨hopened, himported, hfinalized, hstored⟩,
      rfl⟩
    · rw [hgasOpen]
      exact himport
    · rw [hgasOpen]
      exact hstaged.symm
  · rintro ⟨c, total, hchains, hmade, rfl⟩
    have hlt := c.stagedGas.toNat_lt
    have hstaged := hchains.staged
    obtain ⟨gasOpen, -, hgasOpen⟩ :=
      addWithin_of_lt (a := admissionGas) (b := c.opened.totalGasSpent) (by omega)
    refine ⟨c.openLimit, s, ⟨hchains.openLimit, rfl⟩, c.opened, _, hmade.opening, gasOpen, _,
      ⟨hgasOpen.symm, rfl⟩, c.importLimit, _, ⟨?_, rfl⟩, c.imported, _, hmade.importing, c.stagedGas, _,
      ⟨?_, rfl⟩, c.finalizeLimit, _, ⟨hchains.finalizeLimit, rfl⟩, c.finalized, _, hmade.finalizing,
      total, _, ⟨hchains.sum.symm, rfl⟩, (), _, ⟨hchains.within, rfl⟩, (), t, hmade.stored, rfl, rfl⟩
    · rw [hgasOpen]
      exact hchains.importLimit
    · rw [hgasOpen]
      exact hstaged.symm

/-- A transition that succeeds passes its checks, its admissions and its three calls. -/
theorem executeRegistryTransitionOnDb_eq_ok :
    executeRegistryTransitionOnDb P M input update config s = (.ok r, t) ↔
      config.systemGasLimit ≠ 0 ∧ (∃ cls, input.originClass P.sha256 = .ok cls) ∧
        ∃ shardConf mid admission prepared, checkParent P M input config s = (.ok shardConf, mid) ∧
          admitBoth P input update config = .ok admission ∧
          prepareTransition P.keccak P.sha256 P.encoders input admission.1.update shardConf =
            .ok prepared ∧
          executeCalls P M input config admission.2.1 admission.2.2 prepared mid = (.ok r, t) := by
  simp only [executeRegistryTransitionOnDb, Run.bind_eq_ok, Run.lift_eq_ok, Run.refuse_eq_ok,
    Res.mapErr_eq_ok]
  constructor
  · rintro ⟨_, _, ⟨hpos, rfl⟩, cls, _, ⟨hcls, rfl⟩, shardConf, mid, hparent, admission, _,
      ⟨hadmission, rfl⟩, prepared, _, ⟨hprepared, rfl⟩, hcalls⟩
    exact ⟨hpos, ⟨cls, hcls⟩, shardConf, _, admission, prepared, hparent, hadmission, hprepared, hcalls⟩
  · rintro ⟨hpos, ⟨cls, hcls⟩, shardConf, mid, admission, prepared, hparent, hadmission, hprepared,
      hcalls⟩
    exact ⟨(), s, ⟨hpos, rfl⟩, cls, s, ⟨hcls, rfl⟩, shardConf, mid, hparent, admission, mid,
      ⟨hadmission, rfl⟩, prepared, mid, ⟨hprepared, rfl⟩, hcalls⟩

/-! ## No panic -/

/-- The class of an input that has one says whether it has a state. -/
theorem noPanic_certified {ir : InputRecordV2} {cls : OriginClass} (h : ir.shape = .ok cls) :
    (ir.certified cls).NoPanic := by
  unfold InputRecordV2.shape at h
  cases hstate : ir.stateHash with
  | some state =>
    cases cls
    · trivial
    · simp [InputRecordV2.certified, hstate, Res.unwrap]
    · simp [InputRecordV2.certified, hstate, Res.unwrap]
  | none =>
    have hcls : cls = .bootstrap := by
      rw [hstate] at h
      cases hprev : ir.previousHash <;> cases hblock : ir.blockHash <;>
        simp only [hprev, hblock, Res.fail_ne_ok] at h
      split at h
      · split at h
        · exact (Except.ok.inj h).symm
        · cases Res.fail_ne_ok.mp h
      · cases Res.fail_ne_ok.mp h
    rw [hcls]
    trivial

theorem noPanic_checkTransition {root : RootInputV2} : root.checkTransition.NoPanic := by
  unfold RootInputV2.checkTransition
  split
  · exact (Res.failsOnly_mapErr (noPanic_decodeEpochTransition _) fun _ => trivial).bind fun _ _ =>
      Res.noPanic_refuse _ _
  · exact Res.noPanic_refuse _ _

theorem noPanic_shape {ir : InputRecordV2} : ir.shape.NoPanic := by
  unfold InputRecordV2.shape
  split
  · split
    · split <;> trivial
    · trivial
  all_goals first | (split <;> trivial) | trivial

theorem noPanic_originClass {H : Bytes → Bytes32} : (input.originClass H).NoPanic :=
  (Res.noPanic_refuse _ _).bind fun _ _ => (Res.noPanic_refuse _ _).bind fun _ _ =>
    (Res.noPanic_refuse _ _).bind fun _ _ => (Res.noPanic_refuse _ _).bind fun _ _ =>
    (Res.noPanic_refuse _ _).bind fun _ _ => (Res.noPanic_refuse _ _).bind fun _ _ =>
    (Res.noPanic_refuse _ _).bind fun _ _ => (Res.noPanic_refuse _ _).bind fun _ _ =>
    (Res.noPanic_refuse _ _).bind fun _ _ => noPanic_checkTransition.bind fun _ _ =>
    (Res.noPanic_refuse _ _).bind fun _ _ => noPanic_shape

theorem noPanic_canonicalCbor {H : Bytes → Bytes32} : (input.canonicalCbor H).NoPanic :=
  noPanic_originClass.bind fun _ _ => trivial

theorem noPanic_inputCommitment {H : Bytes → Bytes32} : (input.inputCommitment H).NoPanic :=
  noPanic_canonicalCbor.bind fun _ _ => trivial

theorem noPanic_originIdentity {H : Bytes → Bytes32} : (input.originIdentity H).NoPanic :=
  noPanic_originClass.bind fun _ _ => trivial

theorem noPanic_epochTransition : input.epochTransition.NoPanic := by
  unfold RootInputV2.epochTransition
  split
  · trivial
  · exact (Res.failsOnly_mapErr (noPanic_decodeEpochTransition _) fun _ => trivial).bind fun _ _ =>
      trivial

theorem noPanic_prepareTransition {keccak H : Bytes → Bytes32} {encoders : CallEncoders}
    {decoded : Update} {shardConf : Bytes32} :
    (prepareTransition keccak H encoders input decoded shardConf).NoPanic := by
  refine (Res.failsOnly_mapErr noPanic_originClass fun _ => trivial).bind fun cls hcls =>
    noPanic_epochTransition.bind fun _ _ =>
    (Res.failsOnly_mapErr noPanic_inputCommitment fun _ => trivial).bind fun _ _ =>
    (Res.failsOnly_mapErr noPanic_originIdentity fun _ => trivial).bind fun _ _ => ?_
  obtain ⟨-, -, -, -, -, -, -, -, -, -, -, hshape⟩ := originClass_eq_ok.mp (Res.mapErr_eq_ok.mp hcls)
  exact (noPanic_certified hshape).bind fun _ _ => trivial

theorem noPanic_admitBoth : (admitBoth P input update config).NoPanic :=
  (Res.failsOnly_mapErr noPanic_originIdentity fun _ => trivial).bind fun _ _ =>
    (Res.failsOnly_mapErr noPanic_admitUpdate fun _ => trivial).bind fun _ _ =>
    (Res.noPanic_okOr _ _).bind fun _ _ =>
    (Res.failsOnly_mapErr noPanic_admitImport fun _ => trivial).bind fun _ _ =>
    (Res.noPanic_okOr _ _).bind fun _ _ => trivial

theorem safe_readSlot (slot : Word) : Run.Safe (readSlot M slot) := (Run.safe_ask _).mapErr _

theorem safe_checkPins (pins : List (Word × Word × String)) : Run.Safe (checkPins M pins) := by
  induction pins with
  | nil => exact Run.safe_pure _
  | cons pin rest ih => exact (safe_readSlot _).andThen fun _ => (Run.safe_refuse _ _).andThen fun _ => ih

theorem safe_checkParent : Run.Safe (checkParent P M input config) :=
  ((Run.safe_ask _).mapErr _).andThen fun _ => (Run.safe_lift (Res.noPanic_okOr _ _)).andThen fun _ =>
    (Run.safe_refuse _ _).andThen fun _ => (safe_checkPins _).andThen fun _ =>
    (safe_readSlot _).andThen fun _ => (safe_readSlot _).andThen fun _ => (safe_readSlot _).andThen fun _ =>
    (Run.safe_refuse _ _).andThen fun _ => (safe_readSlot _).andThen fun _ =>
    (safe_readSlot _).andThen fun _ => (safe_readSlot _).andThen fun _ => (safe_readSlot _).andThen fun _ =>
    (Run.safe_refuse _ _).andThen fun _ => (Run.safe_lift noPanic_epochTransition).andThen fun _ =>
    (Run.safe_refuse _ _).andThen fun _ => Run.safe_pure _

theorem safe_registryCall (failed : String → TransitionError) (data : Bytes) (gasLimit : UInt64) :
    Run.Safe (registryCall M failed data gasLimit) :=
  ((Run.safe_ask _).mapErr _).andThen fun _ => (Run.safe_refuse _ _).andThen fun _ =>
    (Run.safe_modify _).andThen fun _ => Run.safe_pure _

theorem safe_executeCalls (hle : admissionGas.toNat ≤ config.systemGasLimit.toNat) :
    Run.Safe (executeCalls P M input config records admissionGas prepared) :=
  (Run.safe_lift (Res.noPanic_subU64 hle)).andThen fun _ => (safe_registryCall _ _ _).andThen fun _ =>
    (Run.safe_lift (Res.noPanic_okOr _ _)).andThen fun _ =>
    (Run.safe_lift (Res.noPanic_okOr _ _)).andThen fun _ => (safe_registryCall _ _ _).andThen fun _ =>
    (Run.safe_lift (Res.noPanic_okOr _ _)).andThen fun _ =>
    (Run.safe_lift (Res.noPanic_okOr _ _)).andThen fun _ => (safe_registryCall _ _ _).andThen fun _ =>
    (Run.safe_lift (Res.noPanic_okOr _ _)).andThen fun _ => (Run.safe_refuse _ _).andThen fun _ =>
    Run.Safe.andThen ((safe_readSlot _).andThen fun _ => (safe_readSlot _).andThen fun _ =>
      (safe_readSlot _).andThen fun _ => Run.safe_refuse _ _) fun _ => Run.safe_pure _

/-- No path of the transition panics: every sum and every difference it makes is defined. -/
theorem safe_executeRegistryTransitionOnDb :
    Run.Safe (executeRegistryTransitionOnDb P M input update config) := by
  refine (Run.safe_refuse _ _).andThen fun _ =>
    (Run.safe_lift (Res.failsOnly_mapErr noPanic_originClass fun _ => trivial)).andThen fun _ =>
    safe_checkParent.andThen fun _ => (Run.safe_lift noPanic_admitBoth).bind fun admission _ mid h => ?_
  have hle := admitBoth_le (Run.lift_eq_ok.mp h).1
  exact ((Run.safe_lift noPanic_prepareTransition).andThen fun _ => safe_executeCalls hle) mid

/-! ## What the machine leaves alone -/

/-- The machine's reads keep `I`. -/
structure Machine.ReadsKeep (M : Machine σ) (I : σ → Prop) : Prop where
  basic : ∀ a s, I s → I (M.basic a s).2
  storage : ∀ a w s, I s → I (M.storage a w s).2

/-- Everything the machine does keeps `I`. -/
structure Machine.Keeps (M : Machine σ) (I : σ → Prop) : Prop extends M.ReadsKeep I where
  called : ∀ env tx s, I s → I (M.runSystemCall env tx s).2
  commit : ∀ s, I s → I (M.commit s)
  discard : ∀ s, I s → I (M.discard s)

section Keeps

variable {I : σ → Prop}

theorem keeps_readSlot (h : M.ReadsKeep I) (slot : Word) : Run.Keeps I (readSlot M slot) :=
  Run.keeps_of_state fun s hs => h.storage _ _ s hs

theorem keeps_checkPins (h : M.ReadsKeep I) (pins : List (Word × Word × String)) :
    Run.Keeps I (checkPins M pins) := by
  induction pins with
  | nil => exact Run.keeps_pure _
  | cons pin rest ih =>
    exact (keeps_readSlot h _).bind fun _ => (Run.keeps_refuse _ _).bind fun _ => ih

theorem keeps_checkParent (h : M.ReadsKeep I) : Run.Keeps I (checkParent P M input config) :=
  (Run.keeps_of_state fun s hs => h.basic _ s hs).bind fun _ => (Run.keeps_lift _).bind fun _ =>
    (Run.keeps_refuse _ _).bind fun _ => (keeps_checkPins h _).bind fun _ =>
    (keeps_readSlot h _).bind fun _ => (keeps_readSlot h _).bind fun _ =>
    (keeps_readSlot h _).bind fun _ => (Run.keeps_refuse _ _).bind fun _ =>
    (keeps_readSlot h _).bind fun _ => (keeps_readSlot h _).bind fun _ =>
    (keeps_readSlot h _).bind fun _ => (keeps_readSlot h _).bind fun _ =>
    (Run.keeps_refuse _ _).bind fun _ => (Run.keeps_lift _).bind fun _ =>
    (Run.keeps_refuse _ _).bind fun _ => Run.keeps_pure _

theorem keeps_checkFinalized (h : M.ReadsKeep I) (commitment : Bytes32) :
    Run.Keeps I (checkFinalized M input commitment) :=
  (keeps_readSlot h _).bind fun _ => (keeps_readSlot h _).bind fun _ =>
    (keeps_readSlot h _).bind fun _ => Run.keeps_refuse _ _

theorem keeps_registryCall (h : M.Keeps I) (failed : String → TransitionError) (data : Bytes)
    (gasLimit : UInt64) : Run.Keeps I (registryCall M failed data gasLimit) :=
  (Run.keeps_of_state fun s hs => h.called _ _ s hs).bind fun _ => (Run.keeps_refuse _ _).bind fun _ =>
    (Run.keeps_modify h.commit).bind fun _ => Run.keeps_pure _

theorem keeps_executeRegistryTransitionOnDb (h : M.Keeps I) :
    Run.Keeps I (executeRegistryTransitionOnDb P M input update config) := by
  refine (Run.keeps_refuse _ _).bind fun _ => (Run.keeps_lift _).bind fun _ =>
    (keeps_checkParent h.toReadsKeep).bind fun _ => (Run.keeps_lift _).bind fun _ =>
    (Run.keeps_lift _).bind fun _ => ?_
  exact (Run.keeps_lift _).bind fun _ => (keeps_registryCall h _ _ _).bind fun _ =>
    (Run.keeps_lift _).bind fun _ => (Run.keeps_lift _).bind fun _ =>
    (keeps_registryCall h _ _ _).bind fun _ => (Run.keeps_lift _).bind fun _ =>
    (Run.keeps_lift _).bind fun _ => (keeps_registryCall h _ _ _).bind fun _ =>
    (Run.keeps_lift _).bind fun _ => (Run.keeps_refuse _ _).bind fun _ =>
    (keeps_checkFinalized h.toReadsKeep _).bind fun _ => Run.keeps_pure _

end Keeps

/-! ## The record of the calls -/

/-- A read leaves the record alone. -/
theorem Machine.readsKeep_record (M : Machine σ) (log : List SystemTx) :
    M.recorded.ReadsKeep fun st => st.2 = log :=
  ⟨fun _ _ h => h, fun _ _ _ h => h⟩

theorem registryCall_record {failed : String → TransitionError} {data : Bytes} {gasLimit : UInt64}
    {result : CallResult} {st st' : σ × List SystemTx}
    (h : registryCall M.recorded failed data gasLimit st = (.ok result, st')) :
    st'.2 = st.2 ++ [⟨sealRegistry, data, gasLimit⟩] := by
  obtain ⟨u, hcall, -, rfl⟩ := registryCall_eq_ok.mp h
  exact (congrArg (fun x => x.2.2) hcall).symm

/-- The calls a transition makes, in order: three, to the registry. -/
theorem CallTrace.Made.calls {c : CallTrace (σ × List SystemTx)} {st st' : σ × List SystemTx}
    (h : c.Made P M.recorded input records prepared st st') :
    st'.2 = st.2 ++ [⟨sealRegistry, prepared.openData, c.openLimit⟩,
      ⟨sealRegistry, P.encoders.importRootRecords prepared.n records.companion, c.importLimit⟩,
      ⟨sealRegistry, P.encoders.finalize prepared.n (c.commitment P prepared), c.finalizeLimit⟩] := by
  have hreads := M.readsKeep_record c.afterFinalize.2
  have hstored := (keeps_checkFinalized hreads _ c.afterFinalize rfl).1 _ _ h.stored
  rw [hstored, registryCall_record h.finalizing, registryCall_record h.importing,
    registryCall_record h.opening]
  simp

/-! ## Refunds -/

/-- A call's report with another refund. -/
def CallResult.refunded (r : CallResult) (amount : UInt64) : CallResult :=
  { r with innerRefunded := amount }

theorem registryCall_withRefunds (refund : SystemTx → σ → UInt64) {failed : String → TransitionError}
    {data : Bytes} {gasLimit : UInt64} {result : CallResult}
    (h : registryCall M failed data gasLimit s = (.ok result, t)) :
    ∃ amount, registryCall (M.withRefunds refund) failed data gasLimit s =
      (.ok (result.refunded amount), t) := by
  obtain ⟨u, hcall, hsuccess, rfl⟩ := registryCall_eq_ok.mp h
  refine ⟨refund ⟨sealRegistry, data, gasLimit⟩ s, registryCall_eq_ok.mpr ⟨u, ?_, hsuccess, rfl⟩⟩
  simp [Machine.withRefunds, hcall, Except.map, CallResult.refunded]

/-- A machine that differs in its refunds leads through the same calls to the same figures. -/
theorem executeCalls_withRefunds (refund : SystemTx → σ → UInt64)
    (h : executeCalls P M input config records admissionGas prepared s = (.ok r, t)) :
    ∃ r', executeCalls P (M.withRefunds refund) input config records admissionGas prepared s =
      (.ok r', t) ∧ r'.unrefunded = r.unrefunded := by
  obtain ⟨c, total, hchains, hmade, rfl⟩ := executeCalls_eq_ok.mp h
  obtain ⟨openRefund, hopening⟩ := registryCall_withRefunds refund hmade.opening
  obtain ⟨importRefund, himporting⟩ := registryCall_withRefunds refund hmade.importing
  obtain ⟨finalizeRefund, hfinalizing⟩ := registryCall_withRefunds refund hmade.finalizing
  let c' : CallTrace σ :=
    { c with
      opened := c.opened.refunded openRefund
      imported := c.imported.refunded importRefund
      finalized := c.finalized.refunded finalizeRefund }
  have hchains' : c'.Chains config.systemGasLimit admissionGas total :=
    ⟨hchains.openLimit, hchains.importLimit, hchains.staged, hchains.finalizeLimit, hchains.sum,
      hchains.within⟩
  have hmade' : c'.Made P (M.withRefunds refund) input records prepared s t :=
    ⟨hopening, himporting, hfinalizing, hmade.stored⟩
  exact ⟨c'.result P records admissionGas total prepared,
    executeCalls_eq_ok.mpr ⟨c', total, hchains', hmade', rfl⟩, rfl⟩

theorem executeRegistryTransitionOnDb_withRefunds (refund : SystemTx → σ → UInt64)
    (h : executeRegistryTransitionOnDb P M input update config s = (.ok r, t)) :
    ∃ r', executeRegistryTransitionOnDb P (M.withRefunds refund) input update config s = (.ok r', t) ∧
      r'.unrefunded = r.unrefunded := by
  obtain ⟨hpos, hcls, shardConf, mid, admission, prepared, hparent, hadmission, hprepared, hcalls⟩ :=
    executeRegistryTransitionOnDb_eq_ok.mp h
  obtain ⟨r', hcalls', hsame⟩ := executeCalls_withRefunds refund hcalls
  exact ⟨r', executeRegistryTransitionOnDb_eq_ok.mpr
    ⟨hpos, hcls, shardConf, mid, admission, prepared, hparent, hadmission, hprepared, hcalls'⟩, hsame⟩

end Ureth.Source.Execution
