import Ureth.Source.Execution.TransitionSpec

/-!
# The mandatory hooks

The records hook and the election hook of a block, within what the registry transition left of the
system gas. Each call is a system call of the machine in the block's environment; the gas spent so
far is passed along as the source keeps it.
-/

namespace Ureth.Source.Execution
open Ureth.Foundation Ureth.Source.B1

def recordCursorData : Bytes := [0xca, 0x01, 0xc9, 0x83]
def recordCountData : Bytes := [0x90, 0x04, 0x07, 0xbc]
def recordTargetCountData : Bytes := [0x99, 0xa1, 0xd3, 0x76]
def applyRootRecordsSelector : Bytes := [0x1d, 0x2a, 0x00, 0x37]
def limitsData : Bytes := [0x86, 0x0a, 0xef, 0xcf]
def electSelector : Bytes := [0x45, 0xb7, 0xff, 0xa0]

structure HookOutcome where
  gasSpent : UInt64
  applied : UInt64
  elected : Option UInt8
  deriving DecidableEq

/-- A returned word that is a 64-bit number. -/
def returnedWord (what : String) (out : Bytes) : Res TransitionError UInt64 := do
  Res.refuse (out.length ≠ 32 ∨ ∃ b ∈ out.take 24, b ≠ 0) (.hook (.badReturn what))
  return .ofNat (beNat (out.drop 24))

section

variable {σ : Type} (M : Machine σ) (env : HookEnv)

/-- One system call within what `limit` has left after `spent`: its output and the new `spent`. -/
def hookCall (limit spent : UInt64) (what : String) (target : Fixed 20) (data : Bytes) (keep : Bool) :
    Executing σ (Bytes × UInt64) := do
  let remaining ← Run.lift (Res.okOr (.hook .budget) ((subWithin limit spent).filter (0 < ·)))
  let result ← Run.mapErr (fun e => TransitionError.hook (.call what e))
    (Run.ask (M.runSystemCall (some env) ⟨target, data, remaining⟩))
  Run.refuse (result.success = false) (.hook (.call what result.debug))
  let spent ← Run.lift (Res.okOr (.hook .budget) (addWithin spent result.totalGasSpent))
  Run.modify (if keep then M.commit else M.discard)
  return (result.output, spent)

/-- A read of one word. -/
def hookRead (limit spent : UInt64) (what : String) (target : Fixed 20) (data : Bytes) :
    Executing σ (UInt64 × UInt64) := do
  let out ← hookCall M env limit spent what target data false
  let value ← Run.lift (returnedWord what out.1)
  return (value, out.2)

/-- The batch ceiling of the deployed custody, the last of four returned words. -/
def readMaxBatch (hook : RecordsHook) (limit spent : UInt64) : Executing σ (UInt64 × UInt64) := do
  let out ← hookCall M env limit spent "limits" hook.custody limitsData false
  Run.refuse (out.1.length ≠ 128) (.hook (.badReturn "limits"))
  let value ← Run.lift (returnedWord "limits" (out.1.drop 96))
  return (value, out.2)

/-- The application of `n` records after the cursor `before`, and the check of its effect. -/
def applyRecords (hook : RecordsHook) (budget before n spent : UInt64) : Executing σ UInt64 := do
  let data := applyRootRecordsSelector ++ List.replicate 28 0 ++ beBytes 4 n.toNat
  let applied ← hookCall M env budget spent "applyRootRecords" hook.custody data true
  let after ← hookRead M env budget applied.2 "recordCursor" hook.custody recordCursorData
  let expected ← Run.lift (Res.addU64 before n)
  Run.refuse (after.1 ≠ expected) (.hook (.cursorMoved before n after.1))
  return after.2

/-- The records hook: the records applied and the gas spent. -/
def runRecords (hook : RecordsHook) (budget : UInt64) : Executing σ (UInt64 × UInt64) := do
  let before ← hookRead M env budget 0 "recordCursor" hook.custody recordCursorData
  let count ← hookRead M env budget before.2 "recordCount" sealRegistry recordCountData
  let target ← hookRead M env budget count.2 "recordTargetCount" sealRegistry recordTargetCountData
  Run.refuse (count.1 < before.1 ∨ target.1 < count.1)
    (.hook (.inconsistent before.1 count.1 target.1))
  let available ← Run.lift (Res.subU64 count.1 before.1)
  if available = 0 then return (0, target.2)
  else do
    let maxBatch ← readMaxBatch M env hook budget target.2
    Run.refuse (maxBatch.1 < hook.hRecords.toUInt64)
      (.hook (.hExceedsMaxBatch hook.hRecords maxBatch.1))
    let n := min available hook.hRecords.toUInt64
    let spent ← applyRecords M env hook budget before.1 n maxBatch.2
    return (n, spent)

/-- The election hook, with no more than the gas reserved for it. -/
def runElection (hook : RecordsHook) (origin : Bytes32) (budget spent : UInt64) :
    Executing σ (Option UInt8 × UInt64) :=
  if hook.ElectionEnabled then do
    let limit := min budget (satAdd spent hook.electGas)
    let out ← hookCall M env limit spent "elect" hook.election (electSelector ++ origin.val) true
    let outcome ← Run.lift (returnedWord "elect" out.1)
    Run.refuse (3 < outcome) (.hook (.badOutcome outcome))
    return (some outcome.toUInt8, out.2)
  else return (none, spent)

def runHooks (hook : RecordsHook) (origin : Bytes32) (budget : UInt64) : Executing σ HookOutcome := do
  Run.lift (hook.validate.mapErr .hook)
  if ¬ hook.Enabled then return { gasSpent := 0, applied := 0, elected := none }
  else do
    let records ← runRecords M env hook budget
    let elected ← runElection M env hook origin budget records.2
    return { gasSpent := elected.2, applied := records.1, elected := elected.1 }

end

/-! ## What the hooks leave alone -/

section Keeps

variable {σ : Type} {M : Machine σ} {env : HookEnv} {hook : RecordsHook} {I : σ → Prop}

theorem keeps_hookCall (h : M.Keeps I) (limit spent : UInt64) (what : String) (target : Fixed 20)
    (data : Bytes) (keep : Bool) : Run.Keeps I (hookCall M env limit spent what target data keep) := by
  refine (Run.keeps_lift _).bind fun _ => (Run.keeps_of_state fun s hs => h.called _ _ s hs).bind fun _ =>
    (Run.keeps_refuse _ _).bind fun _ => (Run.keeps_lift _).bind fun _ =>
    (Run.keeps_modify ?_).bind fun _ => Run.keeps_pure _
  cases keep
  · exact h.discard
  · exact h.commit

theorem keeps_hookRead (h : M.Keeps I) (limit spent : UInt64) (what : String) (target : Fixed 20)
    (data : Bytes) : Run.Keeps I (hookRead M env limit spent what target data) :=
  (keeps_hookCall h _ _ _ _ _ _).bind fun _ => (Run.keeps_lift _).bind fun _ => Run.keeps_pure _

theorem keeps_runHooks (h : M.Keeps I) (origin : Bytes32) (budget : UInt64) :
    Run.Keeps I (runHooks M env hook origin budget) := by
  refine (Run.keeps_lift _).bind fun _ => Run.keeps_ite (Run.keeps_pure _) ?_
  refine Run.Triple.bind (Q := fun _ => I) ?_ fun _ => Run.Triple.bind (Q := fun _ => I)
    (Run.keeps_ite ?_ (Run.keeps_pure _)) fun _ => Run.keeps_pure _
  · refine (keeps_hookRead h _ _ _ _ _).bind fun _ => (keeps_hookRead h _ _ _ _ _).bind fun _ =>
      (keeps_hookRead h _ _ _ _ _).bind fun _ => (Run.keeps_refuse _ _).bind fun _ =>
      (Run.keeps_lift _).bind fun _ => Run.keeps_ite (Run.keeps_pure _) ?_
    have hbatch : ∀ spent, Run.Keeps I (readMaxBatch M env hook budget spent) := fun _ =>
      (keeps_hookCall h _ _ _ _ _ _).bind fun _ => (Run.keeps_refuse _ _).bind fun _ =>
        (Run.keeps_lift _).bind fun _ => Run.keeps_pure _
    have happly : ∀ before n spent, Run.Keeps I (applyRecords M env hook budget before n spent) :=
      fun _ _ _ => (keeps_hookCall h _ _ _ _ _ _).bind fun _ => (keeps_hookRead h _ _ _ _ _).bind fun _ =>
        (Run.keeps_lift _).bind fun _ => (Run.keeps_refuse _ _).bind fun _ => Run.keeps_pure _
    exact (hbatch _).bind fun _ => (Run.keeps_refuse _ _).bind fun _ => (happly _ _ _).bind fun _ =>
      Run.keeps_pure _
  · exact (keeps_hookCall h _ _ _ _ _ _).bind fun _ => (Run.keeps_lift _).bind fun _ =>
      (Run.keeps_refuse _ _).bind fun _ => Run.keeps_pure _

end Keeps

/-! ## The hooks stay within their budget -/

section Budget

variable {σ : Type} {M : Machine σ} {env : HookEnv} {hook : RecordsHook} {budget limit spent : UInt64}
  {s t : σ}

theorem hookCall_le (hM : M.SpendsWithin) {what : String} {target : Fixed 20} {data : Bytes} {keep : Bool}
    {out : Bytes × UInt64} (h : hookCall M env limit spent what target data keep s = (.ok out, t)) :
    out.2.toNat ≤ limit.toNat := by
  simp only [hookCall, Run.bind_eq_ok, Run.lift_eq_ok, Run.mapErr_eq_ok, Run.ask_eq_ok,
    Run.refuse_eq_ok, Run.modify_eq_ok, Run.pure_eq_ok, Res.okOr_eq_ok, Option.filter_eq_some_iff,
    subWithin_eq_some, addWithin_eq_some] at h
  obtain ⟨remaining, _, ⟨⟨hremaining, -⟩, rfl⟩, result, _, hcall, _, _, ⟨-, rfl⟩, total, _,
    ⟨htotal, rfl⟩, _, _, -, rfl, -⟩ := h
  have hspent : result.totalGasSpent.toNat ≤ remaining.toNat := hM _ _ _ _ _ hcall
  show total.toNat ≤ limit.toNat
  omega

theorem hookRead_le (hM : M.SpendsWithin) {what : String} {target : Fixed 20} {data : Bytes}
    {out : UInt64 × UInt64} (h : hookRead M env limit spent what target data s = (.ok out, t)) :
    out.2.toNat ≤ limit.toNat := by
  simp only [hookRead, Run.bind_eq_ok, Run.lift_eq_ok, Run.pure_eq_ok] at h
  obtain ⟨_, _, hcall, _, _, ⟨-, rfl⟩, rfl, -⟩ := h
  exact hookCall_le hM hcall

theorem runRecords_le (hM : M.SpendsWithin) {out : UInt64 × UInt64}
    (h : runRecords M env hook budget s = (.ok out, t)) : out.2.toNat ≤ budget.toNat := by
  simp only [runRecords, Run.bind_eq_ok, Run.lift_eq_ok, Run.refuse_eq_ok] at h
  obtain ⟨_, _, -, _, _, -, target, _, htarget, _, _, ⟨-, rfl⟩, available, _, ⟨-, rfl⟩, h⟩ := h
  split at h
  · obtain ⟨rfl, -⟩ := Run.pure_eq_ok.mp h
    have hle := hookRead_le hM htarget
    exact hle
  · simp only [Run.bind_eq_ok, Run.refuse_eq_ok, Run.pure_eq_ok, applyRecords, Run.lift_eq_ok] at h
    obtain ⟨_, _, -, _, _, ⟨-, rfl⟩, _, _, ⟨_, _, -, after, _, hafter, _, _, ⟨-, rfl⟩, _, _, ⟨-, rfl⟩,
      rfl, rfl⟩, rfl, -⟩ := h
    have hle := hookRead_le hM hafter
    exact hle

theorem runHooks_le (hM : M.SpendsWithin) {origin : Bytes32} {outcome : HookOutcome}
    (h : runHooks M env hook origin budget s = (.ok outcome, t)) :
    outcome.gasSpent.toNat ≤ budget.toNat := by
  simp only [runHooks, Run.bind_eq_ok, Run.lift_eq_ok] at h
  obtain ⟨_, _, ⟨-, rfl⟩, h⟩ := h
  split at h
  · obtain ⟨rfl, -⟩ := Run.pure_eq_ok.mp h
    exact Nat.zero_le _
  · simp only [Run.bind_eq_ok, Run.pure_eq_ok, runElection] at h
    obtain ⟨records, _, hrecords, elected, _, helected, rfl, -⟩ := h
    have hspent := runRecords_le hM hrecords
    split at helected
    · simp only [Run.bind_eq_ok, Run.lift_eq_ok, Run.refuse_eq_ok, Run.pure_eq_ok] at helected
      obtain ⟨out, _, hcall, _, _, ⟨-, rfl⟩, _, _, ⟨-, rfl⟩, rfl, -⟩ := helected
      have hlimit := hookCall_le hM hcall
      rw [toNat_min] at hlimit
      exact hlimit.trans (Nat.min_le_left _ _)
    · obtain ⟨rfl, -⟩ := Run.pure_eq_ok.mp helected
      exact hspent

end Budget

end Ureth.Source.Execution
