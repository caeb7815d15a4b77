import Ureth.Source.Execution.Hooks

/-!
# The block executor

`UnicityBlockExecutor` runs the system prefix once, then ordinary transactions, then finishes the
block. It wraps the stock Ethereum executor, whose operations are parameters on one state with the
machine: the candidate database, the journal and the block's running gas.
-/

namespace Ureth.Source.Execution
open Ureth.Foundation

/-- A transaction with its verified sender, as far as the executor looks at it. -/
structure RecoveredTx (τ : Type) where
  signer : Fixed 20
  blobGasUsed : Option UInt64
  gasLimit : UInt64
  hash : Bytes32
  body : τ

/-- The receipts' cumulative gas, and the block's gas. -/
structure BlockExecutionResult where
  receipts : List UInt64
  gasUsed : UInt64
  blobGasUsed : UInt64
  deriving DecidableEq

/-- The stock executor of one block. `ρ` is the result of one transaction. -/
structure EthBlockExecutor (σ τ ρ : Type) where
  withdrawals : Option (List Withdrawal)
  applyPreExecutionChanges : σ → Except String Unit × σ
  executeTransactionWithoutCommit : RecoveredTx τ → σ → Except String ρ × σ
  commitTransaction : ρ → σ → σ
  finish : σ → Except String BlockExecutionResult
  cumulativeTxGasUsed : σ → UInt64
  txGasUsed : ρ → UInt64
  /-- `HookEnv::from_evm`. -/
  hookEnv : σ → HookEnv

inductive BlockExecutionError where
  | msg (text : String)
  | accounting (error : BlockAccountingError)
  | transition (error : TransitionError)
  | invalidTx (hash : Bytes32) (reason : String)
  | gasLimitMoreThanAvailable (transactionGasLimit blockAvailableGas : UInt64)
  | stock (reason : String)
  | binding (error : BindingError)
  deriving DecidableEq

def missingExecutionInputError : String := "no bound execution input registered for block commitment"

inductive PrefixState where
  | pending
  | ready (system : UInt64)
  | poisoned
  deriving DecidableEq

def PrefixState.isReady : PrefixState → Bool
  | .ready _ => true
  | _ => false

theorem PrefixState.isReady_iff {p : PrefixState} : p.isReady = true ↔ ∃ system, p = .ready system := by
  cases p <;> simp [isReady]

structure UnicityBlockExecutor (σ : Type) where
  inner : σ
  bound : Option BoundExecutionInput
  systemGas : Option UInt64
  phase : PrefixState

namespace UnicityBlockExecutor

variable {σ τ ρ : Type}

abbrev Call (σ α : Type) := Run (UnicityBlockExecutor σ) BlockExecutionError α

/-- A fresh executor. -/
def new (inner : σ) (bound : Option BoundExecutionInput) : UnicityBlockExecutor σ :=
  ⟨inner, bound, none, .pending⟩

def onInner {ε α : Type} (f : ε → BlockExecutionError) (m : Run σ ε α) : Call σ α := fun x =>
  ((m x.inner).1.mapErr f, { x with inner := (m x.inner).2 })

def setPhase (phase : PrefixState) : Call σ Unit := Run.modify fun x => { x with phase }

/-- The bound input, or the named failure of a node that did not resolve one. -/
def boundInput : Call σ BoundExecutionInput := fun x =>
  (Res.okOr (.msg missingExecutionInputError) x.bound, x)

variable (P : Primitives) (M : Machine σ) (E : EthBlockExecutor σ τ ρ)

/-- The hooks of a block whose registry transition spent `system`: the new total. -/
def applyHooks (bound : BoundExecutionInput) (system : UInt64) : Call σ UInt64 :=
  if bound.b1.context.hook.Enabled then do
    let remaining ← Run.lift (Res.okOr (.msg "system gas exhausted before the records hook")
      (subWithin bound.profile.systemGas system))
    let origin ← Run.lift ((bound.input.originIdentity P.sha256).mapErr (.transition ∘ .input))
    let outcome ← onInner .transition fun s =>
      runHooks M (E.hookEnv s) bound.b1.context.hook origin remaining s
    Run.lift (Res.okOr (.msg "system gas overflow after the records hook")
      (addWithin system outcome.gasSpent))
  else pure system

/-- The prefix of a block whose phase was pending; the phase stays poisoned until it is done. -/
def runPrefix : Call σ Unit := do
  setPhase .poisoned
  let bound ← boundInput
  let _ ← Run.lift (bound.profile.validate.mapErr .accounting)
  let result ← onInner .transition (executeRegistryTransitionOnDb P M bound.input
    ⟨bound.b1.update, bound.b1.records, bound.parentNumber⟩
    ⟨bound.profile.systemGas, bound.b1.context⟩)
  onInner .stock (Run.ask E.applyPreExecutionChanges)
  let system ← applyHooks P M E bound result.totalGasSpent
  setPhase (.ready system)

def applyPreExecutionChanges : Call σ Unit := fun x =>
  if ∃ withdrawals ∈ E.withdrawals, withdrawals ≠ [] then
    (Res.fail (.msg "withdrawals are unsupported"), x)
  else if x.phase = .pending then runPrefix P M E x
  else (Res.fail (.msg "pre-execution changes already applied"), { x with phase := .poisoned })

/-- What ordinary transactions may still spend. -/
def availableGas (bound : BoundExecutionInput) : Call σ UInt64 := fun x =>
  ((do
    let capacity ← bound.profile.ordinaryCapacity.mapErr .accounting
    Res.okOr (.msg "ordinary gas capacity exceeded")
      (subWithin capacity (E.cumulativeTxGasUsed x.inner))), x)

def requireReady : Call σ Unit := fun x =>
  (Res.refuse (x.phase.isReady = false) (.msg "ordinary transaction before system prefix"), x)

def executeTransactionWithoutCommit (tx : RecoveredTx τ) : Call σ ρ := do
  requireReady
  let bound ← boundInput
  Run.refuse (bound.input.transitions ≠ [])
    (.msg "epoch acknowledgement block contains user transactions")
  Run.refuse (tx.signer = systemCaller) (.invalidTx tx.hash "reserved sender")
  Run.refuse (tx.blobGasUsed.getD 0 ≠ 0) (.invalidTx tx.hash "blob transactions are unsupported")
  let available ← availableGas E bound
  Run.refuse (available < tx.gasLimit) (.gasLimitMoreThanAvailable tx.gasLimit available)
  let result ← onInner .stock (Run.ask (E.executeTransactionWithoutCommit tx))
  Run.refuse (available < E.txGasUsed result) (.msg "ordinary gas capacity exceeded")
  return result

def commitTransaction (result : ρ) (x : UnicityBlockExecutor σ) : UnicityBlockExecutor σ :=
  { x with inner := E.commitTransaction result x.inner }

/-- The end of a block; the slot keeps the system gas even when what follows fails. -/
def finish : Call σ BlockExecutionResult := fun x =>
  match x.phase with
  | .ready system =>
    (do
      let bound ← boundInput
      let result ← Run.mapErr .stock (Run.ask fun x => (E.finish x.inner, x))
      Run.refuse (result.blobGasUsed ≠ 0) (.msg "blob gas is unsupported")
      let gas ← Run.lift
        ((BlockGasAccounting.derive bound.profile system result.gasUsed).mapErr .accounting)
      return { result with gasUsed := gas.header } : Call σ BlockExecutionResult)
      { x with systemGas := some system }
  | _ => (Res.fail (.msg "pre-execution changes not applied"), x)

end UnicityBlockExecutor

end Ureth.Source.Execution
