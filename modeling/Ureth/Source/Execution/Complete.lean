import Ureth.Source.Execution.ExecutorSpec

/-!
# Complete builds and replays

`build_complete` executes and assembles a block, `replay_complete` executes one that is given, and
both mint the token of the executed block; `completed_parent_for` mints it from the system gas the
executor left in the slot of its configuration. The stock node around the executor is a parameter:
its executors, the parts of a header only it computes, and its own checks.
-/

namespace Ureth.Source.Execution
open Ureth.Foundation

/-- A sealed block with its recovered transactions. -/
structure RecoveredBlock (τ : Type) where
  sealed : SealedHeader
  transactions : List (RecoveredTx τ)
  withdrawals : Option (List Withdrawal)

structure EthNode (σ τ ρ : Type) where
  createExecutor : EvmEnv → EthBlockExecutionCtx → EthBlockExecutor σ τ ρ
  /-- The rest of a built header: the roots, the bloom and the fields of the fork. -/
  assemble : EvmEnv → EthBlockExecutionCtx → σ → List (RecoveredTx τ) → BlockExecutionResult →
    Except String Bytes
  validateHeader : SealedHeader → Except String Unit
  /-- No blob gas, requests, access list or slot number. -/
  fixedCancun : Header → Bool
  validateBlockPreExecution : RecoveredBlock τ → Except String Unit
  /-- What `validate_block_post_execution` compares beside the gas. -/
  verifyReceipts : Header → BlockExecutionResult → Except String Unit
  /-- Whether the post-state has the root of the header. -/
  stateRoot : σ → Header → Except String Bool

/-- The environment of a block that is there. -/
def EthEvmConfig.evmEnv (header : Header) : EvmEnv where
  number := header.number
  beneficiary := header.beneficiary
  timestamp := header.timestamp
  prevRandao := header.mixHash
  gasLimit := header.gasLimit
  basefee := header.baseFeePerGas.getD 0

def UnicityEvmConfig.evmEnv (config : UnicityEvmConfig) (header : Header) : Res BindingError EvmEnv := do
  let env := EthEvmConfig.evmEnv header
  Res.refuse (config.cancun env.number env.timestamp = false)
    ⟨"only the fixed Cancun profile is supported"⟩
  return env

/-! ## Executing a block -/

namespace UnicityBlockExecutor

variable {σ τ ρ : Type} (P : Primitives) (M : Machine σ) (E : EthBlockExecutor σ τ ρ)

/-- Each transaction is executed and committed in turn. -/
def executeTransactions : List (RecoveredTx τ) → Call σ Unit
  | [] => pure ()
  | tx :: rest => do
    let result ← executeTransactionWithoutCommit E tx
    Run.modify (commitTransaction E result)
    executeTransactions rest

/-- The result of a block and the state it ends in. -/
def executeBlock (transactions : List (RecoveredTx τ)) : Call σ (BlockExecutionResult × σ) := do
  applyPreExecutionChanges P M E
  executeTransactions E transactions
  let result ← finish E
  let evm ← fun x => (.ok x.inner, x)
  return (result, evm)

end UnicityBlockExecutor

/-- A job on the slot of its configuration: a fresh executor that shares the slot. -/
abbrev Completing (α : Type) := Run (Option UInt64) BlockExecutionError α

def withExecutor {σ α : Type} (bound : BoundExecutionInput) (inner : σ)
    (m : UnicityBlockExecutor.Call σ α) : Completing α := fun slot =>
  let done := m ⟨inner, some bound, slot, .pending⟩
  (done.1, done.2.systemGas)

/-- A check or a computation of the stock node. -/
def stock {σ α : Type} (x : Except String α) : Run σ BlockExecutionError α :=
  Run.lift (x.mapError (.error ∘ .stock))

/-! ## Tokens -/

/-- The token of an executed block: the system gas is what the receipts leave of the gross gas. -/
def mintToken (profile : BlockProfile) (sealed : SealedHeader) (result : BlockExecutionResult) :
    Res BlockExecutionError CompletedParent := do
  let ordinary := result.receipts.getLast?.getD 0
  let system ← Res.okOr (.msg "gross gas below ordinary receipt gas") (subWithin result.gasUsed ordinary)
  let baseFee ← Res.okOr (.msg "base fee missing") sealed.header.baseFeePerGas
  let accounting ← (ParentExecutionOutcome.reconcile profile sealed.hash result.gasUsed system
    baseFee).mapErr .accounting
  return ⟨accounting⟩

/-- The token from the slot of a configuration that finished the block. -/
def UnicityEvmConfig.completedParentFor (config : UnicityEvmConfig) (sealed : SealedHeader)
    (slot : Option UInt64) : Accounted CompletedParent := do
  let system ← Res.okOr .parentGasMismatch slot
  let baseFee ← Res.okOr .invalidParentBaseFee sealed.header.baseFeePerGas
  let accounting ← ParentExecutionOutcome.reconcile config.bound.profile sealed.hash
    sealed.header.gasUsed system baseFee
  return ⟨accounting⟩

/-! ## Builds and replays -/

section

variable {σ τ ρ : Type} (P : Primitives) (hashSlow : Header → Bytes32) (M : Machine σ)
  (N : EthNode σ τ ρ) (config : UnicityEvmConfig)

def validateFixedBlock (block : RecoveredBlock τ) : Completing Unit := do
  Run.refuse (config.bound.input.transitions ≠ [] ∧ block.transactions ≠ [])
    (.msg "epoch acknowledgement block contains user transactions")
  Run.refuse (hashSlow block.sealed.header ≠ block.sealed.hash) (.msg "sealed block hash mismatch")
  stock (N.validateHeader block.sealed)
  Run.refuse (N.fixedCancun block.sealed.header = false)
    (.msg "header is outside the fixed Cancun profile")
  stock (N.validateBlockPreExecution block)

def buildComplete (parent : SealedHeader) (attributes : NextBlockEnvAttributes) (inner : σ)
    (transactions : List (RecoveredTx τ)) : Completing (RecoveredBlock τ × CompletedParent) := do
  Run.refuse (config.bound.input.transitions ≠ [] ∧ transactions ≠ [])
    (.msg "epoch acknowledgement block contains user transactions")
  let env ← Run.lift ((config.nextEvmEnv P.sha256 hashSlow parent.header attributes).mapErr
    BlockExecutionError.binding)
  let ctx ← Run.lift ((config.contextForNextBlock P.sha256 hashSlow parent attributes).mapErr
    BlockExecutionError.binding)
  let done ← withExecutor config.bound inner
    (UnicityBlockExecutor.executeBlock P M (N.createExecutor env ctx) transactions)
  let other ← stock (N.assemble env ctx done.2 transactions done.1)
  let header := assembleHeader env ctx done.1.gasUsed other
  let block : RecoveredBlock τ :=
    { sealed := ⟨header, hashSlow header⟩, transactions
      withdrawals := some (ctx.withdrawals.getD []) }
  validateFixedBlock hashSlow N config block
  let token ← Run.lift (mintToken config.bound.profile block.sealed done.1)
  return (block, token)

def replayComplete (inner : σ) (block : RecoveredBlock τ) : Completing CompletedParent := do
  validateFixedBlock hashSlow N config block
  let header := block.sealed.header
  let env ← Run.lift ((config.evmEnv header).mapErr BlockExecutionError.binding)
  let ctx ← Run.lift ((config.contextForBlock P.sha256 header block.withdrawals).mapErr
    BlockExecutionError.binding)
  let done ← withExecutor config.bound inner
    (UnicityBlockExecutor.executeBlock P M (N.createExecutor env ctx) block.transactions)
  Run.refuse (header.gasUsed ≠ done.1.gasUsed) (.stock "block gas used mismatch")
  stock (N.verifyReceipts header done.1)
  let same ← stock (N.stateRoot done.2 header)
  Run.refuse (same = false) (.msg "post-state root mismatch")
  Run.lift (mintToken config.bound.profile block.sealed done.1)

end

/-! ## What a token is made of -/

/-- The receipts of a block end at its gas. -/
def EthBlockExecutor.Receipted {σ τ ρ : Type} (E : EthBlockExecutor σ τ ρ) : Prop :=
  ∀ s result, E.finish s = .ok result → result.gasUsed = result.receipts.getLast?.getD 0

section

variable {σ τ ρ : Type} {P : Primitives} {hashSlow : Header → Bytes32} {M : Machine σ}
  {E : EthBlockExecutor σ τ ρ} {N : EthNode σ τ ρ} {config : UnicityEvmConfig}

/-- The slot holds the system gas, and the gross gas is that and the last receipt's. -/
theorem executeBlock_eq_ok (hE : E.Receipted) {bound : BoundExecutionInput} {inner : σ}
    {transactions : List (RecoveredTx τ)} {slot slot' : Option UInt64} {done : BlockExecutionResult × σ}
    (h : withExecutor bound inner (UnicityBlockExecutor.executeBlock P M E transactions) slot =
      (.ok done, slot')) :
    ∃ system, slot' = some system ∧
      done.1.gasUsed.toNat = system.toNat + (done.1.receipts.getLast?.getD 0).toNat := by
  obtain ⟨hdone, hslot⟩ := Prod.mk.inj h
  have hrun : UnicityBlockExecutor.executeBlock P M E transactions ⟨inner, some bound, slot, .pending⟩ =
      (.ok done, _) := Prod.ext hdone rfl
  obtain ⟨_, _, -, hrun⟩ := Run.bind_eq_ok.mp hrun
  obtain ⟨_, x, -, hrun⟩ := Run.bind_eq_ok.mp hrun
  obtain ⟨result, y, hfinish, hread⟩ := Run.bind_eq_ok.mp hrun
  obtain ⟨hvalue, hstate⟩ := Prod.mk.inj hread
  obtain rfl := Except.ok.inj hvalue
  obtain ⟨b, system, figures, -, -, hfinished, -, hreceipts, hgas, rfl⟩ :=
    UnicityBlockExecutor.finish_eq_ok hfinish
  refine ⟨system, ?_, ?_⟩
  · exact hslot.symm.trans (congrArg UnicityBlockExecutor.systemGas hstate.symm)
  · show result.gasUsed.toNat = _ + (result.receipts.getLast?.getD 0).toNat
    rw [hgas, hE _ _ hfinished, hreceipts]

variable {profile : BlockProfile} {sealed : SealedHeader} {token : CompletedParent} {system : UInt64}

/-- The accounting every token of a block is made of. -/
def Minted (profile : BlockProfile) (sealed : SealedHeader) (system : UInt64) (token : CompletedParent) :
    Prop :=
  ∃ fee, sealed.header.baseFeePerGas = some fee ∧ ParentExecutionOutcome.reconcile profile sealed.hash
    sealed.header.gasUsed system fee = .ok token.outcome

theorem Minted.unique {token' : CompletedParent} (h : Minted profile sealed system token)
    (h' : Minted profile sealed system token') : token = token' := by
  obtain ⟨fee, hfee, houtcome⟩ := h
  obtain ⟨fee', hfee', houtcome'⟩ := h'
  obtain rfl := Option.some.inj (hfee.symm.trans hfee')
  obtain ⟨outcome⟩ := token
  obtain ⟨outcome'⟩ := token'
  exact congrArg CompletedParent.mk (Except.ok.inj (houtcome.symm.trans houtcome'))

theorem minted_of_mintToken {result : BlockExecutionResult}
    (h : mintToken profile sealed result = .ok token) (hheader : sealed.header.gasUsed = result.gasUsed)
    (hgas : result.gasUsed.toNat = system.toNat + (result.receipts.getLast?.getD 0).toNat) :
    Minted profile sealed system token := by
  simp only [mintToken, Res.bind_eq_ok, Res.okOr_eq_ok, Res.mapErr_eq_ok, Res.pure_eq_ok, subWithin_eq_some] at h
  obtain ⟨system', hsystem, fee, hfee, outcome, houtcome, rfl⟩ := h
  obtain rfl : system' = system := UInt64.toNat_inj.mp (by omega)
  exact ⟨fee, hfee, hheader.symm ▸ houtcome⟩

theorem minted_of_completedParentFor (h : config.completedParentFor sealed (some system) = .ok token) :
    Minted config.bound.profile sealed system token := by
  simp only [UnicityEvmConfig.completedParentFor, Res.bind_eq_ok, Res.okOr_eq_ok, Option.some.injEq,
    Res.pure_eq_ok] at h
  obtain ⟨_, rfl, fee, hfee, outcome, houtcome, rfl⟩ := h
  exact ⟨fee, hfee, houtcome⟩

theorem stock_eq_ok {σ α : Type} {x : Except String α} {s t : σ} {a : α} :
    (stock x : Run σ BlockExecutionError α) s = (.ok a, t) ↔ x = .ok a ∧ t = s := by
  rw [stock, Run.lift_eq_ok]
  cases x <;> simp [Except.mapError]

theorem validateFixedBlock_eq_ok {block : RecoveredBlock τ} {slot slot' : Option UInt64} {u : Unit}
    (h : validateFixedBlock hashSlow N config block slot = (.ok u, slot')) :
    hashSlow block.sealed.header = block.sealed.hash ∧ slot' = slot := by
  simp only [validateFixedBlock, Run.bind_eq_ok, Run.refuse_eq_ok, stock_eq_ok, not_not] at h
  obtain ⟨_, _, ⟨-, rfl⟩, _, _, ⟨hhash, rfl⟩, _, _, ⟨-, rfl⟩, _, _, ⟨-, rfl⟩, -, rfl⟩ := h
  exact ⟨hhash, rfl⟩

theorem minted_of_buildComplete (hN : ∀ env ctx, (N.createExecutor env ctx).Receipted)
    {parent : SealedHeader} {attributes : NextBlockEnvAttributes} {inner : σ}
    {transactions : List (RecoveredTx τ)} {slot : Option UInt64} {block : RecoveredBlock τ}
    (h : buildComplete P hashSlow M N config parent attributes inner transactions slot =
      (.ok (block, token), some system)) : Minted config.bound.profile block.sealed system token := by
  simp only [buildComplete, Run.bind_eq_ok, Run.refuse_eq_ok, Run.lift_eq_ok, Run.pure_eq_ok,
    stock_eq_ok, Prod.mk.injEq] at h
  obtain ⟨_, _, ⟨-, rfl⟩, env, _, ⟨-, rfl⟩, ctx, _, ⟨-, rfl⟩, done, _, hdone, other, _, ⟨-, rfl⟩, _, _,
    hvalid, _, _, ⟨htoken, rfl⟩, ⟨rfl, rfl⟩, rfl⟩ := h
  obtain ⟨-, rfl⟩ := validateFixedBlock_eq_ok hvalid
  obtain ⟨system', hslot, hgas⟩ := executeBlock_eq_ok (hN env ctx) hdone
  obtain rfl := Option.some.inj hslot
  exact minted_of_mintToken htoken rfl hgas

/-- What a replay that succeeds has checked of the block. -/
theorem replayComplete_eq_ok {inner : σ} {slot slot' : Option UInt64} {block : RecoveredBlock τ}
    (h : replayComplete P hashSlow M N config inner block slot = (.ok token, slot')) :
    hashSlow block.sealed.header = block.sealed.hash ∧
      (∃ ctx, config.contextForBlock P.sha256 block.sealed.header block.withdrawals = .ok ctx) ∧
      ∃ env ctx done, withExecutor config.bound inner (UnicityBlockExecutor.executeBlock P M
          (N.createExecutor env ctx) block.transactions) slot = (.ok done, slot') ∧
        block.sealed.header.gasUsed = done.1.gasUsed ∧
        mintToken config.bound.profile block.sealed done.1 = .ok token := by
  simp only [replayComplete, Run.bind_eq_ok, Run.refuse_eq_ok, Run.lift_eq_ok, stock_eq_ok,
    Res.mapErr_eq_ok, not_not] at h
  obtain ⟨_, _, hvalid, env, _, ⟨-, rfl⟩, ctx, _, ⟨hctx, rfl⟩, done, _, hdone, _, _, ⟨hgas, rfl⟩, _, _,
    ⟨-, rfl⟩, _, _, ⟨-, rfl⟩, _, _, ⟨-, rfl⟩, htoken, rfl⟩ := h
  obtain ⟨hhash, rfl⟩ := validateFixedBlock_eq_ok hvalid
  exact ⟨hhash, ⟨ctx, hctx⟩, env, ctx, done, hdone, hgas, htoken⟩

theorem minted_of_replayComplete (hN : ∀ env ctx, (N.createExecutor env ctx).Receipted) {inner : σ}
    {slot : Option UInt64} {block : RecoveredBlock τ}
    (h : replayComplete P hashSlow M N config inner block slot = (.ok token, some system)) :
    Minted config.bound.profile block.sealed system token := by
  obtain ⟨-, -, env, ctx, done, hdone, hheader, htoken⟩ := replayComplete_eq_ok h
  obtain ⟨system', hslot, hgas⟩ := executeBlock_eq_ok (hN env ctx) hdone
  obtain rfl := Option.some.inj hslot
  exact minted_of_mintToken htoken hheader hgas

end

end Ureth.Source.Execution
