import Ureth.Guarantees.HeaderAgreement
import Ureth.Source.Execution.ExecutorSpec

/-!
# The protocol of the block executor

The calls on one executor come in any order. Transactions run and blocks finish only after the one
prefix call of the run succeeded, and the header's gas is the sum of two shares within the profile.
-/

namespace Ureth.Guarantees
open Ureth.Foundation Ureth.Source Ureth.Source.Execution

/-- Whatever was called before on a fresh executor, one result out at a time: a transaction
executes only if the run made one prefix call and it succeeded, the input carries no epoch
transition and the sender is not the system caller; a block finishes only if the run made one
prefix call and it succeeded, and its gas is the prefix's and the committed transactions', each
within its share and both within the limit; and no block is refused for its accounting. -/
theorem executor_protocol {σ τ ρ : Type} {P : Primitives} {M : Machine σ} {E : EthBlockExecutor σ τ ρ}
    (hM : M.SpendsWithin) (hE : E.Accounts M) {inner : σ} {bound : Option BoundExecutionInput}
    (hzero : E.cumulativeTxGasUsed inner = 0) {ls : List (ExecutorLabel ρ)}
    {x : UnicityBlockExecutor σ} {out : Option ρ}
    (hrun : Steps (ExecutorStep P M E) (UnicityBlockExecutor.new inner bound, none) ls (x, out)) :
    (∀ tx result y, x.executeTransactionWithoutCommit E tx = (.ok result, y) →
      ExecutorLabel.prefixes ls = [true] ∧
      ∃ b, x.bound = some b ∧ b.input.transitions = [] ∧ tx.signer ≠ systemCaller) ∧
    (∀ result y, x.finish E = (.ok result, y) →
      ExecutorLabel.prefixes ls = [true] ∧
      ∃ b system, x.bound = some b ∧ x.phase = .ready system ∧
        result.gasUsed.toNat = system.toNat + ExecutorLabel.ordinary E ls ∧
        system.toNat ≤ b.profile.systemGas.toNat ∧
        ExecutorLabel.ordinary E ls ≤ b.profile.capacity ∧
        result.gasUsed.toNat ≤ b.profile.maxGas.toNat) ∧
    ∀ e, (x.finish E).1 ≠ Res.fail (.accounting e) := by
  have hsound := Job.Sound.run hM hE hzero hrun
  refine ⟨?_, ?_, ?_⟩
  · intro tx result y h
    obtain ⟨b, hran⟩ := UnicityBlockExecutor.executeTransactionWithoutCommit_eq_ok h
    obtain ⟨system, hphase⟩ := PrefixState.isReady_iff.mp hran.ready
    obtain ⟨-, hprefixes, -⟩ := hsound.ready system hphase
    exact ⟨hprefixes, b, hran.bound, hran.noTransition, hran.sender⟩
  · intro result y h
    obtain ⟨b, system, figures, hb, hphase, hfinished, hfits, -, hgas, -⟩ :=
      UnicityBlockExecutor.finish_eq_ok h
    obtain ⟨-, hprefixes, -⟩ := hsound.ready system hphase
    have hordinary := hfits.ordinary
    have hsum := hfits.sum_le
    rw [hE.finished _ _ hfinished, hsound.gas] at hgas hordinary hsum
    exact ⟨hprefixes, b, system, hb, hphase, hgas, hfits.system, hordinary, hgas ▸ hsum⟩
  · refine UnicityBlockExecutor.finish_ne_accounting hE fun b system hb hphase => ?_
    obtain ⟨-, -, b', hb', hvalid, hsystem, hfits⟩ := hsound.ready system hphase
    obtain rfl : b' = b := Option.some.inj (hb'.symm.trans hb)
    exact ⟨hvalid, hsystem, le_trans (Nat.le_add_right _ _) hfits⟩

/-! ## A block with one transaction -/

/-- The update of the first block: no new entries, the origin in the prior tip. -/
def firstUpdate : Bytes :=
  array 13 ++ text updateDomain ++ uint 3 ++ bytes (Fixed.literal 32 2).val ++ uint 7 ++
    bytes (Fixed.literal 32 3).val ++ bytes (Fixed.literal 32 0x11).val ++ uint 1 ++ uint 1 ++ uint 9 ++
    bytes (Fixed.literal 32 1).val ++ uint 1 ++ [0xf6] ++ array 0

/-- A companion without records. -/
def firstRecords : Bytes :=
  array 6 ++ text importDomain ++ uint 0 ++ uint 0 ++ uint 0 ++ bytes (Fixed.zero 32).val ++ array 0

def firstBound : BoundExecutionInput :=
  { genesisBound with
    b1 := { context := { emptyJob.context with genesisCommitment := .literal 32 2 }
            update := ⟨firstUpdate, by decide +kernel⟩
            records := ⟨firstRecords, by decide +kernel⟩ } }

def constantPrimitives : Primitives where
  sha256 := oneWord
  keccak := oneWord
  secp := { PublicKey := Unit, decEq := inferInstance, Signature := Unit, fromSlice := fun _ => none,
            fromCompact := fun _ _ => none, highS := fun _ => false, recover := fun _ _ => none }
  encoders := ⟨fun _ _ _ => [], fun _ _ => [], fun _ _ => []⟩

/-- The registry words of the genesis state and of the finalized first block. -/
def firstStorage (slot : B1.Word) : B1.Word :=
  if slot = b1InitializedSlot then .literal 32 1
  else if slot = b1NetworkSlot then .literal 32 3
  else if slot = b1ProfileHashSlot then .literal 32 3
  else if slot = assignmentRootEpochSlot then .literal 32 1
  else if slot = assignmentEpochSlot then .zero 32
  else if slot = assignmentActiveConfHashSlot then .literal 32 0x33
  else if slot = genesisShardConfHashSlot then .literal 32 0x33
  else if slot = outcomesRoundSlot then .literal 32 1
  else if slot = outcomesCommitmentSlot then .literal 32 1
  else .literal 32 2

/-- A machine over the block's gas: every call succeeds and spends at most a hundred. -/
def meteredMachine : Machine UInt64 where
  basic _ s := (.ok (some sealRegistryCodeHash), s)
  storage _ slot s := (.ok (firstStorage slot), s)
  runSystemCall _ tx s := (.ok ⟨true, min 100 tx.gasLimit, 0, [], ""⟩, s)
  commit s := s
  discard s := s

/-- A stock executor that charges every transaction its gas limit. -/
def limitExecutor : EthBlockExecutor UInt64 Unit UInt64 where
  withdrawals := none
  applyPreExecutionChanges s := (.ok (), s)
  executeTransactionWithoutCommit tx s := (.ok tx.gasLimit, s)
  commitTransaction result s := s + result
  finish s := .ok ⟨[s], s, 0⟩
  cumulativeTxGasUsed s := s
  txGasUsed result := result
  hookEnv _ := ⟨7, 1, .zero 20, 0, .zero 32, 0, 0⟩

theorem meteredMachine_spendsWithin : meteredMachine.SpendsWithin := by
  rintro env tx s r t h
  obtain ⟨hr, -⟩ := Prod.mk.inj h
  obtain rfl := Except.ok.inj hr
  rw [toNat_min]
  exact Nat.min_le_right _ _

theorem limitExecutor_accounts : limitExecutor.Accounts meteredMachine where
  machine _ := ⟨⟨fun _ _ h => h, fun _ _ _ h => h⟩, fun _ _ _ h => h, fun _ h => h, fun _ h => h⟩
  prepared _ := rfl
  executed _ _ := rfl
  committed r s h := (UInt64.toNat_add s r).trans (Nat.mod_eq_of_lt h)
  finished s result h := by
    obtain rfl := Except.ok.inj h
    rfl

def firstExecutor : UnicityBlockExecutor UInt64 := .new 0 (some firstBound)

/-- The executor after its prefix: no gas yet, and the input it was made for. -/
def readyExecutor : UnicityBlockExecutor UInt64 := ⟨0, some firstBound, none, .ready 7964⟩

theorem firstExecutor_ready :
    let after := (firstExecutor.applyPreExecutionChanges constantPrimitives meteredMachine
      limitExecutor).2
    after.phase = .ready 7964 ∧ after.systemGas = none := by
  decide +kernel

theorem firstExecutor_prefix :
    ∃ u, firstExecutor.applyPreExecutionChanges constantPrimitives meteredMachine limitExecutor =
      (.ok u, readyExecutor) := by
  obtain ⟨hready, hslot⟩ := firstExecutor_ready
  rcases hcall : firstExecutor.applyPreExecutionChanges constantPrimitives meteredMachine limitExecutor
    with ⟨r, y⟩
  rw [hcall] at hready hslot
  rcases UnicityBlockExecutor.applyPreExecutionChanges_cases meteredMachine_spendsWithin
      limitExecutor_accounts hcall with
    ⟨-, -, ⟨u, rfl⟩, b, system, -, -, -, hy⟩ | ⟨⟨w, hw, -⟩, -, -⟩ | ⟨-, -, hy⟩
  · obtain ⟨inner, bound, slot, phase⟩ := y
    obtain rfl : phase = .ready 7964 := hready
    obtain rfl : slot = none := hslot
    obtain rfl : inner = 0 := hy.gas
    obtain rfl : bound = some firstBound := hy.bound
    exact ⟨u, rfl⟩
  · cases hw
  · cases hy.phase.symm.trans hready

def plainTransaction : RecoveredTx Unit := ⟨.literal 20 9, none, 21000, .literal 32 8, ()⟩

theorem readyExecutor_execute :
    (readyExecutor.executeTransactionWithoutCommit limitExecutor plainTransaction).1 = .ok 21000 := by
  decide +kernel

def committedExecutor : UnicityBlockExecutor UInt64 := ⟨21000, some firstBound, none, .ready 7964⟩

theorem committedExecutor_finish :
    (committedExecutor.finish limitExecutor).1 = .ok ⟨[21000], 28964, 0⟩ := by
  decide +kernel

/-- The block of one plain transaction: its gas is the prefix's and the transaction's. -/
theorem executor_protocol_first :
    Steps (ExecutorStep constantPrimitives meteredMachine limitExecutor) (firstExecutor, none)
        [.prefixed true, .executed 21000, .committed 21000] (committedExecutor, none) ∧
      ∃ result y, committedExecutor.finish limitExecutor = (.ok result, y) ∧
        result.gasUsed.toNat = 7964 + 21000 := by
  obtain ⟨u, hprefix⟩ := firstExecutor_prefix
  have hexecute : readyExecutor.executeTransactionWithoutCommit limitExecutor plainTransaction =
      (.ok 21000, readyExecutor) := Prod.ext readyExecutor_execute rfl
  have hrun : Steps (ExecutorStep constantPrimitives meteredMachine limitExecutor) (firstExecutor, none)
      [.prefixed true, .executed 21000, .committed 21000] (committedExecutor, none) :=
    .cons (.prefixed hprefix) (.cons (.executed hexecute) (.single (.committed readyExecutor 21000)))
  obtain ⟨-, hfinish, -⟩ := executor_protocol meteredMachine_spendsWithin limitExecutor_accounts rfl hrun
  have hdone : committedExecutor.finish limitExecutor = (.ok ⟨[21000], 28964, 0⟩, _) :=
    Prod.ext committedExecutor_finish rfl
  obtain ⟨-, b, system, -, hphase, hgas, -⟩ := hfinish _ _ hdone
  obtain rfl : 7964 = system := PrefixState.ready.inj hphase
  exact ⟨hrun, _, _, hdone, hgas⟩

end Ureth.Guarantees
