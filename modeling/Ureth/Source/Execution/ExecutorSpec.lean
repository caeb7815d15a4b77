import Ureth.Foundation.Steps
import Ureth.Source.Execution.BlockSpec
import Ureth.Source.Execution.Executor

/-!
# Runs of a block executor

Every sequence of calls on one executor, with at most one executed result out at a time. The
phase says what the prefix calls of the run were, and the running gas is the gas of the committed
transactions, within the ordinary capacity together with the result that is out.
-/

namespace Ureth.Source.Execution
open Ureth.Foundation

variable {σ τ ρ : Type}

/-- The stock executor's block gas is the gas of its committed transactions; nothing else moves it. -/
structure EthBlockExecutor.Accounts (E : EthBlockExecutor σ τ ρ) (M : Machine σ) : Prop where
  machine : ∀ gas, M.Keeps fun s => E.cumulativeTxGasUsed s = gas
  prepared : ∀ s, E.cumulativeTxGasUsed (E.applyPreExecutionChanges s).2 = E.cumulativeTxGasUsed s
  executed : ∀ tx s, E.cumulativeTxGasUsed (E.executeTransactionWithoutCommit tx s).2 =
    E.cumulativeTxGasUsed s
  committed : ∀ r s, (E.cumulativeTxGasUsed s).toNat + (E.txGasUsed r).toNat < 2 ^ 64 →
    (E.cumulativeTxGasUsed (E.commitTransaction r s)).toNat =
      (E.cumulativeTxGasUsed s).toNat + (E.txGasUsed r).toNat
  finished : ∀ s result, E.finish s = .ok result → result.gasUsed = E.cumulativeTxGasUsed s

/-! ## Single calls -/

namespace UnicityBlockExecutor

variable {P : Primitives} {M : Machine σ} {E : EthBlockExecutor σ τ ρ}
  {bound : Option BoundExecutionInput} {gas : UInt64} {phase : PrefixState}

/-- The phase, the input and the running gas of an executor. -/
structure Holds (E : EthBlockExecutor σ τ ρ) (phase : PrefixState) (bound : Option BoundExecutionInput)
    (gas : UInt64) (x : UnicityBlockExecutor σ) : Prop where
  phase : x.phase = phase
  bound : x.bound = bound
  gas : E.cumulativeTxGasUsed x.inner = gas

theorem triple_onInner {ε α : Type} {f : ε → BlockExecutionError} {m : Run σ ε α} {A : α → Prop}
    (hkeeps : Run.Keeps (fun s => E.cumulativeTxGasUsed s = gas) m)
    (hval : ∀ s a t, m s = (.ok a, t) → A a) :
    Run.Triple (Holds E phase bound gas) (onInner f m) (fun a x => A a ∧ Holds E phase bound gas x)
      (Holds E phase bound gas) := by
  intro x hx
  have hafter : Holds E phase bound gas { x with inner := (m x.inner).2 } :=
    ⟨hx.phase, hx.bound, hkeeps.apply hx.gas⟩
  refine ⟨?_, ?_⟩
  · rintro a y hy
    obtain ⟨hres, rfl⟩ := Prod.mk.inj hy
    exact ⟨hval _ _ _ (Prod.ext (Res.mapErr_eq_ok.mp hres) rfl), hafter⟩
  · rintro e y hy
    obtain ⟨-, rfl⟩ := Prod.mk.inj hy
    exact hafter

theorem keeps_onInner {ε α : Type} {f : ε → BlockExecutionError} {m : Run σ ε α}
    (hkeeps : Run.Keeps (fun s => E.cumulativeTxGasUsed s = gas) m) :
    Run.Keeps (Holds E phase bound gas) (onInner f m) :=
  (triple_onInner (A := fun _ => True) hkeeps fun _ _ _ _ => trivial).mono (fun _ _ h => h.2) fun _ h => h

theorem keeps_ask {ε α : Type} {I : σ → Prop} {f : σ → Except ε α × σ} (h : ∀ s, I s → I (f s).2) :
    Run.Keeps I (Run.ask f) := Run.keeps_of_state h

theorem triple_setPhase (next : PrefixState) :
    Run.Triple (Holds E phase bound gas) (setPhase next) (fun _ => Holds E next bound gas)
      fun _ => False := by
  intro x hx
  refine ⟨?_, ?_⟩
  · rintro a y hy
    obtain ⟨-, rfl⟩ := Prod.mk.inj hy
    exact ⟨rfl, hx.bound, hx.gas⟩
  · rintro e y hy
    cases (Prod.mk.inj hy).1

theorem triple_boundInput :
    Run.Triple (Holds E phase bound gas) boundInput
      (fun b x => bound = some b ∧ Holds E phase bound gas x) (Holds E phase bound gas) := by
  intro x hx
  refine ⟨?_, ?_⟩
  · rintro b y hy
    obtain ⟨hres, rfl⟩ := Prod.mk.inj hy
    exact ⟨hx.bound.symm.trans (Res.okOr_eq_ok.mp hres), hx⟩
  · rintro e y hy
    obtain ⟨-, rfl⟩ := Prod.mk.inj hy
    exact hx

/-- The hooks add to what the transition spent, within the system gas. -/
theorem triple_applyHooks (hM : M.SpendsWithin) (hE : E.Accounts M) {b : BoundExecutionInput}
    {spent : UInt64} (hspent : spent.toNat ≤ b.profile.systemGas.toNat) :
    Run.Triple (Holds E phase bound gas) (applyHooks P M E b spent)
      (fun system x => system.toNat ≤ b.profile.systemGas.toNat ∧ Holds E phase bound gas x)
      (Holds E phase bound gas) := by
  unfold applyHooks
  split
  · refine (Run.triple_lift _).bind fun remaining => Run.triple_of_and fun hremaining => ?_
    refine (Run.keeps_lift _).bind fun origin => ?_
    refine (triple_onInner (A := fun o => o.gasSpent.toNat ≤ remaining.toNat) ?_ ?_).bind
      fun outcome => Run.triple_of_and fun houtcome => ?_
    · exact Run.keeps_of_state fun s hs => (keeps_runHooks (hE.machine gas) _ _).apply hs
    · exact fun s o t h => runHooks_le hM h
    · refine (Run.triple_lift _).mono (fun system x h => ⟨?_, h.2⟩) fun _ h => h
      have hsum := addWithin_eq_some.mp (Res.okOr_eq_ok.mp h.1)
      have hrest := subWithin_eq_some.mp (Res.okOr_eq_ok.mp hremaining)
      omega
  · exact Run.triple_pure fun x hx => ⟨hspent, hx⟩

/-- What a successful prefix leaves, for the input it ran on. -/
def Prefixed (E : EthBlockExecutor σ τ ρ) (bound : Option BoundExecutionInput) (gas : UInt64)
    (x : UnicityBlockExecutor σ) : Prop :=
  ∃ b system, bound = some b ∧ b.profile.Valid ∧ UInt64.toNat system ≤ b.profile.systemGas.toNat ∧
    Holds E (.ready system) bound gas x

theorem totalGasSpent_le {input : RootInputV2} {update : UpdateInput} {config : ExecutionConfig}
    {s t : σ} {r : ExecutionResult}
    (h : executeRegistryTransitionOnDb P M input update config s = (.ok r, t)) :
    r.totalGasSpent.toNat ≤ config.systemGasLimit.toNat := by
  obtain ⟨-, -, _, _, _, _, -, -, -, hcalls⟩ := executeRegistryTransitionOnDb_eq_ok.mp h
  obtain ⟨c, total, hchains, -, rfl⟩ := executeCalls_eq_ok.mp hcalls
  exact hchains.within

/-- A prefix that fails leaves the executor poisoned. -/
theorem triple_runPrefix (hM : M.SpendsWithin) (hE : E.Accounts M) :
    Run.Triple (Holds E phase bound gas) (runPrefix P M E) (fun _ => Prefixed E bound gas)
      (Holds E .poisoned bound gas) := by
  refine ((triple_setPhase .poisoned).mono (fun _ _ h => h) fun _ h => h.elim).bind fun _ => ?_
  refine triple_boundInput.bind fun b => Run.triple_of_and fun hb => ?_
  refine (Run.triple_lift _).bind fun q => Run.triple_of_and fun hq => ?_
  have hvalid := (BlockProfile.validate_eq_ok.mp (Res.mapErr_eq_ok.mp hq)).1
  refine (triple_onInner (keeps_executeRegistryTransitionOnDb (hE.machine gas))
    fun s r t h => totalGasSpent_le h).bind fun result => Run.triple_of_and fun hspent => ?_
  refine (keeps_onInner (keeps_ask fun s hs => (hE.prepared s).trans hs)).bind fun _ => ?_
  refine (triple_applyHooks hM hE hspent).bind fun system => Run.triple_of_and fun hsystem => ?_
  refine (triple_setPhase (.ready system)).mono (fun _ x hx => ?_) fun _ h => h.elim
  exact ⟨b, system, hb, hvalid, hsystem, hx⟩

/-- The block carries withdrawals, which no prefix accepts. -/
def Withdraws (E : EthBlockExecutor σ τ ρ) : Prop := ∃ withdrawals ∈ E.withdrawals, withdrawals ≠ []

/-- A prefix call: the first one runs; one with withdrawals changes nothing; any other poisons. -/
theorem applyPreExecutionChanges_cases (hM : M.SpendsWithin) (hE : E.Accounts M)
    {x y : UnicityBlockExecutor σ} {r : Res BlockExecutionError Unit}
    (h : applyPreExecutionChanges P M E x = (r, y)) :
    (x.phase = .pending ∧ ¬ Withdraws E ∧ (∃ u, r = .ok u) ∧
      Prefixed E x.bound (E.cumulativeTxGasUsed x.inner) y) ∨
    (Withdraws E ∧ (∃ e, r = .error e) ∧ y = x) ∨
    (¬ Withdraws E ∧ (∃ e, r = .error e) ∧
      Holds E .poisoned x.bound (E.cumulativeTxGasUsed x.inner) y) := by
  unfold applyPreExecutionChanges at h
  split at h
  next hw =>
    obtain ⟨rfl, rfl⟩ := Prod.mk.inj h
    exact .inr (.inl ⟨hw, ⟨_, rfl⟩, rfl⟩)
  next hw =>
    split at h
    next hpending =>
      obtain ⟨hok, herror⟩ := triple_runPrefix (P := P) hM hE x ⟨hpending, rfl, rfl⟩
      rcases r with e | u
      · exact .inr (.inr ⟨hw, ⟨e, rfl⟩, herror e y h⟩)
      · exact .inl ⟨hpending, hw, ⟨u, rfl⟩, hok u y h⟩
    next =>
      obtain ⟨rfl, rfl⟩ := Prod.mk.inj h
      exact .inr (.inr ⟨hw, ⟨_, rfl⟩, rfl, rfl, rfl⟩)

/-- What a transaction had to meet to be executed. -/
structure Ran (E : EthBlockExecutor σ τ ρ) (tx : RecoveredTx τ) (result : ρ)
    (x : UnicityBlockExecutor σ) (b : BoundExecutionInput) : Prop where
  bound : x.bound = some b
  ready : x.phase.isReady = true
  noTransition : b.input.transitions = []
  sender : tx.signer ≠ systemCaller
  room : (E.cumulativeTxGasUsed x.inner).toNat + (E.txGasUsed result).toNat ≤ b.profile.capacity

theorem executeTransactionWithoutCommit_eq_ok {tx : RecoveredTx τ} {result : ρ}
    {x y : UnicityBlockExecutor σ} (h : executeTransactionWithoutCommit E tx x = (.ok result, y)) :
    ∃ b, Ran E tx result x b := by
  simp only [executeTransactionWithoutCommit, Run.bind_eq_ok, Run.refuse_eq_ok, Run.pure_eq_ok,
    not_not, UInt64.not_lt] at h
  obtain ⟨_, _, hready, b, _, hbound, _, _, ⟨htransitions, rfl⟩, _, _, ⟨hsender, rfl⟩, _, _, ⟨-, rfl⟩,
    available, _, havailable, _, _, ⟨-, rfl⟩, _, _, -, _, _, ⟨hroom, rfl⟩, rfl, rfl⟩ := h
  obtain ⟨hphase, rfl⟩ := Prod.mk.inj hready
  obtain ⟨hsome, rfl⟩ := Prod.mk.inj hbound
  obtain ⟨hfree, rfl⟩ := Prod.mk.inj havailable
  simp only [Res.bind_eq_ok, Res.mapErr_eq_ok, BlockProfile.ordinaryCapacity_eq_ok, Res.okOr_eq_ok,
    subWithin_eq_some] at hfree
  obtain ⟨_, ⟨hvalid, rfl⟩, hfree⟩ := hfree
  rw [BlockProfile.toNat_capacity hvalid.reserve] at hfree
  refine ⟨b, Res.okOr_eq_ok.mp hsome, by simpa using Res.refuse_eq_ok.mp hphase, htransitions, hsender,
    ?_⟩
  have hle := UInt64.le_iff_toNat_le.mp hroom
  omega

/-- Executing a transaction, or refusing it, changes neither phase, input nor running gas. -/
theorem keeps_executeTransactionWithoutCommit (hE : E.Accounts M) (tx : RecoveredTx τ) :
    Run.Keeps (Holds E phase bound gas) (executeTransactionWithoutCommit E tx) := by
  have hstay : ∀ {α : Type} (f : UnicityBlockExecutor σ → Res BlockExecutionError α),
      Run.Keeps (Holds E phase bound gas) fun x => (f x, x) := fun _ => Run.keeps_of_state fun _ h => h
  exact (hstay _).bind fun _ => (hstay _).bind fun _ => (Run.keeps_refuse _ _).bind fun _ =>
    (Run.keeps_refuse _ _).bind fun _ => (Run.keeps_refuse _ _).bind fun _ => (hstay _).bind fun _ =>
    (Run.keeps_refuse _ _).bind fun _ =>
    (keeps_onInner (keeps_ask fun s hs => (hE.executed tx s).trans hs)).bind fun _ =>
    (Run.keeps_refuse _ _).bind fun _ => Run.keeps_pure _

/-- A block that finishes: the figures of the stock executor fit the profile with the system gas of
the prefix, and the slot keeps that gas. -/
theorem finish_eq_ok {x y : UnicityBlockExecutor σ} {result : BlockExecutionResult}
    (h : finish E x = (.ok result, y)) :
    ∃ b system figures, x.bound = some b ∧ x.phase = .ready system ∧ E.finish x.inner = .ok figures ∧
      b.profile.Fits system figures.gasUsed ∧ result.receipts = figures.receipts ∧
      result.gasUsed.toNat = system.toNat + figures.gasUsed.toNat ∧
      y = { x with systemGas := some system } := by
  unfold finish at h
  split at h
  next system hphase =>
    simp only [Run.bind_eq_ok, Run.refuse_eq_ok, Run.lift_eq_ok, Run.mapErr_eq_ok, Run.ask_eq_ok,
      Run.pure_eq_ok, Res.mapErr_eq_ok, derive_eq_ok] at h
    obtain ⟨b, _, hbound, figures, _, hstock, _, _, ⟨-, rfl⟩, gas, _, ⟨⟨hfits, rfl⟩, rfl⟩, rfl, rfl⟩ := h
    obtain ⟨hsome, rfl⟩ := Prod.mk.inj hbound
    obtain ⟨hfinished, rfl⟩ := Prod.mk.inj hstock
    have hsum := hfits.sum_le
    have hmax := b.profile.maxGas.toNat_lt
    refine ⟨b, system, figures, Res.okOr_eq_ok.mp hsome, hphase, hfinished, hfits, rfl, ?_, rfl⟩
    show (UInt64.ofNat _).toNat = _
    rw [UInt64.toNat_ofNat', Nat.mod_eq_of_lt (by omega)]
  next => cases Res.fail_ne_ok.mp (Prod.mk.inj h).1

/-- A block whose shares fit its profile is never refused for its accounting. -/
theorem finish_ne_accounting (hE : E.Accounts M) {x : UnicityBlockExecutor σ}
    (h : ∀ b system, x.bound = some b → x.phase = .ready system →
      b.profile.Fits system (E.cumulativeTxGasUsed x.inner)) (e : BlockAccountingError) :
    (finish E x).1 ≠ Res.fail (.accounting e) := by
  refine Res.FailsOnly.ne_fail (P := fun e' => e' ≠ .accounting e) ?_ (fun hne => hne rfl)
  unfold finish
  split
  next system hphase =>
    refine Run.failsOnly_bind (Res.failsOnly_okOr (by simp)) fun b y hbound => ?_
    obtain ⟨hsome, rfl⟩ := Prod.mk.inj hbound
    have hfits := h b system (Res.okOr_eq_ok.mp hsome) hphase
    refine Run.failsOnly_bind (Res.failsOnly_mapErr (Run.safe_ask _ _) (by simp)) fun stock z hstock => ?_
    obtain ⟨hfinished, rfl⟩ := Prod.mk.inj (Run.ask_eq_ok.mp (Run.mapErr_eq_ok.mp hstock))
    refine Run.failsOnly_bind (Res.failsOnly_refuse (by simp)) fun _ z hz => ?_
    rw [hE.finished _ _ hfinished, derive_eq_ok.mpr ⟨hfits, rfl⟩]
    trivial
  next => exact Res.failsOnly_fail (by simp)

end UnicityBlockExecutor

/-! ## The system -/

/-- One call on the executor, with what the caller learns of it. -/
inductive ExecutorLabel (ρ : Type) where
  | prefixed (succeeded : Bool)
  | executed (result : ρ)
  | refused
  | committed (result : ρ)
  | dropped

/-- An executor and the executed result that is out. -/
abbrev Job (σ ρ : Type) := UnicityBlockExecutor σ × Option ρ

section

variable (P : Primitives) (M : Machine σ) (E : EthBlockExecutor σ τ ρ)

inductive ExecutorStep : Job σ ρ → ExecutorLabel ρ → Job σ ρ → Prop
  | prefixed {x y : UnicityBlockExecutor σ} {out : Option ρ} {u : Unit}
      (call : x.applyPreExecutionChanges P M E = (.ok u, y)) :
      ExecutorStep (x, out) (.prefixed true) (y, out)
  | prefixFailed {x y : UnicityBlockExecutor σ} {out : Option ρ} {e : Fault BlockExecutionError}
      (call : x.applyPreExecutionChanges P M E = (.error e, y)) :
      ExecutorStep (x, out) (.prefixed false) (y, out)
  | executed {x y : UnicityBlockExecutor σ} {tx : RecoveredTx τ} {result : ρ}
      (call : UnicityBlockExecutor.executeTransactionWithoutCommit E tx x = (.ok result, y)) :
      ExecutorStep (x, none) (.executed result) (y, some result)
  | refused {x y : UnicityBlockExecutor σ} {tx : RecoveredTx τ} {e : Fault BlockExecutionError}
      (call : UnicityBlockExecutor.executeTransactionWithoutCommit E tx x = (.error e, y)) :
      ExecutorStep (x, none) .refused (y, none)
  | committed (x : UnicityBlockExecutor σ) (result : ρ) :
      ExecutorStep (x, some result) (.committed result) (x.commitTransaction E result, none)
  | dropped (x : UnicityBlockExecutor σ) (result : ρ) :
      ExecutorStep (x, some result) .dropped (x, none)

end

namespace ExecutorLabel

/-- The outcomes of the prefix calls of a run. -/
def prefixes (ls : List (ExecutorLabel ρ)) : List Bool :=
  ls.filterMap fun
    | prefixed succeeded => some succeeded
    | _ => none

/-- The gas one call adds to the block. -/
def gas (E : EthBlockExecutor σ τ ρ) : ExecutorLabel ρ → Nat
  | committed result => (E.txGasUsed result).toNat
  | _ => 0

/-- The gas of the transactions a run committed. -/
def ordinary (E : EthBlockExecutor σ τ ρ) (ls : List (ExecutorLabel ρ)) : Nat := (ls.map (gas E)).sum

variable {E : EthBlockExecutor σ τ ρ} {ls : List (ExecutorLabel ρ)}

@[simp] theorem prefixes_prefixed (b : Bool) : prefixes (ls ++ [prefixed b]) = prefixes ls ++ [b] := by
  simp [prefixes]

/-- A call that is not a prefix call. -/
def IsOrdinary : ExecutorLabel ρ → Prop
  | prefixed _ => False
  | _ => True

theorem prefixes_append_of_isOrdinary {l : ExecutorLabel ρ} (h : l.IsOrdinary) :
    prefixes (ls ++ [l]) = prefixes ls := by
  cases l <;> simp_all [prefixes, IsOrdinary]

theorem ordinary_append (l : ExecutorLabel ρ) : ordinary E (ls ++ [l]) = ordinary E ls + l.gas E := by
  simp [ordinary]

end ExecutorLabel

/-! ## Runs -/

/-- The gas of the result that is out. -/
def EthBlockExecutor.outGas (E : EthBlockExecutor σ τ ρ) (out : Option ρ) : Nat :=
  (out.map fun result => (E.txGasUsed result).toNat).getD 0

/-- What a run from a fresh executor says of the executor it reached. -/
structure Job.Sound (E : EthBlockExecutor σ τ ρ) (ls : List (ExecutorLabel ρ)) (x : Job σ ρ) : Prop where
  gas : (E.cumulativeTxGasUsed x.1.inner).toNat = ExecutorLabel.ordinary E ls
  room : (E.cumulativeTxGasUsed x.1.inner).toNat + E.outGas x.2 < 2 ^ 64
  pending : x.1.phase = .pending → x.2 = none ∧ E.cumulativeTxGasUsed x.1.inner = 0 ∧
    (¬ UnicityBlockExecutor.Withdraws E → ExecutorLabel.prefixes ls = [])
  ready : ∀ system, x.1.phase = .ready system → ¬ UnicityBlockExecutor.Withdraws E ∧
    ExecutorLabel.prefixes ls = [true] ∧ ∃ b, x.1.bound = some b ∧ b.profile.Valid ∧
      system.toNat ≤ b.profile.systemGas.toNat ∧
      (E.cumulativeTxGasUsed x.1.inner).toNat + E.outGas x.2 ≤ b.profile.capacity

namespace Job.Sound

open UnicityBlockExecutor ExecutorLabel

variable {P : Primitives} {M : Machine σ} {E : EthBlockExecutor σ τ ρ} {ls : List (ExecutorLabel ρ)}
  {x y : UnicityBlockExecutor σ} {out : Option ρ}

theorem fresh {inner : σ} {bound : Option BoundExecutionInput}
    (hzero : E.cumulativeTxGasUsed inner = 0) : Sound E [] (UnicityBlockExecutor.new inner bound, none) where
  gas := by rw [UnicityBlockExecutor.new, hzero]; rfl
  room := by rw [UnicityBlockExecutor.new, hzero]; exact (by decide : 0 + 0 < 2 ^ 64)
  pending := fun _ => ⟨rfl, hzero, fun _ => rfl⟩
  ready := fun _ h => by cases h

/-- After a completed prefix the ordinary gas and the result that is out are within the capacity. -/
theorem fits (h : Sound E ls (x, out)) {b : BoundExecutionInput} (hready : x.phase.isReady = true)
    (hb : x.bound = some b) :
    (E.cumulativeTxGasUsed x.inner).toNat + E.outGas out ≤ b.profile.capacity := by
  cases hphase : x.phase with
  | pending => rw [hphase] at hready; cases hready
  | poisoned => rw [hphase] at hready; cases hready
  | ready system =>
    obtain ⟨-, -, b', hb', -, -, hfits⟩ := h.ready system hphase
    obtain rfl : b' = b := Option.some.inj (hb'.symm.trans hb)
    exact hfits

/-- A successful prefix call was the only one. -/
theorem prefixed (h : Sound E ls (x, out)) (hpending : x.phase = .pending) (hw : ¬ Withdraws E)
    (hafter : Prefixed E x.bound (E.cumulativeTxGasUsed x.inner) y) :
    Sound E (ls ++ [.prefixed true]) (y, out) := by
  obtain ⟨b, system, hb, hvalid, hsystem, hy⟩ := hafter
  obtain ⟨hout, hzero, hprefixes⟩ := h.pending hpending
  simp only at hout
  subst hout
  refine ⟨?_, ?_, ?_, ?_⟩
  · rw [ordinary_append, hy.gas]
    exact h.gas
  · rw [hy.gas]
    exact h.room
  · intro hphase
    rw [hy.phase] at hphase
    cases hphase
  · intro system' hphase
    obtain rfl : system = system' := by
      rw [hy.phase] at hphase
      exact PrefixState.ready.inj hphase
    refine ⟨hw, by rw [prefixes_prefixed, hprefixes hw]; rfl, b, hy.bound.trans hb, hvalid, hsystem, ?_⟩
    rw [hy.gas, hzero]
    exact Nat.zero_le _

/-- A failed prefix call leaves no executor that could run a transaction. -/
theorem prefixFailed (h : Sound E ls (x, out))
    (hafter : (Withdraws E ∧ y = x) ∨
      ¬ Withdraws E ∧ Holds E .poisoned x.bound (E.cumulativeTxGasUsed x.inner) y) :
    Sound E (ls ++ [.prefixed false]) (y, out) := by
  rcases hafter with ⟨hw, rfl⟩ | ⟨hw, hy⟩
  · refine ⟨by rw [ordinary_append]; exact h.gas, h.room, ?_, ?_⟩
    · intro hphase
      obtain ⟨hout, hzero, -⟩ := h.pending hphase
      exact ⟨hout, hzero, fun hnone => absurd hw hnone⟩
    · intro system hphase
      exact absurd hw (h.ready system hphase).1
  · refine ⟨by rw [ordinary_append, hy.gas]; exact h.gas, by rw [hy.gas]; exact h.room, ?_, ?_⟩
    · intro hphase
      rw [hy.phase] at hphase
      cases hphase
    · intro system hphase
      rw [hy.phase] at hphase
      cases hphase

/-- A call that leaves phase, input and running gas, and a result out that still fits. -/
theorem kept {l : ExecutorLabel ρ} {out' : Option ρ} (h : Sound E ls (x, out)) (hl : l.IsOrdinary)
    (hgas : l.gas E = 0) (hy : Holds E x.phase x.bound (E.cumulativeTxGasUsed x.inner) y)
    (hroom : (E.cumulativeTxGasUsed x.inner).toNat + E.outGas out' < 2 ^ 64)
    (hpending : x.phase = .pending → out' = none)
    (hfits : ∀ b, x.phase.isReady = true → x.bound = some b →
      (E.cumulativeTxGasUsed x.inner).toNat + E.outGas out' ≤ b.profile.capacity) :
    Sound E (ls ++ [l]) (y, out') := by
  refine ⟨?_, ?_, ?_, ?_⟩
  · rw [ordinary_append, hgas, hy.gas]
    exact h.gas
  · rw [hy.gas]
    exact hroom
  · intro hphase
    have hphase' : x.phase = .pending := hy.phase.symm.trans hphase
    obtain ⟨-, hzero, hprefixes⟩ := h.pending hphase'
    exact ⟨hpending hphase', hy.gas.trans hzero, fun hw =>
      (prefixes_append_of_isOrdinary hl).trans (hprefixes hw)⟩
  · intro system hphase
    have hphase' : x.phase = .ready system := hy.phase.symm.trans hphase
    obtain ⟨hw, hprefixes, b, hb, hvalid, hsystem, -⟩ := h.ready system hphase'
    refine ⟨hw, (prefixes_append_of_isOrdinary hl).trans hprefixes, b, hy.bound.trans hb, hvalid,
      hsystem, ?_⟩
    rw [hy.gas]
    exact hfits b (by rw [hphase']; rfl) hb

theorem executed {tx : RecoveredTx τ} {result : ρ} (hE : E.Accounts M) (h : Sound E ls (x, none))
    (hrun : executeTransactionWithoutCommit E tx x = (.ok result, y)) :
    Sound E (ls ++ [.executed result]) (y, some result) := by
  obtain ⟨b, hran⟩ := executeTransactionWithoutCommit_eq_ok hrun
  have hcapacity := b.profile.maxGas.toNat_lt
  have hroom := hran.room
  refine h.kept trivial rfl
    ((keeps_executeTransactionWithoutCommit hE tx x ⟨rfl, rfl, rfl⟩).1 _ _ hrun) ?_ ?_ ?_
  · show _ + (E.txGasUsed result).toNat < _
    rw [BlockProfile.capacity] at hroom
    omega
  · intro hpending
    have hready := hran.ready
    rw [hpending] at hready
    cases hready
  · intro b' _ hb'
    obtain rfl : b = b' := Option.some.inj (hran.bound.symm.trans hb')
    exact hroom

theorem committed {result : ρ} (hE : E.Accounts M) (h : Sound E ls (x, some result)) :
    Sound E (ls ++ [.committed result]) (x.commitTransaction E result, none) := by
  have hgas : (E.cumulativeTxGasUsed (x.commitTransaction E result).inner).toNat =
      (E.cumulativeTxGasUsed x.inner).toNat + (E.txGasUsed result).toNat :=
    hE.committed result x.inner h.room
  refine ⟨?_, ?_, ?_, ?_⟩
  · rw [ordinary_append, hgas, h.gas]
    rfl
  · exact UInt64.toNat_lt _
  · intro hphase
    cases (h.pending hphase).1
  · intro system hphase
    obtain ⟨hw, hprefixes, b, hb, hvalid, hsystem, hfits⟩ := h.ready system hphase
    have hlabel : (ExecutorLabel.committed result).IsOrdinary := trivial
    refine ⟨hw, (prefixes_append_of_isOrdinary hlabel).trans hprefixes, b, hb, hvalid, hsystem, ?_⟩
    rw [hgas]
    exact hfits

/-- Dropping a result gives its gas back. -/
theorem dropped {result : ρ} (h : Sound E ls (x, some result)) :
    Sound E (ls ++ [.dropped]) (x, none) := by
  refine h.kept trivial rfl ⟨rfl, rfl, rfl⟩ (UInt64.toNat_lt _) (fun _ => rfl) fun b hready hb => ?_
  exact le_trans (Nat.le_add_right _ _) (h.fits hready hb)

theorem step (hM : M.SpendsWithin) (hE : E.Accounts M) {s t : Job σ ρ} {l : ExecutorLabel ρ}
    (h : Sound E ls s) (hstep : ExecutorStep P M E s l t) : Sound E (ls ++ [l]) t := by
  cases hstep with
  | prefixed call =>
    rcases applyPreExecutionChanges_cases hM hE call with ⟨hpending, hw, -, hafter⟩ | ⟨-, ⟨_, hr⟩, -⟩ |
      ⟨-, ⟨_, hr⟩, -⟩
    · exact h.prefixed hpending hw hafter
    · cases hr
    · cases hr
  | prefixFailed call =>
    rcases applyPreExecutionChanges_cases hM hE call with ⟨-, -, ⟨_, hr⟩, -⟩ | ⟨hw, -, hy⟩ | ⟨hw, -, hy⟩
    · cases hr
    · exact h.prefixFailed (.inl ⟨hw, hy⟩)
    · exact h.prefixFailed (.inr ⟨hw, hy⟩)
  | executed call => exact h.executed hE call
  | @refused x y tx e call =>
    have hy := (keeps_executeTransactionWithoutCommit hE tx x ⟨rfl, rfl, rfl⟩).2 _ _ call
    exact h.kept trivial rfl hy h.room (fun _ => rfl) fun b hready hb => h.fits hready hb
  | committed x result => exact h.committed hE
  | dropped x result => exact h.dropped

theorem run (hM : M.SpendsWithin) (hE : E.Accounts M) {inner : σ} {bound : Option BoundExecutionInput}
    (hzero : E.cumulativeTxGasUsed inner = 0) {t : Job σ ρ}
    (hrun : Steps (ExecutorStep P M E) (UnicityBlockExecutor.new inner bound, none) ls t) :
    Sound E ls t := by
  generalize hs : (UnicityBlockExecutor.new inner bound, (none : Option ρ)) = s at hrun
  induction hrun with
  | nil => exact hs ▸ fresh hzero
  | snoc _ last ih => exact ih.step hM hE last

end Job.Sound

end Ureth.Source.Execution
