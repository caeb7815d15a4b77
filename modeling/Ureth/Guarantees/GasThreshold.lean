import Ureth.Guarantees.BatchWork
import Ureth.Guarantees.LineageAccounting
import Ureth.Source.B1.BatchOrder
import Ureth.Source.B2.AbiSpec
import Ureth.Source.B2.HistoryChain
import Ureth.Source.Bridge.AbiSpec
import Ureth.Source.Bridge.MeterSpec

/-!
# Gas is a threshold

For each of the metered calls there is one number that decides alone how the gas
enters the result.
-/

namespace Ureth.Guarantees
open Ureth.Foundation Ureth.Source

/-- A call that returns an output costs at most its gas, returns the same under every limit that covers
the cost, and is out of gas under every other. -/
def GasThreshold {υ ε : Type} (call : Nat → Run υ (Bridge.Halt ε) Bridge.Output) : Prop :=
  ∀ gas out v v', call gas v = (.ok out, v') →
    out.gas ≤ gas ∧ (∀ g, out.gas ≤ g → call g v = (.ok out, v')) ∧ ∀ g, g < out.gas → (call g v).1 = Res.fail .outOfGas

/-- **Gas is a threshold.** For both versions of the composition; for a batch request that is structurally
accepted, where the charge is that of its dimensions, over every registry; and for a kernel call whose
leaves are counted. -/
theorem gas_is_threshold (H : Bytes → Bytes32) (K : K256) (input : Bytes) :
    (∀ {υ ε : Type} (V : Bridge.Verdict υ ε),
      GasThreshold (Bridge.runV2 V H K input) ∧ GasThreshold (Bridge.run V H K input)) ∧
    (∀ dims, B1.dimensionsWith input .standard = .ok dims →
      ∃ charge, (dims.gas : Res Empty Nat) = .ok charge ∧
        ∀ {ρ ε : Type} (R : B1.RegistryRead ρ ε) (keccak : Bytes → Bytes32) (S : Secp256k1) (pins : B1.Pins)
          (st : B1.Session ρ) (gas : Nat),
          (gas < charge → (B1.run R keccak H S input gas pins st).1 = Res.fail .outOfGas) ∧
          (charge ≤ gas → (B1.run R keccak H S input gas pins st).1 ≠ Res.fail .outOfGas ∧
            ∀ out, (B1.run R keccak H S input gas pins st).1 = .ok out → out.gas = charge)) ∧
    ∀ o m, input.length ≤ B2.maxInput → B2.openCall input = .ok o →
      B2.leafCount o.call.op o.payload B2.maxTransfers = .ok m → ∀ gas,
        (gas < B2.callGas input.length m → B2.run H K input gas = Res.fail .outOfGas) ∧
        (B2.callGas input.length m ≤ gas → B2.run H K input gas ≠ Res.fail .outOfGas ∧
          ∀ out, B2.run H K input gas = .ok out → out.gas = B2.callGas input.length m) := by
  refine ⟨fun V => ⟨fun gas out v v' h => ?_, fun gas out v v' h => ?_⟩, fun dims hdims => ?_, fun o m hlen hopen hm gas => ?_⟩
  · refine Bridge.finish_threshold (Bridge.metered_callWith (fun call => ?_) input) h
    exact (Bridge.metered_composeOutcome call true).bind fun o => Run.threshold_pure _
  · refine Bridge.finish_threshold (Bridge.metered_callWith (fun call => ?_) input) h
    exact (Bridge.metered_composeOutcome call false).bind fun o => Run.threshold_pure _
  · obtain ⟨s, haccepted, rfl⟩ := B1.accepted_of_dimensionsWith hdims
    obtain ⟨charge, hcharge⟩ := haccepted.standard_gas
    refine ⟨charge, hcharge Empty, fun {ρ ε} R keccak S pins st gas => ⟨fun hgas => ?_, fun hgas => ?_⟩⟩
    · exact (haccepted.cast B1.Limits.standard_word ε).runWith_unpaid B1.Limits.standard_word (hcharge _) hgas st
    · exact (haccepted.cast B1.Limits.standard_word ε).runWith_paid B1.Limits.standard_word (hcharge _) hgas st
  · have hrun := B2.run_of_counted (H := H) (K := K) hlen hopen hm gas
    refine ⟨fun hgas => by rw [hrun, if_pos hgas], fun hgas => ?_⟩
    rw [if_neg (not_lt.mpr hgas)] at hrun
    obtain ⟨hcfg, hpayload, hshort⟩ := B2.openCall_ok hopen
    have hquiet := B2.evaluate_quiet (H := H) (K := K) o.call.op hcfg hpayload hshort B2.maxTransfers
      B2.items_default_word
    rw [hrun]
    rcases hquiet.cases with ⟨out, hout⟩ | ⟨e, he, hout⟩
    · rw [hout]
      refine ⟨fun h => (by cases h), fun out' h => ?_⟩
      obtain rfl := Except.ok.inj h
      rfl
    · rw [hout, Res.fail, B2.answer]
      split
      · refine ⟨fun h => (by cases h), fun out' h => ?_⟩
        obtain rfl := Except.ok.inj h
        rfl
      · exact ⟨fun h => he (Fault.error.inj (Except.error.inj h)), fun out' h => (by cases h)⟩

/-- A call of no operation: it is framed, paid and answered with a status. -/
def idleCall : Bytes := Bridge.Call.encoded ⟨0, [], []⟩

/-- An oracle that accepts no batch. -/
def refusing : Bridge.Verdict Unit Unit := .ofFunction fun _ => .ok false

/-- A kernel call that derives a lock from nothing. -/
def idleKernelCall : Bytes := B2.Call.encoded ⟨0, [0xf6], [0xf6]⟩

theorem gas_is_threshold_idle :
    (Bridge.runV2 refusing Sha256.sha256 recordedKeys idleCall 100319 ()).1 = Res.fail .outOfGas ∧
    (Bridge.run refusing Sha256.sha256 recordedKeys idleCall 100319 ()).1 = Res.fail .outOfGas ∧
    (∃ charge, 60000 ≤ charge ∧ (B1.run (.ofWords Unit soleRegistry) slotHash Sha256.sha256 .echo sealedRequest (charge - 1)
      solePins (.start ())).1 = Res.fail .outOfGas) ∧
    B2.run Sha256.sha256 recordedKeys idleKernelCall (B2.callGas idleKernelCall.length 0 - 1) = Res.fail .outOfGas ∧
    B2.run Sha256.sha256 recordedKeys idleKernelCall (B2.callGas idleKernelCall.length 0) ≠ Res.fail .outOfGas := by
  have hv2 : (Bridge.runV2 refusing Sha256.sha256 recordedKeys idleCall 200000 ()).1.value?.map Bridge.Output.gas =
      some 100320 := by decide +kernel
  have hv1 : (Bridge.run refusing Sha256.sha256 recordedKeys idleCall 200000 ()).1.value?.map Bridge.Output.gas =
      some 100320 := by decide +kernel
  have hdims : (B1.dimensionsWith sealedRequest .standard).value?.isSome = true := by decide +kernel
  have hopen : (B2.openCall idleKernelCall).value?.map (fun o => o.call.op) = some 0 := by decide +kernel
  have hlen : idleKernelCall.length ≤ B2.maxInput := by decide +kernel
  obtain ⟨out₂, hout₂, hgas₂⟩ := Option.map_eq_some_iff.mp hv2
  obtain ⟨out₁, hout₁, hgas₁⟩ := Option.map_eq_some_iff.mp hv1
  obtain ⟨dims, hdims⟩ := Option.isSome_iff_exists.mp hdims
  obtain ⟨o, hopened, hop⟩ := Option.map_eq_some_iff.mp hopen
  have hcalls := (gas_is_threshold Sha256.sha256 recordedKeys idleCall).1 refusing
  obtain ⟨charge, hcharge, hbatch⟩ := (gas_is_threshold Sha256.sha256 recordedKeys sealedRequest).2.1 dims
    (Res.value?_eq_some.mp hdims)
  have hm : B2.leafCount o.call.op o.payload B2.maxTransfers = .ok 0 := by rw [hop]; rfl
  have hkernel := (gas_is_threshold Sha256.sha256 recordedKeys idleKernelCall).2.2 o 0 hlen
    (Res.value?_eq_some.mp hopened) hm
  have hcovers : 60000 ≤ charge := by
    have := B1.batchGas_covers hcharge
    omega
  refine ⟨?_, ?_, ⟨charge, hcovers, (hbatch _ _ _ _ _ _).1 (by omega)⟩, (hkernel _).1 ?_, ((hkernel _).2 le_rfl).1⟩
  · exact (hcalls.1 200000 out₂ () () (Prod.ext (Res.value?_eq_some.mp hout₂) (Subsingleton.elim _ _))).2.2 _ (by omega)
  · exact (hcalls.2 200000 out₁ () () (Prod.ext (Res.value?_eq_some.mp hout₁) (Subsingleton.elim _ _))).2.2 _ (by omega)
  · simp only [B2.callGas]
    omega

end Ureth.Guarantees
