import Ureth.Source.B1.EvaluateSpec
import Ureth.Guarantees.ClaimBinding
import Ureth.Guarantees.SealQuorum

/-!
# Certificate work is prepaid

A batch call reads no registry word, parses no key, makes no fold and checks no
signature before its whole charge is covered, and the charge covers what it then
does. Both hold for every registry, also for one that fails at any read.
-/

namespace Ureth.Guarantees
open Ureth.Foundation Ureth.Source Ureth.Source.B1

/-- **Prepaid work.** A call that reads, parses, folds or checks anything, or that changes the registry
reader's own state, has a scanned request whose complete charge the gas covers; and what a call does is
bounded by the dimensions of its request and paid by its charge, however the evaluation ends. -/
theorem certificate_work_prepaid {ρ ε : Type} (R : RegistryRead ρ ε) (keccak H : Bytes → Bytes32) (S : Secp256k1)
    (input : Bytes) (gas : Nat) (pins : Pins) (lim : Limits) (registry : ρ) :
    let after := (runWith R keccak H S input gas pins lim (.start registry)).2
    (after.work ≠ .zero ∨ after.registry ≠ registry → ∃ scanned charge,
      (scan input gas lim : Res (Error ε) Scanned) = .ok scanned ∧
      (scanned.dims.gas : Res (Error ε) Nat) = .ok charge ∧ charge ≤ gas) ∧
    ∀ scanned charge, (prepare input gas lim : Res (Error ε) (Scanned × Nat)) = .ok (scanned, charge) →
      (scan input gas lim : Res (Error ε) Scanned) = .ok scanned ∧
      (scanned.dims.gas : Res (Error ε) Nat) = .ok charge ∧ charge ≤ gas ∧
      after.work.reads ≤ 11 + 139 * scanned.dims.e ∧ after.work.keyParses ≤ 16 * scanned.dims.e ∧
      after.work.signatures ≤ scanned.dims.q ∧ after.work.folds ≤ scanned.dims.a ∧
      60000 + 100 * after.work.reads + 1000 * after.work.keyParses + 7200 * after.work.signatures +
        2000 * after.work.folds ≤ charge := by
  have hprepare : ∀ scanned charge,
      (prepare input gas lim : Res (Error ε) (Scanned × Nat)) = .ok (scanned, charge) →
      (scan input gas lim : Res (Error ε) Scanned) = .ok scanned ∧
      (scanned.dims.gas : Res (Error ε) Nat) = .ok charge ∧ charge ≤ gas := by
    intro scanned charge h
    simp only [prepare, Res.bind_eq_ok, Res.refuse_eq_ok, exists_const, Res.pure_eq_ok,
      Prod.mk.injEq, not_lt] at h
    obtain ⟨-, -, _, hscan, _, hcharge, hgas, rfl, rfl⟩ := h
    exact ⟨hscan, hcharge, hgas⟩
  refine ⟨?_, ?_⟩
  · intro hdone
    cases h : (prepare input gas lim : Res (Error ε) (Scanned × Nat)) with
    | error e => simp [runWith, Run.bind_apply, h, Session.start] at hdone
    | ok x => exact ⟨x.1, x.2, hprepare x.1 x.2 h⟩
  · intro scanned charge h
    obtain ⟨hscan, hcharge, hgas⟩ := hprepare scanned charge h
    obtain ⟨hsigns, hwork⟩ := scan_ok hscan
    have hspent : Run.Spends Session.tally (runWith R keccak H S input gas pins lim)
        ((commonWords, 0, 0, 0) + claimWork (distinct scanned.occurrences)) := by
      refine (spends_counters _ (by intro _; rfl)).after fun _ _ _ _ => ?_
      refine (Run.spends_lift _).after fun x s t hx => ?_
      obtain rfl := Except.ok.inj ((Run.lift_eq_ok.mp hx).1.symm.trans h)
      exact (spends_evaluate hsigns pins).andThen fun _ => Run.spends_pure _
    have hzero : Session.tally (Session.start registry) = 0 := rfl
    have hbound := hspent (.start registry)
    rw [hwork, hzero, zero_add] at hbound
    simp only [Session.tally, Prod.mk_add_mk, zero_add, Prod.mk_le_mk] at hbound
    obtain ⟨hreads, hkeys, hsigs, hfolds⟩ := hbound
    have hcover := batchGas_covers hcharge
    simp only [commonWords, epochWords, maxMembers] at hreads hkeys hcover
    refine ⟨hscan, hcharge, hgas, hreads, hkeys, hsigs, hfolds, ?_⟩
    omega

/-! ## A request of one claim -/

/-- The words of a registry at root round 1 whose one epoch has the entry of `soleWords`. -/
def soleRegistry (key : Word) : Word :=
  match key.toNat with
  | 10100 | 9316 | 8299 | 9320 | 9337 | 9572 => Word.ofNat 1
  | 7013 | 8052 => Word.ofNat 2
  | _ => soleWords key

def solePins : Pins := ⟨Word.ofNat 1, Word.ofNat 1⟩

/-- A certificate under the root of `SealedClaim`, sealed by the entry's one member. -/
def sealedCertificate : Cbor.Value :=
  .tag 39001 (.array [.uint 1,
    .tag 39002 (.array [.uint 1, .uint 0, .uint 0, SealedClaim.fill 17, SealedClaim.fill 17, .null, .uint 0, .null,
      .uint 0, .null]),
    SealedClaim.fill 34, SealedClaim.fill 51,
    .tag 39003 (.array [.uint 1, .bytes [0xc0], .array [SealedClaim.fill 68]]),
    .tag 39004 (.array [.uint 1, .uint 7, .array [.array [.uint 3, SealedClaim.fill 85]]]),
    .tag 39005 (.array [.uint 1, .uint 1, .uint 1, .uint 0, .uint 1681971084, SealedClaim.fill 17,
      .bytes SealedClaim.root, .map [.text [0x6e], .bytes soleSignature]])])

def sealedHead : ClaimHead :=
  ⟨7, [0xc0], List.replicate 32 51, List.replicate 32 17,
    literal 32 0x848d46476e4186f8ae268a276ba20758b64b3694156eefaee93480ebf096fda6⟩

def sealedRequest : Bytes := [2, 0] ++ beBytes 2 1 ++ sealedHead.pack sealedCertificate.encode

/-- The request is accepted, with one fold and one signature. -/
theorem sealedRequest_accepted :
    let r := runWith (.ofWords Unit soleRegistry) slotHash Sha256.sha256 .echo sealedRequest 200000 solePins .standard
      (.start ())
    r.1.value?.map Output.verdict = some true ∧ r.2.work = ⟨30, 1, 1, 1⟩ := by
  decide +kernel

theorem certificate_work_prepaid_sealed :
    ∃ scanned charge, (scan sealedRequest 200000 .standard : Res (Error Unit) Scanned) = .ok scanned ∧
      (scanned.dims.gas : Res (Error Unit) Nat) = .ok charge ∧ charge ≤ 200000 ∧ 1 ≤ scanned.dims.a ∧
      60000 + 100 * 30 + 1000 * 1 + 7200 * 1 + 2000 * 1 ≤ charge := by
  obtain ⟨haccepted, hwork⟩ := sealedRequest_accepted
  cases hprepare : (prepare sealedRequest 200000 .standard : Res (Error Unit) (Scanned × Nat)) with
  | error e => simp [runWith, Run.bind_apply, hprepare, Res.value?] at haccepted
  | ok x =>
    obtain ⟨hscan, hgas, hle, -, -, -, hfolds, hpaid⟩ := (certificate_work_prepaid (.ofWords Unit soleRegistry) slotHash
      Sha256.sha256 .echo sealedRequest 200000 solePins .standard ()).2 x.1 x.2 hprepare
    rw [hwork] at hfolds hpaid
    exact ⟨x.1, x.2, hscan, hgas, hle, hfolds, hpaid⟩

end Ureth.Guarantees
