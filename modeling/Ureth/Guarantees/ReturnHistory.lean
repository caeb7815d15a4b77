import Ureth.Source.B2.HistoryChain
import Ureth.Guarantees.LineageAccounting

/-!
# Return histories

What the one-pass evaluation establishes of a return it accepts, and how the
metered call answers the histories it does not accept.
-/

namespace Ureth.Guarantees
open Ureth.Foundation Ureth.Source Ureth.Source.B2
open B2.Cbor (Item Items)
open Ureth.Source.B1.Cbor (usizeMax usizeMax_lt)

/-- **Return histories.** In a return accepted by `evaluate`, the source states are the chain from the
derived token ID through each mask, the mint is unlocked by the derived minter key and each transfer
by the key of the current owner's predicate, every reference time is before its deadline, the mint and
every transfer but the last name a signature predicate, every transfer but the last carries no data,
the last is the return burn of the minted amount, and there is one leaf per transaction. Once its
leaves are counted and paid for, the call answers a relation failure with the all-zero result at the
price of a success of that size; after decoding, the only failures that are not answered so are the
size bounds of the lock reason and of its proof. -/
theorem return_history_verified (H : Bytes → Bytes32) (K : K256) :
    (∀ (history : Bytes) (scan items : Items) (cfgItem payload : Item) (transfers : Nat) (o : Outcome),
      scan.cap < 2 ^ 64 → Cbor.one history scan = .ok payload →
      evaluate H K 2 cfgItem payload transfers items = .ok o →
      ∃ cfg hist, Cfg.parse H cfgItem = .ok cfg ∧ decodeFields K payload transfers = .ok hist ∧
        VerifiedReturn H K cfg hist items o) ∧
    (∀ (input : Bytes) (o : Opened) (m gas : Nat), input.length ≤ maxInput → openCall input = .ok o →
      leafCount o.call.op o.payload maxTransfers = .ok m → callGas input.length m ≤ gas →
      (∀ out, evaluate H K o.call.op o.cfg o.payload maxTransfers .default = .ok out →
        run H K input gas = .ok ⟨callGas input.length m, Abi.encode true out, none⟩) ∧
      (∀ e, evaluate H K o.call.op o.cfg o.payload maxTransfers .default = Res.fail e →
        e.isInvalid = true →
        run H K input gas = .ok ⟨callGas input.length m, Abi.encode false .default, some e⟩) ∧
      ∀ cfg hist, o.call.op ≠ 0 → Cfg.parse H o.cfg = .ok cfg →
        decodeFields K o.payload maxTransfers = .ok hist →
        (evaluate H K o.call.op o.cfg o.payload maxTransfers .default).FailsOnly Relational) ∧
    Abi.encode false .default = ascii "UNICITY_TOKEN_SEMANTICS" ++ List.replicate 41 0 ++ Abi.word 96 ++
      List.replicate 288 0 ++ Abi.word 320 ++ List.replicate 32 0 := by
  refine ⟨?_, ?_, by decide +kernel⟩
  · intro history scan items cfgItem payload transfers o hword hscan heval
    exact evaluate_return_verified (Cbor.scanned_of_one hword hscan) heval
  · intro input o m gas hlen hopen hm hgas
    have hrun := run_of_counted (H := H) (K := K) hlen hopen hm gas
    rw [if_neg (not_lt.mpr hgas)] at hrun
    refine ⟨?_, ?_, ?_⟩
    · intro out hout
      rw [hrun, hout]
      rfl
    · intro e he hinvalid
      rw [hrun, he]
      simp only [Res.fail, answer, if_pos hinvalid]
    · intro cfg hist hop hcfg hdec
      obtain ⟨-, hpayload, hshort⟩ := openCall_ok hopen
      exact evaluate_relational hop hpayload hshort items_default_word hcfg hdec

/-- The recorded redemption is accepted by the one-pass evaluation. -/
theorem recordedReturn_evaluates :
    ∃ cfgItem payload o, Cbor.one recordedReturn .default = .ok payload ∧
      evaluate Sha256.sha256 recordedKeys 2 cfgItem payload u64Max .default = .ok o ∧
      o.leaves.length = 3 := by
  have hrun := recordedReturn_holds
  rcases hrel : (Lineage.relation Sha256.sha256 recordedKeys freeCharge recordedCfg recordedReturn ()).1
    with _ | out
  · rw [hrel] at hrun
    simp [Res.value?] at hrun
  · rw [hrel] at hrun
    simp only [Res.value?, Option.map_some, Option.some.injEq, Prod.mk.injEq] at hrun
    obtain ⟨cfg, p, h, hcfg, hp, hdec, hcount, r, rfl⟩ := lineage_root_ok hrel hrun.1
    obtain ⟨cfgItem, -, -, hparse⟩ := parseCfg_ok.mp hcfg
    have hscan := Cbor.scanned_of_one items_default_word hp
    exact ⟨cfgItem, p, r.outcome, hp,
      (evaluate_return hscan).mpr ⟨cfg, h, hparse, hdec, hcount, r, rfl⟩, hrun.2⟩

theorem return_history_verified_recorded :
    ∃ cfg hist o, VerifiedReturn Sha256.sha256 recordedKeys cfg hist .default o ∧
      hist.transfers.length = 2 := by
  obtain ⟨cfgItem, payload, o, hp, heval, hleaves⟩ := recordedReturn_evaluates
  obtain ⟨cfg, hist, -, -, hverified⟩ :=
    (return_history_verified Sha256.sha256 recordedKeys).1 _ _ _ _ _ _ _ items_default_word hp heval
  exact ⟨cfg, hist, o, hverified, by have := hverified.leaves; omega⟩

/-- The mint of an accepted return is a transaction that is not its last, and carries data. -/
theorem return_mint_carries_data :
    ∃ cfgItem payload o hist data, Cbor.one recordedReturn .default = .ok payload ∧
      evaluate Sha256.sha256 recordedKeys 2 cfgItem payload u64Max .default = .ok o ∧
      decodeFields recordedKeys payload u64Max = .ok hist ∧ hist.transfers ≠ [] ∧
      hist.mint.data = some data := by
  obtain ⟨cfgItem, payload, o, hp, heval, hleaves⟩ := recordedReturn_evaluates
  obtain ⟨cfg, hist, -, hdec, hverified⟩ :=
    evaluate_return_verified (Cbor.scanned_of_one items_default_word hp) heval
  obtain ⟨data, _, hdata, -⟩ := hverified.root.amount
  refine ⟨cfgItem, payload, o, hist, data, hp, heval, hdec, ?_, hdata⟩
  rintro hnil
  have := hverified.leaves
  rw [hnil] at this
  simp only [List.length_nil] at this
  omega

end Ureth.Guarantees
