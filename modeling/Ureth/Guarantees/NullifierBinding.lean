import Ureth.Source.B2.NullifierPath
import Ureth.Guarantees.LineageAccounting

/-!
# Nullifier binding

Two redemptions with one nullifier are redemptions of the same burn of the same
token. The returns range over both evaluations of the kernel, and the two compared
may come from different ones.
-/

namespace Ureth.Guarantees
open Ureth.Foundation Ureth.Source Ureth.Source.B2
open B2.Cbor (Item Items)
open Ureth.Source.B1.Cbor (usizeMax usizeMax_lt)

/-- Two histories whose transactions agree in everything but the mint's justification; their unlock
signatures and reference times, the mint's included, are not compared. -/
structure SameTransactions (h h' : History) : Prop where
  mint : ∀ (i : Nat) (_ : i < 8), i ≠ 5 → h.mint.fields[i] = h'.mint.fields[i]
  transfers : h.transfers.map Transfer.tx = h'.transfers.map Transfer.tx

/-- **Nullifier binding.** Accepted returns with equal nullifiers have the same configuration, token ID,
masks, final owner, burn transaction, recipient and amount, unless two different strings among those
hashed have one hash. Conversely the nullifier does not depend on the unlock signatures, the reference
times or the justification of the mint. -/
theorem nullifier_binding (H : Bytes → Bytes32) (K : K256) {cfg cfg' : Cfg} {h h' : History}
    {id id' amount amount' nullifier nullifier' : Bytes32} {releaseTo releaseTo' : Fixed 20}
    (hret : AcceptedReturn H K cfg h id amount nullifier releaseTo)
    (hret' : AcceptedReturn H K cfg' h' id' amount' nullifier' releaseTo') :
    (nullifier = nullifier' →
      (cfg = cfg' ∧ id = id' ∧ h.transfers.length = h'.transfers.length ∧
        h.transfers.map (fun tr => tr.tx.mask) = h'.transfers.map (fun tr => tr.tx.mask) ∧
        (ownerAfter h.mint.fields[2] h.transfers.dropLast).raw =
          (ownerAfter h'.mint.fields[2] h'.transfers.dropLast).raw ∧
        h.transfers.getLast?.map (fun tr => tr.tx.raw) =
          h'.transfers.getLast?.map (fun tr => tr.tx.raw) ∧
        releaseTo = releaseTo' ∧ amount = amount') ∨
      Collision H ((NullifierPath.ofHistory cfg h id).strings H ++
        (NullifierPath.ofHistory cfg' h' id').strings H)) ∧
    (cfg = cfg' → SameTransactions h h' → nullifier = nullifier') := by
  have hr := hret.redeemed
  have hr' := hret'.redeemed
  refine ⟨?_, ?_⟩
  · intro heq
    rw [hr.nullifier_eq, hr'.nullifier_eq] at heq
    rcases NullifierPath.eq_of_nullifier_eq hr.path_valid hr'.path_valid heq with hpath | hcol
    · obtain ⟨hcfg, hid, hmasks, hrest⟩ := hr.same hr' hpath
      have hlen : h.transfers.length = h'.transfers.length := by
        simpa only [List.length_map] using congrArg List.length hmasks
      exact .inl ⟨hcfg, hid, hlen, hmasks, hrest⟩
    · exact .inr hcol
  · rintro rfl hsame
    exact hr.nullifier_congr hr' (hsame.mint 2 (by omega) (by omega)) (hsame.mint 3 (by omega) (by omega))
      hsame.transfers

/-- The recorded redemption: both evaluations accept it, with one nullifier. -/
theorem nullifier_binding_recorded :
    ∃ (cfg : Cfg) (h : History) (o o' : Outcome),
      AcceptedReturn Sha256.sha256 recordedKeys cfg h o.tokenId o.amount o.nullifier o.releaseTo ∧
      AcceptedReturn Sha256.sha256 recordedKeys cfg h o'.partTokenId o'.partAmount o'.nullifier
        o'.releaseTo ∧
      o.nullifier = o'.nullifier := by
  have hrun := recordedReturn_holds
  rcases hrel : Lineage.relation Sha256.sha256 recordedKeys freeCharge recordedCfg recordedReturn ()
    with ⟨_ | out, s⟩
  · rw [hrel] at hrun
    simp [Res.value?] at hrun
  · rw [hrel] at hrun
    simp only [Res.value?, Option.map_some, Option.some.injEq, Prod.mk.injEq] at hrun
    obtain ⟨cfg, p, h, hcfg, hp, hdec, hcount, r, -⟩ := lineage_root_ok (congrArg Prod.fst hrel) hrun.1
    obtain ⟨cfgItem, hitem, -, hparse⟩ := parseCfg_ok.mp hcfg
    have hscan := Cbor.scanned_of_one items_default_word hp
    have hwide := Cbor.one_mono (show Items.max ≤ usizeMax by decide) usizeMax_lt hp
    have heval := (evaluate_return hscan).mpr ⟨cfg, h, hparse, hdec, hcount, r, rfl⟩
    have hret := AcceptedReturn.evaluated (Cbor.scanned_of_one items_default_word hitem) hscan
      items_default_word hparse hdec heval
    have hret' := AcceptedReturn.lineage hcfg hwide hdec hrel
    exact ⟨cfg, h, r.outcome, out, hret, hret',
      (nullifier_binding _ _ hret hret').2 rfl ⟨fun _ _ _ => rfl, rfl⟩⟩

end Ureth.Guarantees
