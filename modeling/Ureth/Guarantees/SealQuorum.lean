import Ureth.Source.B1.QuorumSpec

/-!
# The quorum of a seal

A parsed claim under an entry the registry reader accepted: the loop over the signature map returns
the weight of the members that signed, each counted once, and the verdict is the two-thirds rule on
that weight. Two seals with a quorum share signers of more than a third of the weight, and a further
signature takes no quorum away.
-/

namespace Ureth.Guarantees
open Ureth.Foundation
open Ureth.Source
open Ureth.Source.B1

section Quorum

variable {ρ ε : Type} {S : Secp256k1} {H : Bytes → Bytes32} {e : Entry S}

/-- Two seals with a quorum under one entry have common signers of more than a third of its weight. -/
theorem common_signers {c d : Claim} (he : e.Sound) (hc : c.Backed H e) (hd : d.Backed H e) :
    e.total < 3 * pickWeight Member.weight (fun m => c.signer H m && d.signer H m) e.members := by
  have hsum := he.roll.sum_eq
  rw [← hsum]
  apply third_lt_pickWeight_and
  · rw [hsum]
    exact hc.2.2
  · rw [hsum]
    exact hd.2.2

/-- A further signature with a name and a value keeps the quorum condition. -/
theorem backed_of_insert {c d : Claim} {front back : List (Bytes × Bytes)} {id sig : Bytes}
    (hunsigned : d.unsigned = c.unsigned) (hsigs : c.signatures = front ++ back)
    (hsigs' : d.signatures = front ++ (id, sig) :: back) (hid : id ≠ []) (hsig : sig ≠ [])
    (hc : c.Backed H e) : d.Backed H e := by
  obtain ⟨-, hnamed, hweight⟩ := hc
  have hmessage : d.message H = c.message H := by rw [Claim.message, Claim.message, hunsigned]
  have hsub : ∀ pair ∈ c.signatures, pair ∈ d.signatures := by
    intro pair hpair
    rw [hsigs, List.mem_append] at hpair
    rw [hsigs', List.mem_append, List.mem_cons]
    exact hpair.imp_right Or.inr
  refine ⟨?_, ?_, ?_⟩
  · rw [hsigs']
    exact List.append_ne_nil_of_right_ne_nil _ (List.cons_ne_nil _ _)
  · intro pair hpair
    rw [hsigs', List.mem_append, List.mem_cons] at hpair
    rcases hpair with hfront | rfl | hback
    · exact hnamed pair (hsigs ▸ List.mem_append_left _ hfront)
    · exact ⟨hid, hsig⟩
    · exact hnamed pair (hsigs ▸ List.mem_append_right _ hback)
  · have hmore : c.signedWeight H e ≤ d.signedWeight H e := by
      refine pickWeight_mono fun m _ hm => ?_
      rw [Claim.signer, signedBy, List.any_eq_true] at hm ⊢
      obtain ⟨pair, hpair, hvalid⟩ := hm
      exact ⟨pair, hsub pair hpair, hmessage ▸ hvalid⟩
    omega

/-- The claims `parse_claim` accepts. -/
def Parses (c : Claim) : Prop :=
  ∃ r tokens p rest tokens', parseClaim r tokens = .ok (p, rest, tokens') ∧ p.claim = c

theorem Parses.sealed {c : Claim} (h : Parses c) : c.Sealed := by
  obtain ⟨r, tokens, p, rest, tokens', hparse, rfl⟩ := h
  exact sealed_of_parseClaim hparse

/-- The verdict on the claim in the session `s` is to accept. -/
def HasQuorum (ε : Type) (H : Bytes → Bytes32) (c : Claim) (e : Entry S) (s : Session ρ) : Prop :=
  ((quorum H S c e : Run (Session ρ) (Error ε) Bool) s).1 = .ok true

theorem hasQuorum_iff {c : Claim} (hc : c.Sealed) (he : e.Sound) (s : Session ρ) :
    HasQuorum ε H c e s ↔ c.Backed H e := by
  obtain ⟨verdict, s', hrun, hverdict⟩ := quorum_eq (ε := ε) (H := H) hc he s
  rw [HasQuorum, hrun, ← hverdict]
  exact ⟨fun h => Except.ok.inj h, fun h => congrArg Except.ok h⟩

/-- The quorum of every parsed claim under every entry the registry reader accepts. -/
theorem seal_quorum {R : RegistryRead ρ ε} {keccak : Bytes → Bytes32} {epoch : Nat} {s s' : Session ρ}
    (he : entry R keccak S epoch s = (.ok (some e), s')) {c : Claim} (hc : Parses c) :
    -- names are not repeated, neither in the entry nor in the map
    (e.members.map Member.id).Nodup ∧ (c.signatures.map Prod.fst).Nodup ∧
    -- the loop returns the weight of the members that signed, which fits
    (∃ kids, c.sealFields[7].children = (.ok kids : Res (Error ε) (List Cbor.Item)) ∧
      ∀ (message : Bytes32) (t : Session ρ), ∃ empty t',
        (countSignatures S message e.members kids 0 false : Run (Session ρ) (Error ε) (Nat × Bool)) t =
          (.ok (pickWeight Member.weight (signedBy message c.signatures) e.members, empty), t')) ∧
    (∀ signer, pickWeight Member.weight signer e.members ≤ e.total) ∧ e.total < 2 ^ 64 ∧
    -- the verdict is the two-thirds rule
    (∀ t : Session ρ, ∃ verdict t',
      (quorum H S c e : Run (Session ρ) (Error ε) Bool) t = (.ok verdict, t') ∧
      (verdict = true ↔ c.signatures ≠ [] ∧ (∀ pair ∈ c.signatures, pair.1 ≠ [] ∧ pair.2 ≠ []) ∧
        2 * e.total < 3 * pickWeight Member.weight (signedBy (c.message H) c.signatures) e.members)) ∧
    -- two quorums meet
    (∀ (d : Claim) (t t' : Session ρ), Parses d → HasQuorum ε H c e t → HasQuorum ε H d e t' →
      e.total < 3 * pickWeight Member.weight (fun m => signedBy (c.message H) c.signatures m &&
        signedBy (d.message H) d.signatures m) e.members) ∧
    -- a further signature keeps the quorum
    (∀ (d : Claim) (front back : List (Bytes × Bytes)) (id sig : Bytes) (t t' : Session ρ), Parses d →
      d.unsigned = c.unsigned → c.signatures = front ++ back → d.signatures = front ++ (id, sig) :: back →
      id ≠ [] → sig ≠ [] → HasQuorum ε H c e t → HasQuorum ε H d e t') := by
  have hsound := sound_of_entry he
  have hsealed := hc.sealed
  refine ⟨hsound.nodup_ids, hsealed.ids, ⟨_, hsealed.kids (Error ε), ?_⟩, hsound.pickWeight_le,
    hsound.roll.fits, quorum_eq hsealed hsound, ?_, ?_⟩
  · intro message t
    have hfits : 0 + pickWeight Member.weight (signedBy message c.signatures) e.members < 2 ^ 64 := by
      have hle := hsound.pickWeight_le (signedBy message c.signatures)
      have hlt := hsound.roll.fits
      omega
    obtain ⟨t', hcount⟩ := countSignatures_eq (ε := ε) message hsound.nodup_ids hsound.roll.named
      hsealed.ids false hfits t
    rw [Nat.zero_add] at hcount
    exact ⟨_, t', hcount⟩
  · intro d t t' hd hc' hd'
    exact common_signers hsound ((hasQuorum_iff hsealed hsound t).mp hc')
      ((hasQuorum_iff hd.sealed hsound t').mp hd')
  · intro d front back id sig t t' hd hunsigned hsigs hsigs' hid hsig hc'
    rw [hasQuorum_iff hd.sealed hsound]
    exact backed_of_insert hunsigned hsigs hsigs' hid hsig ((hasQuorum_iff hsealed hsound t).mp hc')

end Quorum

/-- A stand-in for Keccak that keeps the slots of an entry's fields apart. -/
def slotHash (b : Bytes) : Bytes32 := Fixed.literal 32 (b.length * 256 + (b.getLastD 0).toNat)

/-- The words of one entry of total weight three: its fields, and one member named `n`. -/
def soleWords (key : Word) : Word :=
  Word.ofNat <| match key.toNat with
  | 24576 => 1
  | 24577 => 2
  | 24578 => 5
  | 24579 => 6
  | 24583 => 1
  | 24584 => 7
  | 24585 => 1
  | 24586 => 3
  | 32768 => 1
  | 32769 => 0x6e * 2 ^ 248
  | 32773 => 9
  | 32775 => 3
  | _ => 0

/-- A signature of 65 bytes by the member's key. -/
def soleSignature : Bytes := beBytes 32 9 ++ List.replicate 33 0

/-- A certificate whose seal carries one signature. -/
def soleCertificate : Cbor.Value :=
  .tag 39001 (.array [.uint 1,
    .tag 39002 (.array [.uint 1, .uint 0, .uint 0, .null, .bytes (beBytes 32 1), .null, .uint 0, .null,
      .uint 0, .null]),
    .bytes (beBytes 32 2), .bytes (beBytes 32 3),
    .tag 39003 (.array [.uint 1, .bytes [0x80], .array []]),
    .tag 39004 (.array [.uint 1, .uint 7, .array []]),
    .tag 39005 (.array [.uint 1, .uint 3, .uint 4, .uint 5, .uint 6, .bytes (beBytes 32 7),
      .bytes (beBytes 32 8), .map [.text [0x6e], .bytes soleSignature]])])

/-- The packed claim of the certificate. -/
def soleClaim : Bytes :=
  beBytes 4 7 ++ beBytes 2 1 ++ [0x80] ++ beBytes 32 3 ++ beBytes 32 1 ++ beBytes 32 0 ++
    beBytes 4 soleCertificate.encode.length ++ soleCertificate.encode

theorem seal_quorum_sole : ∃ (e : Entry .echo) (s' : Session Unit) (p : Parsed) (rest : Bytes × Nat),
    entry (.ofWords Unit soleWords) slotHash .echo 5 (.start ()) = (.ok (some e), s') ∧
      parseClaim soleClaim 0 = .ok (p, rest) ∧ HasQuorum Unit slotHash p.claim e (.start ()) ∧
      e.total < 3 * pickWeight Member.weight (fun m => signedBy (p.claim.message slotHash) p.claim.signatures m &&
        signedBy (p.claim.message slotHash) p.claim.signatures m) e.members := by
  have hrun : ((entry (.ofWords Unit soleWords) slotHash .echo 5 (.start ())).1.value?.join.bind fun e =>
      (parseClaim soleClaim 0).value?.bind fun p =>
        ((quorum slotHash .echo p.1.claim e : Run (Session Unit) (Error Unit) Bool) (.start ())).1.value?) =
      some true := by decide +kernel
  obtain ⟨e, he, hrun⟩ := Option.bind_eq_some_iff.mp hrun
  obtain ⟨⟨p, rest⟩, hp, hq⟩ := Option.bind_eq_some_iff.mp hrun
  obtain ⟨s', he'⟩ : ∃ s', entry (.ofWords Unit soleWords) slotHash .echo 5 (.start ()) =
      (.ok (some e), s') := by
    generalize entry (.ofWords Unit soleWords) slotHash .echo 5 (.start ()) = outcome at he
    exact ⟨outcome.2, Prod.ext (Res.value?_eq_some.mp (Option.join_eq_some_iff.mp he)) rfl⟩
  have hp' := Res.value?_eq_some.mp hp
  have hq' : HasQuorum Unit slotHash p.claim e (.start ()) := Res.value?_eq_some.mp hq
  have hparses : Parses p.claim := ⟨_, _, p, rest.1, rest.2, hp', rfl⟩
  have hmeet := (seal_quorum (H := slotHash) he' hparses).2.2.2.2.2.2.1
  exact ⟨e, s', p, rest, he', hp', hq', hmeet p.claim _ _ hparses hq' hq'⟩

end Ureth.Guarantees
