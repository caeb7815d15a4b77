import Ureth.Source.B1.CertificateReaders

/-!
# The readers of one certificate agree

The bridge reads an anchor's certificate by its typed shape and by the shard it names, pays
for it, and only then has it authenticated as the certificate of a claim; it scans the
certificate of an embedded proof by a reader of its own. These readers accept one another's
certificates as far as their own rules go, and name the same shard.
-/

namespace Ureth.Guarantees
open Ureth.Foundation Ureth.Source.B1
open Ureth.Foundation.Cbor (Value)

/-- What the SDK's certificates have and a claim's certificate need not: a summary that is a byte
string, arrays of siblings and steps, a signature map, and a network. -/
structure SdkClaim (c : Claim) : Prop where
  summary : ∃ ir, c.ir.tagged 10 39002 = .ok ir ∧ ir[5].major = 2
  siblings : c.shardCert[2].major = 4
  steps : c.treeCert[2].major = 4
  signatures : c.sealFields[7].major = 5
  network : c.sealFields[1].arg ≠ 0

theorem sdkClaim_parsed {h : ClaimHead} {uc : FieldList Cbor.Item 7} {body : Body}
    (hbody : certificateBody uc = .ok body) : SdkClaim (h.parsed uc body).claim ↔ SdkForm body := by
  have hir := (inputRecord_parts (certificateBody_parts hbody).1).1
  constructor
  · intro hc
    obtain ⟨ir, hir', hmajor⟩ := hc.summary
    obtain rfl := Except.ok.inj (hir.symm.trans hir')
    exact ⟨hmajor, hc.siblings, hc.steps, hc.signatures, hc.network⟩
  · intro hb
    exact ⟨⟨body.ir, hir, hb.summary⟩, hb.siblings, hb.steps, hb.signatures, hb.network⟩

/-- For a certificate of the admitted length: the bridge's scan accepts it exactly if it is the
certificate of an accepted claim, on a fresh item budget, that has the SDK's form. The certificate of
an accepted claim, on any budget, has the typed shape and names the shard the claim's checks read;
and every certificate of the typed shape names a shard. -/
theorem certificate_readers_agree (raw : Bytes) (hraw : raw.length ≤ 24576) (head : ClaimHead)
    (hhead : head.Valid) (rest : Bytes) :
    (scanCertificate raw = .ok () ↔
      ∃ p n, parseClaim (head.pack raw ++ rest) 0 = .ok (p, rest, n) ∧ SdkClaim p.claim) ∧
    (∀ tokens p rest' n, parseClaim (head.pack raw ++ rest) tokens = .ok (p, rest', n) →
      certificateShape raw = .ok () ∧ certificateShard raw = .ok p.claim.shardCert[1].data) ∧
    (certificateShape raw = .ok () → ∃ shard, certificateShard raw = .ok shard) := by
  refine ⟨?_, ?_, certificateShard_of_shape⟩
  · rw [scanCertificate_eq_ok hraw]
    constructor
    · rintro ⟨it, n, uc, body, hone, huc, hbody, hform⟩
      exact ⟨head.parsed uc body, n, (parseClaim_pack hhead hraw).mpr ⟨rfl, it, uc, body, hone, huc, hbody, rfl⟩,
        (sdkClaim_parsed hbody).mpr hform⟩
    · rintro ⟨p, n, hparse, hsdk⟩
      obtain ⟨-, it, uc, body, hone, huc, hbody, rfl⟩ := (parseClaim_pack hhead hraw).mp hparse
      exact ⟨it, n, uc, body, hone, huc, hbody, (sdkClaim_parsed hbody).mp hsdk⟩
  · intro tokens p rest' n hparse
    obtain ⟨-, it, uc, body, hone, huc, hbody, rfl⟩ := (parseClaim_pack hhead hraw).mp hparse
    exact ⟨certificateShape_of_body hone huc hbody, certificateShard_of_body hone huc hbody⟩

/-- A certificate of shard `1` in the SDK's form, without siblings, steps or signatures. -/
def bareCertificate : Value :=
  let word : Value := .bytes (List.replicate 32 0)
  .tag 39001 (.array [.uint 1,
    .tag 39002 (.array [.uint 1, .uint 0, .uint 0, word, word, .bytes [], .uint 0, .null, .uint 0, .null]),
    word, word,
    .tag 39003 (.array [.uint 1, .bytes [0xc0], .array []]),
    .tag 39004 (.array [.uint 1, .uint 7, .array []]),
    .tag 39005 (.array [.uint 1, .uint 3, .uint 1, .uint 0, .uint 0, word, word, .map []])])

/-- A claim for that shard. -/
def bareHead : ClaimHead where
  partition := 7
  shard := [0xc0]
  config := List.replicate 32 0
  state := List.replicate 32 0
  irHash := List.replicate 32 0

theorem bareHead_valid : bareHead.Valid :=
  ⟨by decide, ⟨1, by decide⟩, by decide, by decide, by decide⟩

theorem certificate_readers_agree_bare :
    (∃ p n, parseClaim (bareHead.pack bareCertificate.encode) 0 = .ok (p, [], n) ∧ SdkClaim p.claim) ∧
      certificateShape bareCertificate.encode = .ok () ∧
      ∃ shard, certificateShard bareCertificate.encode = .ok shard := by
  have hscan : scanCertificate bareCertificate.encode = .ok () := by decide +kernel
  have hlen : bareCertificate.encode.length ≤ 24576 := by decide +kernel
  obtain ⟨hiff, hshape, hshard⟩ := certificate_readers_agree _ hlen bareHead bareHead_valid []
  obtain ⟨p, n, hparse, hsdk⟩ := hiff.mp hscan
  have hok := (hshape _ _ _ _ hparse).1
  rw [List.append_nil] at hparse
  exact ⟨⟨p, n, hparse, hsdk⟩, hok, hshard hok⟩

end Ureth.Guarantees
