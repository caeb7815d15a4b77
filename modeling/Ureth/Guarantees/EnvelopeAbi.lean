import Ureth.Source.Bridge.AbiSpec

/-!
# The bridge's call and envelope have one encoding each

Both decoders are the inverse of the canonical encoder within their limits, so a redemption has one
byte form. The counts that are bounded before anything is collected refuse no canonical envelope.
-/

namespace Ureth.Guarantees
open Ureth.Foundation Ureth.Source.Bridge
open Ureth.Source.Bridge.Abi

/-- A call is decoded exactly from the canonical encoding of an operation of one byte and two blobs,
an envelope exactly from the canonical encoding of fields of their types, with at most 65535 anchors
and 2 MiB in all. The bound on the declared counts passes for each of these, and no input makes the
arithmetic of the decoders overflow or a read leave the input. -/
theorem bridge_abi_canonical :
    (∀ (b : ByteVec) (c : Call), decodeCall b.val = .ok c ↔ c.op ≤ 255 ∧ b.val = c.encoded) ∧
    (∀ (b : Bytes) (e : Envelope), decodeEnvelope b = .ok e ↔
      e.Typed ∧ e.anchors.length ≤ 65535 ∧ b.length ≤ 2 * 1024 * 1024 ∧ b = e.encoded) ∧
    (∀ (e : Envelope), e.Typed → e.anchors.length ≤ 65535 → e.encoded.length ≤ 2 * 1024 * 1024 →
      boundCounts e.encoded = .ok ()) ∧
    (∀ b : ByteVec, (decodeCall b.val).NoPanic) ∧ (∀ b : Bytes, (decodeEnvelope b).NoPanic) := by
  refine ⟨fun b c => decodeCall_eq_ok b.property, fun _ _ => decodeEnvelope_eq_ok, fun e htyped hanchors hlen => ?_,
    fun b => noPanic_decodeCall b.property, fun _ => graceful_decodeEnvelope.noPanic⟩
  exact boundCounts_of_encoded (by omega) htyped hanchors rfl

/-- An envelope with one anchor and one leaf proof without siblings. -/
def smallEnvelope : Envelope where
  policyBody := [0xc0]
  history := []
  anchors := [⟨7, [0x80], List.replicate 32 1, List.replicate 32 2, List.replicate 32 3, [0x84], []⟩]
  leafProofs := [⟨0, List.replicate 32 0, []⟩]

theorem smallEnvelope_typed : smallEnvelope.Typed where
  anchors := by
    intro a ha
    obtain rfl := List.mem_singleton.mp ha
    exact ⟨by decide, rfl, rfl, rfl⟩
  leafProofs := by
    intro p hp
    obtain rfl := List.mem_singleton.mp hp
    exact ⟨by decide, rfl, rfl⟩

theorem length_smallEnvelope : smallEnvelope.encoded.length = 864 := by
  simp [smallEnvelope, Envelope.encoded, Anchor.encoded, LeafProof.encoded, LeafProof.siblingWords,
    LeafProof.siblingCount, EthAbi.members, EthAbi.array, EthAbi.tuple, EthAbi.heads, EthAbi.tails, EthAbi.length_bytes]

theorem bridge_abi_canonical_small :
    boundCounts smallEnvelope.encoded = .ok () ∧ decodeEnvelope smallEnvelope.encoded = .ok smallEnvelope := by
  obtain ⟨-, henvelope, hcounts, -, -⟩ := bridge_abi_canonical
  have hlen := length_smallEnvelope
  exact ⟨hcounts _ smallEnvelope_typed (by decide) (by omega),
    (henvelope _ _).mpr ⟨smallEnvelope_typed, by decide, by omega, rfl⟩⟩

end Ureth.Guarantees
