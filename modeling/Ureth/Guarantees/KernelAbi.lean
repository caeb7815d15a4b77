import Ureth.Source.B2.AbiSpec

/-!
# The kernel speaks canonical ABI

The call decoder is the inverse of the canonical encoder on calls within the limits, and the result
that is written at computed places is the canonical encoding of the result tuple.
-/

namespace Ureth.Guarantees
open Ureth.Foundation Ureth.Source.B2
open Ureth.Source.B2.Abi

/-- A call is decoded exactly from the canonical encoding of an operation of at most two and blobs
within their limits, with every access checked. A result is written without leaving its buffer of
448 bytes and 128 for each leaf, as the canonical encoding of its tuple, which a decoder reads back. -/
theorem kernel_abi_canonical :
    (∀ b c, decode b = .ok c ↔
      c.op ≤ 2 ∧ c.cfg.length ≤ 1024 ∧ c.payload.length ≤ maxHistory ∧ b = c.encoded) ∧
    (∀ b, (decode b).NoPanic) ∧
    (∀ (ε : Type) (valid : Bool) (out : Outcome), (ResultTuple.of valid out).Sized →
      (encodeBuffer valid out : Res ε Bytes) = .ok (encode valid out) ∧
      (encode valid out).length = 448 + 128 * out.leaves.length ∧
      encode valid out = (ResultTuple.of valid out).encoded ∧
      decodeResult (encode valid out) = some (ResultTuple.of valid out)) := by
  refine ⟨fun _ _ => decode_eq_ok, noPanic_decode, fun ε valid out hsized => ?_⟩
  have hleaves : 104 * out.leaves.length < 2 ^ 63 := hsized.leaves
  exact ⟨encodeBuffer_eq valid (by omega), length_encode valid out, encode_eq_encoded valid out,
    decodeResult_encode valid hsized⟩

theorem kernel_abi_canonical_default :
    decode (Call.encoded ⟨1, [0xa0], []⟩) = .ok ⟨1, [0xa0], []⟩ ∧
      decodeResult (encode false .default) = some (ResultTuple.of false .default) := by
  obtain ⟨hcall, -, hresult⟩ := kernel_abi_canonical
  have hsized : (ResultTuple.of false .default).Sized :=
    { nonce := Nat.two_pow_pos 64
      times := by simp [ResultTuple.of, Outcome.default]
      leaves := Nat.two_pow_pos 63 }
  exact ⟨(hcall _ _).mpr ⟨Nat.le_succ 1, Nat.le_add_left 1 1023, Nat.zero_le _, rfl⟩, (hresult Empty _ _ hsized).2.2.2⟩

end Ureth.Guarantees
