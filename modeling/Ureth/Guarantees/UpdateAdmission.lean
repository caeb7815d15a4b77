import Ureth.Guarantees.EpochCoverage
import Ureth.Source.Execution.UpdateCodec

/-!
# The codec and the admission of the committed update

The encoder and the reader of an update are inverse under all of the reader's caps, in both of its
modes, and an admission costs what the bytes and the members cost.
-/

namespace Ureth.Guarantees
open Ureth.Foundation Ureth.Source Ureth.Source.Execution

/-- What parsing accepts is re-encoded to the same bytes. An update of at most `B` entries, each
with 1 to 16 members whose identifiers have 1 to 128 bytes, is within the byte cap and is decoded
from its encoding under the token cap; both caps are those of every context with that `B`. The scan
accepts what the decoding pass accepts and counts the same members, and the decoding pass always
returns an update. An admitted update costs 2000, 16 a byte and 1000 a member, within the budget. -/
theorem update_codec_exact (H : Bytes → Bytes32) (S : Secp256k1) :
    (∀ (raw : ByteVec) (maxEntries tokenLimit : ℕ) (u : Update) (members : ℕ),
      parse raw maxEntries tokenLimit true = .ok (some u, members) → u.toBytes = raw.val) ∧
    (∀ (B : ℕ) (u : Update) (raw : ByteVec), u.newEntries.length ≤ B →
      (∀ e ∈ u.newEntries, 1 ≤ e.members.length ∧ e.members.length ≤ 16 ∧
        ∀ m ∈ e.members, 1 ≤ m.nodeId.val.length ∧ m.nodeId.val.length ≤ 128) →
      raw.val = u.toBytes →
      raw.val.length ≤ 4096 + 16384 * B ∧
        parse raw B (32 + 266 * B) true = .ok (some u, u.memberCount)) ∧
    (∀ (context : B1Context) (k : UInt64), context.b = .ok k →
      context.maxUpdateBytes = .ok (4096 + 16384 * k.toNat) ∧
        context.maxTokens = .ok (32 + 266 * k.toNat)) ∧
    (∀ (raw : ByteVec) (maxEntries tokenLimit members : ℕ) (scanned : Option Update),
      parse raw maxEntries tokenLimit false = .ok (scanned, members) ↔
        scanned = none ∧ ∃ u, parse raw maxEntries tokenLimit true = .ok (some u, members)) ∧
    (∀ (raw : ByteVec) (maxEntries tokenLimit members : ℕ) (decoded : Option Update),
      parse raw maxEntries tokenLimit true = .ok (decoded, members) → decoded.isSome = true) ∧
    (∀ (raw : ByteVec) (context : B1Context) (binding : UpdateBinding) (budget : UInt64)
      (admitted : Admitted), admitUpdate H S raw context binding budget = .ok admitted →
      admitted.gas.toNat = 2000 + 16 * raw.val.length + 1000 * admitted.update.memberCount ∧
        admitted.gas.toNat ≤ budget.toNat) := by
  refine ⟨?_, ?_, ?_, ?_, ?_, ?_⟩
  · intro raw maxEntries tokenLimit u members h
    obtain ⟨v, -, hraw, -, hout⟩ := parse_eq_ok.mp h
    obtain rfl : u = v := Option.some.inj (congrArg Prod.fst hout)
    exact hraw.symm
  · intro B u raw hcount hentries hraw
    have hsized : u.Sized B := ⟨hcount, hentries⟩
    refine ⟨?_, parse_eq_ok.mpr ⟨u, hsized, hraw, hsized.tokens_le, rfl⟩⟩
    rw [hraw]
    exact hsized.length_toBytes_le
  · intro context k hk
    exact ⟨maxUpdateBytes_eq hk, maxTokens_eq hk⟩
  · intro raw maxEntries tokenLimit members scanned
    constructor
    · intro h
      obtain ⟨u, hsized, hraw, htokens, hout⟩ := parse_eq_ok.mp h
      obtain ⟨rfl, rfl⟩ := Prod.mk.inj hout
      exact ⟨rfl, u, parse_eq_ok.mpr ⟨u, hsized, hraw, htokens, rfl⟩⟩
    · rintro ⟨rfl, u, h⟩
      obtain ⟨v, hsized, hraw, htokens, hout⟩ := parse_eq_ok.mp h
      obtain ⟨-, rfl⟩ := Prod.mk.inj hout
      exact parse_eq_ok.mpr ⟨v, hsized, hraw, htokens, rfl⟩
  · intro raw maxEntries tokenLimit members decoded h
    obtain ⟨v, -, -, -, hout⟩ := parse_eq_ok.mp h
    obtain ⟨rfl, -⟩ := Prod.mk.inj hout
    rfl
  · intro raw context binding budget admitted h
    exact ⟨(admitUpdate_ok h).2, gas_le_of_admitUpdate h⟩

theorem length_twoEpochs : twoEpochs.toBytes.length < 2 ^ 63 := by decide +kernel

/-- The sample update with two entries and two members is decoded from its encoding. -/
theorem update_codec_exact_two :
    parse ⟨twoEpochs.toBytes, length_twoEpochs⟩ 2 564 true = .ok (some twoEpochs, 2) :=
  ((update_codec_exact (fun _ => .zero 32) .echo).2.1 2 twoEpochs ⟨_, length_twoEpochs⟩
    (by decide) (by decide) rfl).2

end Ureth.Guarantees
