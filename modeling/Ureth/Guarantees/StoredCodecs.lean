import Ureth.Source.Store.Records

/-!
# Stored records are canonical

The companion codec and the accounting codec are inverse to each other on what they accept.
A companion's record ends where its last frame ends, so no record continues another one: a
record that is cut short or followed by further bytes is refused.
-/

namespace Ureth.Guarantees
open Ureth.Foundation Ureth.Source.Execution Ureth.Source.Store

/-- Companions: the decoder accepts exactly the encoder's records, each as its own companion,
and nothing that properly starts with one or starts one. Accounting: the two functions are
inverse to each other. -/
theorem stored_codecs_exact :
    (∀ companion b, decode b = .ok companion ↔ encode companion = .ok b) ∧
      (∀ b companion, decode b = .ok companion → ∀ b' : ByteVec, b' ≠ b →
        (b'.val <+: b.val ∨ b.val <+: b'.val) → ∃ e, decode b' = Res.fail e) ∧
      ∀ r b, decodeAccounting b = .ok r ↔ encodeAccounting r = b := by
  refine ⟨fun _ _ => decode_eq_ok, fun _ _ hb _ hne hcut => decode_other_length hb hne hcut, ?_⟩
  intro r b
  constructor
  · exact encodeAccounting_of_decode
  · rintro rfl
    exact decodeAccounting_encodeAccounting r

/-- The record of a companion of empty fields without witnesses. -/
def emptyRecord : ByteVec := ⟨recordVersion :: List.replicate 24 0, by decide⟩

/-- The empty record without its last byte. -/
def cutRecord : ByteVec := ⟨recordVersion :: List.replicate 23 0, by decide⟩

theorem stored_codecs_exact_empty :
    (∃ companion, encode companion = .ok emptyRecord) ∧ ∃ e, decode cutRecord = Res.fail e := by
  obtain ⟨hexact, hcut, -⟩ := stored_codecs_exact
  have hempty : ∃ companion, decode emptyRecord = .ok companion := ⟨_, rfl⟩
  obtain ⟨companion, hcompanion⟩ := hempty
  refine ⟨⟨companion, (hexact _ _).mp hcompanion⟩, ?_⟩
  exact hcut emptyRecord companion hcompanion cutRecord (by decide) (.inl (by decide))

end Ureth.Guarantees
