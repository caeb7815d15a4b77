import Ureth.Source.Execution.RecordsCodec

/-!
# The codec and the admission of the root-record import

The encoder of an import and the walk over it are inverse under the caps, whether or not the walk
collects, and an admission costs what the bytes and the entries cost.
-/

namespace Ureth.Guarantees
open Ureth.Foundation Ureth.Source.Execution

/-- What a collecting walk accepts is re-encoded to the same bytes. An import of at most 32 entries
of kinds 1 to 5 with payloads of their kind's width, whose closed epoch is zero unless the kind is
4 and whose target tip is zero if the target count is, is within the byte cap and the token cap and
is decoded from its encoding. The walk that allocates nothing accepts the same bytes with the same
header, whose entry count is the number of entries collected. An admitted import costs 2000, 16 a
byte and 1000 an entry, within the budget. -/
theorem import_codec_exact (H : Bytes → Bytes32) :
    (∀ (raw : ByteVec) (header : ImportHeader) (entries : List RecordEntry),
      walkImport raw (some []) = (.ok header, some entries) →
      RecordImport.toBytes ⟨header.progress, header.ucTime, header.targetCount, header.targetTip,
        entries⟩ = raw.val) ∧
    (∀ (imp : RecordImport) (raw : ByteVec), imp.entries.length ≤ 32 →
      (∀ e ∈ imp.entries, payloadWidth e.kind.toUInt64 = some e.data.val.length ∧
        (e.kind ≠ 4 → e.closedEpoch = 0)) →
      (imp.targetCount = 0 → imp.targetTip = .zero 32) → raw.val = imp.toBytes →
      raw.val.length ≤ 16384 ∧ imp.tokens ≤ 512 ∧
        walkImport raw (some []) = (.ok imp.header, some imp.entries)) ∧
    (∀ (raw : ByteVec) (header : ImportHeader),
      (walkImport raw none).1 = .ok header ↔ (walkImport raw (some [])).1 = .ok header) ∧
    (∀ (raw : ByteVec) (header : ImportHeader) (entries : Option (List RecordEntry)),
      walkImport raw (some []) = (.ok header, entries) →
      ∃ es, entries = some es ∧ header.entries = es.length) ∧
    (∀ (raw : ByteVec) (committedHash : Bytes32) (budget : UInt64) (admitted : AdmittedImport),
      admitImport H raw committedHash budget = .ok admitted →
      admitted.gas.toNat = 2000 + 16 * raw.val.length + 1000 * admitted.companion.entries.length ∧
        admitted.gas.toNat ≤ budget.toNat) := by
  refine ⟨?_, ?_, ?_, ?_, ?_⟩
  · intro raw header entries h
    obtain ⟨imp, -, hraw, rfl, hentries⟩ := walkImport_eq_ok.mp h
    obtain rfl : entries = imp.entries := Option.some.inj hentries
    exact hraw.symm
  · intro imp raw hcount hentries htip hraw
    have hsized : imp.Sized := ⟨hcount, hentries, htip⟩
    refine ⟨?_, hsized.tokens_le, walkImport_eq_ok.mpr ⟨imp, hsized, hraw, rfl, rfl⟩⟩
    rw [hraw]
    exact hsized.length_toBytes_le
  · intro raw header
    -- both modes read the same import
    have hmode (collect : Option (List RecordEntry)) : (walkImport raw collect).1 = .ok header ↔
        ∃ imp : RecordImport, imp.Sized ∧ raw.val = imp.toBytes ∧ header = imp.header := by
      constructor
      · intro h
        obtain ⟨imp, hsized, hraw, hheader, -⟩ := walkImport_eq_ok.mp (Prod.ext h rfl)
        exact ⟨imp, hsized, hraw, hheader⟩
      · rintro ⟨imp, hsized, hraw, hheader⟩
        exact congrArg Prod.fst (walkImport_eq_ok.mpr ⟨imp, hsized, hraw, hheader, rfl⟩)
    rw [hmode, hmode]
  · intro raw header entries h
    obtain ⟨imp, -, -, rfl, rfl⟩ := walkImport_eq_ok.mp h
    exact ⟨imp.entries, rfl, rfl⟩
  · intro raw committedHash budget admitted h
    exact ⟨(admitImport_ok h).2, gas_le_of_admitImport h⟩

/-- An import of one closure of epoch three. -/
def soleClosure : RecordImport where
  progress := 9
  ucTime := 1700000000
  targetCount := 1
  targetTip := .literal 32 1
  entries := [{ index := 0, recordId := .literal 32 2, predecessor := .zero 32, kind := 4, progress := 8,
                ucTime := 1699999999, data := ⟨List.replicate 192 7, by rw [List.length_replicate]; norm_num⟩
                closedEpoch := 3 }]

theorem length_soleClosure : soleClosure.toBytes.length < 2 ^ 63 := by decide +kernel

theorem import_codec_exact_closure :
    walkImport ⟨soleClosure.toBytes, length_soleClosure⟩ (some []) =
      (.ok soleClosure.header, some soleClosure.entries) :=
  ((import_codec_exact fun _ => .zero 32).2.1 soleClosure ⟨_, length_soleClosure⟩ (by decide)
    (by decide +kernel) (by decide) rfl).2.2

end Ureth.Guarantees
