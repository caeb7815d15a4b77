import Ureth.Source.Execution.Pairing
import Ureth.Source.Execution.WireSpec

/-!
# What a pair binding says

A binding is accepted exactly when its bytes are the encoding of the reference
binding of the context for some activation identity.
-/

namespace Ureth.Source.Execution
open Ureth.Foundation Cursor Decoder

@[simp] theorem malformed_eq_ok {α : Type} {read : Decode α} {c d : Cursor} {a : α} :
    malformed read c = (.ok a, d) ↔ read c = (.ok a, d) := by
  rw [malformed, Run.mapErr, Prod.mk.injEq, Res.mapErr_eq_ok, Prod.ext_iff]

theorem decodeSubject_eq_ok {kind : UInt64} {id : Bytes32} {s : PairSubject} :
    decodeSubject kind id = .ok s ↔ kind = s.kind ∧ id = s.id := by
  have hne : subjectImport ≠ subjectBuild := by decide
  unfold decodeSubject
  cases s with
  | build digest =>
    simp only [PairSubject.kind, PairSubject.id]
    split_ifs <;> simp [*]
  | imported hash =>
    simp only [PairSubject.kind, PairSubject.id]
    split_ifs with hbuild himport
    · simp [hbuild, hne.symm]
    · simp [himport]
    · simp [himport]

/-- Every identity of a binding is set. -/
def PairBinding.Identified (b : PairBinding) : Prop := ∀ p ∈ b.identities, p.2 ≠ Fixed.zero 32

theorem checkIdentities_eq_ok {b : PairBinding} {u : Unit} :
    checkIdentities b = .ok u ↔ b.Identified := by
  simp only [checkIdentities, Res.each_eq_ok, Res.refuse_eq_ok, PairBinding.Identified, ne_eq]

private theorem length_domain : (ascii pairBindingDomain).length = 20 := by
  simp [ascii, pairBindingDomain]

theorem PairBinding.length_canonicalCbor_le (b : PairBinding) :
    b.canonicalCbor.length ≤ maxPairBindingBytes := by
  have hdomain := length_domain
  simp only [canonicalCbor, encodeOpening, encodeFields, List.length_append, maxPairBindingBytes]
  grind [length_array_le, length_text_le, length_uint_le, length_word_le]

/-- The domain as the text it is read as. -/
private def domainText : Text := ⟨ascii pairBindingDomain, by decide +kernel, by rw [length_domain]; omega⟩

theorem decodeOpening_eq_ok {c d : Cursor} {u : Unit} :
    decodeOpening c = (.ok u, d) ↔ c.Advance PairBinding.encodeOpening d := by
  have harray : array 15 = Cbor.head 4 15 := array_eq 15
  simp only [decodeOpening, PairBinding.encodeOpening, Run.bind_eq_ok, Run.refuse_eq_ok, Run.exists_guard,
    malformed_eq_ok, readArray_eq_ok, not_not, readText_eq_ok, readUint_eq_ok, ← advance_append, harray,
    List.append_assoc, existsAndEq, and_assoc, exists_and_left, exists_const, true_and, and_true,
    @Run.exists_swap Cursor Text]
  constructor
  · rintro ⟨-, domain, hdomain, h⟩
    rwa [hdomain] at h
  · intro h
    exact ⟨by decide, domainText, rfl, h⟩

theorem decodePairBinding_eq_ok {raw : Bytes} {slice : raw.length < 2 ^ 63} {b : PairBinding} :
    (decodePairBinding (start raw slice)).1 = .ok b ↔ b.Identified ∧ raw = b.canonicalCbor := by
  have hrun : (decodePairBinding (start raw slice)).1 = .ok b ↔
      ∃ d, decodePairBinding (start raw slice) = (.ok b, d) :=
    ⟨fun h => ⟨_, Prod.ext h rfl⟩, fun ⟨d, h⟩ => by rw [h]⟩
  rw [hrun, ← @advance_whole raw b.canonicalCbor slice]
  cases b
  simp only [decodePairBinding, Run.bind_eq_ok, Run.pure_eq_ok, Run.lift_eq_ok, Run.exists_guard, malformed_eq_ok,
    decodeOpening_eq_ok, readUint_eq_ok, readWord_eq_ok, Decoder.finish_eq_ok, decodeSubject_eq_ok,
    checkIdentities_eq_ok, PairBinding.canonicalCbor, PairBinding.encodeFields, List.append_assoc, ← advance_append,
    PairBinding.mk.injEq, existsAndEq, and_assoc, exists_and_left, true_and, and_true, exists_const,
    Run.exists_last]
  refine and_congr_right fun _ => exists_congr fun d => and_congr_right fun h => ?_
  rw [h.input]
  rfl

/-- The decoder of bindings accepts exactly the encodings of identified bindings. -/
theorem PairBinding.fromCanonicalCbor_eq_ok {raw : Bytes} {b : PairBinding} :
    PairBinding.fromCanonicalCbor raw = .ok b ↔ b.Identified ∧ raw = b.canonicalCbor := by
  unfold PairBinding.fromCanonicalCbor
  split_ifs with hempty hlong
  · simp only [Res.fail_ne_ok, false_iff, not_and]
    rintro - hraw
    have hhead : 0 < (array 15).length := by
      rw [array_eq]
      exact Cbor.head_length_pos _ _
    have hlen := congrArg List.length hraw
    simp only [hempty, canonicalCbor, encodeOpening, List.length_append, List.length_nil] at hlen
    omega
  · simp only [Res.fail_ne_ok, false_iff, not_and]
    rintro - hraw
    have hle := b.length_canonicalCbor_le
    rw [← hraw] at hle
    omega
  · exact decodePairBinding_eq_ok

theorem checkSubject_eq_ok {found : PairSubject} {expected : ExpectedSubject} {u : Unit} :
    checkSubject found expected = .ok u ↔ found = expected := by
  cases found <;> cases expected <;> simp [checkSubject]

theorem checkActivation_eq_ok {root : RootInputV2} {id : Bytes32} {u : Unit} :
    checkActivation root id = .ok u ↔ root.commitId.getD (.ok id) = .ok id := by
  unfold checkActivation
  cases root.commitId with
  | none => simp
  | some commit =>
    simp only [Res.bind_eq_ok, Res.refuse_eq_ok, not_not, Option.getD_some]
    constructor
    · rintro ⟨_, hcommit, rfl⟩
      exact hcommit
    · intro hcommit
      exact ⟨id, hcommit, rfl⟩

section Hash

variable {H : Bytes → Bytes32}

/-- The gate compares a binding with the reference binding of its context. -/
theorem verifyPairBinding_eq_ok {raw : Bytes} {context : PairContext} {b : PairBinding} :
    verifyPairBinding H raw context = .ok b ↔
      context.root.networkId = context.pins.networkId ∧
        referenceBinding H context b.activationId = .ok b ∧ b.Identified ∧
        raw = b.canonicalCbor := by
  simp only [verifyPairBinding, referenceBinding, Res.bind_eq_ok,
    PairBinding.fromCanonicalCbor_eq_ok, Res.refuse_eq_ok, not_not, Res.mapErr_eq_ok,
    checkSubject_eq_ok, checkActivation_eq_ok, Res.pure_eq_ok]
  constructor
  · rintro ⟨b, ⟨hid, hraw⟩, _, hnet, _, hgen, _, hegen, _, hinput, _, hparent, _, hnumber, _, hepoch, _,
      hround, _, hconf, _, hact, commitment, hcommit, _, hroot, _, htrans, _, hsubject, rfl⟩
    refine ⟨hinput.trans hnet, ⟨b.activationId, hact, commitment, hcommit, ?_⟩, hid, hraw⟩
    obtain ⟨_, _, _, _, _, _, _, _, _, _, _, _⟩ := b
    simp only at hnet hgen hegen hparent hnumber hepoch hround hconf hroot htrans hsubject
    simp only [hnet, hgen, hegen, hparent, hnumber, hepoch, hround, hconf, hroot, htrans, hsubject]
  · rintro ⟨hnet, ⟨id, hact, commitment, hcommit, rfl⟩, hid, hraw⟩
    exact ⟨_, ⟨hid, hraw⟩, (), rfl, (), rfl, (), rfl, (), hnet, (), rfl, (), rfl, (), rfl, (), rfl,
      (), rfl, (), hact, commitment, hcommit, (), rfl, (), rfl, (), rfl, rfl⟩

/-- The reference binding does not change when it is asked for its own activation. -/
theorem referenceBinding_activation {context : PairContext} {id : Bytes32} {b : PairBinding}
    (h : referenceBinding H context id = .ok b) :
    referenceBinding H context b.activationId = .ok b := by
  simp only [referenceBinding, Res.bind_eq_ok, Res.pure_eq_ok] at h ⊢
  obtain ⟨activation, hact, commitment, hcommit, rfl⟩ := h
  refine ⟨activation, ?_, commitment, hcommit, rfl⟩
  cases hroot : context.root.commitId with
  | none => rfl
  | some commit =>
    rw [hroot] at hact
    exact hact

theorem referenceBinding_transition {context : PairContext} {id : Bytes32} {b : PairBinding}
    (h : referenceBinding H context id = .ok b) {raw : ByteVec} {rest : List ByteVec}
    (hroot : context.root.transitions = raw :: rest) :
    ∃ t, decodeEpochTransition raw = .ok t ∧ b.activationId = t.commitId := by
  simp only [referenceBinding, RootInputV2.commitId, hroot, List.head?_cons, Option.map_some,
    Option.getD_some, Res.bind_eq_ok, Res.mapErr_eq_ok, Res.pure_eq_ok] at h
  obtain ⟨_, ⟨t, ht, rfl⟩, _, -, rfl⟩ := h
  exact ⟨t, ht, rfl⟩

/-- What a reference binding says about its context. -/
theorem referenceBinding_fields {context : PairContext} {id : Bytes32} {b : PairBinding}
    (h : referenceBinding H context id = .ok b) :
    context.root.inputCommitment H = .ok b.rootInputHash ∧
      context.pins = ⟨b.networkId, b.rootGenesisId⟩ ∧
      context.executionGenesisHash = b.executionGenesisHash ∧ context.parent.hash = b.parentHash ∧
      context.parent.header.number = b.parentNumber ∧ context.subject = b.subject := by
  simp only [referenceBinding, Res.bind_eq_ok, Res.mapErr_eq_ok, Res.pure_eq_ok] at h
  obtain ⟨activation, -, commitment, hcommit, rfl⟩ := h
  exact ⟨hcommit, rfl, rfl, rfl, rfl, rfl⟩

end Hash

end Ureth.Source.Execution
