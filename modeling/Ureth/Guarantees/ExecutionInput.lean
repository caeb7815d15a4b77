import Ureth.Foundation.Sha256
import Ureth.Source.Execution.PairingSpec

/-!
# The execution input is bound by its bytes

A root input has one canonical encoding and an encoding has one root input, so the
commitment in the header names the input. A pair binding is accepted only for
the context it was made for.
-/

namespace Ureth.Guarantees
open Ureth.Foundation
open Ureth.Source.Execution

/-- Decoder and encoder are inverse on checked values: accepted bytes are
re-encoded to themselves, a checked value with a bounded shard identifier and
leader survives the trip, and neither the encoding nor (hash collisions aside) the
commitment identifies two values. -/
theorem rootInput_codec_bijective (H : Bytes → Bytes32) :
    (∀ (input : Bytes) (root : RootInputV2), RootInputV2.fromCanonicalCbor H input = .ok root →
      root.canonicalCbor H = .ok input) ∧
    (∀ (root : RootInputV2) (cls : OriginClass), root.originClass H = .ok cls → root.shardId.val.length ≤ 32 →
      root.technical.leader.val.length ≤ 256 →
      ∃ b, root.canonicalCbor H = .ok b ∧ RootInputV2.fromCanonicalCbor H b = .ok root) ∧
    (∀ (v w : RootInputV2) (b : Bytes), v.canonicalCbor H = .ok b → w.canonicalCbor H = .ok b → v = w) ∧
    (∀ (v w : RootInputV2) (h : Bytes32), v.inputCommitment H = .ok h → w.inputCommitment H = .ok h →
      v = w ∨ Collision H [v.encode, w.encode]) := by
  refine ⟨?_, ?_, ?_, ?_⟩
  · intro input root h
    obtain ⟨-, -, hinput, hcls⟩ := fromCanonicalCbor_eq_ok.mp h
    exact canonicalCbor_eq_ok.mpr ⟨hcls, hinput.symm⟩
  · intro root cls hcls hshard hleader
    have hbounded := bounded_of_originClass hcls hshard hleader
    refine ⟨root.encode, canonicalCbor_eq_ok.mpr ⟨⟨cls, hcls⟩, rfl⟩, ?_⟩
    exact fromCanonicalCbor_eq_ok.mpr ⟨hbounded.length_encode_le, hbounded, rfl, cls, hcls⟩
  · intro v w b hv hw
    obtain ⟨⟨_, hcv⟩, hbv⟩ := canonicalCbor_eq_ok.mp hv
    obtain ⟨⟨_, hcw⟩, hbw⟩ := canonicalCbor_eq_ok.mp hw
    exact RootInputV2.eq_of_encode_eq hcv hcw (hbv.trans hbw.symm)
  · intro v w h hv hw
    exact eq_or_collision_of_inputCommitment hv hw

/-- A first input after genesis: no certified state, no transition. -/
def bootstrapInput (H : Bytes → Bytes32) : RootInputV2 :=
  let technical : TechnicalRecordV2 :=
    { round := 1, epoch := 0, leader := ⟨[0x6c], by decide, by decide⟩,
      statHash := .literal 32 0xaa, feeHash := .literal 32 0xbb }
  { version := 2, networkId := 3, partitionId := 8, shardId := ⟨[0x80], by decide⟩,
    authorizedRound := 1, certifiedEpoch := 0, authorizedEpoch := 0, parentHash := .literal 32 0x11,
    origin :=
      { networkId := 3, rootRound := 9, rootEpoch := 1, referenceTime := 1700000000,
        treeRoot := .literal 32 0x22, inputRecordVersion := 1,
        inputRecord := { round := 0, epoch := 0, previousHash := none, stateHash := none,
                         timestamp := 0, blockHash := none },
        trHash := technicalRecordHash H technical, shardConfHash := .literal 32 0x33 },
    technical, transitions := [], b1UpdateHash := .literal 32 0x44,
    rootRecordsHash := .literal 32 0x55 }

theorem bootstrapInput_originClass (H : Bytes → Bytes32) :
    (bootstrapInput H).originClass H = .ok .bootstrap :=
  originClass_eq_ok.mpr ⟨rfl, (by decide : Fixed.literal 32 0x44 ≠ Fixed.zero 32),
    (by decide : Fixed.literal 32 0x55 ≠ Fixed.zero 32), rfl,
    ⟨(by decide : (1 : UInt64) ≠ 0), rfl⟩, rfl, rfl, rfl, Nat.zero_le _, rfl, rfl, rfl⟩

theorem rootInput_codec_bijective_bootstrap :
    ∃ b, (bootstrapInput Sha256.sha256).canonicalCbor Sha256.sha256 = .ok b ∧
      RootInputV2.fromCanonicalCbor Sha256.sha256 b = .ok (bootstrapInput Sha256.sha256) :=
  (rootInput_codec_bijective Sha256.sha256).2.1 _ _ (bootstrapInput_originClass _)
    (by simp [bootstrapInput]) (by simp [bootstrapInput])

/-- A binding is accepted exactly when its bytes encode the reference binding of
the context, identified in every field, for some activation identity (the commit
identity of the transition, if the input carries one). Bytes accepted in two
contexts make them agree. -/
theorem pairBinding_exact (H : Bytes → Bytes32) :
    (∀ raw context, (∃ b, verifyPairBinding H raw context = .ok b) ↔
      context.root.networkId = context.pins.networkId ∧
        ∃ activation b, referenceBinding H context activation = .ok b ∧
          (∀ p ∈ b.identities, p.2 ≠ Fixed.zero 32) ∧ raw = b.canonicalCbor) ∧
    (∀ context activation b transition rest, referenceBinding H context activation = .ok b →
      context.root.transitions = transition :: rest →
      ∃ t, decodeEpochTransition transition = .ok t ∧ b.activationId = t.commitId) ∧
    (∀ raw c₁ c₂ b₁ b₂, verifyPairBinding H raw c₁ = .ok b₁ → verifyPairBinding H raw c₂ = .ok b₂ →
      c₁.pins.networkId = c₂.pins.networkId ∧ c₁.pins.rootGenesisId = c₂.pins.rootGenesisId ∧
      c₁.executionGenesisHash = c₂.executionGenesisHash ∧ c₁.parent.hash = c₂.parent.hash ∧
      c₁.parent.header.number = c₂.parent.header.number ∧
      c₁.subject.kind = c₂.subject.kind ∧ c₁.subject.id = c₂.subject.id ∧
      ((c₁.root.canonicalCbor H = c₂.root.canonicalCbor H ∧ c₁.root = c₂.root) ∨
        Collision H [c₁.root.encode, c₂.root.encode])) := by
  refine ⟨?_, ?_, ?_⟩
  · intro raw context
    constructor
    · rintro ⟨b, h⟩
      obtain ⟨hnet, href, hid, hraw⟩ := verifyPairBinding_eq_ok.mp h
      exact ⟨hnet, b.activationId, b, href, hid, hraw⟩
    · rintro ⟨hnet, activation, b, href, hid, hraw⟩
      exact ⟨b, verifyPairBinding_eq_ok.mpr ⟨hnet, referenceBinding_activation href, hid, hraw⟩⟩
  · intro context activation b transition rest href hroot
    exact referenceBinding_transition href hroot
  · intro raw c₁ c₂ b₁ b₂ h₁ h₂
    obtain ⟨-, href₁, hid₁, hraw₁⟩ := verifyPairBinding_eq_ok.mp h₁
    obtain ⟨-, href₂, hid₂, hraw₂⟩ := verifyPairBinding_eq_ok.mp h₂
    have hsame : b₁ = b₂ := by
      have hd₁ := PairBinding.fromCanonicalCbor_eq_ok.mpr ⟨hid₁, hraw₁⟩
      rw [PairBinding.fromCanonicalCbor_eq_ok.mpr ⟨hid₂, hraw₂⟩, Except.ok.injEq] at hd₁
      exact hd₁.symm
    subst hsame
    obtain ⟨hcommit₁, hpins₁, hgen₁, hhash₁, hnumber₁, hsubject₁⟩ := referenceBinding_fields href₁
    obtain ⟨hcommit₂, hpins₂, hgen₂, hhash₂, hnumber₂, hsubject₂⟩ := referenceBinding_fields href₂
    have hpins := hpins₁.trans hpins₂.symm
    have hsubject := hsubject₁.trans hsubject₂.symm
    refine ⟨congrArg _ hpins, congrArg _ hpins, hgen₁.trans hgen₂.symm, hhash₁.trans hhash₂.symm,
      hnumber₁.trans hnumber₂.symm, congrArg _ hsubject, congrArg _ hsubject, ?_⟩
    rcases eq_or_collision_of_inputCommitment hcommit₁ hcommit₂ with hroot | hcollision
    · exact .inl ⟨by rw [hroot], hroot⟩
    · exact .inr hcollision

/-- A hash that maps everything to one nonzero word. -/
def oneWord (_ : Bytes) : Bytes32 := .literal 32 1

/-- An input whose update and records are empty. -/
def smallInput : RootInputV2 :=
  { bootstrapInput oneWord with b1UpdateHash := .literal 32 1, rootRecordsHash := .literal 32 1 }

theorem smallInput_originClass : smallInput.originClass oneWord = .ok .bootstrap :=
  originClass_eq_ok.mpr ⟨rfl, (by decide : Fixed.literal 32 1 ≠ Fixed.zero 32),
    (by decide : Fixed.literal 32 1 ≠ Fixed.zero 32), rfl,
    ⟨(by decide : (1 : UInt64) ≠ 0), rfl⟩, rfl, rfl, rfl, Nat.zero_le _, rfl, rfl, rfl⟩

def bootstrapContext : PairContext where
  pins := { networkId := 3, rootGenesisId := .literal 32 0x66 }
  executionGenesisHash := .literal 32 0x77
  parent :=
    { header := { parentHash := .zero 32, number := 0, gasLimit := 30000000, gasUsed := 0,
                  timestamp := 0, mixHash := .zero 32, beneficiary := .zero 20,
                  baseFeePerGas := some 1000000, parentBeaconBlockRoot := none, extraData := [],
                  other := [] }
      hash := .literal 32 0x11 }
  root := bootstrapInput oneWord
  subject := .imported (.literal 32 0x88)

def bootstrapBinding : PairBinding where
  networkId := 3
  rootGenesisId := .literal 32 0x66
  executionGenesisHash := .literal 32 0x77
  parentHash := .literal 32 0x11
  parentNumber := 0
  originRootEpoch := 1
  originRootRound := 9
  configurationId := .literal 32 0x33
  activationId := .literal 32 0x99
  rootInputHash := .literal 32 1
  transitionsHash := .literal 32 1
  subject := .imported (.literal 32 0x88)

theorem pairBinding_exact_bootstrap :
    ∃ b, verifyPairBinding oneWord bootstrapBinding.canonicalCbor bootstrapContext = .ok b := by
  have hcommit : bootstrapContext.root.inputCommitment oneWord = .ok (.literal 32 1) :=
    inputCommitment_eq_ok.mpr ⟨⟨_, bootstrapInput_originClass oneWord⟩, rfl⟩
  have href : referenceBinding oneWord bootstrapContext (.literal 32 0x99) = .ok bootstrapBinding := by
    simp only [referenceBinding, hcommit]
    rfl
  refine ((pairBinding_exact oneWord).1 _ _).mpr ⟨rfl, _, _, href, ?_, rfl⟩
  decide +kernel

end Ureth.Guarantees
