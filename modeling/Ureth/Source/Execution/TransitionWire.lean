import Ureth.Foundation.Word64
import Ureth.Source.Execution.WireSpec

/-!
# The one encoding of an epoch transition

The crate decodes epoch transitions and never writes them. The bytes below are what its decoder
reads: the outer record with the acknowledgement as its last byte string.
-/

namespace Ureth.Source.Execution
open Ureth.Foundation Cursor Decoder

/-- The domain text and the version of a record. -/
def encodeDomain (domain : String) (version : UInt64) : Bytes := text (ascii domain) ++ uint version

def Ack.encode (ack : Ack) : Bytes :=
  array 8 ++ encodeDomain "UNICITY_HANDOFF_ACK" 2 ++ bytes ack.frozenId.val ++ bytes ack.commitId.val ++
    bytes ack.frozenParent.val ++ bytes ack.successorParent.val ++ bytes ack.successorTr.val ++
    uint ack.evmRound

def TransitionBody.encode (body : TransitionBody) : Bytes :=
  array 13 ++ encodeDomain "UNICITY_HANDOFF_EVM_TRANSITION" 3 ++ uint body.oldRootEpoch ++
    uint body.newRootEpoch ++ uint body.oldShardEpoch ++ uint body.newShardEpoch ++
    bytes body.oldActiveConfHash.val ++ bytes body.newActiveConfHash.val ++
    uint body.supersessionSpan ++ bytes body.supersessionCommitment.val ++ bytes body.bodyId.val ++
    bytes body.genesisId.val ++ bytes body.ackBytes.val

theorem readDomain_eq_ok {domain : String} {version : UInt64} {reason : String}
    (hdomain : validUtf8 (ascii domain) = true ∧ (ascii domain).length < 2 ^ 63) {c d : Cursor}
    {u : Unit} :
    readDomain domain version reason c = (.ok u, d) ↔ c.Advance (encodeDomain domain version) d := by
  simp only [readDomain, encodeDomain, Run.bind_eq_ok, Run.refuse_eq_ok, readText_eq_ok,
    readUint_eq_ok, not_not, advance_append]
  constructor
  · rintro ⟨found, t, ht, _, _, ⟨hfound, rfl⟩, v, t', hv, rfl, rfl⟩
    rw [hfound] at ht
    exact ⟨_, ht, hv⟩
  · rintro ⟨t, ht, hv⟩
    exact ⟨⟨ascii domain, hdomain⟩, t, ht, (), t, ⟨rfl, rfl⟩, version, d, hv, rfl, rfl⟩

theorem decodeAck_eq_ok {c d : Cursor} {ack : Ack} :
    decodeAck c = (.ok ack, d) ↔ c.Advance ack.encode d := by
  have hdomain : validUtf8 (ascii "UNICITY_HANDOFF_ACK") = true ∧
      (ascii "UNICITY_HANDOFF_ACK").length < 2 ^ 63 := by decide +kernel
  cases ack
  simp [decodeAck, Ack.encode, Run.bind_eq_ok, readArity_eq_ok, readDomain_eq_ok hdomain, ← advance_append,
    -Subtype.exists]

theorem decodeTransitionBody_eq_ok {c d : Cursor} {body : TransitionBody} :
    decodeTransitionBody c = (.ok body, d) ↔ c.Advance body.encode d := by
  have hdomain : validUtf8 (ascii "UNICITY_HANDOFF_EVM_TRANSITION") = true ∧
      (ascii "UNICITY_HANDOFF_EVM_TRANSITION").length < 2 ^ 63 := by decide +kernel
  cases body
  simp [decodeTransitionBody, TransitionBody.encode, Run.bind_eq_ok, readArity_eq_ok, readDomain_eq_ok hdomain,
    ← advance_append, -Subtype.exists]

theorem epochDelta_eq_some {new old delta : UInt64} :
    epochDelta new old = some delta ↔ new.toNat = old.toNat + delta.toNat := subWithin_eq_some

/-! ## The decoded value -/

namespace EpochTransition

/-- The acknowledgement of a decoded transition, whose two parents are one. -/
def ack (t : EpochTransition) : Ack where
  frozenId := t.frozenId
  commitId := t.commitId
  frozenParent := t.frozenParent
  successorParent := t.frozenParent
  successorTr := t.successorTr
  evmRound := t.evmRound

/-- The outer record of a decoded transition around the bytes of its acknowledgement. -/
def body (t : EpochTransition) (ackBytes : ByteVec) : TransitionBody where
  oldRootEpoch := t.oldRootEpoch
  newRootEpoch := t.newRootEpoch
  oldShardEpoch := t.oldShardEpoch
  newShardEpoch := t.newShardEpoch
  oldActiveConfHash := t.oldActiveConfHash
  newActiveConfHash := t.newActiveConfHash
  supersessionSpan := t.supersessionSpan
  supersessionCommitment := t.supersessionCommitment
  bodyId := t.bodyId
  genesisId := t.genesisId
  ackBytes

/-- The canonical bytes of a transition. -/
def encode (t : EpochTransition) : Bytes :=
  array 13 ++ encodeDomain "UNICITY_HANDOFF_EVM_TRANSITION" 3 ++ uint t.oldRootEpoch ++
    uint t.newRootEpoch ++ uint t.oldShardEpoch ++ uint t.newShardEpoch ++
    bytes t.oldActiveConfHash.val ++ bytes t.newActiveConfHash.val ++ uint t.supersessionSpan ++
    bytes t.supersessionCommitment.val ++ bytes t.bodyId.val ++ bytes t.genesisId.val ++
    bytes t.ack.encode

/-- How the two epochs, the configurations and the span of a transition go together. -/
structure Coherent (t : EpochTransition) (delta : ℕ) : Prop where
  root : t.newRootEpoch.toNat = t.oldRootEpoch.toNat + delta
  pos : 1 ≤ delta
  bound : delta ≤ maxSupersessionSpan.toNat
  single : delta = 1 → t.supersessionSpan = 0 ∧ t.supersessionCommitment = .zero 32 ∧
    (t.newShardEpoch = t.oldShardEpoch ∧ t.newActiveConfHash = t.oldActiveConfHash ∨
      t.newShardEpoch.toNat = t.oldShardEpoch.toNat + 1 ∧ t.newActiveConfHash ≠ t.oldActiveConfHash)
  folded : 1 < delta → t.supersessionSpan.toNat = delta ∧
    t.newShardEpoch.toNat = t.oldShardEpoch.toNat + delta ∧
    t.newActiveConfHash ≠ t.oldActiveConfHash ∧ t.supersessionCommitment ≠ .zero 32

end EpochTransition

variable {t : EpochTransition} {input : ByteVec}

/-- The span check of the source is the coherence of the epochs, up to the bound on the span. -/
theorem coherent_of_spanOk (ackBytes : ByteVec) (hspan : (t.body ackBytes).spanOk = true)
    (hbound : ∀ delta ∈ epochDelta t.newRootEpoch t.oldRootEpoch, delta ≤ maxSupersessionSpan) :
    ∃ delta, t.Coherent delta := by
  unfold TransitionBody.spanOk at hspan
  dsimp only [EpochTransition.body] at hspan
  cases hdelta : epochDelta t.newRootEpoch t.oldRootEpoch with
  | none => simp [hdelta] at hspan
  | some delta =>
    have hle := UInt64.le_iff_toNat_le.mp (hbound delta hdelta)
    have hroot := epochDelta_eq_some.mp hdelta
    simp only [hdelta] at hspan
    split at hspan
    next hsame =>
      obtain ⟨rfl, hkept⟩ := hsame
      obtain ⟨hshard, hconf⟩ := not_or.mp hkept
      obtain ⟨-, hspan, hcommitment⟩ := of_decide_eq_true hspan
      exact ⟨1, hroot, le_rfl, hle, fun _ => ⟨hspan, hcommitment, .inl ⟨not_not.mp hshard, not_not.mp hconf⟩⟩,
        fun h => absurd h (by decide)⟩
    next =>
      split at hspan
      next hone =>
        subst hone
        simp only [decide_eq_true_eq, epochDelta_eq_some] at hspan
        obtain ⟨hshard, hconf, hspan, hcommitment⟩ := hspan
        exact ⟨1, hroot, le_rfl, hle, fun _ => ⟨hspan, hcommitment, .inr ⟨hshard, hconf⟩⟩,
          fun h => absurd h (by decide)⟩
      next =>
        split at hspan
        next hmore =>
          have hmore' : 1 < delta.toNat := UInt64.lt_iff_toNat_lt.mp hmore
          simp only [decide_eq_true_eq, epochDelta_eq_some] at hspan
          obtain ⟨hshard, hconf, rfl, hcommitment⟩ := hspan
          exact ⟨_, hroot, hmore'.le, hle, fun h => absurd h hmore'.ne',
            fun _ => ⟨rfl, hshard, hconf, hcommitment⟩⟩
        next => simp at hspan

/-- What is decoded stands in the input in its canonical bytes and is coherent. -/
theorem decodeEpochTransition_ok (h : decodeEpochTransition input = .ok t) :
    input.val = t.encode ∧ ∃ delta, t.Coherent delta := by
  have hbody (input : Bytes) (slice : input.length < 2 ^ 63) (body : TransitionBody) :
      (Decoder.whole decodeTransitionBody (start input slice)).1 = .ok body ↔ input = body.encode := by
    unfold Decoder.whole
    rw [whole_eq_ok (P := fun _ => True) fun c d a => by rw [decodeTransitionBody_eq_ok, true_and],
      true_and]
  have hack (input : Bytes) (slice : input.length < 2 ^ 63) (ack : Ack) :
      (Decoder.whole decodeAck (start input slice)).1 = .ok ack ↔ input = ack.encode := by
    unfold Decoder.whole
    rw [whole_eq_ok (P := fun _ => True) fun c d a => by rw [decodeAck_eq_ok, true_and], true_and]
  simp only [decodeEpochTransition, Cursor.ofVec, Res.bind_eq_ok, Res.refuse_eq_ok, Res.pure_eq_ok, hbody, hack,
    not_or, not_not, not_exists, not_and, gt_iff_lt, UInt64.not_lt, Bool.not_eq_false] at h
  obtain ⟨_, -, body, hinput, ack, hackBytes, _, hbound, _, ⟨hspan, -, -, -, hparent, -⟩, rfl⟩ := h
  refine ⟨?_, coherent_of_spanOk body.ackBytes hspan hbound⟩
  rw [hinput, TransitionBody.encode, hackBytes]
  simp only [EpochTransition.encode, EpochTransition.ack, Ack.encode, hparent]

end Ureth.Source.Execution
