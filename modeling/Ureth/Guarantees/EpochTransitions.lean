import Ureth.Source.Execution.TransitionWire

/-!
# Decoding an epoch transition

A transition has one accepted encoding, and what is accepted advances the epochs coherently.
-/

namespace Ureth.Guarantees
open Ureth.Foundation Ureth.Source.Execution

/-- An accepted transition is the canonical bytes of its value, so no other input is accepted with
the same value. Its root epoch advances by at least one and at most the span limit, without
overflow. An advance by one has no span and either keeps the shard epoch and the configuration or
advances the one by one and changes the other; a larger advance is the span and the advance of the
shard epoch, with another configuration and a span commitment. -/
theorem epoch_transition_decoding {input : ByteVec} {t : EpochTransition}
    (h : decodeEpochTransition input = .ok t) :
    (∀ input' : ByteVec, decodeEpochTransition input' = .ok t → input' = input) ∧
    input.val = t.encode ∧
    ∃ delta, t.newRootEpoch.toNat = t.oldRootEpoch.toNat + delta ∧ 1 ≤ delta ∧
      delta ≤ maxSupersessionSpan.toNat ∧
      (delta = 1 → t.supersessionSpan = 0 ∧ t.supersessionCommitment = .zero 32 ∧
        (t.newShardEpoch = t.oldShardEpoch ∧ t.newActiveConfHash = t.oldActiveConfHash ∨
          t.newShardEpoch.toNat = t.oldShardEpoch.toNat + 1 ∧
            t.newActiveConfHash ≠ t.oldActiveConfHash)) ∧
      (1 < delta → t.supersessionSpan.toNat = delta ∧
        t.newShardEpoch.toNat = t.oldShardEpoch.toNat + delta ∧
        t.newActiveConfHash ≠ t.oldActiveConfHash ∧ t.supersessionCommitment ≠ .zero 32) := by
  obtain ⟨hinput, delta, hcoherent⟩ := decodeEpochTransition_ok h
  refine ⟨?_, hinput, delta, hcoherent.root, hcoherent.pos, hcoherent.bound, hcoherent.single,
    hcoherent.folded⟩
  intro input' h'
  obtain ⟨hinput', -⟩ := decodeEpochTransition_ok h'
  exact Subtype.ext (hinput'.trans hinput.symm)

/-- A transition over two epochs, up to the last root epoch there is. -/
def foldedTransition : EpochTransition where
  oldRootEpoch := .ofNat (2 ^ 64 - 3)
  newRootEpoch := .ofNat (2 ^ 64 - 1)
  oldShardEpoch := 4
  newShardEpoch := 6
  oldActiveConfHash := .literal 32 1
  newActiveConfHash := .literal 32 2
  supersessionSpan := 2
  supersessionCommitment := .literal 32 3
  bodyId := .literal 32 4
  genesisId := .literal 32 5
  frozenId := .literal 32 6
  commitId := .literal 32 7
  frozenParent := .literal 32 8
  successorTr := .literal 32 9
  evmRound := 10

theorem length_foldedTransition : foldedTransition.encode.length < 2 ^ 63 := by decide +kernel

theorem epoch_transition_decoding_folded :
    decodeEpochTransition ⟨foldedTransition.encode, length_foldedTransition⟩ = .ok foldedTransition ∧
      ∀ input', decodeEpochTransition input' = .ok foldedTransition →
        input'.val = foldedTransition.encode := by
  have hdecoded : decodeEpochTransition ⟨foldedTransition.encode, length_foldedTransition⟩ =
      .ok foldedTransition := by decide +kernel
  refine ⟨hdecoded, ?_⟩
  intro input' h'
  exact congrArg Subtype.val ((epoch_transition_decoding hdecoded).1 input' h')

end Ureth.Guarantees
