import Ureth.Source.Payload.Recovery
import Ureth.Source.Payload.TokenSystem
import Ureth.Source.Payload.TokensRoom

/-!
# What recovery does to the token store

Each part of an admission by its pre- and postcondition on the token store. The parts before
the first admission only restore; the others work at or below the head.
-/

namespace Ureth.Source.Payload
open Ureth.Foundation Ureth.Source.Execution Ureth.Source.Store

section Rules

variable {π α ε : Type} {J K : UnicityParentAccountings → Prop}

end Rules

namespace RecoveryCall

variable {π β : Type} {H : Bytes → Bytes32} {hashSlow : Header → Bytes32} {call : RecoveryCall π β}
  {J K : UnicityParentAccountings → Prop}

/-! ## What the provider may answer -/

def AnswersHash (call : RecoveryCall π β) (n : UInt64) (hash : Bytes32) : Prop :=
  ∃ p q, call.provider.blockHash n p = (.ok (some hash), q)

variable {head : UInt64}

end RecoveryCall

/-! ## Restoring vouches for nothing -/

/-- Every admitted entry was there before, as it is. -/
structure Inert (before after : UnicityParentAccountings) : Prop where
  distinct : after.inner.Distinct
  admitted : ∀ h e, after.inner.find h = some e → e.admitted = true → before.inner.find h = some e

/-- What resolves after, resolved before. -/
theorem Inert.resolve {hashSlow : Header → Bytes32} {before after : UnicityParentAccountings}
    (h : Inert before after) {parent : SealedHeader} {identity : Identity} {profile : BlockProfile}
    (hresolve : ∃ lease t, UnicityParentAccountings.resolve hashSlow parent identity profile after =
      (.ok lease, t)) :
    ∃ lease t, UnicityParentAccountings.resolve hashSlow parent identity profile before =
      (.ok lease, t) := by
  obtain ⟨e, he, haccepts⟩ := exists_resolve_iff.mp hresolve
  exact exists_resolve_iff.mpr ⟨e, h.admitted _ e he haccepts.admitted, haccepts⟩

/-! ## Admission works at or below the head -/

/-- The provider answers from one chain of numbered headers, each sealed under its own hash. -/
structure RecoveryCall.Follows {π β : Type} (call : RecoveryCall π β) (chain : UInt64 → SealedHeader) :
    Prop where
  number : ∀ n, (chain n).header.number = n
  hash : ∀ n h, call.AnswersHash n h → h = (chain n).hash
  header : ∀ n header p q, call.provider.sealedHeaderByHash (chain n).hash p = (.ok (some header), q) →
    header = chain n

section Steady

variable {π β : Type} {H : Bytes → Bytes32} {hashSlow : Header → Bytes32} {call : RecoveryCall π β}
  {chain : UInt64 → SealedHeader} {start : ParentAccountingInner} {head : UInt64} {out : List Bytes32}

end Steady

end Ureth.Source.Payload
