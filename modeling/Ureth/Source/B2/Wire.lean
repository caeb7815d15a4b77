import Ureth.Foundation.Bytes
import Ureth.Foundation.Outcome

/-!
# B2 results (`b2/src/lib.rs`)

The kernel's error identities, its leaf obligations and its outcome. Amounts,
identities and digests are 32-byte words, the recipient a 20-byte address.
-/

namespace Ureth.Source.B2
open Ureth.Foundation

inductive Error where
  | deadline | deadlineMismatch | lockProofShape | lockProofTooLarge | justificationTooLarge
  | outOfGas | abiFraming | badOperation | truncated | trailing | nonCanonical | forbiddenCbor
  | shape | tag | version | length | intRange | inputTooLarge | tooManyTx | tooManyItems | tooDeep
  | proofTooLarge | cfgMismatch | predicate | mintShape | mintJustif | mintSalt | mintType
  | mintData | transferData | cdMismatch | unlock | unlockLength | unlockScalars | unlockRecovery
  | unlockKey | minterKey | repeatedSid | noTransfers | hasTransfers | burnNotFinal | notBurn
  | burnReason | returnData | returnAmount | returnRecip | lockInput | zeroDigest
  | deadlineExpired | lockProofCfg | splitJustif | splitProofCount | splitProofShape
  | splitManifest | splitBurn | splitProof | splitSum | certScan | certSigLength
  deriving DecidableEq, Repr

/-- Relation failures, which answer a shaped false; every other error halts. -/
def Error.isInvalid : Error → Bool
  | .cfgMismatch | .predicate | .mintShape | .mintJustif | .mintSalt | .mintType | .mintData
  | .transferData | .cdMismatch | .unlock | .unlockLength | .unlockScalars | .unlockRecovery
  | .unlockKey | .minterKey | .repeatedSid | .noTransfers | .hasTransfers | .burnNotFinal
  | .notBurn | .burnReason | .returnData | .returnAmount | .returnRecip | .lockInput
  | .zeroDigest | .deadlineExpired | .lockProofShape | .deadlineMismatch | .lockProofCfg
  | .splitJustif | .splitProofCount | .splitProofShape | .splitManifest | .splitBurn
  | .splitProof | .splitSum | .certScan | .certSigLength => true
  | _ => false

/-- No panic, and no out-of-gas of the kernel's own: only a charge can run out of gas. -/
abbrev Quiet {α : Type} (x : Res Error α) : Prop := x.FailsOnly (· ≠ .outOfGas)

/-- One leaf obligation: the state it spends, its transaction and reference time,
and the value the aggregation tree must hold for it. -/
structure Leaf where
  sid : Bytes32
  txHash : Bytes32
  referenceTime : Nat
  value : Bytes32
  deriving DecidableEq

structure Outcome where
  cfg : Bytes32
  nonce : Nat
  amount : Bytes32
  tokenId : Bytes32
  salt : Bytes32
  firstPredicateHash : Bytes32
  lockDigest : Bytes32
  releaseTo : Fixed 20
  nullifier : Bytes32
  leaves : List Leaf
  partTokenId : Bytes32
  partAmount : Bytes32
  depth : Nat
  deriving DecidableEq

/-- `Outcome::default()`. -/
def Outcome.default : Outcome where
  cfg := .zero 32
  nonce := 0
  amount := .zero 32
  tokenId := .zero 32
  salt := .zero 32
  firstPredicateHash := .zero 32
  lockDigest := .zero 32
  releaseTo := .zero 20
  nullifier := .zero 32
  leaves := []
  partTokenId := .zero 32
  partAmount := .zero 32
  depth := 0

end Ureth.Source.B2
