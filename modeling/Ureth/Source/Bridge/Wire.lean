import Ureth.Source.B1.Batch
import Ureth.Source.B2.Kernel

/-!
# Bridge results (`bridge/src/lib.rs`)

The relation status, halts, the fixed-size results with their encodings, and the
meter. The status codes are the positions of the constructors.
-/

namespace Ureth.Source.Bridge
open Ureth.Foundation

def maxAnchors : Nat := 65535
def maxEnvelopeBytes : Nat := 2 * 2 ^ 20
def maxCfgBytes : Nat := 1024
def maxPolicyBytes : Nat := 512
def maxAnchorUcBytes : Nat := 8 * 2 ^ 10
def maxInputRecordBytes : Nat := 512
def maxRsmtSiblings : Nat := 32
def maxSummaryBytes : Nat := 256

/-- The largest call input. -/
def maxInputBytes : Nat := 5 * 32 + maxCfgBytes + maxEnvelopeBytes

inductive Status where
  | ok | truncated | trailing | nonCanonical | forbiddenCbor | shape | tag | version | length
  | intRange | abiFraming | badOperation | deadline | inputTooLarge | tooManyTx | tooManyItems
  | tooDeep | tooManyPaths | justificationTooLarge | lockProofTooLarge | cfgMismatch | policyHash
  | policyTuple | policyAnchors | policyLeafIndex | policyLeafCount | policyPartition | predicate
  | mintShape | lockProofShape | lockProofCfg | mintJustif | mintSalt | mintType | mintData
  | transferData | cdMismatch | unlock | unlockLength | unlockScalars | unlockRecovery | unlockKey
  | minterKey | repeatedSid | noTransfers | hasTransfers | burnNotFinal | notBurn | burnReason
  | returnData | returnAmount | returnRecip | lockInput | zeroDigest | deadlineMismatch
  | deadlineExpired | irOpening | irShape | irState | irTime | pathBitmap | anchorAuth | leafProof
  | splitJustif | splitProofCount | splitProofShape | splitManifest | splitBurn | splitProof
  | splitSum | certScan | certSigLength
  deriving DecidableEq, Repr

/-- The numeric code. -/
def Status.code (s : Status) : Nat := s.ctorIdx

/-- The status of a B2 failure. Its out-of-gas is unreachable here. -/
def statusOfB2 {ε : Type} : B2.Error → Res ε Status
  | .deadline => .ok .deadline
  | .deadlineMismatch => .ok .deadlineMismatch
  | .lockProofShape => .ok .lockProofShape
  | .lockProofTooLarge => .ok .lockProofTooLarge
  | .justificationTooLarge => .ok .justificationTooLarge
  | .abiFraming => .ok .abiFraming
  | .badOperation => .ok .badOperation
  | .truncated => .ok .truncated
  | .trailing => .ok .trailing
  | .nonCanonical => .ok .nonCanonical
  | .forbiddenCbor => .ok .forbiddenCbor
  | .shape => .ok .shape
  | .tag => .ok .tag
  | .version => .ok .version
  | .length => .ok .length
  | .intRange => .ok .intRange
  | .inputTooLarge | .proofTooLarge => .ok .inputTooLarge
  | .tooManyTx => .ok .tooManyTx
  | .tooManyItems => .ok .tooManyItems
  | .tooDeep => .ok .tooDeep
  | .cfgMismatch => .ok .cfgMismatch
  | .predicate => .ok .predicate
  | .mintShape => .ok .mintShape
  | .mintJustif => .ok .mintJustif
  | .mintSalt => .ok .mintSalt
  | .mintType => .ok .mintType
  | .mintData => .ok .mintData
  | .transferData => .ok .transferData
  | .cdMismatch => .ok .cdMismatch
  | .unlock => .ok .unlock
  | .unlockLength => .ok .unlockLength
  | .unlockScalars => .ok .unlockScalars
  | .unlockRecovery => .ok .unlockRecovery
  | .unlockKey => .ok .unlockKey
  | .minterKey => .ok .minterKey
  | .repeatedSid => .ok .repeatedSid
  | .noTransfers => .ok .noTransfers
  | .hasTransfers => .ok .hasTransfers
  | .burnNotFinal => .ok .burnNotFinal
  | .notBurn => .ok .notBurn
  | .burnReason => .ok .burnReason
  | .returnData => .ok .returnData
  | .returnAmount => .ok .returnAmount
  | .returnRecip => .ok .returnRecip
  | .lockInput => .ok .lockInput
  | .zeroDigest => .ok .zeroDigest
  | .deadlineExpired => .ok .deadlineExpired
  | .lockProofCfg => .ok .lockProofCfg
  | .splitJustif => .ok .splitJustif
  | .splitProofCount => .ok .splitProofCount
  | .splitProofShape => .ok .splitProofShape
  | .splitManifest => .ok .splitManifest
  | .splitBurn => .ok .splitBurn
  | .splitProof => .ok .splitProof
  | .splitSum => .ok .splitSum
  | .certScan => .ok .certScan
  | .certSigLength => .ok .certSigLength
  | .outOfGas => Res.panic

/-- `map_err(status_of_b2)`. -/
def orStatus {α : Type} : Res B2.Error α → Res Status α
  | .ok a => .ok a
  | .error (.error e) => do
    let s ← statusOfB2 e
    Res.fail s
  | .error .panic => Res.panic

/-- A call that ends without a status. -/
inductive Halt (ε : Type) where
  | outOfGas
  | malformed
  | host (e : ε)
  | registry
  deriving DecidableEq, Repr

/-- A stage's failure: a relation status, or a halt that ends the call. -/
inductive Stop (ε : Type) where
  | status (s : Status)
  | halt (h : Halt ε)
  deriving DecidableEq, Repr

/-- The anchor table's one verdict; `υ` is the oracle's state. -/
structure Verdict (υ ε : Type) where
  batch : Bytes → υ → Except (Halt ε) Bool × υ

/-- An oracle that is a function of the request. -/
def Verdict.ofFunction {ε : Type} (f : Bytes → Except (Halt ε) Bool) : Verdict Unit ε where
  batch request _ := (f request, ())

/-! ## Results -/

structure Fixed where
  cfg : Bytes32
  nonce : Nat
  amount : Bytes32
  tokenId : Bytes32
  salt : Bytes32
  firstPredicateHash : Bytes32
  lockDigest : Bytes32
  releaseTo : Foundation.Fixed 20
  nullifier : Bytes32
  leafCount : Nat

def Fixed.of (o : B2.Outcome) : Fixed where
  cfg := o.cfg
  nonce := o.nonce
  amount := o.amount
  tokenId := o.tokenId
  salt := o.salt
  firstPredicateHash := o.firstPredicateHash
  lockDigest := o.lockDigest
  releaseTo := o.releaseTo
  nullifier := o.nullifier
  leafCount := o.leaves.length

/-- `Fixed::default()`. -/
def Fixed.default : Fixed := Fixed.of .default

def marker : Bytes := ascii "UNICITY_BRIDGE_COMPOSE_V1" ++ List.replicate 7 0
def markerV2 : Bytes := ascii "UNICITY_BRIDGE_COMPOSE_V2" ++ List.replicate 7 0

/-- The words of a result after the status. -/
def Fixed.words (f : Fixed) : Bytes :=
  f.cfg.val ++ B2.Abi.word f.nonce ++ f.amount.val ++ f.tokenId.val ++ f.salt.val ++
    f.firstPredicateHash.val ++ f.lockDigest.val ++ (List.replicate 12 0 ++ f.releaseTo.val) ++
    f.nullifier.val ++ B2.Abi.word f.leafCount

/-- Twelve words, of which a nonzero status leaves all but the first two zero. -/
def Fixed.encode (f : Fixed) (status : Nat) : Bytes :=
  marker ++ B2.Abi.word status ++ (if status ≠ 0 then List.replicate 320 0 else f.words)

structure FixedV2 where
  root : Fixed
  partTokenId : Bytes32
  partAmount : Bytes32
  depth : Nat

def FixedV2.of (o : B2.Outcome) : FixedV2 where
  root := Fixed.of o
  partTokenId := o.partTokenId
  partAmount := o.partAmount
  depth := o.depth

def FixedV2.default : FixedV2 := FixedV2.of .default

/-- The twelve words of the root under the V2 marker, then the part's three. -/
def FixedV2.encode (f : FixedV2) (status : Nat) : Bytes :=
  markerV2 ++ (f.root.encode status).drop 32 ++
    (if status = 0 then f.partTokenId.val ++ f.partAmount.val ++ B2.Abi.word f.depth
     else List.replicate 96 0)

/-! ## The meter -/

structure Meter where
  limit : Nat
  used : Nat

namespace Meter

def base : Nat := 100000
def perByte : Nat := 2
def perItem : Nat := 20
def perLeaf : Nat := 16000
def perSignature : Nat := 7200
def perEpoch : Nat := 29900
def perClaim : Nat := 2000
def perStep : Nat := 250
def perGrouping : Nat := 50

/-- `used` grows to at most the limit; a charge that does not fit changes nothing. -/
def charge (m : Meter) (gas : Nat) : Option Meter :=
  if m.used + gas < 2 ^ 64 ∧ m.used + gas ≤ m.limit then some { m with used := m.used + gas }
  else none

/-- The batch terms, with the sort-based grouping of the occurrences. -/
def batch {ε : Type} (d : B1.Dimensions) : Res ε Nat :=
  let log2 := if d.k ≤ 1 then 0 else Nat.log2 (d.k - 1) + 1
  Res.u64 (perSignature * d.q + perEpoch * d.e + perClaim * d.a + perStep * d.p +
    perGrouping * d.k * log2)

end Meter

/-- A complete V1 or V2 call. -/
structure Output where
  gas : Nat
  bytes : Bytes
  status : Status

end Ureth.Source.Bridge
