import Ureth.Foundation.FirstBy
import Ureth.Source.B1.Certificate
import Ureth.Source.B1.Registry

/-!
# `CERT_BATCH_V2` (`b1/src/batch.rs`)

The request is scanned and grouped completely, and the whole charge is compared
with the forwarded gas, before any registry read, point parse or signature check.
Hash sets over exact bytes are lists of keys; a pass that skips what a set
already holds is `firstBy`. `widen` only changes the type of an error that cannot
occur and has no counterpart here.
-/

namespace Ureth.Source.B1
open Ureth.Foundation
open Cbor (Item usizeMax consumed)

def maxBytes : Nat := 262144
def maxClaims : Nat := 16
def maxSignatures : Nat := 256
def maxSealSignatures : Nat := 16
def maxRawPaths : Nat := 4608

/-- The aggregate bounds of one scan. -/
structure Limits where
  bytes : Nat
  claims : Nat
  signatures : Nat
  rawPaths : Nat
  /-- Whether the item budget is per certificate instead of shared by the call. -/
  perUcItems : Bool

def Limits.standard : Limits where
  bytes := maxBytes
  claims := maxClaims
  signatures := maxSignatures
  rawPaths := maxRawPaths
  perUcItems := false

def Limits.composed : Limits where
  bytes := usizeMax
  claims := 65535
  signatures := usizeMax
  rawPaths := usizeMax
  perUcItems := true

def readGas : Nat := 100
def epochWords : Nat := 11 + 8 * maxMembers
def commonWords : Nat := 11

/-- The allowance for scanning and grouping. -/
def scanGas {ε : Type} (bytes claims : Nat) : Res ε Nat := do
  let others ← Res.sub claims 1
  Res.u64 (60000 + 16 * bytes + 500 * claims * others)

/-- The whole charge of a structurally accepted request. -/
def batchGas {ε : Type} (bytes k e q a p : Nat) : Res ε Nat := do
  let scan ← scanGas bytes k
  Res.u64 (scan + readGas * commonWords + (1000 * maxMembers + readGas * epochWords) * e + 7200 * q +
    2000 * a + 250 * p)

/-- The request dimensions: bytes, occurrences, distinct epochs, distinct seals,
signatures over the distinct seals, distinct claims, and siblings plus steps over
the distinct claims. -/
structure Dimensions where
  c : Nat
  k : Nat
  e : Nat
  s : Nat
  q : Nat
  a : Nat
  p : Nat
  deriving DecidableEq, Repr

def Dimensions.gas {ε : Type} (d : Dimensions) : Res ε Nat := batchGas d.c d.k d.e d.q d.a d.p

/-- One claim occurrence with its complete packed bytes. -/
structure Occurrence where
  claim : Claim
  packed : Bytes
  paths : Nat
  sigs : Nat

def Claim.epoch (c : Claim) : Nat := c.sealFields[3].arg

/-- What identifies the certified state of one shard under one seal. -/
def Claim.slot (c : Claim) : Bytes × Nat × Bytes := (c.sealItem.raw, c.partition, c.shard)

def Occurrence.sealRaw (o : Occurrence) : Bytes := o.claim.sealItem.raw

structure Scanned where
  occurrences : List Occurrence
  dims : Dimensions

/-- The first occurrence of each distinct packed claim, in request order. -/
def distinct (occurrences : List Occurrence) : List Occurrence := firstBy Occurrence.packed occurrences

/-! ## The scan -/

def scanHeader (input : Bytes) (lim : Limits) : Res Malformed (Nat × Bytes) := do
  let (version, data) ← uint 1 input
  Res.refuse (version ≠ 2) .version
  let (flags, data) ← uint 1 data
  Res.refuse (flags ≠ 0) .flags
  let (k, data) ← uint 2 data
  Res.refuse (k = 0 ∨ k > lim.claims) .count
  return (k, data)

/-- The shard's own depth fixes the sibling count. -/
def checkDepth (c : Claim) : Res Malformed Unit := do
  let depth ← shardDepth c.shardCert[1].data
  let n ← c.shardCert[2].collection 4 256
  Res.refuse (n ≠ depth) .limit

/-- The claim occurrences of a request and the bytes after them. -/
def scanClaims (lim : Limits) : Nat → Bytes → Nat → Nat → Res Malformed (List Occurrence × Bytes)
  | 0, data, _, _ => .ok ([], data)
  | k + 1, before, tokens, rawPaths => do
    let (p, data, tokens) ← parseClaim before (if lim.perUcItems then 0 else tokens)
    let packed ← consumed before data
    let rawPaths ← Res.u64 (rawPaths + p.paths)
    Res.refuse (rawPaths > lim.rawPaths ∨ p.sigs > maxSealSignatures) .limit
    checkDepth p.claim
    let (more, rest) ← scanClaims lim k data tokens rawPaths
    return (⟨p.claim, packed, p.paths, p.sigs⟩ :: more, rest)

/-- The grouping: dimensions over exact byte identities. -/
def group (lim : Limits) (c k : Nat) (occurrences : List Occurrence) : Res Malformed Dimensions := do
  let claims := distinct occurrences
  let seals := firstBy Occurrence.sealRaw claims
  let p ← Res.u64 (claims.map Occurrence.paths).sum
  let q ← Res.u64 (seals.map Occurrence.sigs).sum
  Res.refuse (q > lim.signatures) .limit
  return { c, k, e := (firstBy (·.claim.epoch) claims).length, s := seals.length, q,
           a := claims.length, p }

def scan {ε : Type} (input : Bytes) (gas : Nat) (lim : Limits) : Res (Error ε) Scanned := do
  let (k, data) ← (scanHeader input lim).mapErr .malformed
  let need ← scanGas input.length k
  Res.refuse (gas < need) .outOfGas
  let (occurrences, rest) ← (scanClaims lim k data 0 0).mapErr .malformed
  Res.refuse (rest ≠ []) (.malformed .trailing)
  let dims ← (group lim input.length k occurrences).mapErr .malformed
  return { occurrences, dims }

/-- Scan and group without touching any state; an error other than a malformed
request is unreachable. -/
def dimensionsWith (input : Bytes) (lim : Limits) : Res Malformed Dimensions := do
  Res.refuse (input.length > lim.bytes) .limit
  match (scan input usizeMax lim : Res (Error Empty) Scanned) with
  | .ok s => .ok s.dims
  | .error (.error (.malformed m)) => Res.fail m
  | .error _ => Res.panic

/-! ## The evaluation -/

section Evaluate

variable {ρ ε : Type} (R : RegistryRead ρ ε) (keccak : Bytes → Bytes32) (H : Bytes → Bytes32)
  (S : Secp256k1)

/-- Whether `sig` is a canonical recoverable signature of `message` by `key`. -/
def recoversTo (message : Bytes32) (sig : Bytes) (key : S.PublicKey) : Bool :=
  if sig.length ≠ 65 then false
  else match sig[64]?.bind recoveryId with
    | none => false
    | some id =>
      match S.fromCompact (sig.take 64) id with
      | none => false
      | some recoverable => !S.highS recoverable && decide (S.recover message recoverable = some key)

/-- The weight of the good signatures of a seal, and whether one is empty. -/
def countSignatures (message : Bytes32) (members : List (Member S)) :
    List Item → Nat → Bool → Run (Session ρ) (Error ε) (Nat × Bool)
  | [], good, empty => pure (good, empty)
  | [_], _, _ => Run.lift Res.panic
  | id :: sig :: rest, good, empty => do
    Run.modify fun s => { s with
      counters := { s.counters with signatures := s.counters.signatures + 1 }
      work := { s.work with signatures := s.work.signatures + 1 } }
    if sig.data = [] ∨ id.data = [] then countSignatures message members rest good true
    else match members.find? (fun m => m.id = id.data) with
      | none => countSignatures message members rest good empty
      | some member =>
        if recoversTo S message sig.data member.key then do
          let good ← Run.lift (Res.u64 (good + member.weight))
          countSignatures message members rest good empty
        else countSignatures message members rest good empty

/-- The message a seal's signatures sign: the seal with a null signature map. -/
def sealMessage (c : Claim) : Res (Error ε) Bytes32 := do
  let n ← Res.sub c.sealItem.raw.length c.sealFields[7].raw.length
  return H (c.sealItem.raw.take n ++ [0xf6])

/-- More than two thirds of the total weight. -/
def quorumReached (good total : Nat) : Res (Error ε) Bool := do
  let less ← Res.sub total 1
  let need ← Res.sub total (less / 3)
  return decide (good ≥ need)

/-- The weighted quorum of one seal. -/
def quorum (c : Claim) (e : Entry S) : Run (Session ρ) (Error ε) Bool :=
  if c.sealFields[7].null ∨ c.sealFields[7].arg = 0 then pure false
  else do
    let message ← Run.lift (sealMessage H c)
    let pairs ← Run.lift c.sealFields[7].children
    let (good, empty) ← countSignatures S message e.members pairs 0 false
    if empty then return false
    else Run.lift (quorumReached good e.total)

/-- A stored entry that admission cannot have left behind. -/
def impossibleEntry (common : CommonV2) (epoch : Nat) (e : Entry S) : Prop :=
  if epoch < common.origin then e.endRound.all (fun r => r > common.round) ∨ e.start > common.round
  else e.endRound.isSome ∨ e.start > common.round

instance (common : CommonV2) (epoch : Nat) (e : Entry S) :
    Decidable (impossibleEntry S common epoch e) :=
  inferInstanceAs (Decidable (ite _ _ _))

/-- What the source reports after it loaded an entry. -/
def countLoad (members : Nat) (s : Session ρ) : Session ρ :=
  { s with counters := { s.counters with
      epochLoads := s.counters.epochLoads + 1
      keyParses := s.counters.keyParses + members
      reads := s.counters.reads + (11 + 8 * members) } }

/-- Load and validate every epoch inside the registry's range. -/
def loadEpochs (common : CommonV2) : List Nat → Run (Session ρ) (Error ε) (List (Nat × Entry S))
  | [] => pure []
  | e :: rest =>
    if e < common.genesis ∨ e > common.origin then loadEpochs common rest
    else do
      let found ← entry R keccak S e
      let stored ← Run.lift (Res.okOr .registry found)
      Run.modify (countLoad stored.members.length)
      Run.refuse (impossibleEntry S common e stored) .registry
      let more ← loadEpochs common rest
      return (e, stored) :: more

/-- Every distinct claim is folded, whatever the others do. -/
def foldAll : List Occurrence → Run (Session ρ) (Error ε) Bool
  | [] => pure true
  | o :: rest => do
    Run.modify fun s => { s with
      counters := { s.counters with claims := s.counters.claims + 1, folds := s.counters.folds + 1 }
      work := { s.work with folds := s.work.folds + 1 } }
    let ok ← Run.lift (folds H o.claim)
    let more ← foldAll rest
    return ok && more

/-- Whether a seal's round is one of its entry's, at or before the registry's clock. -/
def sealInRange (common : CommonV2) (c : Claim) (e : Entry S) : Bool :=
  !(c.sealFields[1].arg ≠ common.network || c.sealFields[2].arg < e.start ||
    e.endRound.any (fun r => c.sealFields[2].arg ≥ r) || c.sealFields[2].arg > common.round)

/-- The verdict of one seal. -/
def sealVerdict (common : CommonV2) (loaded : List (Nat × Entry S)) (c : Claim) :
    Run (Session ρ) (Error ε) Bool :=
  match loaded.lookup c.epoch with
  | none => pure false
  | some e =>
    if sealInRange S common c e then do
      Run.modify fun s => { s with counters := { s.counters with quorums := s.counters.quorums + 1 } }
      quorum H S c e
    else pure false

/-- Distinct seals, each evaluated once. -/
def sealAll (common : CommonV2) (loaded : List (Nat × Entry S)) :
    List Occurrence → Run (Session ρ) (Error ε) Bool
  | [] => pure true
  | o :: rest => do
    let ok ← sealVerdict H S common loaded o.claim
    let more ← sealAll common loaded rest
    return ok && more

/-- Two different claims for one shard under one seal can never both hold. -/
def slotsDiffer (claims : List Occurrence) : Bool := decide (claims.map (·.claim.slot)).Nodup

/-- The relation once the common words are usable. -/
def evaluateClaims (common : CommonV2) (claims : List Occurrence) : Run (Session ρ) (Error ε) Bool := do
  let epochs := (firstBy (·.claim.epoch) claims).map (·.claim.epoch)
  let loaded ← loadEpochs R keccak S common epochs
  let folded ← foldAll H claims
  let sealed ← sealAll H S common loaded (firstBy Occurrence.sealRaw claims)
  return folded && slotsDiffer claims && sealed

def evaluate (s : Scanned) (pins : Pins) : Run (Session ρ) (Error ε) Bool := do
  let common ← commonV2 R keccak pins
  Run.modify fun st => { st with counters := { st.counters with reads := st.counters.reads + 11 } }
  if common.phase = 1 ∨ common.ready = false then return false
  else evaluateClaims R keccak H S common (distinct s.occurrences)

/-- The part of a call that reads no state: the scanned request and its charge. -/
def prepare (input : Bytes) (gas : Nat) (lim : Limits) : Res (Error ε) (Scanned × Nat) := do
  Res.refuse (input.length > lim.bytes) (.malformed .limit)
  -- `60_000.saturating_add(16.saturating_mul(len))`
  Res.refuse (gas < min usizeMax (60000 + min usizeMax (16 * input.length))) .outOfGas
  let scanned ← scan input gas lim
  let charge ← scanned.dims.gas
  Res.refuse (gas < charge) .outOfGas
  return (scanned, charge)

/-- `run` under explicit aggregate bounds. -/
def runWith (input : Bytes) (gas : Nat) (pins : Pins) (lim : Limits) :
    Run (Session ρ) (Error ε) Output := do
  Run.modify fun st => { st with counters := .zero }
  let (scanned, charge) ← Run.lift (prepare input gas lim)
  let valid ← evaluate R keccak H S scanned pins
  return Output.versioned charge 2 valid

/-- One `CERT_BATCH_V2` call. -/
def run (input : Bytes) (gas : Nat) (pins : Pins) : Run (Session ρ) (Error ε) Output :=
  runWith R keccak H S input gas pins .standard

end Evaluate

end Ureth.Source.B1
