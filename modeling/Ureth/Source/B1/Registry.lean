import Ureth.Foundation.Outcome
import Ureth.Foundation.Utf8
import Ureth.Source.B1.Wire
import Ureth.Source.Crypto

/-!
# The seal registry as B1 reads it (`b1/src/registry.rs`)

Slots, epoch entries and the common words. The journal is a reader with a state
of its own that may fail at any read. Reads and key parses are counted where they
happen, next to the counters the source reports: `Work` is the record of what a
call did, `Counters` what it says it did.
-/

namespace Ureth.Source.B1
open Ureth.Foundation

/-- A 256-bit storage word or slot, big-endian. -/
abbrev Word := Bytes32

def Word.toNat (w : Word) : Nat := beNat w.val

def Word.ofNat (n : Nat) : Word := Fixed.ofNat 32 n

/-- A journal-aware source of registry words; `ρ` is its state, `ε` its failure. -/
structure RegistryRead (ρ ε : Type) where
  sload : Word → ρ → Except ε Word × ρ

/-- A registry whose words can all be read. -/
def RegistryRead.ofWords (ε : Type) (words : Word → Word) : RegistryRead Unit ε where
  sload key _ := (.ok (words key), ())

/-- The counters a call reports. -/
structure Counters where
  epochLoads : Nat
  keyParses : Nat
  quorums : Nat
  signatures : Nat
  claims : Nat
  folds : Nat
  reads : Nat
  deriving DecidableEq

def Counters.zero : Counters := ⟨0, 0, 0, 0, 0, 0, 0⟩

/-- The work a call does, counted at each operation. -/
structure Work where
  reads : Nat
  keyParses : Nat
  signatures : Nat
  folds : Nat
  deriving DecidableEq

def Work.zero : Work := ⟨0, 0, 0, 0⟩

/-- The state of one evaluation. -/
structure Session (ρ : Type) where
  registry : ρ
  counters : Counters
  work : Work

def Session.start {ρ : Type} (registry : ρ) : Session ρ := ⟨registry, .zero, .zero⟩

/-- The committee ceiling: an entry holds one to sixteen members. -/
def maxMembers : Nat := 16

/-! ## Slots -/

section Slots

variable (keccak : Bytes → Bytes32)

def fixedSlot (name : String) : Word := keccak (ascii "unicity.seal-registry/" ++ ascii name)

def derived (name : String) (words : List Nat) : Word :=
  keccak ((fixedSlot keccak name).val ++ words.flatMap fun w => (Word.ofNat w).val)

/-- Entry metadata slot `E(epoch, field)`. -/
def entrySlot (epoch field : Nat) : Word := derived keccak "b1.entry" [epoch, field]

/-- Full member slot `M(epoch, index, field)`. -/
def memberSlot (epoch index field : Nat) : Word := derived keccak "b1.member" [epoch, index, field]

end Slots

/-! ## Decoding of words -/

section Decode

variable {ε : Type}

def small (w : Word) : Res (Error ε) Nat := do
  Res.refuse (w.toNat ≥ 2 ^ 64) .registry
  return w.toNat

/-- Word `i` of an array that starts out zero. -/
def wordAt (w : List Word) (i : Nat) : Word := w.getD i (.zero 32)

/-- The metadata of a stored entry. -/
structure EntryHead where
  start : Nat
  /-- The first round after the epoch, once it is closed. -/
  endRound : Option Nat
  count : Nat
  total : Nat

def entryHead (w : List Word) : Res (Error ε) EntryHead := do
  let kind ← small (wordAt w 1)
  let start ← small (wordAt w 4)
  let endRound ← small (wordAt w 5)
  let hasEnd ← small (wordAt w 6)
  let scheme ← small (wordAt w 7)
  let count ← small (wordAt w 9)
  let total ← small (wordAt w 10)
  Res.refuse ((wordAt w 0).toNat ≠ 1 ∨ ¬ (1 ≤ kind ∧ kind ≤ 3) ∨ wordAt w 2 = .zero 32 ∨
    wordAt w 8 = .zero 32 ∨ ¬ (kind = 1 ↔ wordAt w 3 = .zero 32) ∨ ¬ (scheme = 1 ∨ scheme = 2) ∨
    ¬ (1 ≤ count ∧ count ≤ maxMembers) ∨ hasEnd > 1 ∨ (hasEnd = 0 ∧ endRound ≠ 0) ∨
    (hasEnd = 1 ∧ endRound ≤ start)) .registry
  return { start, endRound := if hasEnd = 1 then some endRound else none, count, total }

/-- The padded signer name of a member's words. -/
def memberIdBytes (m : List Word) : Bytes :=
  (wordAt m 1).val ++ (wordAt m 2).val ++ (wordAt m 3).val ++ (wordAt m 4).val

def memberId (m : List Word) : Res (Error ε) Bytes := do
  let len ← small (wordAt m 0)
  Res.refuse (¬ (1 ≤ len ∧ len ≤ 128)) .registry
  Res.refuse (((memberIdBytes m).drop len).any (· ≠ 0) = true ∨
    ((wordAt m 6).val.drop 1).any (· ≠ 0) = true) .registry
  Res.refuse (validUtf8 ((memberIdBytes m).take len) = false) .registry
  return (memberIdBytes m).take len

/-- The 33 key bytes of a member's words. -/
def memberKeyBytes (m : List Word) : Bytes := (wordAt m 5).val ++ (wordAt m 6).val.take 1

end Decode

structure Member (S : Secp256k1) where
  id : Bytes
  key : S.PublicKey
  weight : Nat

structure Entry (S : Secp256k1) where
  start : Nat
  endRound : Option Nat
  total : Nat
  members : List (Member S)

/-- The deployment pins: expected `genesisCommitment` and `b1.profileHash`. -/
structure Pins where
  genesisCommitment : Word
  profileHash : Word

/-- The common words of a batch call that its evaluation uses. -/
structure CommonV2 where
  phase : Nat
  network : Nat
  genesis : Nat
  ready : Bool
  origin : Nat
  round : Nat

def commonNames : List String :=
  ["genesisCommitment", "phase", "b1.initialized", "b1.network", "b1.profileHash", "b1.format",
   "b1.genesisEpoch", "b1.importedTipEpoch", "b1.originReady", "clock.rootRound",
   "origin.rootEpoch"]

def decodeCommon {ε : Type} (pins : Pins) (w : List Word) : Res (Error ε) CommonV2 := do
  let phase ← small (wordAt w 1)
  let network ← small (wordAt w 3)
  let genesis ← small (wordAt w 6)
  let tip ← small (wordAt w 7)
  let ready ← small (wordAt w 8)
  let round ← small (wordAt w 9)
  let origin ← small (wordAt w 10)
  Res.refuse (wordAt w 0 = .zero 32 ∨ wordAt w 0 ≠ pins.genesisCommitment ∨
    wordAt w 4 = .zero 32 ∨ wordAt w 4 ≠ pins.profileHash ∨ (wordAt w 2).toNat ≠ 1 ∨
    (wordAt w 5).toNat ≠ 2 ∨ ¬ (phase = 1 ∨ phase = 2) ∨ ¬ (1 ≤ network ∧ network ≤ 65535) ∨
    genesis > tip ∨ ready > 1) .registry
  Res.refuse ((ready = 0 ∧ (origin ≠ 0 ∨ round ≠ 0)) ∨ (ready = 1 ∧ origin ≠ tip)) .registry
  return { phase, network, genesis, ready := decide (ready = 1), origin, round }

/-! ## Reads -/

section Reads

variable {ρ ε : Type} (R : RegistryRead ρ ε) (keccak : Bytes → Bytes32) (S : Secp256k1)

def read (k : Word) : Run (Session ρ) (Error ε) Word := fun s =>
  let (r, registry) := R.sload k s.registry
  let s := { s with registry, work := { s.work with reads := s.work.reads + 1 } }
  match r with
  | .ok w => (.ok w, s)
  | .error e => (Res.fail (.host e), s)

def readAll : List Word → Run (Session ρ) (Error ε) (List Word)
  | [] => pure []
  | k :: rest => do
    let w ← read R k
    let ws ← readAll rest
    return w :: ws

/-- `PublicKey::from_slice` of a member's key. -/
def parseKey (b : Bytes) : Run (Session ρ) (Error ε) S.PublicKey := do
  Run.modify fun s => { s with work := { s.work with keyParses := s.work.keyParses + 1 } }
  Run.lift (Res.okOr .registry (S.fromSlice b))

/-- One member's words, checked against the members before it. -/
def addMember (m : List Word) (members : List (Member S)) (sum : Nat) :
    Run (Session ρ) (Error ε) (List (Member S) × Nat) := do
  let id ← Run.lift (memberId m)
  let key ← parseKey S (memberKeyBytes m)
  let weight ← Run.lift (small (wordAt m 7))
  Run.refuse (weight = 0 ∨ members.getLast?.any (fun prev => ¬ prev.id < id) = true ∨
    members.any (fun prev => prev.key = key) = true) .registry
  Run.refuse (sum + weight ≥ 2 ^ 64) .registry
  return (members ++ [Member.mk id key weight], sum + weight)

/-- The members from index `j` on. -/
def readMembers (epoch : Nat) : Nat → Nat → List (Member S) → Nat →
    Run (Session ρ) (Error ε) (List (Member S) × Nat)
  | 0, _, members, sum => pure (members, sum)
  | n + 1, j, members, sum => do
    let m ← readAll R ((List.range 8).map (memberSlot keccak epoch j))
    let (members, sum) ← addMember S m members sum
    readMembers epoch n (j + 1) members sum

/-- The members of a decoded entry head. -/
def entryMembers (epoch : Nat) (head : EntryHead) : Run (Session ρ) (Error ε) (Option (Entry S)) := do
  let (members, sum) ← readMembers R keccak S epoch head.count 0 [] 0
  Run.refuse (sum ≠ head.total) .registry
  return some { start := head.start, endRound := head.endRound, total := head.total, members }

/-- An epoch entry; absent if all its metadata words are zero. -/
def entry (epoch : Nat) : Run (Session ρ) (Error ε) (Option (Entry S)) := do
  let w ← readAll R ((List.range 11).map (entrySlot keccak epoch))
  if wordAt w 0 = .zero 32 then do
    Run.refuse (w.any (fun v => v ≠ .zero 32) = true) .registry
    return none
  else do
    let head ← Run.lift (entryHead w)
    entryMembers R keccak S epoch head

/-- Read and validate the common words. -/
def commonV2 (pins : Pins) : Run (Session ρ) (Error ε) CommonV2 := do
  let w ← readAll R (commonNames.map (fixedSlot keccak))
  Run.lift (decodeCommon pins w)

end Reads

end Ureth.Source.B1
