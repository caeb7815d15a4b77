import Ureth.Foundation.Keyed
import Ureth.Source.Store.StoreSpec

/-!
# The store of parent-accounting tokens

The bounded store of completed-parent tokens and its operations. Each section under the
store's lock, and each transaction of the accounting sidecar, is one function; an operation
is the sequence of its sections, so that the same sections serve the sequential operations
and the interleaved system.

Pin counts are naturals. Releasing a pin that is not held would underflow and is a panic
here.
-/

namespace Ureth.Source.Payload
open Ureth.Foundation Ureth.Source.Execution Ureth.Source.Store

structure ParentAccountingEntry where
  hash : Bytes32
  number : UInt64
  token : CompletedParent
  identity : Option (UInt64 × Bytes32)
  pins : Nat
  admitted : Bool
  deriving DecidableEq

structure ParentAccountingInner where
  tokens : List ParentAccountingEntry
  capacity : Nat
  /-- The parent last admitted or last resolved, which is never evicted. -/
  protectedHash : Option Bytes32
  deriving DecidableEq

/-- The exact chain identity a token is recorded under. -/
abbrev Identity := UInt64 × Bytes32

namespace ParentAccountingInner

/-- An empty store. -/
def withCapacity (capacity : Nat) : ParentAccountingInner := ⟨[], capacity, none⟩

def find (inner : ParentAccountingInner) (hash : Bytes32) : Option ParentAccountingEntry :=
  findKey ParentAccountingEntry.hash hash inner.tokens

def update (inner : ParentAccountingInner) (hash : Bytes32)
    (f : ParentAccountingEntry → ParentAccountingEntry) : ParentAccountingInner :=
  { inner with tokens := updateKey ParentAccountingEntry.hash hash f inner.tokens }

def Evictable (inner : ParentAccountingInner) (entry : ParentAccountingEntry) : Prop :=
  entry.pins = 0 ∧ inner.protectedHash ≠ some entry.hash

instance (inner : ParentAccountingInner) : DecidablePred inner.Evictable :=
  fun _ => inferInstanceAs (Decidable (_ ∧ _))

/-- The scan for the lowest evictable number: its index and number so far. -/
def scanLowest (inner : ParentAccountingInner) :
    List ParentAccountingEntry → Nat → Option (Nat × UInt64) → Option (Nat × UInt64)
  | [], _, lowest => lowest
  | entry :: rest, index, lowest =>
    scanLowest inner rest (index + 1)
      (if inner.Evictable entry ∧ ∀ low ∈ lowest, entry.number < low.2 then some (index, entry.number)
       else lowest)

/-- The store without the lowest evictable entry; nothing when every entry is held. -/
def evictLowest (inner : ParentAccountingInner) : Option ParentAccountingInner :=
  (inner.scanLowest inner.tokens 0 none).map fun low =>
    { inner with tokens := inner.tokens.eraseIdx low.1 }

/-- The loop that evicts down to the capacity; every round but the last removes an entry. -/
def evictToCapacity : Nat → ParentAccountingInner → ParentAccountingInner
  | 0, inner => inner
  | fuel + 1, inner =>
    if inner.tokens.length > inner.capacity then
      match inner.evictLowest with
      | some inner' => evictToCapacity fuel inner'
      | none => inner
    else inner

/-- An entry published or restored again. -/
def refresh (number : UInt64) (token : CompletedParent) (identity : Option Identity)
    (admitted : Bool) (entry : ParentAccountingEntry) : ParentAccountingEntry :=
  if entry.pins > 0 then entry
  else { entry with token := token
                    number := max entry.number number
                    identity := identity
                    admitted := entry.admitted || admitted }

def insertInner (inner : ParentAccountingInner) (hash : Bytes32) (number : UInt64)
    (token : CompletedParent) (identity : Option Identity) (admitted : Bool) :
    ParentAccountingInner :=
  match inner.find hash with
  | some _ => inner.update hash (refresh number token identity admitted)
  | none =>
    let room := if inner.tokens.length ≥ inner.capacity then (inner.evictLowest).getD inner else inner
    { room with tokens := room.tokens ++ [⟨hash, number, token, identity, 0, admitted⟩] }

def pin (inner : ParentAccountingInner) (hash : Bytes32) : Option ParentAccountingInner :=
  (inner.find hash).map fun _ => inner.update hash fun entry => { entry with pins := entry.pins + 1 }

def release {ε : Type} (inner : ParentAccountingInner) (hash : Bytes32) :
    Res ε ParentAccountingInner :=
  match inner.find hash with
  | none => .ok inner
  | some entry => do
    let pins ← Res.sub entry.pins 1
    return inner.update hash fun entry => { entry with pins := pins }

/-- The release of one pin, and the eviction of what it kept over the capacity. -/
def unpin {ε : Type} (inner : ParentAccountingInner) (hash : Bytes32) :
    Res ε ParentAccountingInner := do
  let released ← inner.release hash
  return evictToCapacity released.tokens.length released

/-- Whether a token was there to admit, and the store after it. -/
def admitToken (inner : ParentAccountingInner) (hash : Bytes32) : Bool × ParentAccountingInner :=
  match inner.find hash with
  | none => (false, inner)
  | some _ =>
    (true, { inner.update hash fun entry => { entry with admitted := true } with
             protectedHash := some hash })

end ParentAccountingInner

/-- A lease: the hash it pins, the token and the next fee. -/
structure ParentAccountingLease where
  hash : Bytes32
  token : CompletedParent
  nextFee : UInt64
  deriving DecidableEq

structure ParentAccountingUnavailable where
  hash : Bytes32
  deriving DecidableEq

structure UnicityParentAccountings where
  inner : ParentAccountingInner
  durable : Option CompanionStore
  durabilityRequired : Bool

abbrev Tokens (ε α : Type) := Run UnicityParentAccountings ε α

variable (hashSlow : Header → Bytes32)

/-! ## Sections -/

/-- The fee check of a token against a header. -/
def FeeHolds (token : CompletedParent) (header : SealedHeader) (profile : BlockProfile) : Prop :=
  (token.checkedNextBaseFee hashSlow header profile).value?.isSome

instance (token : CompletedParent) (header : SealedHeader) (profile : BlockProfile) :
    Decidable (FeeHolds hashSlow token header profile) :=
  inferInstanceAs (Decidable (_ = true))

/-- What a restore finds under the lock: no entry, an entry that does not match, or its token. -/
def cachedToken (inner : ParentAccountingInner) (header : SealedHeader) (identity : Identity)
    (profile : BlockProfile) : Res StoreError (Option CompletedParent) :=
  match inner.find header.hash with
  | none => .ok none
  | some entry => do
    Res.refuse (entry.identity ≠ some identity ∨ ¬ FeeHolds hashSlow entry.token header profile)
      (.corrupt "cached accounting mismatch")
    return some entry.token

/-- A record of the sidecar, checked against the chain identity, the header and the profile. -/
def checkRecord (record : StoredAccounting) (header : SealedHeader) (identity : Identity)
    (profile : BlockProfile) : Res StoreError CompletedParent := do
  Res.refuse (record.chainId ≠ identity.1 ∨ record.genesisHash ≠ identity.2 ∨
    record.blockNumber ≠ header.header.number) (.corrupt "accounting chain identity")
  let token ← (CompletedParent.fromLocalStorage hashSlow record.accounting header profile).mapErr
    fun _ => .corrupt "accounting/header mismatch"
  let _ ← (token.checkedNextBaseFee hashSlow header profile).mapErr
    fun _ => .corrupt "accounting fee mismatch"
  return token

/-- What a restore reads from the sidecar, without the lock. -/
def loadToken (durable : Option CompanionStore) (durabilityRequired : Bool) (header : SealedHeader)
    (identity : Identity) (profile : BlockProfile) : Res StoreError (Option CompletedParent) :=
  match durable with
  | none => do
    Res.refuse (durabilityRequired = true) (.corrupt "accounting store unavailable")
    return none
  | some store => do
    match ← store.getAccounting header.hash with
    | none => return none
    | some record => do
      let token ← checkRecord hashSlow record header identity profile
      return some token

/-- The checks and the durable write a publication starts with. -/
def recordToken (hash : Bytes32) (number : UInt64) (identity : Identity) (token : CompletedParent) :
    Tokens StoreError Unit := fun tokens =>
  if token.forLocalStorage.blockHash ≠ hash then (Res.fail (.corrupt "token/hash mismatch"), tokens)
  else
    match tokens.durable with
    | some store =>
      let written := CompanionStore.putAccounting
        ⟨identity.1, identity.2, number, token.forLocalStorage⟩ store
      (written.1, { tokens with durable := some written.2 })
    | none =>
      (Res.refuse (tokens.durabilityRequired = true) (.corrupt "accounting store unavailable"), tokens)

/-- The final section of a resolution: the checks, the pin and the protection. -/
def leaseToken (inner : ParentAccountingInner) (parent : SealedHeader) (identity : Identity)
    (profile : BlockProfile) :
    Res ParentAccountingUnavailable (ParentAccountingLease × ParentAccountingInner) := do
  let entry ← Res.okOr ⟨parent.hash⟩ (inner.find parent.hash)
  Res.refuse (entry.admitted = false ∨ entry.identity ≠ some identity) ⟨parent.hash⟩
  let nextFee ← (entry.token.checkedNextBaseFee hashSlow parent profile).mapErr fun _ => ⟨parent.hash⟩
  let pinned := inner.update parent.hash fun entry => { entry with pins := entry.pins + 1 }
  return (⟨parent.hash, entry.token, nextFee⟩, { pinned with protectedHash := some parent.hash })

/-! ## Operations -/

namespace UnicityParentAccountings

def insertInner (hash : Bytes32) (number : UInt64) (token : CompletedParent)
    (identity : Option Identity) (admitted : Bool) (tokens : UnicityParentAccountings) :
    UnicityParentAccountings :=
  { tokens with inner := tokens.inner.insertInner hash number token identity admitted }

def publish (hash : Bytes32) (number : UInt64) (identity : Identity) (token : CompletedParent) :
    Tokens StoreError Unit := do
  recordToken hash number identity token
  Run.modify (insertInner hash number token (some identity) true)

/-- The rest of a restore after the cache had nothing. -/
def restoreFromDisk (header : SealedHeader) (identity : Identity) (profile : BlockProfile) :
    Tokens StoreError (Option CompletedParent) := fun tokens =>
  match loadToken hashSlow tokens.durable tokens.durabilityRequired header identity profile with
  | .ok (some token) =>
    (.ok (some token), tokens.insertInner header.hash header.header.number token (some identity) false)
  | result => (result, tokens)

def restoreExact (header : SealedHeader) (identity : Identity) (profile : BlockProfile) :
    Tokens StoreError (Option CompletedParent) := fun tokens =>
  match cachedToken hashSlow tokens.inner header identity profile with
  | .ok none => restoreFromDisk hashSlow header identity profile tokens
  | result => (result, tokens)

def pin (hash : Bytes32) (tokens : UnicityParentAccountings) : Option UnicityParentAccountings :=
  (tokens.inner.pin hash).map fun inner => { tokens with inner := inner }

def unpin {ε : Type} (hash : Bytes32) : Tokens ε Unit := fun tokens =>
  match (tokens.inner.unpin hash : Res ε ParentAccountingInner) with
  | .ok inner => (.ok (), { tokens with inner := inner })
  | .error e => (.error e, tokens)

def admitToken (hash : Bytes32) (tokens : UnicityParentAccountings) : Bool × UnicityParentAccountings :=
  ((tokens.inner.admitToken hash).1, { tokens with inner := (tokens.inner.admitToken hash).2 })

/-- The last section of a resolution on the whole store. -/
def lease (parent : SealedHeader) (identity : Identity) (profile : BlockProfile) :
    Tokens ParentAccountingUnavailable ParentAccountingLease := fun tokens =>
  match leaseToken hashSlow tokens.inner parent identity profile with
  | .ok (lease, inner) => (.ok lease, { tokens with inner := inner })
  | .error e => (.error e, tokens)

def resolve (parent : SealedHeader) (identity : Identity) (profile : BlockProfile) :
    Tokens ParentAccountingUnavailable ParentAccountingLease := fun tokens =>
  match tokens.inner.find parent.hash with
  | some _ => lease hashSlow parent identity profile tokens
  | none =>
    (do
      let _ ← Run.mapErr (fun _ => ParentAccountingUnavailable.mk parent.hash)
        (restoreExact hashSlow parent identity profile)
      lease hashSlow parent identity profile) tokens

end UnicityParentAccountings

end Ureth.Source.Payload
