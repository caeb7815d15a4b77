import Ureth.Foundation.OrderedTable
import Ureth.Source.Store.Records

/-!
# The companion store

The five keyspaces of the store and its operations. MDBX is taken as documented:
an ordered map per keyspace, a cursor that meets the keys in order, and
transactions that take effect as a whole or, on an early return, not at all.
-/

namespace Ureth.Source.Store
open Ureth.Foundation Ureth.Source.Execution

structure CompanionStore where
  companions : Table Bytes ByteVec
  byNumber : Table Bytes Unit
  accounting : Table Bytes Bytes
  accountingByNumber : Table Bytes Unit
  metadata : Table Bytes Bytes

/-- A store just created. -/
def CompanionStore.fresh : CompanionStore := ⟨.empty, .empty, .empty, .empty, .empty⟩

inductive Lookup where
  | found (companion : SealCompanion)
  | unavailable (horizon : UInt64)
  | unknown
  deriving DecidableEq

def numberLen : Nat := 8
def indexKeyLen : Nat := 8 + 32
def horizonKey : Bytes := ascii "horizon"
def evictionCursorKey : Bytes := ascii "eviction_cursor"

def indexKey (number : UInt64) (hash : Bytes32) : Bytes := be64 number ++ hash.val

/-- The number at the front of an index key. -/
def keyNumber (key : Bytes) : UInt64 := fromBe64 (key.take numberLen)

abbrev Txn (α : Type) := Run CompanionStore StoreError α

/-- A read-write transaction: its writes are kept only if it commits. -/
def transaction {α : Type} (body : Txn α) : Txn α := fun s =>
  match body s with
  | (.ok a, s') => (.ok a, s')
  | (.error e, _) => (.error e, s)

def storedNumber (value : Bytes) : Res StoreError UInt64 := do
  Res.refuse (value.length < numberLen) (.corrupt "stored value has no block number")
  return fromBe64 (value.take numberLen)

def storedRecord (value : ByteVec) : Res StoreError ByteVec := do
  Res.refuse (value.val.length < numberLen) (.corrupt "stored value has no record")
  return ⟨value.val.drop numberLen, lt_of_le_of_lt (by simp) value.property⟩

def readMetaNumber (key : Bytes) (s : CompanionStore) : Res StoreError (Option UInt64) :=
  match s.metadata.find key with
  | none => .ok none
  | some bytes => do
    Res.refuse (bytes.length ≠ numberLen) (.corrupt "metadata number is not eight bytes")
    return some (fromBe64 bytes)

def putMetaNumber (key : Bytes) (number : UInt64) : Txn Unit :=
  Run.modify fun s => { s with metadata := s.metadata.insert key (be64 number) }

/-- A read of the current state. -/
def query {α : Type} (f : CompanionStore → Res StoreError α) : Txn α := fun s => (f s, s)

namespace CompanionStore

/-- A hash has one accounting. -/
def refuseConflict (record : StoredAccounting) : Txn Unit := do
  match ← query fun s => .ok (s.accounting.find record.accounting.blockHash.val) with
  | some old =>
    let old ← Run.lift (decodeAccounting old)
    Run.refuse (old ≠ record) (.corrupt "conflicting accounting for block hash")
  | none => pure ()

def putAccounting (record : StoredAccounting) : Txn Unit :=
  let hash := record.accounting.blockHash
  transaction do
    refuseConflict record
    Run.modify fun s =>
      { s with accounting := s.accounting.insert hash.val (encodeAccounting record)
               accountingByNumber :=
                 s.accountingByNumber.insert (indexKey record.blockNumber hash) () }

def getAccounting (hash : Bytes32) (s : CompanionStore) : Res StoreError (Option StoredAccounting) :=
  match s.accounting.find hash.val with
  | none => .ok none
  | some bytes => do
    let record ← decodeAccounting bytes
    Res.refuse (record.accounting.blockHash ≠ hash) (.corrupt "accounting key/hash mismatch")
    return some record

/-- The walk of an index from its first key: each row below `number` is dropped from the
index and from the records. -/
def pruneRows (drop : Bytes → CompanionStore → CompanionStore) (reason : String) (number : UInt64) :
    List (Bytes × Unit) → Txn Unit
  | [] => pure ()
  | (key, _) :: rest => do
    Run.refuse (key.length ≠ indexKeyLen) (.corrupt reason)
    if keyNumber key ≥ number then pure ()
    else do
      Run.modify (drop key)
      pruneRows drop reason number rest

def dropAccounting (key : Bytes) (s : CompanionStore) : CompanionStore :=
  { s with accounting := s.accounting.erase (key.drop numberLen)
           accountingByNumber := s.accountingByNumber.erase key }

def pruneAccountingBelow (number : UInt64) : Txn Unit :=
  transaction do
    let rows ← query fun s => .ok s.accountingByNumber.rows
    pruneRows dropAccounting "accounting index key length" number rows

/-- The index row of a hash stored before under another number. -/
def dropStaleIndex (hash : Bytes32) (number : UInt64) : Txn Unit := do
  match ← query fun s => .ok (s.companions.find hash.val) with
  | some existing =>
    let oldNumber ← Run.lift (storedNumber existing.val)
    Run.modify fun s =>
      if oldNumber ≠ number then { s with byNumber := s.byNumber.erase (indexKey oldNumber hash) }
      else s
  | none => pure ()

def put (hash : Bytes32) (number : UInt64) (companion : SealCompanion) : Txn Unit := do
  let record ← Run.lift (encode companion)
  let value ← Run.lift (toVec (be64 number ++ record.val))
  transaction do
    dropStaleIndex hash number
    Run.modify fun s =>
      { s with companions := s.companions.insert hash.val value
               byNumber := s.byNumber.insert (indexKey number hash) () }

def get (hash : Bytes32) (s : CompanionStore) : Res StoreError Lookup :=
  match s.companions.find hash.val with
  | some value => do
    let record ← storedRecord value
    let companion ← decode record
    return .found companion
  | none => do
    match ← readMetaNumber horizonKey s with
    | some horizon => return .unavailable horizon
    | none => return .unknown

def remove (hash : Bytes32) : Txn Unit :=
  transaction do
    match ← query fun s => .ok (s.companions.find hash.val) with
    | some existing => do
      let number ← Run.lift (storedNumber existing.val)
      Run.modify fun s =>
        { s with companions := s.companions.erase hash.val
                 byNumber := s.byNumber.erase (indexKey number hash) }
    | none => pure ()

/-- The rows of the index up to the first number that is not below `upper`. -/
def rangeRows (upper : UInt64) : List (Bytes × Unit) → Res StoreError (List (Bytes32 × UInt64))
  | [] => .ok []
  | (key, _) :: rest => do
    Res.refuse (key.length ≠ indexKeyLen) (.corrupt "index key has the wrong length")
    if keyNumber key ≥ upper then return []
    else do
      let hash ← Res.unwrap (Fixed.ofBytes? 32 (key.drop numberLen))
      let rest ← rangeRows upper rest
      return (hash, keyNumber key) :: rest

def entriesInRange (lower upper : UInt64) (s : CompanionStore) :
    Res StoreError (List (Bytes32 × UInt64)) :=
  rangeRows upper (s.byNumber.since (be64 lower))

def dropCompanion (key : Bytes) (s : CompanionStore) : CompanionStore :=
  { s with companions := s.companions.erase (key.drop numberLen)
           byNumber := s.byNumber.erase key }

/-- The larger of a published number and a requested one. -/
def raised (current : Option UInt64) (number : UInt64) : UInt64 :=
  match current with
  | none => number
  | some current => max current number

def pruneBelow (number : UInt64) : Txn Unit :=
  transaction do
    let current ← query (readMetaNumber horizonKey)
    let rows ← query fun s => .ok s.byNumber.rows
    pruneRows dropCompanion "index key has the wrong length" number rows
    putMetaNumber horizonKey (raised current number)

def setHorizon (number : UInt64) : Txn Unit :=
  transaction do
    match ← query (readMetaNumber horizonKey) with
    | some current => Run.refuse (number < current) (.horizonRegression current number)
    | none => pure ()
    putMetaNumber horizonKey number

def horizon (s : CompanionStore) : Res StoreError (Option UInt64) := readMetaNumber horizonKey s

def evictionCursor (s : CompanionStore) : Res StoreError (Option UInt64) :=
  readMetaNumber evictionCursorKey s

def setEvictionCursor (number : UInt64) : Txn Unit :=
  transaction do
    let current ← query (readMetaNumber evictionCursorKey)
    putMetaNumber evictionCursorKey (raised current number)

end CompanionStore

end Ureth.Source.Store
