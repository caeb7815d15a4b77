import Ureth.Source.Execution.Update
import Ureth.Source.Execution.WireSpec

/-!
# The root-record import and its admission

The companion a block carries beside its update: the allocation-free walk over its envelope, the
same walk collecting the entries, and the staged admission that charges for both. The walk reads
with the decoder of the root input and counts tokens of its own.
-/

namespace Ureth.Source.Execution
open Ureth.Foundation

structure RecordEntry where
  index : UInt64
  recordId : Bytes32
  predecessor : Bytes32
  kind : UInt8
  progress : UInt64
  ucTime : UInt64
  data : ByteVec
  closedEpoch : UInt64
  deriving DecidableEq

structure RecordImport where
  progress : UInt64
  ucTime : UInt64
  targetCount : UInt64
  targetTip : Bytes32
  entries : List RecordEntry
  deriving DecidableEq

inductive ImportError where
  | tooLarge (len : Nat)
  | scanBudget
  | entryBudget
  | encoding (error : CanonicalCborError)
  | domain
  | tooManyEntries (entries : Nat)
  | unknownKind (kind : UInt64)
  | payloadWidth (kind : UInt8) (len : Nat)
  | closedEpochOnNonClosure
  | zeroTargetTip
  | tooManyTokens
  | hashMismatch
  | overflow
  deriving DecidableEq

def importDomain : Bytes := ascii "UNICITY_P85_RECORD_IMPORT"
def maxImportTokens : Nat := 512
def entryGas : Nat := 1000
def entryTokens : Nat := 9

/-- The exact payload width of a record kind. -/
def payloadWidth (kind : UInt64) : Option Nat :=
  if kind = 1 then some 32
  else if kind = 2 then some 128
  else if kind = 3 then some 288
  else if kind = 4 then some 192
  else if kind = 5 then some 96
  else none

/-- The scan price of a companion. Both steps are checked; a price within 64 bits has its product
within. -/
def scanGas (len : Nat) : Option Nat :=
  if scanBaseGas + scanByteGas * len < 2 ^ 64 then some (scanBaseGas + scanByteGas * len) else none

/-! ## The walk -/

/-- Header of the envelope read by the scan. -/
structure ImportHeader where
  progress : UInt64
  ucTime : UInt64
  targetCount : UInt64
  targetTip : Bytes32
  entries : Nat
  deriving DecidableEq

/-- The walk in progress; `collect` is the vector the entries are pushed to, if there is one. -/
structure Walk where
  cursor : Cursor
  tokens : Nat
  collect : Option (List RecordEntry)

abbrev Walking (α : Type) := Run Walk ImportError α

namespace Walk

def read {α : Type} (m : Decode α) : Walking α := fun w =>
  ((m w.cursor).1.mapErr .encoding, { w with cursor := (m w.cursor).2 })

def token (count : Nat) : Walking Unit := do
  let tokens ← fun w => (Res.checkedAdd .overflow w.tokens count, w)
  Run.modify fun w => { w with tokens }
  Run.refuse (maxImportTokens < tokens) .tooManyTokens

def arity (expected : Nat) : Walking Unit := do
  let found ← read Decoder.readArray
  Run.refuse (found ≠ expected) (.encoding (.wrongArity expected found))

/-- `out.push(e)`, if the walk collects. -/
def push (e : RecordEntry) : Walking Unit :=
  Run.modify fun w => { w with collect := w.collect.map (· ++ [e]) }

def entry : Walking Unit := do
  token entryTokens
  arity 8
  let index ← read Decoder.readUint
  let recordId ← read Decoder.readWord
  let predecessor ← read Decoder.readWord
  let kind ← read Decoder.readUint
  let width ← Run.lift (Res.okOr (.unknownKind kind) (payloadWidth kind))
  let progress ← read Decoder.readUint
  let ucTime ← read Decoder.readUint
  let data ← read (Decoder.readBoundedBytes "record payload" width)
  Run.refuse (data.val.length ≠ width) (.payloadWidth kind.toUInt8 data.val.length)
  let closedEpoch ← read Decoder.readUint
  Run.refuse (kind ≠ 4 ∧ closedEpoch ≠ 0) .closedEpochOnNonClosure
  push { index, recordId, predecessor, kind := kind.toUInt8, progress, ucTime, data, closedEpoch }

/-- The envelope and its entries. -/
def envelope : Walking ImportHeader := do
  let found ← read Decoder.readArray
  token 1
  Run.refuse (found ≠ 6) (.encoding (.wrongArity 6 found))
  token 1
  let domain ← read Decoder.readText
  Run.refuse (domain.val ≠ importDomain) .domain
  token 4
  let progress ← read Decoder.readUint
  let ucTime ← read Decoder.readUint
  let targetCount ← read Decoder.readUint
  let targetTip ← read Decoder.readWord
  Run.refuse (targetCount = 0 ∧ targetTip ≠ .zero 32) .zeroTargetTip
  token 1
  let count ← read Decoder.readArray
  Run.refuse (maxImportEntries < count) (.tooManyEntries count)
  let _ ← entry.times count
  read Decoder.finish
  return { progress, ucTime, targetCount, targetTip, entries := count }

end Walk

/-- One walk over a companion, and the vector it collected the entries in, if it was given one. -/
def walkImport (raw : ByteVec) (collect : Option (List RecordEntry)) :
    Res ImportError ImportHeader × Option (List RecordEntry) :=
  let out := Walk.envelope ⟨Cursor.ofVec raw, 0, collect⟩
  (out.1, out.2.collect)

/-! ## Admission -/

/-- An admitted import and the gas its admission debits. -/
structure AdmittedImport where
  companion : RecordImport
  gas : UInt64

def admitImport (H : Bytes → Bytes32) (raw : ByteVec) (committedHash : Bytes32) (budget : UInt64) :
    Res ImportError AdmittedImport := do
  Res.refuse (maxImportBytes < raw.val.length) (.tooLarge raw.val.length)
  let scan ← Res.okOr .overflow (scanGas raw.val.length)
  Res.refuse (budget.toNat < scan) .scanBudget
  let header ← (walkImport raw none).1
  let entriesGas := entryGas * header.entries
  Res.refuse (2 ^ 64 ≤ entriesGas) .overflow
  let rest ← Res.sub budget.toNat scan
  Res.refuse (rest < entriesGas) .entryBudget
  let collected := walkImport raw (some [])
  let decoded ← collected.1
  Res.refuse (H raw.val ≠ committedHash) .hashMismatch
  let gas ← Res.u64 (scan + entriesGas)
  let companion : RecordImport :=
    { progress := decoded.progress, ucTime := decoded.ucTime, targetCount := decoded.targetCount
      targetTip := decoded.targetTip, entries := collected.2.getD [] }
  return { companion, gas := .ofNat gas }

/-! ## No read panics -/

namespace Decoder

theorem safe_take (length : Nat) : Run.Safe (take length) := by
  intro c
  simp only [take, Cursor.take]
  split
  · trivial
  · split <;> trivial

theorem safe_readU8 : Run.Safe readU8 := by
  refine (safe_take 1).bind fun s _ t hs => ?_
  exact Res.failsOnly_index (by rw [(take_eq_ok.mp hs).1]; decide)

theorem safe_wideArgument (width least : Nat) : Run.Safe (wideArgument width least) :=
  (safe_take _).andThen fun _ => (Run.safe_refuse _ _).andThen fun _ => Run.safe_pure _

theorem safe_readArgument (info : Nat) : Run.Safe (readArgument info) := by
  unfold readArgument
  split
  · exact Run.safe_pure _
  · split
    · exact safe_wideArgument _ _
    · split
      · exact safe_wideArgument _ _
      · split
        · exact safe_wideArgument _ _
        · split
          · exact safe_wideArgument _ _
          · split
            · exact Run.safe_fail _
            · exact Run.safe_fail _

theorem safe_readKind (kind : Nat) (expected : String) : Run.Safe (readKind kind expected) :=
  (safe_readU8.andThen fun _ => (safe_readArgument _).andThen fun _ => Run.safe_pure _).andThen
    fun _ => (Run.safe_refuse _ _).andThen fun _ => Run.safe_pure _

theorem safe_readUint : Run.Safe readUint := safe_readKind _ _

theorem safe_readArray : Run.Safe readArray := (safe_readKind _ _).andThen fun _ => Run.safe_pure _

theorem safe_readArity (n : Nat) : Run.Safe (readArity n) :=
  safe_readArray.andThen fun _ => Run.safe_refuse _ _

theorem safe_readBytes : Run.Safe readBytes := (safe_readKind _ _).andThen fun _ => safe_take _

theorem safe_readBoundedBytes (what : String) (limit : Nat) :
    Run.Safe (readBoundedBytes what limit) :=
  (safe_readKind _ _).andThen fun _ => (Run.safe_refuse _ _).andThen fun _ => safe_take _

theorem noPanic_fromUtf8 (slice : ByteVec) : (fromUtf8 slice).NoPanic := by
  unfold fromUtf8
  split <;> trivial

theorem safe_readText : Run.Safe readText :=
  (safe_readKind _ _).andThen fun _ => (safe_take _).andThen fun _ =>
    Run.safe_lift (noPanic_fromUtf8 _)

theorem safe_readWord : Run.Safe readWord :=
  safe_readBytes.andThen fun _ => Run.safe_lift (Res.noPanic_okOr _ _)

theorem safe_finish : Run.Safe finish := fun _ => Res.noPanic_refuse _ _

theorem safe_whole {α : Type} {read : Decode α} (h : Run.Safe read) : Run.Safe (whole read) :=
  h.andThen fun _ => Run.Safe.andThen (fun _ => Res.noPanic_refuse _ _) fun _ => Run.safe_pure _

theorem safe_readDomain (domain : String) (version : UInt64) (reason : String) :
    Run.Safe (readDomain domain version reason) :=
  safe_readText.andThen fun _ => (Run.safe_refuse _ _).andThen fun _ => safe_readUint.andThen fun _ =>
    Run.safe_refuse _ _

end Decoder

namespace Walk

theorem safe_read {α : Type} {m : Decode α} (h : Run.Safe m) : Run.Safe (read m) :=
  fun w => Res.failsOnly_mapErr (h w.cursor) fun _ => trivial

theorem safe_token (count : Nat) : Run.Safe (token count) :=
  Run.Safe.andThen (fun _ => Res.failsOnly_checkedAdd trivial) fun _ =>
    (Run.safe_modify _).andThen fun _ => Run.safe_refuse _ _

theorem safe_arity (n : Nat) : Run.Safe (arity n) :=
  (safe_read Decoder.safe_readArray).andThen fun _ => Run.safe_refuse _ _

theorem safe_entry : Run.Safe entry :=
  (safe_token _).andThen fun _ => (safe_arity _).andThen fun _ =>
    (safe_read Decoder.safe_readUint).andThen fun _ => (safe_read Decoder.safe_readWord).andThen fun _ =>
    (safe_read Decoder.safe_readWord).andThen fun _ => (safe_read Decoder.safe_readUint).andThen fun _ =>
    (Run.safe_lift (Res.noPanic_okOr _ _)).andThen fun _ =>
    (safe_read Decoder.safe_readUint).andThen fun _ => (safe_read Decoder.safe_readUint).andThen fun _ =>
    (safe_read (Decoder.safe_readBoundedBytes _ _)).andThen fun _ =>
    (Run.safe_refuse _ _).andThen fun _ => (safe_read Decoder.safe_readUint).andThen fun _ =>
    (Run.safe_refuse _ _).andThen fun _ => Run.safe_modify _

theorem safe_envelope : Run.Safe envelope :=
  (safe_read Decoder.safe_readArray).andThen fun _ => (safe_token _).andThen fun _ =>
    (Run.safe_refuse _ _).andThen fun _ => (safe_token _).andThen fun _ =>
    (safe_read Decoder.safe_readText).andThen fun _ => (Run.safe_refuse _ _).andThen fun _ =>
    (safe_token _).andThen fun _ => (safe_read Decoder.safe_readUint).andThen fun _ =>
    (safe_read Decoder.safe_readUint).andThen fun _ => (safe_read Decoder.safe_readUint).andThen fun _ =>
    (safe_read Decoder.safe_readWord).andThen fun _ => (Run.safe_refuse _ _).andThen fun _ =>
    (safe_token _).andThen fun _ => (safe_read Decoder.safe_readArray).andThen fun _ =>
    (Run.safe_refuse _ _).andThen fun _ => (safe_entry.times _).andThen fun _ =>
    (safe_read Decoder.safe_finish).andThen fun _ => Run.safe_pure _

end Walk

theorem noPanic_walkImport (raw : ByteVec) (collect : Option (List RecordEntry)) :
    (walkImport raw collect).1.NoPanic := Walk.safe_envelope _

theorem noPanic_decodeEpochTransition (raw : ByteVec) : (decodeEpochTransition raw).NoPanic := by
  refine (Res.noPanic_refuse _ _).bind fun _ _ => Res.FailsOnly.bind ?_ fun body _ =>
    Res.FailsOnly.bind ?_ fun ack _ => (Res.noPanic_refuse _ _).bind fun _ _ =>
    (Res.noPanic_refuse _ _).bind fun _ _ => trivial
  · refine Decoder.safe_whole ?_ _
    exact (Decoder.safe_readArity _).andThen fun _ => (Decoder.safe_readDomain _ _ _).andThen fun _ =>
      Decoder.safe_readUint.andThen fun _ => Decoder.safe_readUint.andThen fun _ =>
      Decoder.safe_readUint.andThen fun _ => Decoder.safe_readUint.andThen fun _ =>
      Decoder.safe_readWord.andThen fun _ => Decoder.safe_readWord.andThen fun _ =>
      Decoder.safe_readUint.andThen fun _ => Decoder.safe_readWord.andThen fun _ =>
      Decoder.safe_readWord.andThen fun _ => Decoder.safe_readWord.andThen fun _ =>
      Decoder.safe_readBytes.andThen fun _ => Run.safe_pure _
  · refine Decoder.safe_whole ?_ _
    exact (Decoder.safe_readArity _).andThen fun _ => (Decoder.safe_readDomain _ _ _).andThen fun _ =>
      Decoder.safe_readWord.andThen fun _ => Decoder.safe_readWord.andThen fun _ =>
      Decoder.safe_readWord.andThen fun _ => Decoder.safe_readWord.andThen fun _ =>
      Decoder.safe_readWord.andThen fun _ => Decoder.safe_readUint.andThen fun _ => Run.safe_pure _

variable {H : Bytes → Bytes32} {raw : ByteVec} {committedHash : Bytes32} {budget : UInt64}
  {admitted : AdmittedImport}

/-- No sum overflows and no difference underflows on any path of the admission. -/
theorem noPanic_admitImport : (admitImport H raw committedHash budget).NoPanic := by
  have hbudget := budget.toNat_lt
  refine (Res.noPanic_refuse _ _).bind fun _ _ => (Res.noPanic_okOr _ _).bind fun scan _ =>
    (Res.noPanic_refuse _ _).bind fun _ hle => (noPanic_walkImport raw none).bind fun header _ => ?_
  rw [Res.refuse_eq_ok, not_lt] at hle
  refine (Res.noPanic_refuse _ _).bind fun _ _ => (Res.noPanic_sub hle).bind fun rest hrest =>
    (Res.noPanic_refuse _ _).bind fun _ hfit => ?_
  rw [Res.refuse_eq_ok, not_lt, ← (Res.sub_eq_ok.mp hrest).2] at hfit
  refine (noPanic_walkImport raw _).bind fun _ _ => (Res.noPanic_refuse _ _).bind fun _ _ => ?_
  exact (Res.noPanic_u64 (by omega)).bind fun _ _ => trivial

/-- The debit of an admission is within the budget it was admitted against. -/
theorem gas_le_of_admitImport (h : admitImport H raw committedHash budget = .ok admitted) :
    admitted.gas.toNat ≤ budget.toNat := by
  simp only [admitImport, Res.bind_eq_ok, Res.refuse_eq_ok, Res.okOr_eq_ok, Res.u64_eq_ok,
    Res.sub_eq_ok, Res.pure_eq_ok, not_lt] at h
  obtain ⟨_, -, scan, -, _, hscan, header, -, _, -, rest, ⟨-, rfl⟩, _, hfit, decoded, -, _, -, gas,
    ⟨hlt, rfl⟩, rfl⟩ := h
  show (UInt64.ofNat (scan + entryGas * header.entries)).toNat ≤ budget.toNat
  rw [UInt64.toNat_ofNat', Nat.mod_eq_of_lt hlt]
  omega

end Ureth.Source.Execution
