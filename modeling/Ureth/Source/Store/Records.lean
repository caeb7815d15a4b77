import Ureth.Foundation.Cursor
import Ureth.Foundation.Utf8
import Ureth.Source.Execution.Block

/-!
# Stored records

The two record codecs of the companion store: length-prefixed frames for a
companion, a fixed 154-byte layout for completed-parent accounting. Each decoder
accepts exactly what its encoder writes.
-/

namespace Ureth.Source.Store
open Ureth.Foundation Ureth.Source.Execution

structure SealCompanion where
  rootInput : ByteVec
  b1Update : ByteVec
  records : ByteVec
  pairBinding : ByteVec
  witnesses : List ByteVec
  provenance : Text
  deriving DecidableEq

/-- The store's own refusals; failures of the environment below it are not modelled. -/
inductive StoreError where
  | unknownVersion (version : UInt8)
  | recordTooLarge
  | malformedRecord (reason : String)
  | corrupt (reason : String)
  | horizonRegression (current requested : UInt64)
  deriving DecidableEq, Repr

def StoreError.toText : StoreError → String
  | .unknownVersion version => s!"unknown record version {version}"
  | .recordTooLarge => "record field is too large to encode"
  | .malformedRecord reason => "malformed record: " ++ reason
  | .corrupt reason => "corrupt store: " ++ reason
  | .horizonRegression current requested =>
    s!"horizon would move backwards from {current} to {requested}"

def recordVersion : UInt8 := 2

/-- A vector of the given bytes; one beyond the allocation limit panics. -/
def toVec (b : Bytes) : Res StoreError ByteVec :=
  if h : b.length < 2 ^ 63 then .ok ⟨b, h⟩ else Res.panic

/-! ## Companions -/

def frame (b : Bytes) : Bytes := beBytes 4 b.length ++ b

/-- A length-prefixed frame; the length must fit its four bytes. -/
def putFrame (b : Bytes) : Res StoreError Bytes := do
  Res.refuse (2 ^ 32 ≤ b.length) .recordTooLarge
  return frame b

def putCount (n : Nat) : Res StoreError Bytes := do
  Res.refuse (2 ^ 32 ≤ n) .recordTooLarge
  return beBytes 4 n

def encode (companion : SealCompanion) : Res StoreError ByteVec := do
  let rootInput ← putFrame companion.rootInput.val
  let b1Update ← putFrame companion.b1Update.val
  let records ← putFrame companion.records.val
  let pairBinding ← putFrame companion.pairBinding.val
  let count ← putCount companion.witnesses.length
  let witnesses ← Res.collect (fun w : ByteVec => putFrame w.val) companion.witnesses
  let provenance ← putFrame companion.provenance.val
  toVec ([recordVersion] ++ rootInput ++ b1Update ++ records ++ pairBinding ++ count ++
    witnesses.flatten ++ provenance)

abbrev Read (α : Type) := Run Cursor StoreError α

/-- The version byte; the source reads it without an overflow check. -/
def readU8 : Read UInt8 := do
  let slice ← Cursor.take (.malformedRecord "record ended before its version byte")
    (.malformedRecord "record ended before its version byte") 1
  Run.lift (Res.index slice.val 0)

def readU32 : Read Nat := do
  let slice ← Cursor.take (.malformedRecord "length prefix overflows")
    (.malformedRecord "record ended inside a length prefix") 4
  return beNat slice.val

def readFrame : Read ByteVec := do
  let len ← readU32
  Cursor.take (.malformedRecord "frame length overflows")
    (.malformedRecord "record ended inside a frame") len

def fromUtf8 (slice : ByteVec) : Res StoreError Text :=
  if h : validUtf8 slice.val = true then .ok (Text.ofVec slice h)
  else Res.fail (.malformedRecord "provenance is not valid UTF-8")

def readCompanion : Read SealCompanion := do
  let version ← readU8
  Run.refuse (version ≠ recordVersion) (.unknownVersion version)
  let rootInput ← readFrame
  let b1Update ← readFrame
  let records ← readFrame
  let pairBinding ← readFrame
  let count ← readU32
  let witnesses ← Cursor.repeatRead readFrame count
  let slice ← readFrame
  let provenance ← Run.lift (fromUtf8 slice)
  return { rootInput, b1Update, records, pairBinding, witnesses, provenance }

def decode (bytes : ByteVec) : Res StoreError SealCompanion :=
  (Cursor.whole (.malformedRecord "trailing bytes after record") readCompanion
    (Cursor.ofVec bytes)).1

/-! ### The decoder is the inverse of the encoder -/

theorem readU8_eq_ok {c d : Cursor} {x : UInt8} : readU8 c = (.ok x, d) ↔ c.Advance [x] d := by
  simp only [readU8, Run.bind_eq_ok, Cursor.take_eq_ok, Run.lift_apply, Prod.mk.injEq,
    Res.index_eq_ok]
  constructor
  · rintro ⟨⟨s, hs⟩, _, ⟨hlen, h⟩, hx, rfl⟩
    obtain ⟨y, rfl⟩ := List.length_eq_one_iff.mp hlen
    obtain rfl : y = x := by simpa using hx
    exact h
  · intro h
    exact ⟨⟨[x], by simp⟩, d, ⟨rfl, h⟩, rfl, rfl⟩

theorem readU32_eq_ok {c d : Cursor} {n : Nat} :
    readU32 c = (.ok n, d) ↔ n < 2 ^ 32 ∧ c.Advance (beBytes 4 n) d := by
  simp only [readU32, Run.bind_eq_ok, Cursor.take_eq_ok, Run.pure_apply, Prod.mk.injEq,
    Except.ok.injEq]
  constructor
  · rintro ⟨s, _, ⟨hlen, h⟩, rfl, rfl⟩
    have hlt := beNat_lt s.val
    rw [hlen] at hlt
    refine ⟨by simpa using hlt, ?_⟩
    have hback := beBytes_beNat s.val
    rw [hlen] at hback
    rwa [hback]
  · rintro ⟨hn, h⟩
    refine ⟨⟨beBytes 4 n, by rw [beBytes_length]; omega⟩, d, ⟨beBytes_length 4 n, h⟩, ?_, rfl⟩
    rw [beNat_beBytes, Nat.mod_eq_of_lt (by simpa using hn)]

theorem readFrame_eq_ok {c d : Cursor} {s : ByteVec} :
    readFrame c = (.ok s, d) ↔ s.val.length < 2 ^ 32 ∧ c.Advance (frame s.val) d := by
  simp only [readFrame, Run.bind_eq_ok, readU32_eq_ok, Cursor.take_eq_ok, frame,
    Cursor.advance_append]
  constructor
  · rintro ⟨_, t, ⟨hn, hhead⟩, rfl, hbody⟩
    exact ⟨hn, t, hhead, hbody⟩
  · rintro ⟨hn, t, hhead, hbody⟩
    exact ⟨_, t, ⟨hn, hhead⟩, rfl, hbody⟩

theorem fromUtf8_eq_ok {s : ByteVec} {v : Text} : fromUtf8 s = .ok v ↔ s.val = v.val := by
  unfold fromUtf8
  split
  next h => simp [Subtype.ext_iff]
  next h =>
    simp only [Res.fail_ne_ok, false_iff]
    intro hs
    exact h (hs ▸ v.property.1)

/-- Every field fits its frame. -/
structure SealCompanion.Framed (c : SealCompanion) : Prop where
  rootInput : c.rootInput.val.length < 2 ^ 32
  b1Update : c.b1Update.val.length < 2 ^ 32
  records : c.records.val.length < 2 ^ 32
  pairBinding : c.pairBinding.val.length < 2 ^ 32
  count : c.witnesses.length < 2 ^ 32
  witnesses : ∀ w ∈ c.witnesses, w.val.length < 2 ^ 32
  provenance : c.provenance.val.length < 2 ^ 32

/-- The record of a framed companion. -/
def SealCompanion.layout (c : SealCompanion) : Bytes :=
  [recordVersion] ++ frame c.rootInput.val ++ frame c.b1Update.val ++ frame c.records.val ++
    frame c.pairBinding.val ++ beBytes 4 c.witnesses.length ++
    (c.witnesses.flatMap fun w => frame w.val) ++ frame c.provenance.val

theorem readCompanion_eq_ok {c d : Cursor} {companion : SealCompanion} :
    readCompanion c = (.ok companion, d) ↔ companion.Framed ∧ c.Advance companion.layout d := by
  have hrepeat (count : Nat) (t t' : Cursor) (ws : List ByteVec) :
      Cursor.repeatRead readFrame count t = (.ok ws, t') ↔ _ :=
    Cursor.repeatRead_eq_ok (fun _ _ _ => readFrame_eq_ok)
  obtain ⟨_, _, _, _, _, provenance⟩ := companion
  simp only [readCompanion, Run.bind_eq_ok, Run.pure_eq_ok, Run.refuse_eq_ok, Run.lift_eq_ok, Run.exists_guard,
    readU8_eq_ok, not_not, readFrame_eq_ok, readU32_eq_ok, hrepeat, fromUtf8_eq_ok, SealCompanion.layout,
    List.append_assoc, ← Cursor.advance_append, SealCompanion.mk.injEq, existsAndEq, and_assoc, exists_and_left, true_and,
    and_true, exists_const, @Run.exists_swap Cursor ByteVec]
  constructor
  · rintro ⟨hn, hri, hbu, hre, hpb, hws, s, hs, hp, h⟩
    rw [hp] at hs h
    exact ⟨⟨hri, hbu, hre, hpb, hn, hws, hs⟩, h⟩
  · rintro ⟨⟨hri, hbu, hre, hpb, hn, hws, hs⟩, h⟩
    exact ⟨hn, hri, hbu, hre, hpb, hws, ⟨_, provenance.property.2⟩, hs, rfl, h⟩

@[simp] theorem toVec_eq_ok {b : Bytes} {v : ByteVec} : toVec b = .ok v ↔ b = v.val := by
  unfold toVec
  split
  next h => simp [Subtype.ext_iff]
  next h =>
    simp only [Res.panic_ne_ok, false_iff]
    rintro rfl
    exact h v.property

theorem putFrame_eq_ok {b r : Bytes} : putFrame b = .ok r ↔ b.length < 2 ^ 32 ∧ frame b = r := by
  simp only [putFrame, Res.bind_eq_ok, Res.refuse_eq_ok, not_le, Res.pure_eq_ok,
    exists_const]

theorem putCount_eq_ok {n : Nat} {r : Bytes} :
    putCount n = .ok r ↔ n < 2 ^ 32 ∧ beBytes 4 n = r := by
  simp only [putCount, Res.bind_eq_ok, Res.refuse_eq_ok, not_le, Res.pure_eq_ok,
    exists_const]

theorem collect_putFrame_eq_ok {ws : List ByteVec} {rs : List Bytes} :
    Res.collect (fun w : ByteVec => putFrame w.val) ws = .ok rs ↔
      (∀ w ∈ ws, w.val.length < 2 ^ 32) ∧ ws.map (fun w => frame w.val) = rs := by
  induction ws generalizing rs with
  | nil => simp [Res.collect]
  | cons w ws ih =>
    simp only [Res.collect, Res.bind_eq_ok, putFrame_eq_ok, ih, Res.pure_eq_ok,
      List.forall_mem_cons, List.map_cons]
    constructor
    · rintro ⟨_, ⟨hw, rfl⟩, _, ⟨hws, rfl⟩, rfl⟩
      exact ⟨⟨hw, hws⟩, rfl⟩
    · rintro ⟨⟨hw, hws⟩, rfl⟩
      exact ⟨_, ⟨hw, rfl⟩, _, ⟨hws, rfl⟩, rfl⟩

theorem encode_eq_ok {companion : SealCompanion} {b : ByteVec} :
    encode companion = .ok b ↔ companion.Framed ∧ companion.layout = b.val := by
  simp only [encode, Res.bind_eq_ok, putFrame_eq_ok, putCount_eq_ok, collect_putFrame_eq_ok, toVec_eq_ok,
    SealCompanion.layout, List.flatMap_def, existsAndEq, and_assoc, exists_and_left, true_and]
  constructor
  · rintro ⟨hri, hbu, hre, hpb, hn, hws, hs, hb⟩
    exact ⟨⟨hri, hbu, hre, hpb, hn, hws, hs⟩, hb⟩
  · rintro ⟨⟨hri, hbu, hre, hpb, hn, hws, hs⟩, hb⟩
    exact ⟨hri, hbu, hre, hpb, hn, hws, hs, hb⟩

/-- A record decodes to a companion exactly when it is that companion's record. -/
theorem decode_eq_ok {b : ByteVec} {companion : SealCompanion} :
    decode b = .ok companion ↔ encode companion = .ok b := by
  rw [decode, Cursor.ofVec, Cursor.whole_eq_ok (fun _ _ _ => readCompanion_eq_ok), encode_eq_ok]
  exact and_congr_right fun _ => eq_comm

/-! ### Refusals -/

theorem safe_take (overflow eof : StoreError) (length : Nat) :
    Run.Safe (Cursor.take overflow eof length) := by
  intro c
  simp only [Cursor.take]
  split
  · simp
  · split <;> simp

theorem safe_readU8 : Run.Safe readU8 := by
  refine (safe_take _ _ 1).bind fun s _ t hs => ?_
  have hlen := (Cursor.take_eq_ok.mp hs).1
  exact Res.failsOnly_index (by omega)

theorem safe_readU32 : Run.Safe readU32 := (safe_take _ _ _).andThen fun _ => Run.safe_pure _

theorem safe_readFrame : Run.Safe readFrame := safe_readU32.andThen fun _ => safe_take _ _ _

theorem safe_repeatRead (count : Nat) : Run.Safe (Cursor.repeatRead readFrame count) := by
  induction count with
  | zero => exact Run.safe_pure _
  | succ count ih => exact safe_readFrame.andThen fun _ => ih.andThen fun _ => Run.safe_pure _

theorem noPanic_fromUtf8 (slice : ByteVec) : (fromUtf8 slice).NoPanic := by
  unfold fromUtf8
  split <;> simp

theorem safe_readCompanion : Run.Safe readCompanion :=
  safe_readU8.andThen fun _ => (Run.safe_refuse _ _).andThen fun _ => safe_readFrame.andThen fun _ =>
    safe_readFrame.andThen fun _ => safe_readFrame.andThen fun _ => safe_readFrame.andThen fun _ =>
    safe_readU32.andThen fun _ => (safe_repeatRead _).andThen fun _ => safe_readFrame.andThen fun s =>
    Run.Safe.andThen (fun _ => noPanic_fromUtf8 s) fun _ => Run.safe_pure _

/-- The decoder answers every slice: a companion or a named error. -/
theorem noPanic_decode (b : ByteVec) : (decode b).NoPanic :=
  (safe_readCompanion.andThen fun _ =>
    Run.Safe.andThen (fun _ => Res.noPanic_refuse _ _) fun _ => Run.safe_pure _) _

/-- A record that starts with another record is that record: the reader stops at the end
of the shorter one with the shorter one's companion. -/
theorem record_prefix_eq {b b' : ByteVec} {c c' : SealCompanion} (hb : decode b = .ok c)
    (hb' : decode b' = .ok c') (hstart : b.val <+: b'.val) : b = b' := by
  obtain ⟨hc, hlayout⟩ := encode_eq_ok.mp (decode_eq_ok.mp hb)
  obtain ⟨hc', hlayout'⟩ := encode_eq_ok.mp (decode_eq_ok.mp hb')
  obtain ⟨d, hwhole, hend⟩ := (@Cursor.advance_whole b'.val c'.layout b'.property).mpr hlayout'.symm
  obtain ⟨rest, hrest⟩ := hstart
  have hsplit : b'.val = b.val ++ rest := hrest.symm
  obtain ⟨e, hall, -⟩ := (@Cursor.advance_whole b'.val (b.val ++ rest) b'.property).mpr hsplit
  obtain ⟨m, hfirst, -⟩ := Cursor.advance_append.mp hall
  rw [← hlayout] at hfirst
  -- one run of the reader, described twice
  have hrun := readCompanion_eq_ok.mpr ⟨hc, hfirst⟩
  rw [readCompanion_eq_ok.mpr ⟨hc', hwhole⟩] at hrun
  obtain ⟨rfl, -⟩ : c' = c ∧ d = m := by simpa using hrun
  exact Subtype.ext (hlayout.symm.trans hlayout')

/-- A proper prefix or extension of a record is refused with an error. -/
theorem decode_other_length {b b' : ByteVec} {c : SealCompanion} (hb : decode b = .ok c)
    (hne : b' ≠ b) (hcut : b'.val <+: b.val ∨ b.val <+: b'.val) : ∃ e, decode b' = Res.fail e := by
  rcases (noPanic_decode b').cases with ⟨c', hb'⟩ | ⟨e, -, he⟩
  · rcases hcut with hcut | hcut
    · exact absurd (record_prefix_eq hb' hb hcut) hne
    · exact absurd (record_prefix_eq hb hb' hcut).symm hne
  · exact ⟨e, he⟩

/-! ## Accounting -/

structure StoredAccounting where
  chainId : UInt64
  genesisHash : Bytes32
  blockNumber : UInt64
  accounting : LocalParentAccounting
  deriving DecidableEq

def schema : UInt8 := 1
def ruleVersion : UInt8 := 1
def recordLen : Nat := 1 + 1 + 8 + 32 + 8 + 32 + 40 + 32

/-- `to_be_bytes` of a 64-bit word. -/
def be64 (v : UInt64) : Bytes := beBytes 8 v.toNat

/-- `from_be_bytes` of eight bytes. -/
def fromBe64 (b : Bytes) : UInt64 := .ofNat (beNat b)

@[simp] theorem length_be64 (v : UInt64) : (be64 v).length = 8 := beBytes_length 8 _

@[simp] theorem fromBe64_be64 (v : UInt64) : fromBe64 (be64 v) = v := by
  have hv := v.toNat_lt
  rw [fromBe64, be64, beNat_beBytes, Nat.mod_eq_of_lt (by simpa using hv), UInt64.ofNat_toNat]

theorem be64_fromBe64 {b : Bytes} (h : b.length = 8) : be64 (fromBe64 b) = b := by
  have hlt := beNat_lt b
  rw [h] at hlt
  have hback := beBytes_beNat b
  rw [h] at hback
  rw [be64, fromBe64, UInt64.toNat_ofNat', Nat.mod_eq_of_lt (by simpa using hlt), hback]

/-- The nine 64-bit figures of a record, in order. -/
def figures (a : LocalParentAccounting) : List UInt64 :=
  [a.profile.maxGas, a.profile.systemGas, a.profile.baseFeeFloor, a.profile.elasticity,
    a.profile.changeDenominator, a.headerGas, a.systemGas, a.ordinaryGas, a.baseFee]

def encodeAccounting (r : StoredAccounting) : Bytes :=
  [schema, ruleVersion] ++ be64 r.chainId ++ r.genesisHash.val ++ be64 r.blockNumber ++
    r.accounting.blockHash.val ++ (figures r.accounting).flatMap be64

/-- The eight bytes from `start` as a number. -/
def numberAt (b : Bytes) (start : Nat) : UInt64 := fromBe64 ((b.drop start).take 8)

/-- The 32 bytes from `start`. -/
def wordAt (b : Bytes) (start : Nat) : Res StoreError Bytes32 :=
  Res.unwrap (Fixed.ofBytes? 32 ((b.drop start).take 32))

def decodeAccounting (b : Bytes) : Res StoreError StoredAccounting := do
  Res.refuse (b.length ≠ recordLen) (.malformedRecord "accounting record length")
  let schemaByte ← Res.index b 0
  Res.refuse (schemaByte ≠ schema) (.unknownVersion schemaByte)
  let ruleByte ← Res.index b 1
  Res.refuse (ruleByte ≠ ruleVersion) (.unknownVersion ruleByte)
  let genesisHash ← wordAt b 10
  let blockHash ← wordAt b 50
  return { chainId := numberAt b 2
           genesisHash
           blockNumber := numberAt b 42
           accounting :=
             { blockHash
               profile :=
                 { maxGas := numberAt b 82, systemGas := numberAt b 90,
                   baseFeeFloor := numberAt b 98, elasticity := numberAt b 106,
                   changeDenominator := numberAt b 114 }
               headerGas := numberAt b 122
               systemGas := numberAt b 130
               ordinaryGas := numberAt b 138
               baseFee := numberAt b 146 } }

theorem length_encodeAccounting (r : StoredAccounting) : (encodeAccounting r).length = recordLen := by
  simp [encodeAccounting, figures, recordLen]

theorem decodeAccounting_encodeAccounting (r : StoredAccounting) :
    decodeAccounting (encodeAccounting r) = .ok r := by
  have hlen := length_encodeAccounting r
  have hword (b : Bytes) (w : Bytes32) (i : Nat) (h : (b.drop i).take 32 = w.val) :
      wordAt b i = .ok w := by
    rw [wordAt, Res.unwrap_eq_ok, Fixed.ofBytes?_eq_some, h]
  have hnumber (b : Bytes) (v : UInt64) (i : Nat) (h : (b.drop i).take 8 = be64 v) :
      numberAt b i = v := by
    rw [numberAt, h, fromBe64_be64]
  have hgenesis := hword (encodeAccounting r) r.genesisHash 10 (by simp [encodeAccounting])
  have hhash := hword (encodeAccounting r) r.accounting.blockHash 50
    (by simp [encodeAccounting, List.drop_append, List.drop_eq_nil_of_le])
  have hbytes : (encodeAccounting r)[0]? = some schema ∧ (encodeAccounting r)[1]? = some ruleVersion := by
    simp [encodeAccounting]
  simp only [decodeAccounting, Res.bind_eq_ok, Res.refuse_eq_ok, not_not, Res.index_eq_ok, hgenesis,
    hhash, Res.pure_eq_ok]
  refine ⟨(), hlen, schema, hbytes.1, (), rfl, ruleVersion, hbytes.2, (), rfl, _, rfl, _, rfl, ?_⟩
  obtain ⟨chain, genesis, number, hash, ⟨g1, g2, g3, g4, g5⟩, hg, sg, og, fee⟩ := r
  simp only [StoredAccounting.mk.injEq, LocalParentAccounting.mk.injEq, BlockProfile.mk.injEq,
    true_and]
  refine ⟨?_, ?_, ⟨?_, ?_, ?_, ?_, ?_⟩, ?_, ?_, ?_, ?_⟩ <;>
    apply hnumber <;>
    simp [encodeAccounting, figures, List.drop_append, List.drop_eq_nil_of_le]

/-- Eight bytes that are there, read as a number and written again. -/
theorem be64_numberAt {b : Bytes} {i : Nat} (h : i + 8 ≤ b.length) :
    be64 (numberAt b i) = (b.drop i).take 8 := by
  refine be64_fromBe64 ?_
  rw [List.length_take, List.length_drop]
  omega

theorem wordAt_eq_ok {b : Bytes} {i : Nat} {w : Bytes32} (h : wordAt b i = .ok w) :
    w.val = (b.drop i).take 32 := by
  rw [wordAt, Res.unwrap_eq_ok, Fixed.ofBytes?_eq_some] at h
  exact h.symm

/-- One field of a record and what follows it. -/
theorem field_append (b : Bytes) (i n : Nat) : (b.drop i).take n ++ b.drop (i + n) = b.drop i := by
  rw [← List.drop_drop, List.take_append_drop]

theorem encodeAccounting_of_decode {b : Bytes} {r : StoredAccounting} (h : decodeAccounting b = .ok r) :
    encodeAccounting r = b := by
  simp only [decodeAccounting, Res.bind_eq_ok, Res.refuse_eq_ok, not_not, Res.index_eq_ok,
    Res.pure_eq_ok, exists_const] at h
  obtain ⟨hlen, s, hs, rfl, v, hv, rfl, genesis, hgenesis, hash, hhash, rfl⟩ := h
  have hlen' : b.length = 154 := hlen
  have hfront : [schema, ruleVersion] ++ b.drop 2 = b := by
    obtain ⟨x, y, rest, rfl⟩ : ∃ x y rest, b = x :: y :: rest := by
      cases b with
      | nil => simp at hs
      | cons x b =>
        cases b with
        | nil => simp at hv
        | cons y rest => exact ⟨x, y, rest, rfl⟩
    simp only [List.getElem?_cons_zero, List.getElem?_cons_succ, Option.some.injEq] at hs hv
    rw [hs, hv]
    rfl
  have hlast : (b.drop 146).take 8 ++ [] = b.drop 146 := by
    rw [List.append_nil, List.take_of_length_le]
    rw [List.length_drop]
    omega
  have hnumber (i : Nat) (hi : i + 8 ≤ 154) : be64 (numberAt b i) = (b.drop i).take 8 :=
    be64_numberAt (by omega)
  simp only [encodeAccounting, figures, List.flatMap_cons, List.flatMap_nil, wordAt_eq_ok hgenesis,
    wordAt_eq_ok hhash, List.append_assoc]
  rw [hnumber 2 (by omega), hnumber 42 (by omega), hnumber 82 (by omega), hnumber 90 (by omega),
    hnumber 98 (by omega), hnumber 106 (by omega), hnumber 114 (by omega), hnumber 122 (by omega),
    hnumber 130 (by omega), hnumber 138 (by omega), hnumber 146 (by omega), hlast,
    field_append b 138, field_append b 130, field_append b 122, field_append b 114,
    field_append b 106, field_append b 98, field_append b 90, field_append b 82, field_append b 50,
    field_append b 42, field_append b 10, field_append b 2, hfront]

end Ureth.Source.Store
