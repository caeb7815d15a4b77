import Ureth.Source.Execution.Wire
import Ureth.Foundation.CborTree
import Ureth.Foundation.Collision

/-!
# The codec is exact

Every reader succeeds precisely where the encoding of its value stands: it moves
the cursor over those bytes and nothing else. Both round trips and the
uniqueness of the encoding follow from this one description of each reader.
-/

namespace Ureth.Source.Execution
open Ureth.Foundation Cursor

/-! ## Heads -/

private theorem lead_eq (k v : Nat) (hk : k < 8) (hv : v < 32) :
    (UInt8.ofNat k <<< 5) ||| UInt8.ofNat v = UInt8.ofNat (32 * k + v) := by
  revert v
  revert k
  decide

/-- The encoder writes shortest heads. -/
theorem major_eq_head (kind : Nat) (value : UInt64) (hk : kind < 8) :
    major (.ofNat kind) value = Cbor.head kind value.toNat := by
  have hlow : value.toUInt8 = UInt8.ofNat value.toNat := by
    apply UInt8.toNat.inj
    simp
  have hlead : ∀ v < 32, (UInt8.ofNat kind <<< 5) ||| UInt8.ofNat v = UInt8.ofNat (32 * kind + v) :=
    fun v hv => lead_eq kind v hk hv
  -- the source's inclusive ranges are the strict bounds of `head`
  have h8 : value.toNat ≤ 0xff ↔ value.toNat < 2 ^ 8 := by omega
  have h16 : value.toNat ≤ 0xffff ↔ value.toNat < 2 ^ 16 := by omega
  have h32 : value.toNat ≤ 0xffffffff ↔ value.toNat < 2 ^ 32 := by omega
  simp only [major, Cbor.head, hlow, h8, h16, h32, ← Nat.lt_succ_iff (n := 23)]
  split_ifs with h
  · rw [hlead _ (by omega)]
  · rw [← hlead 24 (by omega)]
    rfl
  · rw [← hlead 25 (by omega)]
    rfl
  · rw [← hlead 26 (by omega)]
    rfl
  · rw [← hlead 27 (by omega)]
    rfl

theorem uint_eq (v : UInt64) : uint v = Cbor.head 0 v.toNat := major_eq_head 0 v (by omega)

theorem array_eq (v : UInt64) : array v = Cbor.head 4 v.toNat := major_eq_head 4 v (by omega)

private theorem toNat_ofNat_length {b : Bytes} (h : b.length < 2 ^ 63) :
    (UInt64.ofNat b.length).toNat = b.length := by
  rw [UInt64.toNat_ofNat']
  omega

theorem bytes_eq {b : Bytes} (h : b.length < 2 ^ 63) : bytes b = Cbor.head 2 b.length ++ b := by
  rw [bytes, show (2 : UInt8) = .ofNat 2 from rfl, major_eq_head 2 _ (by omega),
    toNat_ofNat_length h]

theorem text_eq {b : Bytes} (h : b.length < 2 ^ 63) : text b = Cbor.head 3 b.length ++ b := by
  rw [text, show (3 : UInt8) = .ofNat 3 from rfl, major_eq_head 3 _ (by omega),
    toNat_ofNat_length h]

theorem word_lt (w : Bytes32) : w.val.length < 2 ^ 63 := by
  rw [Fixed.length_val]
  omega

namespace Decoder

/-! ## The readers -/

theorem take_eq_ok {n : Nat} {c d : Cursor} {s : ByteVec} :
    take n c = (.ok s, d) ↔ s.val.length = n ∧ c.Advance s.val d := Cursor.take_eq_ok

theorem readU8_eq_ok {c d : Cursor} {x : UInt8} : readU8 c = (.ok x, d) ↔ c.Advance [x] d := by
  simp only [readU8, Run.bind_eq_ok, take_eq_ok, Run.lift_apply, Prod.mk.injEq, Res.index_eq_ok]
  constructor
  · rintro ⟨⟨s, hs⟩, _, ⟨hlen, h⟩, hx, rfl⟩
    obtain ⟨y, rfl⟩ := List.length_eq_one_iff.mp hlen
    obtain rfl : y = x := by simpa using hx
    exact h
  · intro h
    exact ⟨⟨[x], by simp⟩, d, ⟨rfl, h⟩, rfl, rfl⟩

theorem wideArgument_eq_ok {width least : Nat} (hwidth : width ≤ 8) {c d : Cursor} {n : UInt64} :
    wideArgument width least c = (.ok n, d) ↔
      ∃ b, c.Advance b d ∧ b.length = width ∧ least ≤ beNat b ∧ beNat b = n.toNat := by
  have hvalue : ∀ b : Bytes, b.length = width → (UInt64.ofNat (beNat b)).toNat = beNat b := by
    intro b hb
    have hlt := beNat_lt b
    have hpow : 256 ^ b.length ≤ 256 ^ 8 := Nat.pow_le_pow_right (by omega) (by omega)
    rw [UInt64.toNat_ofNat']
    omega
  simp only [wideArgument, Run.refuse, Run.bind_eq_ok, take_eq_ok, Run.lift_apply, Prod.mk.injEq,
    Res.refuse_eq_ok, Run.pure_apply, Except.ok.injEq, not_lt]
  constructor
  · rintro ⟨s, _, ⟨hlen, h⟩, _, _, ⟨hleast, rfl⟩, rfl, rfl⟩
    exact ⟨s.val, h, hlen, hleast, (hvalue s.val hlen).symm⟩
  · rintro ⟨b, h, hlen, hleast, hn⟩
    refine ⟨⟨b, by omega⟩, d, ⟨hlen, h⟩, (), d, ⟨hleast, rfl⟩, ?_, rfl⟩
    apply UInt64.toNat.inj
    rw [hvalue b hlen, hn]

/-- The argument bytes complete the initial byte to a shortest head. -/
theorem readArgument_eq_ok {x : UInt8} {c d : Cursor} {n : UInt64} :
    readArgument (x.toNat % 32) c = (.ok n, d) ↔
      ∃ b, c.Advance b d ∧ Cbor.readHead (x :: b) = some (x.toNat / 32, n.toNat, []) := by
  unfold readArgument
  split
  next h =>
    simp only [Run.pure_apply, Prod.mk.injEq, Except.ok.injEq, Cbor.readHead,
      if_pos (Nat.lt_succ_of_le h), Option.some.injEq, true_and]
    constructor
    · rintro ⟨rfl, rfl⟩
      refine ⟨[], advance_nil.mpr rfl, ?_, rfl⟩
      rw [UInt64.toNat_ofNat']
      omega
    · rintro ⟨b, hb, hn, rfl⟩
      refine ⟨?_, (advance_nil.mp hb).symm⟩
      rw [hn, UInt64.ofNat_toNat]
  next h =>
    by_cases hwide : x.toNat % 32 < 28
    · have hcases : x.toNat % 32 = 24 ∨ x.toNat % 32 = 25 ∨ x.toNat % 32 = 26 ∨
          x.toNat % 32 = 27 := by omega
      simp only [Cbor.readHead_cons_wide (by omega : 24 ≤ x.toNat % 32) hwide, true_and]
      rcases hcases with hai | hai | hai | hai <;> rw [hai] <;>
        simp only [Nat.reduceEqDiff, if_false, if_true] <;>
        rw [wideArgument_eq_ok (by omega)] <;>
        rfl
    · have hnone : ∀ b, Cbor.readHead (x :: b) = none := by
        intro b
        rw [Cbor.readHead, if_neg (by omega), if_neg hwide]
      simp only [hnone, reduceCtorEq, and_false, exists_false, iff_false]
      split <;> first | omega | skip
      split <;> first | omega | skip
      split <;> first | omega | skip
      split <;> first | omega | skip
      split <;> simp [Run.fail]

theorem readHead_eq_ok {c d : Cursor} {m : Nat} {n : UInt64} :
    readHead c = (.ok (m, n), d) ↔ m < 8 ∧ c.Advance (Cbor.head m n.toNat) d := by
  simp only [readHead, Run.bind_eq_ok, readU8_eq_ok, readArgument_eq_ok, Run.pure_apply,
    Prod.mk.injEq, Except.ok.injEq]
  constructor
  · rintro ⟨x, c1, hx, _, _, ⟨b, hb, hhead⟩, ⟨rfl, rfl⟩, rfl⟩
    have hm : x.toNat / 32 < 8 := by
      have := x.toNat_lt
      omega
    rw [Cbor.readHead_eq_nil hm (UInt64.toNat_lt _)] at hhead
    refine ⟨hm, ?_⟩
    rw [← hhead]
    exact advance_append.mpr ⟨c1, hx, hb⟩
  · rintro ⟨hm, h⟩
    obtain ⟨x, b, hhead⟩ := List.exists_cons_of_ne_nil (Cbor.head_ne_nil m n.toNat)
    rw [hhead] at h
    obtain ⟨c1, hx, hb⟩ := advance_append (a := [x]).mp h
    have hread := (Cbor.readHead_eq_nil hm n.toNat_lt).mpr hhead.symm
    obtain ⟨first, hfirst, hmajor⟩ := Cbor.head?_head_append m n.toNat [] hm
    rw [List.append_nil, hhead, List.head?_cons, Option.some.injEq] at hfirst
    obtain rfl := hfirst
    rw [← hmajor] at hread
    exact ⟨x, c1, hx, n, d, ⟨b, hb, hread⟩, ⟨hmajor, rfl⟩, rfl⟩

theorem readKind_eq_ok {kind : Nat} {expected : String} (hk : kind < 8) {c d : Cursor}
    {n : UInt64} : readKind kind expected c = (.ok n, d) ↔ c.Advance (Cbor.head kind n.toNat) d := by
  simp only [readKind, Run.refuse, Run.bind_eq_ok, readHead_eq_ok, Run.lift_apply, Prod.exists,
    Prod.mk.injEq, Res.refuse_eq_ok, Run.pure_apply, Except.ok.injEq, not_not]
  constructor
  · rintro ⟨m, v, _, ⟨hm, h⟩, _, _, ⟨rfl, rfl⟩, rfl, rfl⟩
    exact h
  · intro h
    exact ⟨kind, n, d, ⟨hk, h⟩, (), d, ⟨rfl, rfl⟩, rfl, rfl⟩

@[simp] theorem readUint_eq_ok {c d : Cursor} {n : UInt64} :
    readUint c = (.ok n, d) ↔ c.Advance (uint n) d := by
  rw [readUint, readKind_eq_ok (by omega), uint_eq]

theorem readArray_eq_ok {c d : Cursor} {n : Nat} :
    readArray c = (.ok n, d) ↔ n < 2 ^ 64 ∧ c.Advance (Cbor.head 4 n) d := by
  simp only [readArray, Run.bind_eq_ok, readKind_eq_ok (by omega : 4 < 8), Run.pure_apply,
    Prod.mk.injEq, Except.ok.injEq]
  constructor
  · rintro ⟨v, _, h, rfl, rfl⟩
    exact ⟨v.toNat_lt, h⟩
  · rintro ⟨hn, h⟩
    have hv : (UInt64.ofNat n).toNat = n := by
      rw [UInt64.toNat_ofNat']
      omega
    exact ⟨.ofNat n, d, by rwa [hv], hv, rfl⟩

theorem readArity_eq_ok {n : Nat} (hn : n < 2 ^ 64) {c d : Cursor} {u : Unit} :
    readArity n c = (.ok u, d) ↔ c.Advance (array (.ofNat n)) d := by
  have hv : (UInt64.ofNat n).toNat = n := by
    rw [UInt64.toNat_ofNat']
    omega
  simp only [readArity, Run.refuse, Run.bind_eq_ok, readArray_eq_ok, Run.lift_apply, Prod.mk.injEq,
    Res.refuse_eq_ok, not_not, array_eq, hv]
  constructor
  · rintro ⟨_, _, ⟨-, h⟩, rfl, rfl⟩
    exact h
  · intro h
    exact ⟨n, d, ⟨hn, h⟩, rfl, rfl⟩

/-- A length head and the bytes it announces. -/
theorem take_after_length (kind : Nat) (expected : String) (hk : kind < 8) (P : Nat → Prop)
    (c d : Cursor) (s : ByteVec) :
    (∃ n t, readKind kind expected c = (.ok n, t) ∧ P n.toNat ∧ take n.toNat t = (.ok s, d)) ↔
      P s.val.length ∧ c.Advance (Cbor.head kind s.val.length ++ s.val) d := by
  have hv := toNat_ofNat_length s.property
  simp only [readKind_eq_ok hk, take_eq_ok, advance_append]
  constructor
  · rintro ⟨n, t, hn, hP, hlen, hs⟩
    rw [hlen]
    exact ⟨hP, t, hn, hs⟩
  · rintro ⟨hP, t, hn, hs⟩
    exact ⟨.ofNat s.val.length, t, by rwa [hv], by rwa [hv], hv.symm, hs⟩

@[simp] theorem readBytes_eq_ok {c d : Cursor} {s : ByteVec} :
    readBytes c = (.ok s, d) ↔ c.Advance (bytes s.val) d := by
  have h := take_after_length 2 "byte string" (by omega) (fun _ => True) c d s
  simp only [true_and] at h
  rw [readBytes, Run.bind_eq_ok, bytes_eq s.property, h]

@[simp] theorem readBoundedBytes_eq_ok {what : String} {limit : Nat} {c d : Cursor} {s : ByteVec} :
    readBoundedBytes what limit c = (.ok s, d) ↔
      s.val.length ≤ limit ∧ c.Advance (bytes s.val) d := by
  have h := take_after_length 2 "byte string" (by omega) (fun n => n ≤ limit) c d s
  rw [bytes_eq s.property, ← h]
  simp only [readBoundedBytes, Run.refuse, Run.bind_eq_ok, Run.lift_apply, Prod.mk.injEq,
    Res.refuse_eq_ok, not_lt]
  constructor
  · rintro ⟨n, t, hn, _, _, ⟨hle, rfl⟩, hs⟩
    exact ⟨n, t, hn, hle, hs⟩
  · rintro ⟨n, t, hn, hle, hs⟩
    exact ⟨n, t, hn, (), t, ⟨hle, rfl⟩, hs⟩

theorem fromUtf8_eq_ok {s : ByteVec} {v : Text} : fromUtf8 s = .ok v ↔ s.val = v.val := by
  unfold fromUtf8
  split
  next h => simp [Subtype.ext_iff]
  next h =>
    simp only [Res.fail_ne_ok, false_iff]
    intro hs
    exact h (hs ▸ v.property.1)

@[simp] theorem readText_eq_ok {c d : Cursor} {v : Text} :
    readText c = (.ok v, d) ↔ c.Advance (text v.val) d := by
  have h := take_after_length 3 "text string" (by omega) (fun _ => True) c d ⟨v.val, v.property.2⟩
  simp only [true_and] at h
  rw [text_eq v.property.2, ← h]
  simp only [readText, Run.bind_eq_ok, Run.lift_apply, Prod.mk.injEq, fromUtf8_eq_ok]
  constructor
  · rintro ⟨n, t, hn, s, _, hs, hv, rfl⟩
    obtain rfl : s = ⟨v.val, v.property.2⟩ := Subtype.ext hv
    exact ⟨n, t, hn, hs⟩
  · rintro ⟨n, t, hn, hs⟩
    exact ⟨n, t, hn, _, d, hs, rfl, rfl⟩

@[simp] theorem readBoundedText_eq_ok {what : String} {limit : Nat} {c d : Cursor} {v : Text} :
    readBoundedText what limit c = (.ok v, d) ↔
      v.val.length ≤ limit ∧ c.Advance (text v.val) d := by
  have h := take_after_length 3 "text string" (by omega) (fun n => n ≤ limit) c d ⟨v.val, v.property.2⟩
  rw [text_eq v.property.2, ← h]
  simp only [readBoundedText, Run.refuse, Run.bind_eq_ok, Run.lift_apply, Prod.mk.injEq,
    Res.refuse_eq_ok, not_lt, fromUtf8_eq_ok]
  constructor
  · rintro ⟨n, t, hn, _, _, ⟨hle, rfl⟩, s, _, hs, hv, rfl⟩
    obtain rfl : s = ⟨v.val, v.property.2⟩ := Subtype.ext hv
    exact ⟨n, t, hn, hle, hs⟩
  · rintro ⟨n, t, hn, hle, hs⟩
    exact ⟨n, t, hn, (), t, ⟨hle, rfl⟩, _, d, hs, rfl, rfl⟩

@[simp] theorem readWord_eq_ok {c d : Cursor} {w : Bytes32} :
    readWord c = (.ok w, d) ↔ c.Advance (bytes w.val) d := by
  simp only [readWord, Run.bind_eq_ok, readBytes_eq_ok, Run.lift_apply, Prod.mk.injEq,
    Res.okOr_eq_ok, Fixed.ofBytes?_eq_some]
  constructor
  · rintro ⟨s, _, h, hw, rfl⟩
    rwa [hw] at h
  · intro h
    exact ⟨⟨w.val, word_lt w⟩, d, h, rfl, rfl⟩

theorem peek_eq_ok {c d : Cursor} {x : UInt8} :
    peek c = (.ok x, d) ↔ c.rest.head? = some x ∧ d = c := by
  rw [peek, Prod.mk.injEq, Res.okOr_eq_ok, eq_comm (a := c)]

/-- A byte string never starts with the byte of null. -/
theorem head?_of_advance_word {c d : Cursor} {w : Bytes32} (h : c.Advance (bytes w.val) d) :
    ∃ x, c.rest.head? = some x ∧ x ≠ 0xf6 := by
  obtain ⟨x, hx, hmajor⟩ := Cbor.head?_head_append 2 w.val.length (w.val ++ d.rest) (by omega)
  refine ⟨x, ?_, ?_⟩
  · rw [h.rest, bytes_eq (word_lt w), List.append_assoc, hx]
  · rintro rfl
    exact absurd hmajor (by decide)

@[simp] theorem readNullableWord_eq_ok {c d : Cursor} {w : Option Bytes32} :
    readNullableWord c = (.ok w, d) ↔ c.Advance (nullableWord w) d := by
  simp only [readNullableWord, Run.bind_eq_ok, peek_eq_ok]
  constructor
  · rintro ⟨x, _, ⟨hx, rfl⟩, h⟩
    split at h
    next hnull =>
      obtain ⟨s, t, hs, hpure⟩ := Run.bind_eq_ok.mp h
      obtain ⟨hlen, hadv⟩ := take_eq_ok.mp hs
      obtain ⟨y, hy⟩ := List.length_eq_one_iff.mp hlen
      rw [hy] at hadv
      have hsame := advance_singleton hadv
      rw [hx, hnull, Option.some.injEq] at hsame
      simp only [Run.pure_apply, Prod.mk.injEq, Except.ok.injEq] at hpure
      obtain ⟨rfl, rfl⟩ := hpure
      rw [nullableWord, hsame]
      exact hadv
    next hword =>
      obtain ⟨v, t, hv, hpure⟩ := Run.bind_eq_ok.mp h
      simp only [Run.pure_apply, Prod.mk.injEq, Except.ok.injEq] at hpure
      obtain ⟨rfl, rfl⟩ := hpure
      exact readWord_eq_ok.mp hv
  · intro h
    cases w with
    | none =>
      refine ⟨0xf6, c, ⟨advance_singleton h, rfl⟩, ?_⟩
      rw [if_pos rfl]
      exact Run.bind_eq_ok.mpr ⟨⟨[0xf6], by simp⟩, d, take_eq_ok.mpr ⟨rfl, h⟩, rfl⟩
    | some v =>
      obtain ⟨x, hx, hne⟩ := head?_of_advance_word h
      refine ⟨x, c, ⟨hx, rfl⟩, ?_⟩
      rw [if_neg hne]
      exact Run.bind_eq_ok.mpr ⟨v, d, readWord_eq_ok.mpr h, rfl⟩

theorem finish_eq_ok {c d : Cursor} {u : Unit} :
    finish c = (.ok u, d) ↔ c.offset = c.input.length ∧ d = c := Cursor.finish_eq_ok

end Decoder

open Decoder

/-! ## The records -/

theorem decodeTechnical_eq_ok {c d : Cursor} {t : TechnicalRecordV2} :
    decodeTechnical c = (.ok t, d) ↔
      t.leader.val.length ≤ maxLeaderBytes ∧ c.Advance (encodeTechnical t) d := by
  cases t
  simp [decodeTechnical, encodeTechnical, Run.bind_eq_ok, Run.exists_guard, readArity_eq_ok, ← advance_append,
    and_assoc, -Subtype.exists]

theorem decodeInputRecord_eq_ok {c d : Cursor} {ir : InputRecordV2} :
    decodeInputRecord c = (.ok ir, d) ↔ c.Advance (encodeInputRecord ir) d := by
  cases ir
  simp [decodeInputRecord, encodeInputRecord, Run.bind_eq_ok, readArity_eq_ok, ← advance_append]

theorem decodeOrigin_eq_ok {c d : Cursor} {o : RootOriginV2} :
    decodeOrigin c = (.ok o, d) ↔ o.inputRecordVersion = 1 ∧ c.Advance (encodeOrigin o) d := by
  cases o
  rw [and_comm]
  simp [decodeOrigin, encodeOrigin, Run.bind_eq_ok, Run.exists_last, readArity_eq_ok, decodeInputRecord_eq_ok,
    ← advance_append, @eq_comm UInt64 1, -Subtype.exists]

theorem toNat_ofNat_transitions {ts : List ByteVec} (h : ts.length ≤ maxRootTransitions) :
    (UInt64.ofNat ts.length).toNat = ts.length := by
  have hmax : maxRootTransitions = 1 := rfl
  rw [UInt64.toNat_ofNat']
  omega

theorem decodeByteStringArray_eq_ok {c d : Cursor} {ts : List ByteVec} :
    decodeByteStringArray c = (.ok ts, d) ↔
      ts.length ≤ maxRootTransitions ∧ (∀ t ∈ ts, t.val.length ≤ maxEpochTransitionBytes) ∧
        c.Advance (encodeTransitions ts) d := by
  have hrepeat (count : Nat) (t : Cursor) :
      repeatRead (readBoundedBytes "transition" maxEpochTransitionBytes) count t = (.ok ts, d) ↔ _ :=
    repeatRead_eq_ok (fun _ _ _ => readBoundedBytes_eq_ok)
  simp only [decodeByteStringArray, encodeTransitions, Run.refuse, Run.bind_eq_ok, readArray_eq_ok,
    Run.lift_apply, Prod.mk.injEq, Res.refuse_eq_ok, not_lt, hrepeat, advance_append, array_eq]
  constructor
  · rintro ⟨_, t, ⟨-, hhead⟩, _, _, ⟨hle, rfl⟩, rfl, hall, hbody⟩
    exact ⟨hle, hall, t, by rwa [toNat_ofNat_transitions hle], hbody⟩
  · rintro ⟨hle, hall, t, hhead, hbody⟩
    have hlen : ts.length < 2 ^ 64 := lt_of_le_of_lt hle (by decide)
    rw [toNat_ofNat_transitions hle] at hhead
    exact ⟨ts.length, t, ⟨hlen, hhead⟩, (), t, ⟨hle, rfl⟩, rfl, hall, hbody⟩

/-- The size limits of the decoder. -/
structure RootInputV2.Bounded (root : RootInputV2) : Prop where
  shardId : root.shardId.val.length ≤ maxShardIdBytes
  leader : root.technical.leader.val.length ≤ maxLeaderBytes
  count : root.transitions.length ≤ maxRootTransitions
  transition : ∀ t ∈ root.transitions, t.val.length ≤ maxEpochTransitionBytes
  recordVersion : root.origin.inputRecordVersion = 1

theorem decodeRootInput_eq_ok {c d : Cursor} {root : RootInputV2} :
    decodeRootInput c = (.ok root, d) ↔ root.Bounded ∧ c.Advance root.encode d := by
  cases root
  simp only [decodeRootInput, RootInputV2.encode, Run.bind_eq_ok, Run.pure_eq_ok, Run.exists_guard,
    readArity_eq_ok (by omega : 13 < 2 ^ 64), readUint_eq_ok, readWord_eq_ok, readBoundedBytes_eq_ok,
    decodeOrigin_eq_ok, decodeTechnical_eq_ok, decodeByteStringArray_eq_ok, ← advance_append, and_assoc,
    exists_and_left, RootInputV2.mk.injEq, existsAndEq, and_true, true_and, List.append_assoc, exists_const]
  constructor
  · rintro ⟨ho, ht, hs, hcount, hall, h⟩
    exact ⟨⟨hs, ht, hcount, hall, ho⟩, h⟩
  · rintro ⟨⟨hs, ht, hcount, hall, ho⟩, h⟩
    exact ⟨ho, ht, hs, hcount, hall, h⟩

section Commitment

variable {H : Bytes → Bytes32}

/-- The decoder accepts exactly the encodings, within its bounds, of values that
pass the profile check. -/
theorem fromCanonicalCbor_eq_ok {input : Bytes} {root : RootInputV2} :
    RootInputV2.fromCanonicalCbor H input = .ok root ↔
      input.length ≤ maxRootInputBytes ∧ root.Bounded ∧ input = root.encode ∧
        ∃ cls, root.originClass H = .ok cls := by
  unfold RootInputV2.fromCanonicalCbor
  split
  next hbig =>
    simp only [Res.fail_ne_ok, false_iff, not_and]
    intro hle
    omega
  next hsmall =>
    rw [Nat.not_lt] at hsmall
    simp only [Res.bind_eq_ok, Decoder.whole, whole_eq_ok (fun _ _ _ => decodeRootInput_eq_ok), Res.mapErr_eq_ok,
      Res.pure_eq_ok]
    constructor
    · rintro ⟨v, ⟨hbounded, hinput⟩, cls, hcls, rfl⟩
      exact ⟨hsmall, hbounded, hinput, cls, hcls⟩
    · rintro ⟨-, hbounded, hinput, cls, hcls⟩
      exact ⟨root, ⟨hbounded, hinput⟩, cls, hcls, rfl⟩

theorem originClass_eq_ok {root : RootInputV2} {cls : OriginClass} :
    root.originClass H = .ok cls ↔
      root.version = 2 ∧ root.b1UpdateHash ≠ Fixed.zero 32 ∧
      root.rootRecordsHash ≠ Fixed.zero 32 ∧ root.origin.inputRecordVersion = 1 ∧
      (root.authorizedRound ≠ 0 ∧ root.technical.round = root.authorizedRound) ∧
      root.certifiedEpoch = root.origin.inputRecord.epoch ∧
      root.technical.epoch = root.authorizedEpoch ∧ root.networkId = root.origin.networkId ∧
      root.transitions.length ≤ 1 ∧ root.checkTransition = .ok () ∧
      technicalRecordHash H root.technical = root.origin.trHash ∧
      root.origin.inputRecord.shape = .ok cls := by
  simp only [RootInputV2.originClass, Res.bind_eq_ok, Res.refuse_eq_ok, not_or, not_not,
    not_lt, ne_eq, Unique.exists_iff, PUnit.default_eq_unit]

/-- The transition of a checked input is within its size limit. -/
theorem checkTransition_ok {root : RootInputV2} (h : root.checkTransition = .ok ())
    (hcount : root.transitions.length ≤ 1) :
    ∀ t ∈ root.transitions, ∃ transition, decodeEpochTransition t = .ok transition := by
  intro t ht
  obtain ⟨raw, hraw⟩ := List.length_eq_one_iff.mp
    (le_antisymm hcount (List.length_pos_of_mem ht))
  rw [hraw, List.mem_singleton] at ht
  subst ht
  simp only [RootInputV2.checkTransition, hraw, List.head?_cons, Res.bind_eq_ok,
    Res.mapErr_eq_ok] at h
  obtain ⟨transition, hdecode, -⟩ := h
  exact ⟨transition, hdecode⟩

theorem length_of_decodeEpochTransition {t : ByteVec} {transition : EpochTransition}
    (h : decodeEpochTransition t = .ok transition) : t.val.length ≤ maxEpochTransitionBytes := by
  simp only [decodeEpochTransition, Res.bind_eq_ok, Res.refuse_eq_ok, not_lt] at h
  obtain ⟨_, hlen, -⟩ := h
  exact hlen

theorem bounded_of_originClass {root : RootInputV2} {cls : OriginClass}
    (h : root.originClass H = .ok cls) (hshard : root.shardId.val.length ≤ maxShardIdBytes)
    (hleader : root.technical.leader.val.length ≤ maxLeaderBytes) : root.Bounded := by
  obtain ⟨-, -, -, hversion, -, -, -, -, hcount, htransition, -, -⟩ := originClass_eq_ok.mp h
  refine ⟨hshard, hleader, hcount, ?_, hversion⟩
  intro t ht
  obtain ⟨transition, hdecode⟩ := checkTransition_ok htransition hcount t ht
  exact length_of_decodeEpochTransition hdecode

/-! ## Sizes -/

theorem length_major_le (kind : UInt8) (v : UInt64) : (major kind v).length ≤ 9 := by
  unfold major
  split_ifs <;> simp

theorem length_uint_le (v : UInt64) : (uint v).length ≤ 9 := length_major_le 0 v

theorem length_array_le (v : UInt64) : (array v).length ≤ 9 := length_major_le 4 v

theorem length_bytes_le (b : Bytes) : (bytes b).length ≤ 9 + b.length := by
  have := length_major_le 2 (.ofNat b.length)
  rw [bytes, List.length_append]
  omega

theorem length_text_le (b : Bytes) : (text b).length ≤ 9 + b.length := by
  have := length_major_le 3 (.ofNat b.length)
  rw [text, List.length_append]
  omega

theorem length_word_le (w : Bytes32) : (bytes w.val).length ≤ 41 := by
  have := length_bytes_le w.val
  rw [Fixed.length_val] at this
  exact this

theorem length_nullableWord_le (w : Option Bytes32) : (nullableWord w).length ≤ 41 := by
  cases w with
  | none => simp [nullableWord]
  | some w => exact length_word_le w

theorem length_encodeInputRecord_le (ir : InputRecordV2) : (encodeInputRecord ir).length ≤ 159 := by
  simp only [encodeInputRecord, List.length_append]
  grind [length_array_le, length_uint_le, length_nullableWord_le]

theorem length_encodeOrigin_le (o : RootOriginV2) : (encodeOrigin o).length ≤ 327 := by
  simp only [encodeOrigin, List.length_append]
  grind [length_array_le, length_uint_le, length_word_le, length_encodeInputRecord_le]

theorem length_encodeTechnical_le (t : TechnicalRecordV2) :
    (encodeTechnical t).length ≤ 118 + t.leader.val.length := by
  simp only [encodeTechnical, List.length_append]
  grind [length_array_le, length_uint_le, length_text_le, length_word_le]

theorem length_encodeTransitions_le {ts : List ByteVec} (hcount : ts.length ≤ maxRootTransitions)
    (hall : ∀ t ∈ ts, t.val.length ≤ maxEpochTransitionBytes) :
    (encodeTransitions ts).length ≤ 18 + maxEpochTransitionBytes := by
  have h1 := length_array_le (.ofNat ts.length)
  have hbody : (ts.flatMap fun t => bytes t.val).length ≤ 9 + maxEpochTransitionBytes := by
    match ts, hcount, hall with
    | [], _, _ => simp
    | [t], _, hall =>
      have h2 := length_bytes_le t.val
      have h3 := hall t (by simp)
      simp only [List.flatMap_cons, List.flatMap_nil, List.append_nil]
      omega
  rw [encodeTransitions, List.length_append]
  omega

/-- The bound on the whole input never cuts off a value within the field bounds. -/
theorem RootInputV2.Bounded.length_encode_le {root : RootInputV2} (h : root.Bounded) :
    root.encode.length ≤ maxRootInputBytes := by
  have hlimits := And.intro h.shardId h.leader
  have htransitions := length_encodeTransitions_le h.count h.transition
  simp only [maxShardIdBytes, maxLeaderBytes, maxEpochTransitionBytes, maxRootInputBytes] at *
  simp only [RootInputV2.encode, List.length_append]
  grind [length_array_le, length_uint_le, length_bytes_le, length_word_le, length_encodeOrigin_le,
    length_encodeTechnical_le]

end Commitment

/-! ## One value per encoding -/

theorem prefixFree_uint : PrefixFree uint := by
  intro a b r s h
  simp only [uint_eq] at h
  obtain ⟨-, hab, hrs⟩ := Cbor.head_append_inj (by omega) (by omega) a.toNat_lt b.toNat_lt h
  exact ⟨UInt64.toNat.inj hab, hrs⟩

theorem prefixFree_array : PrefixFree array := by
  intro a b r s h
  simp only [array_eq] at h
  obtain ⟨-, hab, hrs⟩ := Cbor.head_append_inj (by omega) (by omega) a.toNat_lt b.toNat_lt h
  exact ⟨UInt64.toNat.inj hab, hrs⟩

/-- A string after its length head. -/
private theorem string_append_inj {kind : Nat} (hk : kind < 8) {a b r s : Bytes}
    (ha : a.length < 2 ^ 63) (hb : b.length < 2 ^ 63)
    (h : Cbor.head kind a.length ++ a ++ r = Cbor.head kind b.length ++ b ++ s) :
    a = b ∧ r = s := by
  rw [List.append_assoc, List.append_assoc] at h
  obtain ⟨-, hlen, hrest⟩ := Cbor.head_append_inj hk hk (by omega) (by omega) h
  exact List.append_inj hrest hlen

theorem prefixFree_bytes : PrefixFree fun b : ByteVec => bytes b.val := by
  intro a b r s h
  simp only [bytes_eq a.property, bytes_eq b.property] at h
  obtain ⟨hab, hrs⟩ := string_append_inj (by omega) a.property b.property h
  exact ⟨Subtype.ext hab, hrs⟩

theorem prefixFree_text : PrefixFree fun t : Text => text t.val := by
  intro a b r s h
  simp only [text_eq a.property.2, text_eq b.property.2] at h
  obtain ⟨hab, hrs⟩ := string_append_inj (by omega) a.property.2 b.property.2 h
  exact ⟨Subtype.ext hab, hrs⟩

theorem prefixFree_word : PrefixFree fun w : Bytes32 => bytes w.val := by
  intro a b r s h
  obtain ⟨hab, hrs⟩ := @prefixFree_bytes ⟨a.val, word_lt a⟩ ⟨b.val, word_lt b⟩ r s h
  exact ⟨Subtype.ext (Subtype.mk.inj hab), hrs⟩

/-- The byte of null does not start a word. -/
private theorem null_ne_word (w : Bytes32) (r s : Bytes) : [0xf6] ++ r ≠ bytes w.val ++ s := by
  intro h
  obtain ⟨x, hx, hmajor⟩ := Cbor.head?_head_append 2 w.val.length (w.val ++ s) (by omega)
  rw [bytes_eq (word_lt w), List.append_assoc] at h
  rw [← h, List.singleton_append, List.head?_cons, Option.some.injEq] at hx
  subst hx
  exact absurd hmajor (by decide)

theorem prefixFree_nullableWord : PrefixFree nullableWord := by
  intro a b r s h
  match a, b with
  | none, none => exact ⟨rfl, List.append_cancel_left h⟩
  | none, some w => exact absurd h (null_ne_word w r s)
  | some w, none => exact absurd h.symm (null_ne_word w s r)
  | some v, some w =>
    obtain ⟨hvw, hrs⟩ := prefixFree_word h
    exact ⟨congrArg some hvw, hrs⟩

theorem prefixFree_encodeTechnical : PrefixFree encodeTechnical := by
  rintro ⟨⟩ ⟨⟩ r s h
  simpa only [encodeTechnical, List.append_assoc, prefixFree_array.append_iff, prefixFree_uint.append_iff,
    prefixFree_text.append_iff, prefixFree_word.append_iff, TechnicalRecordV2.mk.injEq, true_and, and_assoc] using h

theorem prefixFree_encodeInputRecord : PrefixFree encodeInputRecord := by
  rintro ⟨⟩ ⟨⟩ r s h
  simpa only [encodeInputRecord, List.append_assoc, prefixFree_array.append_iff, prefixFree_uint.append_iff,
    prefixFree_nullableWord.append_iff, InputRecordV2.mk.injEq, true_and, and_assoc] using h

/-- The origin up to its record version, which is not encoded. -/
theorem encodeOrigin_append_inj {o p : RootOriginV2} {r s : Bytes}
    (hversion : o.inputRecordVersion = p.inputRecordVersion)
    (h : encodeOrigin o ++ r = encodeOrigin p ++ s) : o = p ∧ r = s := by
  cases o
  cases p
  simp only [encodeOrigin, List.append_assoc, prefixFree_array.append_iff, prefixFree_uint.append_iff,
    prefixFree_word.append_iff, prefixFree_encodeInputRecord.append_iff] at h
  simp_all

theorem flatMap_bytes_append_inj {ts us : List ByteVec} (hlen : ts.length = us.length)
    {r s : Bytes} (h : (ts.flatMap fun t => bytes t.val) ++ r = (us.flatMap fun t => bytes t.val) ++ s) :
    ts = us ∧ r = s := by
  induction ts generalizing us with
  | nil =>
    obtain rfl := List.length_eq_zero_iff.mp hlen.symm
    exact ⟨rfl, h⟩
  | cons t ts ih =>
    obtain ⟨u, us, rfl⟩ := List.exists_cons_of_length_eq_add_one hlen.symm
    simp only [List.flatMap_cons, List.append_assoc] at h
    obtain ⟨htu, hrest⟩ := prefixFree_bytes h
    obtain ⟨hts, hrs⟩ := ih (by simpa using hlen) hrest
    exact ⟨by rw [htu, hts], hrs⟩

theorem encodeTransitions_append_inj {ts us : List ByteVec} (hts : ts.length ≤ 1)
    (hus : us.length ≤ 1) {r s : Bytes} (h : encodeTransitions ts ++ r = encodeTransitions us ++ s) :
    ts = us ∧ r = s := by
  simp only [encodeTransitions, List.append_assoc] at h
  obtain ⟨hcount, h⟩ := prefixFree_array h
  have hlen := congrArg UInt64.toNat hcount
  rw [toNat_ofNat_transitions hts, toNat_ofNat_transitions hus] at hlen
  exact flatMap_bytes_append_inj hlen h

/-- Two checked inputs with one encoding are equal. -/
theorem RootInputV2.encode_inj {v w : RootInputV2}
    (hversion : v.origin.inputRecordVersion = w.origin.inputRecordVersion)
    (hv : v.transitions.length ≤ 1) (hw : w.transitions.length ≤ 1)
    (h : v.encode = w.encode) : v = w := by
  cases v
  cases w
  replace h := congrArg (· ++ []) h
  simp only [RootInputV2.encode, List.append_assoc, prefixFree_array.append_iff, prefixFree_uint.append_iff,
    prefixFree_bytes.append_iff, prefixFree_word.append_iff] at h
  obtain ⟨-, e2, e3, e4, e5, e6, e7, e8, e9, h⟩ := h
  obtain ⟨e10, h⟩ := encodeOrigin_append_inj hversion h
  obtain ⟨e11, h⟩ := prefixFree_encodeTechnical h
  obtain ⟨e12, h⟩ := encodeTransitions_append_inj hv hw h
  simp only [prefixFree_word.append_iff] at h
  obtain ⟨e13, e14, -⟩ := h
  subst e2 e3 e4 e5 e6 e7 e8 e9 e10 e11 e12 e13 e14
  rfl

section Commitment

variable {H : Bytes → Bytes32}

theorem canonicalCbor_eq_ok {root : RootInputV2} {b : Bytes} :
    root.canonicalCbor H = .ok b ↔ (∃ cls, root.originClass H = .ok cls) ∧ root.encode = b := by
  simp only [RootInputV2.canonicalCbor, Res.bind_eq_ok, Res.pure_eq_ok,
    exists_and_right]

theorem inputCommitment_eq_ok {root : RootInputV2} {h : Bytes32} :
    root.inputCommitment H = .ok h ↔ (∃ cls, root.originClass H = .ok cls) ∧ H root.encode = h := by
  simp only [RootInputV2.inputCommitment, Res.bind_eq_ok, canonicalCbor_eq_ok, Res.pure_eq_ok]
  constructor
  · rintro ⟨_, ⟨hcls, rfl⟩, hh⟩
    exact ⟨hcls, hh⟩
  · rintro ⟨hcls, hh⟩
    exact ⟨_, ⟨hcls, rfl⟩, hh⟩

theorem RootInputV2.eq_of_encode_eq {v w : RootInputV2} {cv cw : OriginClass}
    (hv : v.originClass H = .ok cv) (hw : w.originClass H = .ok cw) (h : v.encode = w.encode) :
    v = w := by
  obtain ⟨-, -, -, hvv, -, -, -, -, hvc, -, -, -⟩ := originClass_eq_ok.mp hv
  obtain ⟨-, -, -, hwv, -, -, -, -, hwc, -, -, -⟩ := originClass_eq_ok.mp hw
  exact encode_inj (hvv.trans hwv.symm) hvc hwc h

/-- A commitment names one input, hash collisions aside. -/
theorem eq_or_collision_of_inputCommitment {v w : RootInputV2} {h : Bytes32}
    (hv : v.inputCommitment H = .ok h) (hw : w.inputCommitment H = .ok h) :
    v = w ∨ Collision H [v.encode, w.encode] := by
  obtain ⟨⟨_, hcv⟩, hhv⟩ := inputCommitment_eq_ok.mp hv
  obtain ⟨⟨_, hcw⟩, hhw⟩ := inputCommitment_eq_ok.mp hw
  by_cases heq : v.encode = w.encode
  · exact .inl (RootInputV2.eq_of_encode_eq hcv hcw heq)
  · exact .inr ⟨v.encode, by simp, w.encode, by simp, heq, hhv.trans hhw.symm⟩

end Commitment

end Ureth.Source.Execution
