import Ureth.Foundation.Metered
import Ureth.Source.Execution.Update
import Ureth.Source.Execution.WireSpec

/-!
# The codec of the committed update is exact

The encoder of an `Update`, and every step of the schema-directed reader as a move over the bytes
the encoder writes. Both modes of the reader are described by the same values, so the scan accepts
what the decoding pass accepts.
-/

namespace Ureth.Source.Execution
open Ureth.Foundation

/-! ## The encoder -/

namespace Update

/-- The update has a head writer of its own, with the five ranges of the root input's. -/
def head (kind : UInt8) (value : UInt64) : Bytes := major kind value

def optional : Option UInt64 → Bytes
  | some v => head 0 v
  | none => [0xf6]

def hash (word : Bytes32) : Bytes := head 2 32 ++ word.val

end Update

def Member.toBytes (member : Member) : Bytes :=
  Update.head 4 3 ++ Update.head 3 (.ofNat member.nodeId.val.length) ++ member.nodeId.val ++
    Update.head 2 33 ++ member.key.val ++ Update.head 0 member.weight

def Entry.toBytes (entry : Entry) : Bytes :=
  Update.head 4 9 ++ Update.head 0 entry.epoch ++ Update.head 0 entry.bodyKind ++
    Update.hash entry.bodyId ++ Update.hash entry.activationCommitId ++ Update.head 0 entry.start ++
    Update.optional entry.stop ++ Update.head 0 entry.signingScheme ++
    Update.hash entry.signingConfigHash ++ Update.head 4 (.ofNat entry.members.length) ++
    entry.members.flatMap Member.toBytes

def Update.toBytes (u : Update) : Bytes :=
  Update.head 4 13 ++ Update.head 3 (.ofNat updateDomain.length) ++ updateDomain ++
    Update.head 0 u.network.toUInt64 ++ Update.hash u.rootGenesisId ++
    Update.head 0 u.executionChainId ++ Update.hash u.profileHash ++ Update.hash u.parentHash ++
    Update.head 0 u.blockNumber ++ Update.head 0 u.originEpoch ++ Update.head 0 u.originRound ++
    Update.hash u.originIdentity ++ Update.head 0 u.priorTipEpoch ++ Update.optional u.oldTipEnd ++
    Update.head 4 (.ofNat u.newEntries.length) ++ u.newEntries.flatMap Entry.toBytes

/-! ## Sizes -/

/-- The identifier of the member fits the schema. -/
def Member.Sized (member : Member) : Prop :=
  1 ≤ member.nodeId.val.length ∧ member.nodeId.val.length ≤ maxNodeIdBytes

/-- The members of the entry fit the schema. -/
def Entry.Sized (entry : Entry) : Prop :=
  1 ≤ entry.members.length ∧ entry.members.length ≤ maxUpdateMembers ∧ ∀ m ∈ entry.members, m.Sized

/-- The entries of the update fit the schema. -/
def Update.Sized (maxEntries : ℕ) (u : Update) : Prop :=
  u.newEntries.length ≤ maxEntries ∧ ∀ e ∈ u.newEntries, e.Sized

/-- The number of tokens of an entry: ten of its own and four of each member. -/
def Entry.tokens (entry : Entry) : ℕ := 10 + 4 * entry.members.length

def Update.tokens (u : Update) : ℕ := 14 + (u.newEntries.map Entry.tokens).sum

/-- The number of members of all entries. -/
def Update.memberCount (u : Update) : ℕ := (u.newEntries.map fun e => e.members.length).sum

theorem Update.head_eq (kind : Nat) (value : UInt64) (hk : kind < 8) :
    Update.head (.ofNat kind) value = Cbor.head kind value.toNat := major_eq_head kind value hk

theorem Member.length_toBytes_pos (member : Member) : 0 < member.toBytes.length := by
  have hhead := Cbor.head_length_pos 4 3
  have heq : Update.head 4 3 = Cbor.head 4 3 := Update.head_eq 4 3 (by omega)
  simp only [Member.toBytes, List.length_append, heq]
  omega

theorem Entry.length_toBytes_pos (entry : Entry) : 0 < entry.toBytes.length := by
  have hhead := Cbor.head_length_pos 4 9
  have heq : Update.head 4 9 = Cbor.head 4 9 := Update.head_eq 4 9 (by omega)
  simp only [Entry.toBytes, List.length_append, heq]
  omega

/-! ## The reader -/

namespace Reader

def meter (r : Reader) : Metered := ⟨r.cursor, r.tokens⟩

/-- `r'` is `r` moved over the bytes `b` with `n` more tokens. -/
def Advance (r : Reader) (b : Bytes) (n : ℕ) (r' : Reader) : Prop :=
  r'.limit = r.limit ∧ r.meter.Advance r.limit b n r'.meter

variable {r r' : Reader} {a b : Bytes} {k n : ℕ}

theorem advance_nil : r.Advance [] 0 r' ↔ r' = r := by
  rw [Advance, Metered.advance_nil]
  cases r
  cases r'
  simp only [meter, Metered.mk.injEq, Reader.mk.injEq]
  tauto

theorem advance_append :
    r.Advance (a ++ b) (k + n) r' ↔ ∃ t, r.Advance a k t ∧ t.Advance b n r' := by
  constructor
  · rintro ⟨hlimit, hmeter⟩
    obtain ⟨t, ha, hb⟩ := Metered.advance_append.mp hmeter
    exact ⟨⟨t.cursor, t.tokens, r.limit⟩, ⟨rfl, ha⟩, hlimit, hb⟩
  · rintro ⟨t, ⟨hlimit, ha⟩, hlimit', hb⟩
    rw [hlimit] at hb
    exact ⟨hlimit'.trans hlimit, Metered.advance_append.mpr ⟨t.meter, ha, hb⟩⟩

theorem take_iff {s : ByteVec} : take n r = (.ok s, r') ↔ s.val.length = n ∧ r.Advance s.val 0 r' := by
  have hread : take n r = (.ok s, r') ↔
      Cursor.take UpdateError.encoding UpdateError.encoding n r.cursor = (.ok s, r'.cursor) ∧ r'.tokens = r.tokens ∧
        r'.limit = r.limit := by
    cases r'
    simp only [take, Prod.ext_iff, Reader.mk.injEq]
    tauto
  rw [hread, Cursor.take_eq_ok, and_assoc]
  refine and_congr_right fun _ => ?_
  constructor
  · rintro ⟨hcursor, htokens, hlimit⟩
    exact ⟨hlimit, hcursor, htokens, .inl rfl⟩
  · rintro ⟨hlimit, hcursor, htokens, -⟩
    exact ⟨hcursor, htokens, hlimit⟩

theorem token_iff {u : Unit} : token r = (.ok u, r') ↔ r.Advance [] 1 r' := by
  simp only [token, Prod.mk.injEq, Res.refuse_eq_ok, not_lt]
  constructor
  · rintro ⟨hle, rfl⟩
    exact ⟨rfl, Cursor.advance_nil.mpr rfl, rfl, .inr hle⟩
  · rintro ⟨hlimit, hcursor, htokens, hwithin⟩
    have hsame := Cursor.advance_nil.mp hcursor
    cases r'
    simp only [meter] at *
    subst hlimit hsame htokens
    exact ⟨hwithin.resolve_left one_ne_zero, rfl⟩

theorem left_iff : left r = (.ok n, r') ↔ n = r.cursor.rest.length ∧ r' = r := by
  rw [left, Prod.mk.injEq, Except.ok.injEq, eq_comm, eq_comm (a := r)]

/-- The argument in `width` bytes, with the comparison the source makes for this width. -/
private theorem wide_iff_of {width least : ℕ} {minimal : ℕ → Bool} (hwidth : width ≤ 8)
    (hminimal : ∀ value, minimal value = true ↔ least ≤ value)
    (hwide : wide width = (do
      let raw ← take width
      Run.refuse (minimal (beNat raw.val) = false) .encoding
      return .ofNat (beNat raw.val) : Read UInt64)) {v : UInt64} :
    wide width r = (.ok v, r') ↔
      ∃ b, r.Advance b 0 r' ∧ b.length = width ∧ least ≤ beNat b ∧ beNat b = v.toNat := by
  have hvalue : ∀ b : Bytes, b.length = width → (UInt64.ofNat (beNat b)).toNat = beNat b := by
    intro b hb
    have hlt := beNat_lt b
    have hpow : 256 ^ b.length ≤ 256 ^ 8 := Nat.pow_le_pow_right (by omega) (by omega)
    rw [UInt64.toNat_ofNat']
    omega
  simp only [hwide, Run.bind_eq_ok, take_iff, Run.refuse_eq_ok, Run.pure_eq_ok, Bool.not_eq_false,
    hminimal]
  constructor
  · rintro ⟨s, _, ⟨hlen, h⟩, _, _, ⟨hleast, rfl⟩, rfl, rfl⟩
    exact ⟨s.val, h, hlen, hleast, (hvalue s.val hlen).symm⟩
  · rintro ⟨b, h, hlen, hleast, hv⟩
    refine ⟨⟨b, by omega⟩, r', ⟨hlen, h⟩, (), r', ⟨hleast, rfl⟩, ?_, rfl⟩
    apply UInt64.toNat.inj
    rw [hvalue b hlen, hv]

theorem wide_iff {info : ℕ} (hlo : 24 ≤ info) (hhi : info < 28) {v : UInt64} :
    wide (2 ^ (info - 24)) r = (.ok v, r') ↔
      ∃ b, r.Advance b 0 r' ∧ b.length = 2 ^ (info - 24) ∧ Cbor.minArg info ≤ beNat b ∧
        beNat b = v.toNat := by
  have hcases : info = 24 ∨ info = 25 ∨ info = 26 ∨ info = 27 := by omega
  rcases hcases with rfl | rfl | rfl | rfl
  · exact wide_iff_of (by decide) (fun value => decide_eq_true_iff) rfl
  · exact wide_iff_of (by decide) (fun value => decide_eq_true_iff) rfl
  · exact wide_iff_of (by decide) (fun value => decide_eq_true_iff) rfl
  · exact wide_iff_of (by decide) (fun value => decide_eq_true_iff) rfl

/-- One item head, in its shortest form, is one token. -/
theorem head_iff {m : ℕ} {v : UInt64} :
    head r = (.ok (m, v), r') ↔ m < 8 ∧ r.Advance (Cbor.head m v.toNat) 1 r' := by
  -- what follows the initial byte completes it to a shortest head
  have hargument (x : UInt8) (t : Reader) :
      (if x.toNat % 32 < 24 then return (x.toNat / 32, .ofNat (x.toNat % 32))
        else do
          Run.refuse (27 < x.toNat % 32) .encoding
          let value ← wide (2 ^ (x.toNat % 32 - 24))
          return (x.toNat / 32, value) : Read (ℕ × UInt64)) t = (.ok (m, v), r') ↔
      x.toNat / 32 = m ∧ ∃ b, t.Advance b 0 r' ∧ Cbor.readHead (x :: b) = some (m, v.toNat, []) := by
    split
    next hsmall =>
      simp only [Run.pure_eq_ok, Prod.mk.injEq, Cbor.readHead, if_pos hsmall, Option.some.injEq]
      constructor
      · rintro ⟨⟨rfl, rfl⟩, rfl⟩
        refine ⟨rfl, [], advance_nil.mpr rfl, rfl, ?_, rfl⟩
        rw [UInt64.toNat_ofNat']
        omega
      · rintro ⟨hm, b, hb, -, hv, rfl⟩
        refine ⟨⟨hm, ?_⟩, advance_nil.mp hb⟩
        rw [hv, UInt64.ofNat_toNat]
    next hlarge =>
      simp only [Run.bind_eq_ok, Run.refuse_eq_ok, Run.pure_eq_ok, Prod.mk.injEq, not_lt]
      by_cases hwide : x.toNat % 32 < 28
      · simp only [wide_iff (Nat.not_lt.mp hlarge) hwide,
          Cbor.readHead_cons_wide (Nat.not_lt.mp hlarge) hwide]
        constructor
        · rintro ⟨_, _, ⟨-, rfl⟩, _, _, ⟨b, hb, hlen, hmin, hv⟩, ⟨rfl, rfl⟩, rfl⟩
          exact ⟨rfl, b, hb, rfl, hlen, hmin, hv⟩
        · rintro ⟨hm, b, hb, -, hlen, hmin, hv⟩
          exact ⟨(), t, ⟨by omega, rfl⟩, v, r', ⟨b, hb, hlen, hmin, hv⟩, ⟨hm, rfl⟩, rfl⟩
      · have hnone : ∀ b, Cbor.readHead (x :: b) = none := by
          intro b
          rw [Cbor.readHead, if_neg hlarge, if_neg hwide]
        simp only [hnone, reduceCtorEq, and_false, exists_false, iff_false]
        rintro ⟨_, _, ⟨hle, -⟩, -⟩
        omega
  have hsplit : head r = (.ok (m, v), r') ↔
      ∃ x t, r.Advance [x] 1 t ∧ x.toNat / 32 = m ∧
        ∃ b, t.Advance b 0 r' ∧ Cbor.readHead (x :: b) = some (m, v.toNat, []) := by
    simp only [head, Run.bind_eq_ok, token_iff, take_iff, Run.lift_eq_ok, Res.index_eq_ok]
    constructor
    · rintro ⟨_, t1, htoken, s, t2, ⟨hlen, hs⟩, x, _, ⟨hx, rfl⟩, hrest⟩
      obtain ⟨y, hy⟩ := List.length_eq_one_iff.mp hlen
      rw [hy] at hs hx
      obtain rfl : y = x := by simpa using hx
      exact ⟨y, _, advance_append (a := []).mpr ⟨t1, htoken, hs⟩, (hargument y _).mp hrest⟩
    · rintro ⟨x, t, hx, hrest⟩
      obtain ⟨t1, htoken, hs⟩ := advance_append (a := []) (k := 1) (n := 0).mp hx
      exact ⟨(), t1, htoken, ⟨[x], by simp⟩, t, ⟨rfl, hs⟩, x, t, ⟨rfl, rfl⟩, (hargument x t).mpr hrest⟩
  rw [hsplit]
  constructor
  · rintro ⟨x, t, hx, rfl, b, hb, hread⟩
    have hm : x.toNat / 32 < 8 := by
      have := x.toNat_lt
      omega
    rw [Cbor.readHead_eq_nil hm v.toNat_lt] at hread
    rw [← hread]
    exact ⟨hm, advance_append (a := [x]) (k := 1) (n := 0).mpr ⟨t, hx, hb⟩⟩
  · rintro ⟨hm, h⟩
    obtain ⟨x, b, hhead⟩ := List.exists_cons_of_ne_nil (Cbor.head_ne_nil m v.toNat)
    rw [hhead] at h
    obtain ⟨t, hx, hb⟩ := advance_append (a := [x]) (k := 1) (n := 0).mp h
    have hread := (Cbor.readHead_eq_nil hm v.toNat_lt).mpr hhead.symm
    obtain ⟨first, hfirst, hmajor⟩ := Cbor.head?_head_append m v.toNat [] hm
    rw [List.append_nil, hhead, List.head?_cons, Option.some.injEq] at hfirst
    obtain rfl := hfirst
    exact ⟨x, t, hx, hmajor, b, hb, hread⟩

theorem arity_iff {n : UInt64} {u : Unit} :
    arity n r = (.ok u, r') ↔ r.Advance (Update.head 4 n) 1 r' := by
  have heq : Update.head 4 n = Cbor.head 4 n.toNat := Update.head_eq 4 n (by omega)
  simp only [arity, Run.bind_eq_ok, Run.refuse_eq_ok, head_iff, Prod.exists, not_not, heq]
  constructor
  · rintro ⟨_, _, _, ⟨-, h⟩, ⟨rfl, rfl⟩, rfl⟩
    exact h
  · intro h
    exact ⟨4, n, r', ⟨by omega, h⟩, ⟨rfl, rfl⟩, rfl⟩

theorem uint_iff {v : UInt64} : uint r = (.ok v, r') ↔ r.Advance (Update.head 0 v) 1 r' := by
  have heq : Update.head 0 v = Cbor.head 0 v.toNat := Update.head_eq 0 v (by omega)
  simp only [uint, Run.bind_eq_ok, Run.refuse_eq_ok, Run.pure_eq_ok, head_iff, Prod.exists, not_not, heq]
  constructor
  · rintro ⟨_, _, _, ⟨-, h⟩, _, _, ⟨rfl, rfl⟩, rfl, rfl⟩
    exact h
  · intro h
    exact ⟨0, v, r', ⟨by omega, h⟩, (), r', ⟨rfl, rfl⟩, rfl, rfl⟩

/-- The bytes still to be passed are among those not read yet. -/
theorem Advance.length_le (h : r.Advance b n r') : b.length ≤ r.cursor.rest.length := by
  have hrest := h.2.cursor.rest
  rw [show r.cursor.rest = r.meter.cursor.rest from rfl, hrest, List.length_append]
  omega

theorem Advance.length_lt (h : r.Advance b n r') : b.length < 2 ^ 63 := by
  have hle := h.length_le
  have hslice := r.cursor.slice
  rw [Cursor.length_rest] at hle
  omega

theorem string_iff {kind least most : ℕ} (hk : kind < 8) {s : ByteVec} :
    string kind least most r = (.ok s, r') ↔
      least ≤ s.val.length ∧ s.val.length ≤ most ∧ (kind = 3 → validUtf8 s.val = true) ∧
        r.Advance (Update.head (.ofNat kind) (.ofNat s.val.length) ++ s.val) 1 r' := by
  have hlength : (UInt64.ofNat s.val.length).toNat = s.val.length := by
    have := s.property
    rw [UInt64.toNat_ofNat']
    omega
  rw [Update.head_eq kind _ hk, hlength]
  simp only [string, Run.bind_eq_ok, Run.refuse_eq_ok, Run.pure_eq_ok, head_iff, left_iff, take_iff,
    Prod.exists, not_or, not_not, not_lt, not_and, Bool.not_eq_false]
  constructor
  · rintro ⟨m, v, t, ⟨-, hhead⟩, _, _, ⟨rfl, rfl⟩, _, _, ⟨⟨rfl, hleast, hmost, -⟩, rfl⟩, out, _,
      ⟨hlen, hout⟩, _, _, ⟨hutf8, rfl⟩, rfl, rfl⟩
    rw [hlen]
    exact ⟨hleast, hmost, hutf8, advance_append (k := 1) (n := 0).mpr ⟨_, hhead, hout⟩⟩
  · rintro ⟨hleast, hmost, hutf8, h⟩
    obtain ⟨t, hhead, hout⟩ := advance_append (k := 1) (n := 0).mp h
    refine ⟨kind, .ofNat s.val.length, t, ⟨hk, by rwa [hlength]⟩, _, t, ⟨rfl, rfl⟩, (), t,
      ⟨⟨rfl, ?_, ?_, ?_⟩, rfl⟩, s, r', ⟨hlength.symm, hout⟩, (), r', ⟨hutf8, rfl⟩, rfl, rfl⟩
    · rwa [hlength]
    · rwa [hlength]
    · rw [hlength]
      exact hout.length_le

theorem hash_iff {w : Bytes32} : hash r = (.ok w, r') ↔ r.Advance (Update.hash w) 1 r' := by
  have hlen := Fixed.length_val w
  simp only [hash, Run.bind_eq_ok, Run.lift_eq_ok, Res.unwrap_eq_ok, Fixed.ofBytes?_eq_some,
    string_iff (by omega : 2 < 8)]
  constructor
  · rintro ⟨s, _, ⟨-, -, -, h⟩, hw, rfl⟩
    rw [hw, hlen] at h
    exact h
  · intro h
    refine ⟨⟨w.val, word_lt w⟩, r', ⟨hlen.ge, hlen.le, fun h => absurd h (by decide), ?_⟩, rfl, rfl⟩
    rw [hlen]
    exact h

theorem optional_iff {v : Option UInt64} :
    optional r = (.ok v, r') ↔ r.Advance (Update.optional v) 1 r' := by
  unfold optional
  split
  next hnull =>
    simp only [Run.bind_eq_ok, take_iff, token_iff, Run.pure_eq_ok]
    constructor
    · rintro ⟨s, t, ⟨hlen, hs⟩, _, _, htoken, rfl, rfl⟩
      obtain ⟨y, hy⟩ := List.length_eq_one_iff.mp hlen
      rw [hy] at hs
      have hsame := Cursor.advance_singleton hs.2.cursor
      obtain rfl : y = 0xf6 := Option.some.inj (hsame.symm.trans hnull)
      exact advance_append (b := []) (k := 0) (n := 1).mpr ⟨t, hs, htoken⟩
    · intro h
      cases v with
      | none =>
        obtain ⟨t, hs, htoken⟩ := advance_append (a := [0xf6]) (b := []) (k := 0) (n := 1).mp h
        exact ⟨⟨[0xf6], by simp⟩, t, ⟨rfl, hs⟩, (), r', htoken, rfl, rfl⟩
      | some v =>
        -- an unsigned integer has another initial byte
        have heq : Update.head 0 v = Cbor.head 0 v.toNat := Update.head_eq 0 v (by omega)
        obtain ⟨first, hfirst, hmajor⟩ :=
          Cbor.head?_head_append 0 v.toNat r'.cursor.rest (by omega)
        have hrest : r.cursor.rest = Cbor.head 0 v.toNat ++ r'.cursor.rest := by
          rw [← heq]
          exact h.2.cursor.rest
        rw [hrest, hfirst] at hnull
        obtain rfl := Option.some.inj hnull
        exact absurd hmajor (by decide)
  next hother =>
    simp only [Run.bind_eq_ok, uint_iff, Run.pure_eq_ok]
    constructor
    · rintro ⟨v, _, h, rfl, rfl⟩
      exact h
    · intro h
      cases v with
      | none => exact absurd (Cursor.advance_singleton h.2.cursor) hother
      | some v => exact ⟨v, r', h, rfl, rfl⟩

/-! ## Members, entries and the update -/

theorem nodeIdText_eq_some {s : ByteVec} {v : Text} : nodeIdText s = some v ↔ s.val = v.val := by
  unfold nodeIdText
  split
  next h => simp [Subtype.ext_iff]
  next h =>
    simp only [reduceCtorEq, false_iff]
    intro hs
    exact h (hs ▸ v.property.1)

/-- In both modes the reader passes over the encoding of a member that fits the schema. -/
theorem member_iff {decode : Bool} {out : Option Member} :
    member decode r = (.ok out, r') ↔
      ∃ m : Member, m.Sized ∧ r.Advance m.toBytes 4 r' ∧ out = if decode then some m else none := by
  simp only [member, Run.bind_eq_ok, arity_iff, string_iff (by omega : 3 < 8), string_iff (by omega : 2 < 8),
    uint_iff, ← advance_append, @Run.exists_then Reader, and_assoc, Run.exists_guard, exists_and_left, exists_const, @Run.exists_swap Reader ByteVec,
    @Run.exists_swap Reader UInt64, UInt8.reduceOfNat, Nat.reduceAdd]
  constructor
  · rintro ⟨id, hmost, hutf8, hleast, key, hkey', -, hkey, weight, t, h, hout⟩
    have hlen : key.val.length = 33 := Nat.le_antisymm hkey' hkey
    rw [hlen] at h
    refine ⟨⟨⟨id.val, hutf8 trivial, id.property⟩, ⟨key.val, hlen⟩, weight⟩, ⟨hleast, hmost⟩, ?_⟩
    rw [Member.toBytes]
    cases decode with
    | true =>
      simp only [if_true, Run.bind_eq_ok, Run.lift_eq_ok, Res.okOr_eq_ok, nodeIdText_eq_some,
        Fixed.ofBytes?_eq_some, Run.pure_eq_ok] at hout
      obtain ⟨nodeId, _, ⟨hid, rfl⟩, key', _, ⟨hkey, rfl⟩, rfl, rfl⟩ := hout
      refine ⟨by simpa only [List.append_assoc, UInt64.reduceOfNat] using h, ?_⟩
      rw [if_pos rfl, Option.some.injEq, Member.mk.injEq]
      exact ⟨Subtype.ext hid.symm, Subtype.ext hkey.symm, rfl⟩
    | false =>
      obtain ⟨rfl, rfl⟩ := Run.pure_eq_ok.mp hout
      exact ⟨by simpa only [List.append_assoc, UInt64.reduceOfNat] using h, rfl⟩
  · rintro ⟨m, ⟨hleast, hmost⟩, h, rfl⟩
    have hlen := Fixed.length_val m.key
    refine ⟨⟨m.nodeId.val, m.nodeId.property.2⟩, hmost, fun _ => m.nodeId.property.1, hleast,
      ⟨m.key.val, by omega⟩, hlen.le, fun h => absurd h (by decide), hlen.ge, m.weight, r', ?_, ?_⟩
    · simpa only [Member.toBytes, List.append_assoc, hlen, UInt64.reduceOfNat] using h
    cases decode with
    | true =>
      simp only [if_true, Run.bind_eq_ok, Run.lift_eq_ok, Res.okOr_eq_ok, nodeIdText_eq_some,
        Fixed.ofBytes?_eq_some, Run.pure_eq_ok]
      exact ⟨m.nodeId, r', ⟨rfl, rfl⟩, m.key, r', ⟨rfl, rfl⟩, rfl, rfl⟩
    | false => exact Run.pure_eq_ok.mpr ⟨rfl, rfl⟩

theorem members_iff {decode : Bool} {count : ℕ} {outs : List (Option Member)} :
    (member decode).times count r = (.ok outs, r') ↔
      ∃ ms : List Member, ms.length = count ∧ (∀ m ∈ ms, m.Sized) ∧
        r.Advance (ms.flatMap Member.toBytes) (4 * ms.length) r' ∧
        outs = ms.map fun m => if decode then some m else none := by
  apply Run.times_eq_ok Member.Sized (fun m => if decode then some m else none)
    (fun (s : Reader) m t => s.Advance m.toBytes 4 t)
    (fun (s : Reader) ms t => s.Advance (ms.flatMap Member.toBytes) (4 * ms.length) t)
  · intro s t out
    exact member_iff
  · intro s t
    exact advance_nil
  · intro s m ms u
    rw [List.flatMap_cons, List.length_cons, Nat.mul_succ, Nat.add_comm]
    exact advance_append

theorem count_head {n : ℕ} (h : n < 2 ^ 64) : Update.head 4 (.ofNat n) = Cbor.head 4 n := by
  have hhead := Update.head_eq 4 (.ofNat n) (by omega)
  rwa [UInt64.toNat_ofNat_of_lt' h] at hhead

theorem reduceOption_map_some {α : Type} (as : List α) : (as.map some).reduceOption = as := by
  induction as with
  | nil => rfl
  | cons a as ih => rw [List.map_cons, List.reduceOption_cons_of_some, ih]

/-- In both modes the reader passes over the encoding of an entry that fits the schema. -/
theorem entry_iff {decode : Bool} {out : Option Entry × ℕ} :
    entry decode r = (.ok out, r') ↔
      ∃ e : Entry, e.Sized ∧ r.Advance e.toBytes e.tokens r' ∧
        out = (if decode then some e else none, e.members.length) := by
  simp only [entry, Run.bind_eq_ok, Run.refuse_eq_ok, Run.pure_eq_ok, arity_iff, uint_iff, hash_iff,
    optional_iff, head_iff, left_iff, members_iff, Prod.exists, not_or, not_not, not_lt, existsAndEq, ← advance_append, @Run.exists_then Reader,
    and_assoc, Run.exists_guard, exists_and_left, exists_const, true_and, and_true, @Run.exists_swap Reader UInt64,
    @Run.exists_swap Reader Bytes32, @Run.exists_swap Reader (Option UInt64), Nat.reduceAdd]
  constructor
  · rintro ⟨-, epoch, kind, id, commit, start, stop, scheme, config, count, hmost, t, h, -, hpos, ms, rfl, hlen,
      hsized, hms⟩
    refine ⟨⟨epoch, kind, id, commit, start, stop, scheme, config, ms⟩, ⟨?_, ?_, hsized⟩, ?_, ?_⟩
    · rw [hlen]
      refine Nat.pos_of_ne_zero fun hzero => hpos (UInt64.toNat_inj.mp ?_)
      rw [hzero]
      rfl
    · rwa [hlen]
    · have hmove := advance_append.mpr ⟨t, h, hms⟩
      rw [← count_head count.toNat_lt, ← hlen] at hmove
      simpa only [Entry.toBytes, Entry.tokens, List.append_assoc] using hmove
    · rw [← hlen]
      cases decode with
      | true => simp [reduceOption_map_some]
      | false => rfl
  · rintro ⟨e, ⟨hpos, hmost, hsized⟩, hmove, rfl⟩
    obtain ⟨t, h, hms⟩ := advance_append (k := 10) (n := 4 * e.members.length).mp hmove
    have hroom := (length_le_length_flatMap Member.length_toBytes_pos _).trans hms.length_le
    have hlt : e.members.length < 2 ^ 64 := lt_of_le_of_lt hmost (by decide)
    have hcount : (UInt64.ofNat e.members.length).toNat = e.members.length := UInt64.toNat_ofNat_of_lt' hlt
    rw [count_head hlt] at h
    refine ⟨by decide, e.epoch, e.bodyKind, e.bodyId, e.activationCommitId, e.start, e.stop, e.signingScheme,
      e.signingConfigHash, .ofNat e.members.length, ?_, t, ?_, ?_, ?_, e.members, ?_, hcount.symm, hsized, hms⟩
    · rwa [hcount]
    · simpa only [List.append_assoc, hcount] using h
    · rwa [hcount]
    · intro hzero
      rw [hzero] at hcount
      exact absurd hcount.symm (Nat.ne_of_gt hpos)
    · rw [hcount]
      cases decode with
      | true => simp [reduceOption_map_some]
      | false => rfl

theorem entries_iff {decode : Bool} {count : ℕ} {outs : List (Option Entry × ℕ)} :
    (entry decode).times count r = (.ok outs, r') ↔
      ∃ es : List Entry, es.length = count ∧ (∀ e ∈ es, e.Sized) ∧
        r.Advance (es.flatMap Entry.toBytes) (es.map Entry.tokens).sum r' ∧
        outs = es.map fun e => (if decode then some e else none, e.members.length) := by
  apply Run.times_eq_ok Entry.Sized (fun e => (if decode then some e else none, e.members.length))
    (fun (s : Reader) e t => s.Advance e.toBytes e.tokens t)
    (fun (s : Reader) es t => s.Advance (es.flatMap Entry.toBytes) (es.map Entry.tokens).sum t)
  · intro s t out
    exact entry_iff
  · intro s t
    exact advance_nil
  · intro s e es u
    rw [List.flatMap_cons, List.map_cons, List.sum_cons]
    exact advance_append

/-- In both modes the reader passes over the encoding of an update that fits the schema and then
finds nothing more. -/
theorem update_iff {maxEntries : ℕ} {decode : Bool} {out : Option Update × ℕ} :
    update maxEntries decode r = (.ok out, r') ↔
      ∃ u : Update, u.Sized maxEntries ∧ r.Advance u.toBytes u.tokens r' ∧
        r'.cursor.rest.length = 0 ∧ out = (if decode then some u else none, u.memberCount) := by
  simp only [update, Run.bind_eq_ok, Run.refuse_eq_ok, Run.pure_eq_ok, arity_iff, string_iff (by omega : 3 < 8),
    uint_iff, hash_iff, optional_iff, head_iff, left_iff, entries_iff, Prod.exists, not_or, not_not, not_lt, not_le,
    existsAndEq, ← advance_append, @Run.exists_then Reader, and_assoc, Run.exists_guard, exists_and_left, exists_const, true_and, and_true,
    @Run.exists_swap Reader ByteVec, @Run.exists_swap Reader UInt64, @Run.exists_swap Reader Bytes32,
    @Run.exists_swap Reader (Option UInt64), UInt8.reduceOfNat, Nat.reduceAdd]
  constructor
  · rintro ⟨domain, -, -, -, -, hdomain, network, hnetwork, genesis, chain, profile, parent, number, epoch, round,
      identity, prior, tipEnd, count, t, h, -, hmost, es, rfl, hlen, hsized, hes, hend⟩
    have hnarrow : network.toUInt16.toUInt64 = network := by
      apply UInt64.toNat_inj.mp
      rw [UInt16.toNat_toUInt64, UInt64.toNat_toUInt16, Nat.mod_eq_of_lt hnetwork]
    refine ⟨⟨network.toUInt16, genesis, chain, profile, parent, number, epoch, round, identity, prior, tipEnd, es⟩,
      ⟨?_, hsized⟩, ?_, hend, ?_⟩
    · rwa [hlen]
    · have hmove := advance_append.mpr ⟨t, h, hes⟩
      rw [← count_head count.toNat_lt, ← hlen, hdomain] at hmove
      simpa only [Update.toBytes, Update.tokens, List.append_assoc, hnarrow] using hmove
    · cases decode with
      | true => simp [reduceOption_map_some, Update.memberCount, Function.comp_def]
      | false => simp [Update.memberCount, Function.comp_def]
  · rintro ⟨u, ⟨hmost, hsized⟩, hmove, hend, rfl⟩
    obtain ⟨t, h, hes⟩ := advance_append (k := 14) (n := (u.newEntries.map Entry.tokens).sum).mp hmove
    have hshort := length_le_length_flatMap Entry.length_toBytes_pos u.newEntries
    have hroom := hshort.trans hes.length_le
    have hlt : u.newEntries.length < 2 ^ 64 := lt_of_le_of_lt hshort (hes.length_lt.trans (by decide))
    have hcount : (UInt64.ofNat u.newEntries.length).toNat = u.newEntries.length := UInt64.toNat_ofNat_of_lt' hlt
    have hnarrow : u.network.toUInt64.toUInt16 = u.network := by
      apply UInt16.toNat_inj.mp
      rw [UInt64.toNat_toUInt16, UInt16.toNat_toUInt64, Nat.mod_eq_of_lt u.network.toNat_lt]
    rw [count_head hlt] at h
    refine ⟨⟨updateDomain, by decide +kernel⟩, le_rfl, fun _ => by decide +kernel, le_rfl, by decide, rfl,
      u.network.toUInt64, ?_, u.rootGenesisId, u.executionChainId, u.profileHash, u.parentHash, u.blockNumber,
      u.originEpoch, u.originRound, u.originIdentity, u.priorTipEpoch, u.oldTipEnd, .ofNat u.newEntries.length, t, ?_,
      ?_, ?_, u.newEntries, ?_, hcount.symm, hsized, hes, hend⟩
    · rw [UInt16.toNat_toUInt64]
      exact u.network.toNat_lt
    · simpa only [List.append_assoc, hcount] using h
    · rwa [hcount]
    · rwa [hcount]
    · cases decode with
      | true => simp [reduceOption_map_some, Update.memberCount, Function.comp_def, hnarrow]
      | false => simp [Update.memberCount, Function.comp_def]

end Reader

/-! ## The caps -/

theorem Update.length_head_le (kind : UInt8) (v : UInt64) : (Update.head kind v).length ≤ 9 :=
  length_major_le kind v

theorem Update.length_hash_le (w : Bytes32) : (Update.hash w).length ≤ 41 := by
  have := Update.length_head_le 2 32
  rw [Update.hash, List.length_append, Fixed.length_val]
  omega

theorem Update.length_optional_le (v : Option UInt64) : (Update.optional v).length ≤ 9 := by
  cases v with
  | none => decide
  | some v => exact Update.length_head_le 0 v

theorem Member.Sized.length_toBytes_le {m : Member} (h : m.Sized) : m.toBytes.length ≤ 197 := by
  have hid : m.nodeId.val.length ≤ 128 := h.2
  simp only [Member.toBytes, List.length_append, Fixed.length_val]
  grind [Update.length_head_le]

theorem Entry.Sized.length_toBytes_le {e : Entry} (h : e.Sized) : e.toBytes.length ≤ maxEntryBytes := by
  have hcount : e.members.length ≤ 16 := h.2.1
  have hmembers := length_flatMap_le fun m hm => (h.2.2 m hm).length_toBytes_le
  simp only [Entry.toBytes, List.length_append, maxEntryBytes]
  grind [Update.length_head_le, Update.length_hash_le, Update.length_optional_le]

variable {maxEntries : ℕ} {u : Update}

/-- The byte cap never refuses what the schema admits. -/
theorem Update.Sized.length_toBytes_le (h : u.Sized maxEntries) :
    u.toBytes.length ≤ 4096 + maxEntryBytes * maxEntries := by
  have hcount : maxEntryBytes * u.newEntries.length ≤ maxEntryBytes * maxEntries :=
    Nat.mul_le_mul_left _ h.1
  have hentries := length_flatMap_le fun e he => (h.2 e he).length_toBytes_le
  have hdomain : updateDomain.length = 17 := by decide
  simp only [Update.toBytes, List.length_append]
  grind [Update.length_head_le, Update.length_hash_le, Update.length_optional_le]

/-- The token cap never refuses what the schema admits. -/
theorem Update.Sized.tokens_le (h : u.Sized maxEntries) : u.tokens ≤ 32 + 266 * maxEntries := by
  have hentry : ∀ e ∈ u.newEntries.map Entry.tokens, e ≤ 266 := by
    intro n hn
    obtain ⟨e, he, rfl⟩ := List.mem_map.mp hn
    have hcount : e.members.length ≤ 16 := (h.2 e he).2.1
    unfold Entry.tokens
    omega
  have hsum := List.sum_le_card_nsmul _ _ hentry
  rw [List.length_map, smul_eq_mul] at hsum
  have hcount := h.1
  unfold Update.tokens
  omega

/-- Parsing accepts exactly the encodings of updates that fit the schema and the token limit. -/
theorem parse_eq_ok {raw : ByteVec} {tokenLimit : ℕ} {decode : Bool} {out : Option Update × ℕ} :
    parse raw maxEntries tokenLimit decode = .ok out ↔
      ∃ u : Update, u.Sized maxEntries ∧ raw.val = u.toBytes ∧ u.tokens ≤ tokenLimit ∧
        out = (if decode then some u else none, u.memberCount) := by
  have hrun : parse raw maxEntries tokenLimit decode = .ok out ↔
      ∃ r', Reader.update maxEntries decode ⟨Cursor.ofVec raw, 0, tokenLimit⟩ =
        (.ok out, r') :=
    ⟨fun h => ⟨_, Prod.ext h rfl⟩, fun ⟨_, h⟩ => by rw [parse, h]⟩
  simp only [hrun, Reader.update_iff]
  constructor
  · rintro ⟨r', u, hsized, ⟨-, hmeter⟩, hend, hout⟩
    obtain ⟨hraw, htokens⟩ := Metered.advance_whole.mp ⟨r'.meter, hmeter, hend⟩
    exact ⟨u, hsized, hraw, htokens, hout⟩
  · rintro ⟨u, hsized, hraw, htokens, hout⟩
    obtain ⟨m', hmeter, hend⟩ := Metered.advance_whole.mpr ⟨hraw, htokens⟩
    exact ⟨⟨m'.cursor, m'.tokens, tokenLimit⟩, u, hsized, ⟨rfl, hmeter⟩, hend, hout⟩

theorem maxUpdateBytes_eq {context : B1Context} {k : UInt64} (h : context.b = .ok k) :
    context.maxUpdateBytes = .ok (4096 + maxEntryBytes * k.toNat) := by
  rw [B1Context.maxUpdateBytes, h]
  rfl

theorem maxTokens_eq {context : B1Context} {k : UInt64} (h : context.b = .ok k) :
    context.maxTokens = .ok (32 + 266 * k.toNat) := by
  rw [B1Context.maxTokens, h]
  rfl

/-- What is admitted is what its bytes decode to, at the price of the bytes and the members. -/
theorem admitUpdate_ok {H : Bytes → Bytes32} {S : Secp256k1} {raw : ByteVec} {context : B1Context}
    {binding : UpdateBinding} {budget : UInt64} {admitted : Admitted}
    (h : admitUpdate H S raw context binding budget = .ok admitted) :
    raw.val = admitted.update.toBytes ∧ admitted.gas.toNat =
      scanBaseGas + scanByteGas * raw.val.length + memberGas * admitted.update.memberCount := by
  simp only [admitUpdate, Res.bind_eq_ok, Res.u64_eq_ok, Res.okOr_eq_ok, Res.pure_eq_ok] at h
  obtain ⟨k, -, cap, -, _, -, scan, ⟨-, rfl⟩, _, -, tokens, -, scanned, hscanned, rest, -, _, -, gas,
    ⟨hlt, rfl⟩, decoded, hdecoded, update, hupdate, _, -, _, -, _, -, rfl⟩ := h
  obtain ⟨u, hsized, hraw, htokens, rfl⟩ := parse_eq_ok.mp hscanned
  have hagain : parse raw k.toNat tokens true = .ok (some u, u.memberCount) :=
    parse_eq_ok.mpr ⟨u, hsized, hraw, htokens, rfl⟩
  obtain rfl := Except.ok.inj (hagain.symm.trans hdecoded)
  obtain rfl : u = update := Option.some.inj hupdate
  refine ⟨hraw, ?_⟩
  show (UInt64.ofNat _).toNat = _
  rw [UInt64.toNat_ofNat', Nat.mod_eq_of_lt hlt]

/-! ## The reservation covers the admission -/

theorem Update.Sized.memberCount_le {u : Update} (h : u.Sized maxEntries) :
    u.memberCount ≤ maxUpdateMembers * maxEntries := by
  have hentry : ∀ n ∈ u.newEntries.map fun e => e.members.length, n ≤ maxUpdateMembers := by
    intro n hn
    obtain ⟨e, he, rfl⟩ := List.mem_map.mp hn
    exact (h.2 e he).2.1
  have hsum := List.sum_le_card_nsmul _ _ hentry
  rw [List.length_map, smul_eq_mul, Nat.mul_comm] at hsum
  exact hsum.trans (Nat.mul_le_mul_left _ h.1)

/-- The required gas covers a scan up to the byte cap and every member of the epochs. -/
theorem requiredSystemGas_covers {context : B1Context} {k : UInt64} {required : ℕ} (hk : context.b = .ok k)
    (h : context.requiredSystemGas = .ok required) :
    scanBaseGas + scanByteGas * (4096 + maxEntryBytes * k.toNat) + memberGas * (maxUpdateMembers * k.toNat) ≤
      required := by
  simp only [B1Context.requiredSystemGas, hk, Res.bind_eq_ok, Except.ok.injEq, Res.u64_eq_ok] at h
  obtain ⟨_, rfl, hook, -, -, rfl⟩ := h
  unfold scanBaseGas scanByteGas maxEntryBytes memberGas maxUpdateMembers updateGasBase restGasBase epochGas
    restGasPerEpoch maxUpdateMembers
  omega

/-- With the required gas as its budget, no admission fails for lack of it. -/
theorem admitUpdate_within {H : Bytes → Bytes32} {S : Secp256k1} {raw : ByteVec} {context : B1Context}
    {binding : UpdateBinding} {budget : UInt64} {required : ℕ} (hrequired : context.requiredSystemGas = .ok required)
    (hbudget : required ≤ budget.toNat) :
    (admitUpdate H S raw context binding budget).FailsOnly UpdateError.NotBudget := by
  have hlt := budget.toNat_lt
  have hencoding : ∀ e : UpdateError, e = .encoding → e.NotBudget := by
    rintro e rfl
    exact ⟨nofun, nofun⟩
  refine failsOnly_b.bind fun k hk => failsOnly_maxUpdateBytes.bind fun cap hcap => ?_
  have hcovers := requiredSystemGas_covers hk hrequired
  obtain rfl : 4096 + maxEntryBytes * k.toNat = cap := Except.ok.inj ((maxUpdateBytes_eq hk).symm.trans hcap)
  refine Res.FailsOnly.bind (Res.failsOnly_refuse ⟨nofun, nofun⟩) fun _ hlen => ?_
  rw [Res.refuse_eq_ok, not_lt] at hlen
  have hscan := Nat.mul_le_mul_left scanByteGas hlen
  refine Res.FailsOnly.bind (Res.failsOnly_u64 (by omega)) fun scan hscanEq => ?_
  obtain ⟨-, rfl⟩ := Res.u64_eq_ok.mp hscanEq
  refine Res.FailsOnly.bind (Res.failsOnly_of_eq_ok (a := ()) (Res.refuse_eq_ok.mpr (by omega))) fun _ _ => ?_
  refine failsOnly_maxTokens.bind fun tokens _ => ((failsOnly_parse _ _ _ _).mono hencoding).bind fun scanned hscanned => ?_
  obtain ⟨u, hsized, -, -, rfl⟩ := parse_eq_ok.mp hscanned
  have hmembers := Nat.mul_le_mul_left memberGas hsized.memberCount_le
  refine Res.FailsOnly.bind (Res.failsOnly_sub (by omega)) fun rest hrest => ?_
  obtain ⟨-, rfl⟩ := Res.sub_eq_ok.mp hrest
  have hfit : u.memberCount ≤ (budget.toNat - (scanBaseGas + scanByteGas * raw.val.length)) / memberGas := by
    rw [Nat.le_div_iff_mul_le (by decide), Nat.mul_comm]
    omega
  refine Res.FailsOnly.bind (Res.failsOnly_of_eq_ok (a := ()) (Res.refuse_eq_ok.mpr (not_lt.mpr hfit))) fun _ _ => ?_
  refine Res.FailsOnly.bind (Res.failsOnly_u64 (by dsimp only; omega)) fun _ _ => ?_
  exact ((failsOnly_parse _ _ _ _).mono hencoding).bind fun _ _ => (Res.failsOnly_okOr ⟨nofun, nofun⟩).bind fun _ _ =>
    (Res.failsOnly_refuse ⟨nofun, nofun⟩).bind fun _ _ => (failsOnly_checkBindings _).bind fun _ _ =>
    (failsOnly_checkEntries _).bind fun _ _ => trivial

end Ureth.Source.Execution
