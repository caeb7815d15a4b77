import Ureth.Foundation.HeadTail
import Ureth.Source.B2.Kernel

/-!
# The kernel's ABI against the canonical encoding

The call decoder accepts the canonical encodings of a call and nothing else. The result is written
into a buffer at computed places; what ends up there is the canonical encoding of the result tuple,
and a decoder that follows its offsets reads it back.
-/

namespace Ureth.Source.B2
open Ureth.Foundation

/-- `abi.encode(uint8 op, bytes cfg, bytes payload)`. -/
def Call.encoded (c : Call) : Bytes :=
  EthAbi.tuple [.static (EthAbi.word c.op), .dynamic (EthAbi.bytes c.cfg), .dynamic (EthAbi.bytes c.payload)]

namespace Abi

variable {b d : Bytes} {pos n stop : Nat}

/-! ## The call -/

theorem number_eq_ok :
    number b pos = .ok n ↔ pos + 32 < 2 ^ 64 ∧ n < 2 ^ 64 ∧ HasAt b pos (EthAbi.word n) := by
  simp only [number, Res.bind_eq_ok, Res.checkedAdd_eq_ok, Res.okOr_eq_ok, Res.refuse_eq_ok, Res.pure_eq_ok, byteRange_eq_some]
  constructor
  · rintro ⟨_, ⟨hpos, rfl⟩, w, ⟨-, hlen, hw⟩, _, hzero, hn⟩
    obtain ⟨hlt, rfl⟩ := (EthAbi.eq_word_iff (hlen.trans (by omega))).mp ⟨hzero, hn⟩
    exact ⟨hpos, hlt, hw⟩
  · rintro ⟨hpos, hn, hw⟩
    obtain ⟨hzero, hvalue⟩ := (EthAbi.eq_word_iff (EthAbi.length_word n)).mpr ⟨hn, rfl⟩
    exact ⟨_, ⟨hpos, rfl⟩, _, ⟨by omega, by simp, hw⟩, (), hzero, hvalue⟩

/-- At a whole word the padding the source computes from the end is that of the length. -/
theorem blob_eq_ok (hpos : pos % 32 = 0) :
    blob b pos = .ok (d, stop) ↔ pos + 32 + d.length + 31 < 2 ^ 64 ∧ HasAt b pos (EthAbi.bytes d) ∧
      stop = pos + (EthAbi.bytes d).length := by
  simp only [blob, Res.bind_eq_ok, number_eq_ok, Res.checkedAdd_eq_ok, Res.okOr_eq_ok, Res.refuse_eq_ok,
    Res.pure_eq_ok, Prod.mk.injEq, byteRange_eq_some, EthAbi.bytes, hasAt_append,
    List.length_append, EthAbi.length_word, List.length_replicate, EthAbi.padding, Bool.not_eq_true,
    EthAbi.any_ne_zero_eq_false]
  constructor
  · rintro ⟨n, ⟨-, -, hword⟩, _, ⟨-, rfl⟩, _, ⟨-, rfl⟩, _, ⟨hlimit, rfl⟩, data, ⟨-, hlen, hdata⟩, zeros,
      ⟨-, hzlen, hzeros⟩, _, hzero, rfl, rfl⟩
    have hn : data.length = n := by omega
    subst hn
    have hwidth : zeros.length = (data.length + 31) / 32 * 32 - data.length := by omega
    refine ⟨hlimit, ⟨⟨hword, hdata⟩, ?_⟩, by omega⟩
    rwa [← hwidth, ← hzero, ← Nat.add_assoc]
  · rintro ⟨hlimit, ⟨⟨hword, hdata⟩, hzeros⟩, rfl⟩
    rw [← Nat.add_assoc] at hzeros
    refine ⟨d.length, ⟨by omega, by omega, hword⟩, _, ⟨by omega, rfl⟩, _, ⟨by omega, rfl⟩, _, ⟨hlimit, rfl⟩, d,
      ⟨by omega, by omega, hdata⟩, _, ⟨by omega, ?_, hzeros⟩, (), ?_, rfl, by omega⟩
    · rw [List.length_replicate]
      omega
    · rw [List.length_replicate]

theorem decode_eq_ok {c : Call} :
    decode b = .ok c ↔ c.op ≤ 2 ∧ c.cfg.length ≤ 1024 ∧ c.payload.length ≤ maxHistory ∧ b = c.encoded := by
  have hcfgLength := EthAbi.length_bytes c.cfg
  have hpayloadLength := EthAbi.length_bytes c.payload
  rw [Call.encoded, EthAbi.eq_call_iff]
  simp only [decode, Res.bind_eq_ok, Res.refuse_eq_ok, Prod.exists, Res.pure_eq_ok, not_lt,
    not_not, not_or]
  constructor
  · rintro ⟨op, hop, _, -, _, hsmall, _, hfirst, _, rfl, cfg, _, hcfg, _, hsecond, _, rfl, payload, _, hpayload, _,
      rfl, _, ⟨hmax, hcfgMax⟩, rfl⟩
    obtain ⟨-, hcfgAt, rfl⟩ := (blob_eq_ok (by omega)).mp hcfg
    obtain ⟨-, hpayloadAt, hstop⟩ := (blob_eq_ok (by rw [EthAbi.length_bytes]; omega)).mp hpayload
    exact ⟨hsmall, hcfgMax, hmax, (number_eq_ok.mp hop).2.2, (number_eq_ok.mp hfirst).2.2,
      (number_eq_ok.mp hsecond).2.2, hcfgAt, hpayloadAt, hstop.symm⟩
  · rintro ⟨hsmall, hcfgMax, hmax, hop, hfirst, hsecond, hcfg, hpayload, hlen⟩
    simp only [maxHistory] at hmax
    refine ⟨c.op, number_eq_ok.mpr ⟨by omega, by omega, hop⟩, (), by omega, (), hsmall, 96,
      number_eq_ok.mpr ⟨by omega, by omega, hfirst⟩, (), rfl, c.cfg, _,
      (blob_eq_ok (by omega)).mpr ⟨by omega, hcfg, rfl⟩, _,
      number_eq_ok.mpr ⟨by omega, by omega, hsecond⟩, (), rfl, c.payload, _,
      (blob_eq_ok (by omega)).mpr ⟨by omega, hpayload, rfl⟩, (), hlen, (), ⟨hmax, hcfgMax⟩, rfl⟩

/-- Every access of the decoder is checked. -/
theorem noPanic_decode (b : Bytes) : (decode b).NoPanic := by
  have hnumber : ∀ pos, (number b pos).NoPanic := fun pos =>
    (Res.failsOnly_checkedAdd trivial).bind fun _ _ => (Res.noPanic_okOr _ _).bind fun _ _ =>
      (Res.noPanic_refuse _ _).bind fun _ _ => trivial
  have hblob : ∀ pos, (blob b pos).NoPanic := fun pos =>
    (hnumber pos).bind fun _ _ => (Res.failsOnly_checkedAdd trivial).bind fun _ _ =>
      (Res.failsOnly_checkedAdd trivial).bind fun _ _ => (Res.failsOnly_checkedAdd trivial).bind fun _ _ =>
      (Res.noPanic_okOr _ _).bind fun _ _ => (Res.noPanic_okOr _ _).bind fun _ _ =>
      (Res.noPanic_refuse _ _).bind fun _ _ => trivial
  exact (hnumber 0).bind fun _ _ => (Res.noPanic_refuse _ _).bind fun _ _ =>
    (Res.noPanic_refuse _ _).bind fun _ _ => (hnumber 32).bind fun _ _ => (Res.noPanic_refuse _ _).bind fun _ _ =>
    (hblob 96).bind fun _ _ => (hnumber 64).bind fun _ _ => (Res.noPanic_refuse _ _).bind fun _ _ =>
    (hblob _).bind fun _ _ => (Res.noPanic_refuse _ _).bind fun _ _ => (Res.noPanic_refuse _ _).bind fun _ _ =>
    trivial

/-! ## The result as it is written -/

/-- `buffer[lo..hi].copy_from_slice(data)`. -/
def copyInto {ε : Type} (buffer : Bytes) (lo hi : Nat) (data : Bytes) : Res ε Bytes :=
  if lo ≤ hi ∧ hi ≤ buffer.length ∧ data.length = hi - lo then .ok (buffer.take lo ++ data ++ buffer.drop hi)
  else Res.panic

def copyWords {ε : Type} (buffer : Bytes) : Nat → List Bytes → Res ε Bytes
  | _, [] => .ok buffer
  | i, w :: ws => do
    let buffer ← copyInto buffer (96 + i * 32) (128 + i * 32) w
    copyWords buffer (i + 1) ws

def copyLeaves {ε : Type} (buffer : Bytes) : Nat → List Leaf → Res ε Bytes
  | _, [] => .ok buffer
  | i, leaf :: leaves => do
    let off := 448 + i * 128
    let buffer ← copyInto buffer off (off + 32) leaf.sid.val
    let buffer ← copyInto buffer (off + 32) (off + 64) leaf.txHash.val
    let buffer ← copyInto buffer (off + 64) (off + 96) (word leaf.referenceTime)
    let buffer ← copyInto buffer (off + 96) (off + 128) leaf.value.val
    copyLeaves buffer (i + 1) leaves

/-- `abi::encode` on its zeroed buffer; `buffer[63] = x` is the copy of one byte. -/
def encodeBuffer {ε : Type} (valid : Bool) (out : Outcome) : Res ε Bytes := do
  let size ← Res.u64 (448 + 128 * out.leaves.length)
  let buffer := List.replicate size 0
  let buffer ← copyInto buffer 0 23 (ascii "UNICITY_TOKEN_SEMANTICS")
  let buffer ← copyInto buffer 63 64 [if valid then 1 else 0]
  let buffer ← copyInto buffer 64 96 (word 96)
  let buffer ← copyWords buffer 0 [out.cfg.val, word out.nonce, out.amount.val, out.tokenId.val, out.salt.val,
    out.firstPredicateHash.val, out.lockDigest.val]
  let buffer ← copyInto buffer 332 352 out.releaseTo.val
  let buffer ← copyInto buffer 352 384 out.nullifier.val
  let buffer ← copyInto buffer 384 416 (word 320)
  let buffer ← copyInto buffer 416 448 (word out.leaves.length)
  copyLeaves buffer 0 out.leaves

section Buffer

variable {ε : Type} {size lo hi : Nat} {w data : Bytes}

/-- A buffer of `size` bytes whose first ones are written. -/
def fill (size : Nat) (w : Bytes) : Bytes := w ++ List.replicate (size - w.length) 0

/-- A copy behind what is written leaves the gap zero. -/
theorem copyInto_fill (hlo : w.length ≤ lo) (hhi : hi = lo + data.length) (hsize : hi ≤ size) :
    (copyInto (fill size w) lo hi data : Res ε Bytes) =
      .ok (fill size (w ++ List.replicate (lo - w.length) 0 ++ data)) := by
  have hlen : (fill size w).length = size := by
    rw [fill, List.length_append, List.length_replicate]
    omega
  rw [copyInto, if_pos ⟨by omega, by omega, by omega⟩]
  congr 1
  simp only [fill, List.take_append, List.drop_append, List.length_append, List.length_replicate,
    List.take_replicate, List.drop_replicate, List.append_assoc]
  rw [List.take_of_length_le hlo, List.drop_of_length_le (by omega), List.nil_append,
    Nat.min_eq_left (by omega)]
  congr 4
  omega

theorem copyInto_fill_end (hw : w.length = lo) (hhi : hi = lo + data.length) (hsize : hi ≤ size) :
    (copyInto (fill size w) lo hi data : Res ε Bytes) = .ok (fill size (w ++ data)) := by
  rw [copyInto_fill hw.le hhi hsize, hw, Nat.sub_self, List.replicate_zero, List.append_nil]

theorem length_word (n : Nat) : (word n).length = 32 := by simp [word]

theorem copyWords_fill {ws : List Bytes} (hws : ∀ w ∈ ws, w.length = 32) {i : Nat} (hw : w.length = 96 + i * 32)
    (hsize : 96 + (i + ws.length) * 32 ≤ size) :
    (copyWords (fill size w) i ws : Res ε Bytes) = .ok (fill size (w ++ ws.flatten)) := by
  induction ws generalizing i w with
  | nil => simp [copyWords]
  | cons v ws ih =>
    have hv := hws v (by simp)
    rw [List.length_cons] at hsize
    rw [copyWords, copyInto_fill_end hw (by omega) (by omega), Res.bind_ok,
      ih (fun u hu => hws u (by simp [hu])) (by rw [List.length_append]; omega) (by omega)]
    simp

theorem copyLeaves_fill {leaves : List Leaf} {i : Nat} (hw : w.length = 448 + i * 128)
    (hsize : 448 + (i + leaves.length) * 128 ≤ size) :
    (copyLeaves (fill size w) i leaves : Res ε Bytes) = .ok (fill size (w ++ leaves.flatMap encodeLeaf)) := by
  induction leaves generalizing i w with
  | nil => simp [copyLeaves]
  | cons leaf leaves ih =>
    rw [List.length_cons] at hsize
    have hnumber := length_word leaf.referenceTime
    have hleaf : (encodeLeaf leaf).length = 128 := by simp [encodeLeaf, hnumber]
    rw [copyLeaves, copyInto_fill_end hw (by simp) (by omega), Res.bind_ok,
      copyInto_fill_end (by simp [hw]) (by simp) (by omega), Res.bind_ok,
      copyInto_fill_end (by simp [hw]) (by simp [hnumber]) (by omega), Res.bind_ok,
      copyInto_fill_end (by simp [hw, hnumber]) (by simp) (by omega), Res.bind_ok]
    have hrest := ih (w := w ++ encodeLeaf leaf) (i := i + 1) (by rw [List.length_append, hleaf]; omega) (by omega)
    simpa [encodeLeaf] using hrest

end Buffer

theorem length_leaves (leaves : List Leaf) : (leaves.flatMap encodeLeaf).length = 128 * leaves.length := by
  induction leaves with
  | nil => rfl
  | cons leaf leaves ih =>
    simp only [List.flatMap_cons, List.length_append, encodeLeaf, Fixed.length_val, length_word, ih,
      List.length_cons]
    omega

theorem length_encode (valid : Bool) (out : Outcome) :
    (encode valid out).length = 448 + 128 * out.leaves.length := by
  have hmarker : (ascii "UNICITY_TOKEN_SEMANTICS").length = 23 := by decide
  simp only [encode, List.length_append, List.length_replicate, List.length_singleton, Fixed.length_val,
    length_word, hmarker, length_leaves]

theorem fill_encode (valid : Bool) (out : Outcome) :
    fill (448 + 128 * out.leaves.length) (encode valid out) = encode valid out := by
  rw [fill, length_encode, Nat.sub_self, List.replicate_zero, List.append_nil]

/-- What is written is the result in order; no copy leaves the buffer. -/
theorem encodeBuffer_eq {ε : Type} (valid : Bool) {out : Outcome} (hsize : 448 + 128 * out.leaves.length < 2 ^ 64) :
    (encodeBuffer valid out : Res ε Bytes) = .ok (encode valid out) := by
  have hnonce := length_word out.nonce
  have hcount := length_word out.leaves.length
  have hfill : List.replicate (448 + 128 * out.leaves.length) (0 : UInt8) =
      fill (448 + 128 * out.leaves.length) [] := by simp [fill]
  have hwords : ∀ w ∈ [out.cfg.val, word out.nonce, out.amount.val, out.tokenId.val, out.salt.val,
      out.firstPredicateHash.val, out.lockDigest.val], w.length = 32 := by simp [hnonce]
  have hmarker : (ascii "UNICITY_TOKEN_SEMANTICS").length = 23 := by decide
  simp only [encodeBuffer, Res.u64_of_lt hsize, Res.bind_ok, hfill]
  refine Res.bind_eq_ok.mpr ⟨_, copyInto_fill_end rfl (by rw [hmarker]) (by omega), ?_⟩
  refine Res.bind_eq_ok.mpr ⟨_, copyInto_fill (by simp [hmarker]) rfl (by omega), ?_⟩
  refine Res.bind_eq_ok.mpr ⟨_, copyInto_fill_end (by simp [hmarker]) (by simp [length_word]) (by omega), ?_⟩
  refine Res.bind_eq_ok.mpr ⟨_, copyWords_fill hwords (by simp [hmarker, length_word]) (by simp; omega), ?_⟩
  refine Res.bind_eq_ok.mpr ⟨_, copyInto_fill (by simp [hmarker, length_word]) (by simp) (by omega), ?_⟩
  refine Res.bind_eq_ok.mpr ⟨_, copyInto_fill_end (by simp [hmarker, length_word]) (by simp) (by omega), ?_⟩
  refine Res.bind_eq_ok.mpr ⟨_, copyInto_fill_end (by simp [hmarker, length_word]) (by simp [length_word])
    (by omega), ?_⟩
  refine Res.bind_eq_ok.mpr ⟨_, copyInto_fill_end (by simp [hmarker, length_word]) (by simp [length_word])
    (by omega), ?_⟩
  rw [copyLeaves_fill (by simp [hmarker, length_word]) (by omega), ← fill_encode valid out]
  have hgap : List.replicate 40 (0 : UInt8) = List.replicate 9 0 ++ List.replicate 31 0 := rfl
  simp [encode, hmarker, hnonce, length_word, hgap]

/-! ## The result as a tuple -/

/-- The tuple a result encodes: the verdict and the outcome's fields and leaves. -/
structure ResultTuple where
  valid : Bool
  cfg : Bytes32
  nonce : Nat
  amount : Bytes32
  tokenId : Bytes32
  salt : Bytes32
  firstPredicateHash : Bytes32
  lockDigest : Bytes32
  releaseTo : Fixed 20
  nullifier : Bytes32
  leaves : List Leaf
  deriving DecidableEq

def ResultTuple.of (valid : Bool) (out : Outcome) : ResultTuple where
  valid := valid
  cfg := out.cfg
  nonce := out.nonce
  amount := out.amount
  tokenId := out.tokenId
  salt := out.salt
  firstPredicateHash := out.firstPredicateHash
  lockDigest := out.lockDigest
  releaseTo := out.releaseTo
  nullifier := out.nullifier
  leaves := out.leaves

/-- The numbers are 64 bits wide, and the leaves fit the memory a vector of them may take. -/
structure ResultTuple.Sized (t : ResultTuple) : Prop where
  nonce : t.nonce < 2 ^ 64
  times : ∀ leaf ∈ t.leaves, leaf.referenceTime < 2 ^ 64
  leaves : 104 * t.leaves.length < 2 ^ 63

/-- `(bytes32, bytes32, uint64, bytes32)`, which is static. -/
def leafTuple (leaf : Leaf) : Bytes :=
  EthAbi.tuple [.static leaf.sid.val, .static leaf.txHash.val, .static (EthAbi.word leaf.referenceTime),
    .static leaf.value.val]

/-- `abi.encode(bytes32 domain, bool valid, Outcome outcome)`, the outcome a dynamic tuple that ends
with its array of leaves. -/
def ResultTuple.encoded (t : ResultTuple) : Bytes :=
  EthAbi.tuple [.static (ascii "UNICITY_TOKEN_SEMANTICS" ++ List.replicate 9 0),
    .static (EthAbi.word t.valid.toNat),
    .dynamic (EthAbi.tuple [.static t.cfg.val, .static (EthAbi.word t.nonce), .static t.amount.val,
      .static t.tokenId.val, .static t.salt.val, .static t.firstPredicateHash.val, .static t.lockDigest.val,
      .static (List.replicate 12 0 ++ t.releaseTo.val), .static t.nullifier.val,
      .dynamic (EthAbi.array ((t.leaves.map leafTuple).map .static))])]

theorem leafTuple_eq (leaf : Leaf) : leafTuple leaf = encodeLeaf leaf := by
  simp [leafTuple, EthAbi.tuple, EthAbi.heads, EthAbi.tails, encodeLeaf, word, EthAbi.word]

theorem encode_eq_encoded (valid : Bool) (out : Outcome) : encode valid out = (ResultTuple.of valid out).encoded := by
  have hflag : List.replicate 31 (0 : UInt8) ++ [if valid then 1 else 0] = EthAbi.word valid.toNat := by
    cases valid <;> rfl
  have hmarker : (ascii "UNICITY_TOKEN_SEMANTICS").length = 23 := by decide
  have hleaves : (out.leaves.map leafTuple).flatten = out.leaves.flatMap encodeLeaf := by
    rw [List.flatMap, funext leafTuple_eq]
  have hword : word = EthAbi.word := rfl
  rw [encode, hflag, hword]
  simp only [ResultTuple.encoded, ResultTuple.of, EthAbi.tuple, EthAbi.array, EthAbi.heads, EthAbi.tails,
    EthAbi.Part.headLength, EthAbi.heads_static, EthAbi.tails_static, hleaves, List.map_cons, List.map_nil,
    List.sum_cons, List.sum_nil, List.length_append, List.length_replicate, List.length_map, hmarker,
    EthAbi.length_word, Fixed.length_val, List.append_nil, List.append_assoc, Nat.reduceAdd]

/-! ## Reading it back -/

def addressAt (b : Bytes) (pos : Nat) : Option (Fixed 20) := do
  let w ← EthAbi.wordAt b pos
  if (w.val.take 12).any (· ≠ 0) = true then none else Fixed.ofBytes? 20 (w.val.drop 12)

def leafAt (b : Bytes) (pos : Nat) : Option Leaf := do
  let sid ← EthAbi.wordAt b pos
  let txHash ← EthAbi.wordAt b (pos + 32)
  let referenceTime ← EthAbi.numberAt b (pos + 64)
  let value ← EthAbi.wordAt b (pos + 96)
  return { sid, txHash, referenceTime, value }

def leavesAt (b : Bytes) : Nat → Nat → Option (List Leaf)
  | 0, _ => some []
  | n + 1, pos => do
    let leaf ← leafAt b pos
    let leaves ← leavesAt b n (pos + 128)
    return leaf :: leaves

/-- A canonical decoder of the result tuple: it follows the offsets, and refuses what is not the
encoding of the tuple it read. -/
def decodeResult (b : Bytes) : Option ResultTuple := do
  let flag ← EthAbi.numberAt b 32
  let base ← EthAbi.numberAt b 64
  let cfg ← EthAbi.wordAt b base
  let nonce ← EthAbi.numberAt b (base + 32)
  let amount ← EthAbi.wordAt b (base + 64)
  let tokenId ← EthAbi.wordAt b (base + 96)
  let salt ← EthAbi.wordAt b (base + 128)
  let firstPredicateHash ← EthAbi.wordAt b (base + 160)
  let lockDigest ← EthAbi.wordAt b (base + 192)
  let releaseTo ← addressAt b (base + 224)
  let nullifier ← EthAbi.wordAt b (base + 256)
  let offset ← EthAbi.numberAt b (base + 288)
  let count ← EthAbi.numberAt b (base + offset)
  let leaves ← leavesAt b count (base + offset + 32)
  let t : ResultTuple := { valid := flag = 1, cfg, nonce, amount, tokenId, salt, firstPredicateHash, lockDigest,
                           releaseTo, nullifier, leaves }
  if t.encoded = b then some t else none

theorem addressAt_of_hasAt {a : Fixed 20} (h : HasAt b pos (List.replicate 12 0 ++ a.val)) :
    addressAt b pos = some a := by
  have hw : EthAbi.wordAt b pos = some ⟨List.replicate 12 0 ++ a.val, by simp⟩ := EthAbi.wordAt_of_hasAt h
  rw [addressAt, hw]
  simp

theorem leafAt_of_hasAt {leaf : Leaf} (ht : leaf.referenceTime < 2 ^ 64) (h : HasAt b pos (encodeLeaf leaf)) :
    leafAt b pos = some leaf := by
  simp only [encodeLeaf, hasAt_append, List.length_append, Fixed.length_val, length_word, Nat.reduceAdd] at h
  obtain ⟨⟨⟨hsid, htx⟩, htime⟩, hvalue⟩ := h
  simp [leafAt, EthAbi.wordAt_of_hasAt hsid, EthAbi.wordAt_of_hasAt htx, EthAbi.numberAt_of_hasAt ht htime,
    EthAbi.wordAt_of_hasAt hvalue]

theorem leavesAt_of_hasAt {leaves : List Leaf} (ht : ∀ leaf ∈ leaves, leaf.referenceTime < 2 ^ 64)
    (h : HasAt b pos (leaves.flatMap encodeLeaf)) : leavesAt b leaves.length pos = some leaves := by
  induction leaves generalizing pos with
  | nil => rfl
  | cons leaf leaves ih =>
    have hlen : (encodeLeaf leaf).length = 128 := by simp [encodeLeaf, length_word]
    rw [List.flatMap_cons, hasAt_append, hlen] at h
    have hrest := ih (fun l hl => ht l (by simp [hl])) h.2
    simp [leavesAt, leafAt_of_hasAt (ht leaf (by simp)) h.1, hrest]

theorem bind_some_eq {α β : Type} {x : Option α} {a : α} {f : α → Option β} {r : Option β} (h : x = some a)
    (hf : f a = r) : (x >>= f) = r := by
  rw [h]
  exact hf

theorem decodeResult_of_hasAt {valid : Bool} {out : Outcome} (h : (ResultTuple.of valid out).Sized)
    (hparts : HasAt b 0 (encode valid out)) (hcanonical : (ResultTuple.of valid out).encoded = b) :
    decodeResult b = some (ResultTuple.of valid out) := by
  obtain ⟨hnonce, htimes, hcount⟩ := h
  have hmarker : (ascii "UNICITY_TOKEN_SEMANTICS").length = 23 := by decide
  have hflag : List.replicate 31 (0 : UInt8) ++ [if valid then 1 else 0] = EthAbi.word valid.toNat := by
    cases valid <;> rfl
  have hflagLt : valid.toNat < 2 ^ 64 := lt_of_le_of_lt (Bool.toNat_le valid) (by omega)
  have hflagValue : decide (valid.toNat = 1) = valid := by cases valid <;> rfl
  have haddress : (List.replicate 12 (0 : UInt8) ++ out.releaseTo.val).length = 32 := by simp
  rw [encode, hflag] at hparts
  generalize hword : List.replicate 12 (0 : UInt8) ++ out.releaseTo.val = address at hparts haddress
  simp only [hasAt_append, List.length_append, List.length_replicate, hmarker, EthAbi.length_word, length_word,
    Fixed.length_val, haddress, Nat.zero_add, Nat.reduceAdd] at hparts
  obtain ⟨⟨⟨⟨⟨⟨⟨⟨⟨⟨⟨⟨⟨⟨-, hvalid⟩, hbase⟩, hcfg⟩, hnonceAt⟩, hamount⟩, htoken⟩, hsalt⟩, hpredicate⟩, hlock⟩, hrelease⟩,
    hnullifier⟩, hoffset⟩, hlen⟩, hleaves⟩ := hparts
  rw [← hword] at hrelease
  simp only [ResultTuple.of] at hnonce htimes hcount
  have hbaseAt := EthAbi.numberAt_of_hasAt (by omega) hbase
  have hoffsetAt := EthAbi.numberAt_of_hasAt (by omega) hoffset
  have hcountAt := EthAbi.numberAt_of_hasAt (by omega) hlen
  refine bind_some_eq (EthAbi.numberAt_of_hasAt hflagLt hvalid) (bind_some_eq hbaseAt ?_)
  refine bind_some_eq (EthAbi.wordAt_of_hasAt hcfg) (bind_some_eq (EthAbi.numberAt_of_hasAt hnonce hnonceAt) ?_)
  refine bind_some_eq (EthAbi.wordAt_of_hasAt hamount) (bind_some_eq (EthAbi.wordAt_of_hasAt htoken) ?_)
  refine bind_some_eq (EthAbi.wordAt_of_hasAt hsalt) (bind_some_eq (EthAbi.wordAt_of_hasAt hpredicate) ?_)
  refine bind_some_eq (EthAbi.wordAt_of_hasAt hlock) (bind_some_eq (addressAt_of_hasAt hrelease) ?_)
  refine bind_some_eq (EthAbi.wordAt_of_hasAt hnullifier) (bind_some_eq hoffsetAt ?_)
  refine bind_some_eq hcountAt (bind_some_eq (leavesAt_of_hasAt htimes hleaves) ?_)
  simp only [hflagValue]
  exact if_pos hcanonical

theorem decodeResult_encode (valid : Bool) {out : Outcome} (h : (ResultTuple.of valid out).Sized) :
    decodeResult (encode valid out) = some (ResultTuple.of valid out) :=
  decodeResult_of_hasAt h (hasAt_zero_and_length.mpr rfl).1 (encode_eq_encoded valid out).symm

end Abi

end Ureth.Source.B2
