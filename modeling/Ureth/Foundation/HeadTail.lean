import Ureth.Foundation.Bytes

/-!
# Ethereum ABI values

The canonical encoding of a tuple: static components stand in the head, dynamic ones behind an
offset from the start of the head, in order and without gaps. Numbers are words whose low eight
bytes carry them. `HasAt` says what stands where, so that a reader that follows offsets is
compared with the encoding piece by piece.
-/

namespace Ureth.Foundation

/-! ## Strings within a string -/

/-- The string `s` stands at `pos` in `b`. -/
def HasAt (b : Bytes) (pos : Nat) (s : Bytes) : Prop := ∃ pre post, b = pre ++ s ++ post ∧ pre.length = pos

section HasAt

variable {b s t : Bytes} {pos : Nat}

theorem HasAt.length_le (h : HasAt b pos s) : pos + s.length ≤ b.length := by
  obtain ⟨pre, post, rfl, rfl⟩ := h
  simp only [List.length_append]
  omega

theorem hasAt_append : HasAt b pos (s ++ t) ↔ HasAt b pos s ∧ HasAt b (pos + s.length) t := by
  constructor
  · rintro ⟨pre, post, rfl, rfl⟩
    exact ⟨⟨pre, t ++ post, by simp, rfl⟩, ⟨pre ++ s, post, by simp, by simp⟩⟩
  · rintro ⟨⟨pre, post, rfl, rfl⟩, ⟨pre', post', heq, hlen⟩⟩
    rw [List.append_assoc pre' t post'] at heq
    obtain ⟨hpre, hpost⟩ := List.append_inj heq (by simp [hlen])
    exact ⟨pre, post', by rw [hpost]; simp, rfl⟩

/-- Strings of one length at one place are the same. -/
theorem HasAt.eq (h : HasAt b pos s) (h' : HasAt b pos t) (hlen : s.length = t.length) : s = t := by
  obtain ⟨pre, post, rfl, rfl⟩ := h
  obtain ⟨pre', post', heq, hpre⟩ := h'
  rw [List.append_assoc, List.append_assoc] at heq
  obtain ⟨-, hrest⟩ := List.append_inj heq hpre.symm
  exact (List.append_inj hrest hlen).1

theorem hasAt_nil : HasAt b pos [] ↔ pos ≤ b.length := by
  constructor
  · intro h
    simpa using h.length_le
  · intro h
    exact ⟨b.take pos, b.drop pos, by simp, by rw [List.length_take]; omega⟩

/-- A string that fills the other is the other. -/
theorem hasAt_zero_and_length : HasAt b 0 s ∧ s.length = b.length ↔ b = s := by
  constructor
  · rintro ⟨⟨pre, post, rfl, hpre⟩, hlen⟩
    obtain rfl := List.eq_nil_of_length_eq_zero hpre
    have hpost : post = [] := by
      refine List.eq_nil_of_length_eq_zero ?_
      simp only [List.length_append, List.length_nil] at hlen
      omega
    simp [hpost]
  · rintro rfl
    exact ⟨⟨[], [], by simp, rfl⟩, rfl⟩

theorem byteRange_eq_some {lo hi : Nat} :
    byteRange b lo hi = some s ↔ lo ≤ hi ∧ s.length = hi - lo ∧ HasAt b lo s := by
  unfold byteRange
  constructor
  · intro h
    split at h
    next hrange =>
      obtain rfl := Option.some.inj h
      have hlen : ((b.drop lo).take (hi - lo)).length = hi - lo := by
        rw [List.length_take, List.length_drop]
        omega
      refine ⟨hrange.1, hlen, b.take lo, (b.drop lo).drop (hi - lo), ?_, ?_⟩
      · rw [List.append_assoc, List.take_append_drop, List.take_append_drop]
      · rw [List.length_take]
        omega
    next => cases h
  · rintro ⟨hle, hlen, pre, post, rfl, rfl⟩
    have hfits : hi ≤ (pre ++ s ++ post).length := by
      simp only [List.length_append]
      omega
    rw [if_pos ⟨hle, hfits⟩, List.append_assoc, List.drop_left, ← hlen, List.take_left]

end HasAt

/-! ## Words and byte strings -/

namespace EthAbi

/-- A number in a word. -/
def word (n : Nat) : Bytes := List.replicate 24 0 ++ beBytes 8 n

/-- The padding of `n` bytes to whole words. -/
def padding (n : Nat) : Nat := (n + 31) / 32 * 32 - n

/-- A `bytes` value: its length, its data and zeros up to a whole word. -/
def bytes (d : Bytes) : Bytes := word d.length ++ d ++ List.replicate (padding d.length) 0

@[simp] theorem length_word (n : Nat) : (word n).length = 32 := by simp [word]

theorem length_bytes (d : Bytes) : (bytes d).length = 32 + (d.length + 31) / 32 * 32 := by
  simp only [bytes, padding, List.length_append, length_word, List.length_replicate]
  omega

theorem any_ne_zero_eq_false {b : Bytes} : b.any (· ≠ 0) = false ↔ b = List.replicate b.length 0 := by
  rw [List.any_eq_false, List.eq_replicate_iff]
  simp

/-- A word read as a number of at most 64 bits is that number's word. -/
theorem eq_word_iff {w : Bytes} (hlen : w.length = 32) {n : Nat} :
    (¬ (w.take 24).any (· ≠ 0) = true ∧ beNat (w.drop 24) = n) ↔ n < 2 ^ 64 ∧ w = word n := by
  have htake : (w.take 24).length = 24 := by rw [List.length_take, hlen]; omega
  have hdrop : (w.drop 24).length = 8 := by rw [List.length_drop, hlen]
  rw [Bool.not_eq_true, any_ne_zero_eq_false, htake]
  constructor
  · rintro ⟨hzero, rfl⟩
    have hlt := beNat_lt (w.drop 24)
    rw [hdrop] at hlt
    refine ⟨hlt, ?_⟩
    rw [word, ← hzero, ← hdrop, beBytes_beNat, List.take_append_drop]
  · rintro ⟨hn, rfl⟩
    refine ⟨?_, ?_⟩
    · rw [word, List.take_left' (by simp)]
    · rw [word, List.drop_left' (by simp), beNat_beBytes]
      exact Nat.mod_eq_of_lt hn

theorem word_inj {m n : Nat} (hm : m < 2 ^ 64) (hn : n < 2 ^ 64) (h : word m = word n) : m = n :=
  beBytes_inj hm hn (List.append_cancel_left h)

/-! ## Tuples -/

/-- An encoded component, written in place or behind an offset. -/
inductive Part where
  | static (b : Bytes)
  | dynamic (b : Bytes)

def Part.headLength : Part → Nat
  | .static b => b.length
  | .dynamic _ => 32

/-- The heads of the components, the next tail standing at `off`. -/
def heads : Nat → List Part → Bytes
  | _, [] => []
  | off, .static b :: parts => b ++ heads off parts
  | off, .dynamic b :: parts => word off ++ heads (off + b.length) parts

def tails : List Part → Bytes
  | [] => []
  | .static _ :: parts => tails parts
  | .dynamic b :: parts => b ++ tails parts

def tuple (parts : List Part) : Bytes := heads (parts.map Part.headLength).sum parts ++ tails parts

/-- A dynamic array: its length, then its members as a tuple. -/
def array (parts : List Part) : Bytes := word parts.length ++ tuple parts

theorem heads_static (off : Nat) (bs : List Bytes) : heads off (bs.map Part.static) = bs.flatten := by
  induction bs with
  | nil => rfl
  | cons b bs ih => simp [heads, ih]

theorem tails_static (bs : List Bytes) : tails (bs.map Part.static) = [] := by
  induction bs with
  | nil => rfl
  | cons b bs ih => simpa [tails] using ih

/-- The members of an array of dynamic values. -/
def members {α : Type} (enc : α → Bytes) (vs : List α) : List Part := vs.map fun v => .dynamic (enc v)

section Members

variable {α : Type} {enc : α → Bytes}

theorem heads_members_cons (off : Nat) (v : α) (vs : List α) :
    heads off (members enc (v :: vs)) = word off ++ heads (off + (enc v).length) (members enc vs) := rfl

theorem tails_members_cons (v : α) (vs : List α) :
    tails (members enc (v :: vs)) = enc v ++ tails (members enc vs) := rfl

theorem length_heads_members (off : Nat) (vs : List α) : (heads off (members enc vs)).length = 32 * vs.length := by
  induction vs generalizing off with
  | nil => rfl
  | cons v vs ih =>
    rw [heads_members_cons, List.length_append, length_word, ih, List.length_cons]
    omega

theorem tuple_members (vs : List α) :
    tuple (members enc vs) = heads (32 * vs.length) (members enc vs) ++ tails (members enc vs) := by
  have hsum : ((members enc vs).map Part.headLength).sum = 32 * vs.length := by
    induction vs with
    | nil => rfl
    | cons v vs ih =>
      simp only [members] at ih
      simp only [members, List.map_cons, List.sum_cons, Part.headLength, ih, List.length_cons]
      omega
  rw [tuple, hsum]

theorem hasAt_array_members {b : Bytes} {pos : Nat} {vs : List α} : HasAt b pos (array (members enc vs)) ↔
    HasAt b pos (word vs.length) ∧ HasAt b (pos + 32) (heads (32 * vs.length) (members enc vs)) ∧
      HasAt b (pos + 32 + 32 * vs.length) (tails (members enc vs)) := by
  rw [array, tuple_members, hasAt_append, hasAt_append, length_word, length_heads_members, members, List.length_map]

theorem length_array_members (vs : List α) :
    (array (members enc vs)).length = 32 + 32 * vs.length + (tails (members enc vs)).length := by
  rw [array, tuple_members, List.length_append, List.length_append, length_word, length_heads_members]
  omega

end Members

/-- A string that encodes a number and two byte strings, piece by piece. -/
theorem eq_call_iff {b x y : Bytes} {op : Nat} :
    b = tuple [.static (word op), .dynamic (bytes x), .dynamic (bytes y)] ↔
      HasAt b 0 (word op) ∧ HasAt b 32 (word 96) ∧ HasAt b 64 (word (96 + (bytes x).length)) ∧
        HasAt b 96 (bytes x) ∧ HasAt b (96 + (bytes x).length) (bytes y) ∧
        96 + (bytes x).length + (bytes y).length = b.length := by
  rw [← hasAt_zero_and_length]
  simp only [tuple, heads, tails, Part.headLength, List.map_cons, List.map_nil, List.sum_cons, List.sum_nil,
    length_word, List.append_nil, hasAt_append, List.length_append, List.append_assoc, Nat.reduceAdd,
    Nat.zero_add, Nat.add_assoc]
  constructor
  · rintro ⟨⟨hop, hfirst, hsecond, hx, hy⟩, hlen⟩
    exact ⟨hop, hfirst, hsecond, hx, hy, by omega⟩
  · rintro ⟨hop, hfirst, hsecond, hx, hy, hlen⟩
    exact ⟨⟨hop, hfirst, hsecond, hx, hy⟩, by omega⟩

/-! ## Reading -/

/-- The word at `pos`. -/
def wordAt (b : Bytes) (pos : Nat) : Option Bytes32 := do
  let w ← byteRange b pos (pos + 32)
  Fixed.ofBytes? 32 w

/-- The number at `pos`, of at most 64 bits. -/
def numberAt (b : Bytes) (pos : Nat) : Option Nat := do
  let w ← wordAt b pos
  if (w.val.take 24).any (· ≠ 0) = true then none else some (beNat (w.val.drop 24))

theorem wordAt_of_hasAt {b : Bytes} {pos : Nat} {w : Bytes32} (h : HasAt b pos w.val) : wordAt b pos = some w := by
  have hrange : byteRange b pos (pos + 32) = some w.val :=
    byteRange_eq_some.mpr ⟨by omega, by simp, h⟩
  rw [wordAt, hrange]
  exact Fixed.ofBytes?_eq_some.mpr rfl

theorem numberAt_of_hasAt {b : Bytes} {pos n : Nat} (hn : n < 2 ^ 64) (h : HasAt b pos (word n)) :
    numberAt b pos = some n := by
  have hw : wordAt b pos = some ⟨word n, length_word n⟩ := wordAt_of_hasAt h
  obtain ⟨hzero, hvalue⟩ := (eq_word_iff (length_word n)).mpr ⟨hn, rfl⟩
  rw [numberAt, hw]
  simpa [hvalue] using hzero

end EthAbi

end Ureth.Foundation
