import Ureth.Foundation.Outcome

/-!
# Byte strings and big-endian numbers
-/

namespace Ureth.Foundation

/-- The order of `u8`; byte strings have the lexicographic order it gives. -/
instance instLinearOrderUInt8 : LinearOrder UInt8 where
  le_refl a := UInt8.le_refl a
  le_trans _ _ _ hab hbc := UInt8.le_trans hab hbc
  le_antisymm _ _ hab hba := UInt8.le_antisymm hab hba
  le_total a b := UInt8.le_total a b
  lt_iff_le_not_ge a b := by
    rw [UInt8.lt_iff_toNat_lt, UInt8.le_iff_toNat_le, UInt8.le_iff_toNat_le]
    omega
  toDecidableLE := inferInstance

abbrev Bytes := List UInt8

/-- A byte array of fixed length, `[u8; n]`. -/
abbrev Fixed (n : Nat) := { b : Bytes // b.length = n }

abbrev Bytes32 := Fixed 32

instance Bytes32.instLawfulBEq : LawfulBEq Bytes32 := inferInstance

/-- The bytes of an ASCII string. -/
def ascii (s : String) : Bytes := s.toList.map fun c => UInt8.ofNat c.toNat

/-- A number in decimal digits, as `{}` formats it. -/
def decimal (n : Nat) : Bytes := (Nat.toDigits 10 n).map fun c => UInt8.ofNat c.toNat

/-- Two lower-case hexadecimal digits a byte, as `{:02x}` formats each. -/
def hex (b : Bytes) : Bytes :=
  b.flatMap fun x =>
    [x.toNat / 16, x.toNat % 16].map fun d => UInt8.ofNat (Nat.digitChar d).toNat

def Fixed.zero (n : Nat) : Fixed n := ⟨List.replicate n 0, List.length_replicate⟩

/-- `try_into` of a slice. -/
def Fixed.ofBytes? (n : Nat) (b : Bytes) : Option (Fixed n) :=
  if h : b.length = n then some ⟨b, h⟩ else none

/-- A shorter string right-aligned in zeros, `w[n - b.len()..].copy_from_slice(b)`. -/
def Fixed.padLeft? (n : Nat) (b : Bytes) : Option (Fixed n) :=
  if h : b.length ≤ n then
    some ⟨List.replicate (n - b.length) 0 ++ b, by
      rw [List.length_append, List.length_replicate]
      omega⟩
  else none

@[simp] theorem Fixed.ofBytes?_eq_some {n : Nat} {b : Bytes} {w : Fixed n} :
    Fixed.ofBytes? n b = some w ↔ b = w.val := by
  unfold Fixed.ofBytes?
  split
  next h =>
    rw [Option.some.injEq]
    exact ⟨fun hw => by rw [← hw], fun hb => Subtype.ext hb⟩
  next h =>
    simp only [reduceCtorEq, false_iff]
    rintro rfl
    exact h w.property

@[simp] theorem Fixed.length_val {n : Nat} (b : Fixed n) : b.val.length = n := b.property

def literalOnto : Nat → Nat → Bytes → Bytes
  | 0, _, acc => acc
  | width + 1, n, acc => literalOnto width (n / 256) (UInt8.ofNat n :: acc)

/-- The byte string of `width` bytes written as one big-endian number. -/
def literal (width n : Nat) : Bytes := literalOnto width n []

theorem length_literalOnto (width n : Nat) (acc : Bytes) :
    (literalOnto width n acc).length = width + acc.length := by
  induction width generalizing n acc with
  | zero => simp [literalOnto]
  | succ width ih =>
    rw [literalOnto, ih, List.length_cons]
    omega

def Fixed.literal (width n : Nat) : Fixed width :=
  ⟨Foundation.literal width n, by simp [Foundation.literal, length_literalOnto]⟩

/-- The bytes from `lo` up to `hi`, if the string has them. -/
def byteRange (b : Bytes) (lo hi : Nat) : Option Bytes :=
  if lo ≤ hi ∧ hi ≤ b.length then some ((b.drop lo).take (hi - lo)) else none

/-- The number of one bits of a byte string. -/
def popCount (b : Bytes) : Nat :=
  (b.map fun x => ((List.range 8).filter x.toNat.testBit).length).sum

/-- Big-endian reading of a byte string. -/
def beNat (b : Bytes) : Nat := b.foldl (fun v x => v * 256 + x.toNat) 0

/-- The `width` low-order bytes of `n`, most significant first. -/
def beBytes : Nat → Nat → Bytes
  | 0, _ => []
  | width + 1, n => beBytes width (n / 256) ++ [UInt8.ofNat n]

@[simp] theorem beBytes_length (width n : Nat) : (beBytes width n).length = width := by
  induction width generalizing n with
  | zero => rfl
  | succ width ih => simp [beBytes, ih]

/-- The last `width` bytes of a number, big-endian. -/
def Fixed.ofNat (width n : Nat) : Fixed width := ⟨beBytes width n, beBytes_length width n⟩

theorem beNat_append_singleton (b : Bytes) (x : UInt8) :
    beNat (b ++ [x]) = beNat b * 256 + x.toNat := by
  simp [beNat]

@[simp] theorem beNat_nil : beNat [] = 0 := rfl

theorem beNat_cons (x : UInt8) (b : Bytes) :
    beNat (x :: b) = x.toNat * 256 ^ b.length + beNat b := by
  induction b using List.reverseRecOn with
  | nil => simp [beNat]
  | append_singleton b y ih =>
    rw [← List.cons_append, beNat_append_singleton, beNat_append_singleton, ih]
    simp only [List.length_append, List.length_singleton, pow_succ]
    ring

theorem beNat_append (a b : Bytes) : beNat (a ++ b) = beNat a * 256 ^ b.length + beNat b := by
  induction b using List.reverseRecOn with
  | nil => simp
  | append_singleton b y ih =>
    rw [← List.append_assoc, beNat_append_singleton, beNat_append_singleton, ih]
    simp only [List.length_append, List.length_singleton, pow_succ]
    ring

theorem beNat_lt (b : Bytes) : beNat b < 256 ^ b.length := by
  induction b using List.reverseRecOn with
  | nil => simp
  | append_singleton b y ih =>
    rw [beNat_append_singleton, List.length_append, List.length_singleton, pow_succ]
    have := y.toNat_lt
    omega

theorem beNat_beBytes (width n : Nat) : beNat (beBytes width n) = n % 256 ^ width := by
  induction width generalizing n with
  | zero => simp [beBytes, Nat.mod_one]
  | succ width ih =>
    have hsplit : n % (256 * 256 ^ width) = n % 256 + 256 * (n / 256 % 256 ^ width) := Nat.mod_mul
    rw [beBytes, beNat_append_singleton, ih, UInt8.toNat_ofNat', pow_succ' 256 width, hsplit]
    omega

/-- Writing back what was read gives the same bytes. -/
theorem beBytes_beNat (b : Bytes) : beBytes b.length (beNat b) = b := by
  induction b using List.reverseRecOn with
  | nil => rfl
  | append_singleton b y ih =>
    have hy := y.toNat_lt
    have hdiv : (beNat b * 256 + y.toNat) / 256 = beNat b := by omega
    have hlow : UInt8.ofNat (beNat b * 256 + y.toNat) = y := by
      apply UInt8.toNat.inj
      rw [UInt8.toNat_ofNat']
      omega
    rw [List.length_append, List.length_singleton, beBytes, beNat_append_singleton, hdiv, hlow, ih]

/-- Strings of one length are determined by their number. -/
theorem beNat_inj {a b : Bytes} (hlen : a.length = b.length) (h : beNat a = beNat b) : a = b := by
  rw [← beBytes_beNat a, ← beBytes_beNat b, hlen, h]

theorem beBytes_inj {width m n : Nat} (hm : m < 256 ^ width) (hn : n < 256 ^ width)
    (h : beBytes width m = beBytes width n) : m = n := by
  have hv := congrArg beNat h
  rwa [beNat_beBytes, beNat_beBytes, Nat.mod_eq_of_lt hm, Nat.mod_eq_of_lt hn] at hv

end Ureth.Foundation
