import Ureth.Foundation.Bytes

/-!
# The bits of a byte string

Bits are numbered from the most significant bit of the first byte. A string has as many ones as
`popCount` says, and its bits determine it.
-/

namespace Ureth.Foundation

/-- Bit `d`; past the end there are no ones. -/
def bitOf (b : Bytes) (d : Nat) : Bool := (b.getD (d / 8) 0).toNat.testBit (7 - d % 8)

/-- The number of ones among the first `n` bits. -/
def onesBelow (b : Bytes) : Nat → Nat
  | 0 => 0
  | d + 1 => onesBelow b d + (bitOf b d).toNat

theorem bitOf_append_left {b : Bytes} (c : Bytes) {d : Nat} (h : d < 8 * b.length) :
    bitOf (b ++ c) d = bitOf b d := by
  have hlt : d / 8 < b.length := by omega
  simp [bitOf, List.getElem?_append_left hlt]

theorem onesBelow_append_left {b : Bytes} (c : Bytes) {n : Nat} (h : n ≤ 8 * b.length) :
    onesBelow (b ++ c) n = onesBelow b n := by
  induction n with
  | zero => rfl
  | succ d ih => rw [onesBelow, onesBelow, ih (by omega), bitOf_append_left c (by omega)]

/-- Bit `i` of the byte after `b`. -/
theorem bitOf_append_byte (b : Bytes) (x : UInt8) {i : Nat} (h : i < 8) :
    bitOf (b ++ [x]) (8 * b.length + i) = x.toNat.testBit (7 - i) := by
  have hdiv : (8 * b.length + i) / 8 = b.length := by omega
  have hmod : (8 * b.length + i) % 8 = i := by omega
  simp [bitOf, hdiv, hmod]

theorem onesBelow_eq_popCount (b : Bytes) : onesBelow b (8 * b.length) = popCount b := by
  induction b using List.reverseRecOn with
  | nil => rfl
  | append_singleton b x ih =>
    have hlast : popCount (b ++ [x]) = popCount b + ((List.range 8).filter x.toNat.testBit).length := by
      simp [popCount]
    have hbyte : ((List.range 8).filter x.toNat.testBit).length =
        (x.toNat.testBit 0).toNat + (x.toNat.testBit 1).toNat + (x.toNat.testBit 2).toNat +
          (x.toNat.testBit 3).toNat + (x.toNat.testBit 4).toNat + (x.toNat.testBit 5).toNat +
          (x.toNat.testBit 6).toNat + (x.toNat.testBit 7).toNat := by
      rw [← List.countP_eq_length_filter]
      simp only [List.range_succ, List.range_zero, List.nil_append, List.countP_append, List.countP_singleton,
        Bool.toNat, Bool.cond_eq_ite]
    have hbit := fun i (hi : i < 8) => bitOf_append_byte b x hi
    rw [hlast, ← ih, hbyte, List.length_append, List.length_singleton, Nat.mul_add, Nat.mul_one]
    simp only [onesBelow, onesBelow_append_left [x] (Nat.le_refl _)]
    rw [show 8 * b.length = 8 * b.length + 0 from rfl, hbit 0 (by omega)]
    simp only [Nat.add_zero, hbit 1 (by omega), hbit 2 (by omega), hbit 3 (by omega), hbit 4 (by omega),
      hbit 5 (by omega), hbit 6 (by omega), hbit 7 (by omega), Nat.reduceSub]
    omega

theorem eq_of_bitOf {a b : Bytes} (hlen : a.length = b.length)
    (h : ∀ d < 8 * a.length, bitOf a d = bitOf b d) : a = b := by
  refine List.ext_getElem hlen fun i hi hi' => ?_
  refine UInt8.toNat.inj (Nat.eq_of_testBit_eq fun j => ?_)
  by_cases hj : j < 8
  · have hd := h (8 * i + (7 - j)) (by omega)
    have hdiv : (8 * i + (7 - j)) / 8 = i := by omega
    have hmod : 7 - (8 * i + (7 - j)) % 8 = j := by omega
    rw [bitOf, bitOf, hdiv, hmod] at hd
    simpa [hi, hi'] using hd
  · have hpow : 2 ^ 8 ≤ 2 ^ j := Nat.pow_le_pow_right Nat.two_pos (Nat.le_of_not_lt hj)
    have hone : ∀ x : UInt8, x.toNat.testBit j = false := fun x =>
      Nat.testBit_lt_two_pow (lt_of_lt_of_le x.toNat_lt hpow)
    rw [hone, hone]

end Ureth.Foundation
