import Ureth.Foundation.Outcome

/-!
# Arithmetic on 64-bit words

`saturating_add`, `saturating_sub`, `checked_add`, `checked_sub` and `div_ceil` of the unsigned
64-bit type and its plain sum and difference, which panic on overflow, with their values as natural numbers.
-/

namespace Ureth.Foundation

def satSub (a b : UInt64) : UInt64 := if b ≤ a then a - b else 0

def satAdd (a b : UInt64) : UInt64 :=
  if a.toNat + b.toNat < 2 ^ 64 then a + b else UInt64.ofNat (2 ^ 64 - 1)

/-- Addition that answers nothing on overflow. -/
def addWithin (a b : UInt64) : Option UInt64 :=
  if a.toNat + b.toNat < 2 ^ 64 then some (a + b) else none

/-- Subtraction that answers nothing below zero. -/
def subWithin (a b : UInt64) : Option UInt64 := if b ≤ a then some (a - b) else none

/-- The quotient rounded up, by a divisor that is not zero. -/
def ceilDiv (a b : UInt64) : UInt64 := if a % b = 0 then a / b else a / b + 1

/-- The plain sum; overflow panics. -/
def Res.addU64 {ε : Type} (a b : UInt64) : Res ε UInt64 := Res.unwrap (addWithin a b)

/-- The plain difference; underflow panics. -/
def Res.subU64 {ε : Type} (a b : UInt64) : Res ε UInt64 := Res.unwrap (subWithin a b)

@[simp] theorem toNat_satSub (a b : UInt64) : (satSub a b).toNat = a.toNat - b.toNat := by
  unfold satSub
  split
  next h => rw [UInt64.toNat_sub_of_le _ _ h]
  next h =>
    rw [UInt64.le_iff_toNat_le] at h
    simp only [UInt64.toNat_zero]
    omega

@[simp] theorem toNat_satAdd (a b : UInt64) :
    (satAdd a b).toNat = min (a.toNat + b.toNat) (2 ^ 64 - 1) := by
  unfold satAdd
  split
  next h =>
    rw [UInt64.toNat_add, Nat.mod_eq_of_lt h]
    omega
  next h =>
    rw [UInt64.toNat_ofNat']
    omega

theorem addWithin_eq_some {a b c : UInt64} :
    addWithin a b = some c ↔ a.toNat + b.toNat = c.toNat := by
  have hc := c.toNat_lt
  unfold addWithin
  split
  next h =>
    rw [Option.some.injEq, ← UInt64.toNat_inj, UInt64.toNat_add, Nat.mod_eq_of_lt h]
  next h =>
    simp only [reduceCtorEq, false_iff]
    omega

theorem addWithin_of_lt {a b : UInt64} (h : a.toNat + b.toNat < 2 ^ 64) :
    ∃ c, addWithin a b = some c ∧ c.toNat = a.toNat + b.toNat := by
  refine ⟨a + b, if_pos h, ?_⟩
  rw [UInt64.toNat_add, Nat.mod_eq_of_lt h]

theorem subWithin_eq_some {a b c : UInt64} :
    subWithin a b = some c ↔ a.toNat = b.toNat + c.toNat := by
  unfold subWithin
  split
  next h =>
    rw [Option.some.injEq, ← UInt64.toNat_inj, UInt64.toNat_sub_of_le _ _ h]
    rw [UInt64.le_iff_toNat_le] at h
    omega
  next h =>
    rw [UInt64.le_iff_toNat_le] at h
    simp only [reduceCtorEq, false_iff]
    omega

theorem subWithin_of_le {a b : UInt64} (h : b.toNat ≤ a.toNat) :
    ∃ c, subWithin a b = some c ∧ a.toNat = b.toNat + c.toNat := by
  have hle := UInt64.le_iff_toNat_le.mpr h
  refine ⟨a - b, if_pos hle, ?_⟩
  rw [UInt64.toNat_sub_of_le _ _ hle]
  omega

/-- The rounded quotient is the least that covers the dividend. -/
theorem ceilDiv_spec {a b : UInt64} (hb : 0 < b.toNat) :
    a.toNat ≤ b.toNat * (ceilDiv a b).toNat ∧ b.toNat * (ceilDiv a b).toNat < a.toNat + b.toNat := by
  have hdiv := Nat.div_add_mod a.toNat b.toNat
  have hmod := Nat.mod_lt a.toNat hb
  unfold ceilDiv
  split
  next h =>
    have hzero : a.toNat % b.toNat = 0 := by rw [← UInt64.toNat_mod, h]; rfl
    rw [UInt64.toNat_div]
    omega
  next h =>
    have hrest : a.toNat % b.toNat ≠ 0 := fun hz =>
      h (UInt64.toNat_inj.mp ((UInt64.toNat_mod a b).trans hz))
    have hquot : a.toNat / b.toNat + 1 < 2 ^ 64 := by
      have hhalf : a.toNat / b.toNat ≤ a.toNat / 2 := Nat.div_le_div_left (by omega) (by decide)
      have hlt := a.toNat_lt
      omega
    have hvalue : (a / b + 1).toNat = a.toNat / b.toNat + 1 := by
      rw [UInt64.toNat_add, UInt64.toNat_div]
      exact Nat.mod_eq_of_lt hquot
    rw [hvalue, Nat.mul_add]
    omega

namespace Res

variable {ε : Type} {a b c : UInt64}

theorem addU64_eq_ok : (addU64 a b : Res ε UInt64) = .ok c ↔ a.toNat + b.toNat = c.toNat := by
  rw [addU64, unwrap_eq_ok, addWithin_eq_some]

theorem subU64_eq_ok : (subU64 a b : Res ε UInt64) = .ok c ↔ a.toNat = b.toNat + c.toNat := by
  rw [subU64, unwrap_eq_ok, subWithin_eq_some]

theorem noPanic_subU64 (h : b.toNat ≤ a.toNat) : NoPanic (subU64 a b : Res ε UInt64) := by
  obtain ⟨c, hc, -⟩ := subWithin_of_le h
  exact failsOnly_unwrap hc

end Res

theorem toNat_min (a b : UInt64) : (min a b).toNat = min a.toNat b.toNat := by
  rw [show min a b = if a ≤ b then a else b from rfl]
  split
  next h =>
    rw [UInt64.le_iff_toNat_le] at h
    omega
  next h =>
    rw [UInt64.le_iff_toNat_le] at h
    omega

theorem toNat_max (a b : UInt64) : (max a b).toNat = max a.toNat b.toNat := by
  rw [show max a b = if a ≤ b then b else a from rfl]
  split
  next h =>
    rw [UInt64.le_iff_toNat_le] at h
    omega
  next h =>
    rw [UInt64.le_iff_toNat_le] at h
    omega

end Ureth.Foundation
