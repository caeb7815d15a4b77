import Ureth.Foundation.Scaling
import Ureth.Source.Execution.Update

/-!
# Weight quantization

The committed weights of a committee are its raw weights, or, where these sum to more than the
cap, the raw weights divided by the least divisor that leaves room for one unit a member.
-/

namespace Ureth.Source.Execution
open Ureth.Foundation

inductive QuantError where
  | committee
  | zeroWeight
  | overflow
  deriving DecidableEq

/-- The loop over the raw weights, after those that sum to `total`. -/
def rawTotal (total : UInt64) : List UInt64 → Res QuantError UInt64
  | [] => .ok total
  | v :: rest => do
    Res.refuse (v = 0) .zeroWeight
    let total ← Res.okOr .overflow (addWithin total v)
    rawTotal total rest

/-- The committed weights and the divisor. -/
def quantize (x : List UInt64) (b : UInt64) : Res QuantError (List UInt64 × UInt64) := do
  let n : UInt64 := .ofNat x.length
  Res.refuse (n = 0 ∨ b ≤ n) .committee
  let total ← rawTotal 0 x
  if total ≤ b then return (x, 1)
  else
    let s := ceilDiv total (b - n)
    return (x.map fun v => max (v / s) 1, s)

/-! ## Weights of members -/

/-- The weight of the member at `i`. -/
def weightAt (w : List UInt64) (i : Nat) : Nat := (w.getD i 0).toNat

/-- The weight of a set of members. -/
def weightOf (w : List UInt64) (S : Finset Nat) : Nat := ∑ i ∈ S, weightAt w i

def members (w : List UInt64) : Finset Nat := Finset.range w.length

theorem weightAt_map {f : UInt64 → UInt64} {w : List UInt64} {i : Nat} (hi : i < w.length) :
    weightAt (w.map f) i = (f (w.getD i 0)).toNat := by
  simp [weightAt, List.getD_eq_getElem?_getD, hi]

theorem weightOf_cons (v : UInt64) (w : List UInt64) :
    weightOf (v :: w) (members (v :: w)) = v.toNat + weightOf w (members w) := by
  simp only [weightOf, members, List.length_cons, Finset.sum_range_succ', weightAt]
  exact Nat.add_comm _ _

theorem rawTotal_eq_ok {total sum : UInt64} {x : List UInt64} (h : rawTotal total x = .ok sum) :
    sum.toNat = total.toNat + weightOf x (members x) ∧ ∀ i ∈ members x, 1 ≤ weightAt x i := by
  induction x generalizing total with
  | nil =>
    obtain rfl := Except.ok.inj h
    simp [weightOf, members]
  | cons v rest ih =>
    simp only [rawTotal, Res.bind_eq_ok, Res.refuse_eq_ok, Res.okOr_eq_ok, addWithin_eq_some] at h
    obtain ⟨_, hv, next, hnext, hrest⟩ := h
    obtain ⟨hsum, hpos⟩ := ih hrest
    have hone : 1 ≤ v.toNat := Nat.pos_of_ne_zero fun hz => hv (UInt64.toNat_inj.mp hz)
    refine ⟨?_, ?_⟩
    · rw [hsum, weightOf_cons, ← hnext]
      omega
    · intro i hi
      cases i with
      | zero => exact hone
      | succ i =>
        have hlt : i < rest.length := by simpa [members] using hi
        exact hpos i (Finset.mem_range.mpr hlt)

/-- What an accepted quantization is: a committee with room under the cap, and its weights as they
are or divided by the least divisor for that room. -/
structure Quantized (x : List UInt64) (b : UInt64) (q : List UInt64) (s : UInt64) : Prop where
  nonempty : 0 < x.length
  room : x.length < b.toNat
  positive : ∀ i ∈ members x, 1 ≤ weightAt x i
  weights : (weightOf x (members x) ≤ b.toNat ∧ q = x) ∨
    (b.toNat < weightOf x (members x) ∧ q = x.map (fun v => max (v / s) 1) ∧
      weightOf x (members x) ≤ (b.toNat - x.length) * s.toNat ∧
      (b.toNat - x.length) * s.toNat < weightOf x (members x) + (b.toNat - x.length))

/-- Positive weights whose sum fits are fewer than 2^64, so the length is not cut off. -/
theorem length_le_weightOf {x : List UInt64} (h : ∀ i ∈ members x, 1 ≤ weightAt x i) :
    x.length ≤ weightOf x (members x) := by
  calc x.length = ∑ _i ∈ members x, 1 := by simp [members]
    _ ≤ weightOf x (members x) := Finset.sum_le_sum h

theorem quantize_eq_ok {x q : List UInt64} {b s : UInt64} (h : quantize x b = .ok (q, s)) :
    Quantized x b q s := by
  simp only [quantize, Res.bind_eq_ok, Res.refuse_eq_ok, not_or, UInt64.not_le] at h
  obtain ⟨_, ⟨hzero, hroom⟩, total, htotal, h⟩ := h
  obtain ⟨hsum, hpos⟩ := rawTotal_eq_ok htotal
  rw [UInt64.toNat_zero, Nat.zero_add] at hsum
  have hlen : (UInt64.ofNat x.length).toNat = x.length := by
    have hle := length_le_weightOf hpos
    have hlt := total.toNat_lt
    rw [UInt64.toNat_ofNat', Nat.mod_eq_of_lt (by omega)]
  have hroom' := UInt64.lt_iff_toNat_lt.mp hroom
  rw [hlen] at hroom'
  have hnonempty : 0 < x.length := by
    refine Nat.pos_of_ne_zero fun hz => hzero ?_
    rw [hz]
    rfl
  refine ⟨hnonempty, hroom', hpos, ?_⟩
  split at h
  next hle =>
    rw [UInt64.le_iff_toNat_le, hsum] at hle
    obtain ⟨rfl, -⟩ := Prod.mk.inj (Except.ok.inj h)
    exact .inl ⟨hle, rfl⟩
  next hgt =>
    rw [UInt64.le_iff_toNat_le, hsum, Nat.not_le] at hgt
    obtain ⟨rfl, rfl⟩ := Prod.mk.inj (Except.ok.inj h)
    have hspace : (b - UInt64.ofNat x.length).toNat = b.toNat - x.length := by
      rw [UInt64.toNat_sub_of_le _ _ (UInt64.le_of_lt hroom), hlen]
    obtain ⟨hcover, hleast⟩ := ceilDiv_spec (a := total) (b := b - UInt64.ofNat x.length)
      (by rw [hspace]; omega)
    rw [hspace, hsum] at hcover hleast
    exact .inr ⟨hgt, rfl, hcover, hleast⟩

namespace Quantized

variable {x q : List UInt64} {b s : UInt64}

theorem divisor_pos (hcover : weightOf x (members x) ≤ (b.toNat - x.length) * s.toNat)
    (hlarge : b.toNat < weightOf x (members x)) : 0 < s.toNat := by
  refine Nat.pos_of_ne_zero fun hz => ?_
  rw [hz, Nat.mul_zero] at hcover
  omega

/-- Divided weights are the scaled weights. -/
theorem weightAt_scaled {i : Nat} (hi : i ∈ members x) :
    weightAt (x.map fun v => max (v / s) 1) i = Scaling.scaled s.toNat (weightAt x i) := by
  rw [weightAt_map (Finset.mem_range.mp hi), toNat_max, UInt64.toNat_div]
  rfl

theorem weightOf_scaled {S : Finset Nat} (hS : S ⊆ members x) :
    weightOf (x.map fun v => max (v / s) 1) S = ∑ i ∈ S, Scaling.scaled s.toNat (weightAt x i) :=
  Finset.sum_congr rfl fun _ hi => weightAt_scaled (hS hi)

end Quantized

end Ureth.Source.Execution
