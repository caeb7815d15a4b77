import Mathlib

/-!
# Weights divided down

Weights are divided by a common divisor, rounded down, and kept at one at least. Each scaled
weight is off by less than the divisor, so a set of members keeps its share of the total up to
twice the number of members over the total, and the order of the weights is kept.
-/

namespace Ureth.Foundation.Scaling

def scaled (s v : ℕ) : ℕ := max (v / s) 1

variable {s v w : ℕ}

theorem one_le_scaled : 1 ≤ scaled s v := le_max_right _ _

theorem scaled_le (hv : 1 ≤ v) : scaled s v ≤ v := max_le (Nat.div_le_self _ _) hv

theorem scaled_mono (h : v ≤ w) : scaled s v ≤ scaled s w :=
  max_le_max (Nat.div_le_div_right h) le_rfl

theorem scaled_le_div_add_one : scaled s v ≤ v / s + 1 := max_le (Nat.le_succ _) (Nat.le_add_left _ _)

/-- Scaled back, a weight is off by less than the divisor. -/
theorem abs_mul_scaled_sub_le (hs : 0 < s) (hv : 1 ≤ v) : |(s * scaled s v : ℤ) - v| ≤ s - 1 := by
  have hdiv := Nat.div_add_mod v s
  have hmod := Nat.mod_lt v hs
  unfold scaled
  rcases Nat.eq_zero_or_pos (v / s) with hzero | hpos
  · rw [hzero, Nat.mul_zero] at hdiv
    rw [hzero, abs_le]
    simp only [Nat.zero_max, Nat.cast_one, mul_one]
    omega
  · rw [max_eq_left hpos, abs_le]
    have hcast : (s : ℤ) * (v / s : ℕ) + (v % s : ℕ) = v := by exact_mod_cast hdiv
    omega

section Sums

variable {ι : Type*} {x : ι → ℕ} {S T : Finset ι}

/-- The scaled weight of a set. -/
theorem abs_sum_sub_le (hs : 0 < s) (hx : ∀ i ∈ S, 1 ≤ x i) :
    |(s * ∑ i ∈ S, (scaled s (x i) : ℤ)) - ∑ i ∈ S, (x i : ℤ)| ≤ S.card * (s - 1) := by
  rw [Finset.mul_sum, ← Finset.sum_sub_distrib]
  calc |∑ i ∈ S, ((s * scaled s (x i) : ℤ) - x i)|
      ≤ ∑ i ∈ S, |(s * scaled s (x i) : ℤ) - x i| := Finset.abs_sum_le_sum_abs _ _
    _ ≤ ∑ _i ∈ S, ((s : ℤ) - 1) := Finset.sum_le_sum fun i hi => abs_mul_scaled_sub_le hs (hx i hi)
    _ = S.card * (s - 1) := by rw [Finset.sum_const, nsmul_eq_mul]

theorem sum_scaled_le : s * ∑ i ∈ T, scaled s (x i) ≤ ∑ i ∈ T, x i + s * T.card := by
  rw [Finset.mul_sum, Finset.card_eq_sum_ones, Finset.mul_sum, ← Finset.sum_add_distrib]
  refine Finset.sum_le_sum fun i _ => ?_
  calc s * scaled s (x i) ≤ s * (x i / s + 1) := Nat.mul_le_mul_left _ scaled_le_div_add_one
    _ = s * (x i / s) + s * 1 := Nat.mul_add _ _ _
    _ ≤ x i + s * 1 := Nat.add_le_add_right (Nat.mul_div_le _ _) _

/-- The share of a set among the scaled weights is its share among the weights, up to twice the
number of members over the scaled total. -/
theorem abs_share_sub_lt (hs : 0 < s) (hx : ∀ i ∈ T, 1 ≤ x i) (hT : T.Nonempty) (hS : S ⊆ T) :
    |(∑ i ∈ S, (scaled s (x i) : ℤ)) * ∑ i ∈ T, (x i : ℤ) -
        (∑ i ∈ S, (x i : ℤ)) * ∑ i ∈ T, (scaled s (x i) : ℤ)| < 2 * T.card * ∑ i ∈ T, (x i : ℤ) := by
  set qS : ℤ := ∑ i ∈ S, (scaled s (x i) : ℤ)
  set qT : ℤ := ∑ i ∈ T, (scaled s (x i) : ℤ)
  set xS : ℤ := ∑ i ∈ S, (x i : ℤ)
  set xT : ℤ := ∑ i ∈ T, (x i : ℤ)
  have hs' : (0 : ℤ) < s := by exact_mod_cast hs
  have hcard : (0 : ℤ) < T.card := by exact_mod_cast hT.card_pos
  have hsub : (S.card : ℤ) ≤ T.card := by exact_mod_cast Finset.card_le_card hS
  have hxS : 0 ≤ xS := Finset.sum_nonneg fun i _ => Int.natCast_nonneg _
  have hle : xS ≤ xT := Finset.sum_le_sum_of_subset_of_nonneg hS fun i _ _ => Int.natCast_nonneg _
  have hxT : 0 < xT := by
    obtain ⟨i, hi⟩ := hT
    refine Finset.sum_pos (fun j hj => ?_) ⟨i, hi⟩
    exact_mod_cast hx j hj
  have hS' : |s * qS - xS| ≤ S.card * (s - 1) := abs_sum_sub_le hs fun i hi => hx i (hS hi)
  have hT' : |s * qT - xT| ≤ T.card * (s - 1) := abs_sum_sub_le hs hx
  -- scaled back, the difference is the error of the set on the total less the error of the total
  have hback : s * (qS * xT - xS * qT) = (s * qS - xS) * xT - xS * (s * qT - xT) := by ring
  have hbound : |(s : ℤ)| * |qS * xT - xS * qT| ≤ 2 * T.card * (s - 1) * xT := by
    rw [← abs_mul, hback]
    calc |(s * qS - xS) * xT - xS * (s * qT - xT)|
        ≤ |(s * qS - xS) * xT| + |xS * (s * qT - xT)| := abs_sub _ _
      _ = |s * qS - xS| * xT + xS * |s * qT - xT| := by
        rw [abs_mul, abs_mul, abs_of_pos hxT, abs_of_nonneg hxS]
      _ ≤ (T.card * (s - 1)) * xT + xT * (T.card * (s - 1)) := by
        have hstep : |s * qS - xS| ≤ T.card * (s - 1) :=
          hS'.trans (mul_le_mul_of_nonneg_right hsub (by omega))
        exact add_le_add (mul_le_mul_of_nonneg_right hstep hxT.le)
          (mul_le_mul hle hT' (abs_nonneg _) hxT.le)
      _ = 2 * T.card * (s - 1) * xT := by ring
  rw [abs_of_pos hs'] at hbound
  refine lt_of_mul_lt_mul_left (hbound.trans_lt ?_) hs'.le
  have hpos : 0 < T.card * xT := mul_pos hcard hxT
  nlinarith

/-- What the scaled total loses to rounding. -/
theorem sum_add_card_le (hs : 0 < s) (hx : ∀ i ∈ T, 1 ≤ x i) :
    ∑ i ∈ T, x i + T.card ≤ s * (∑ i ∈ T, scaled s (x i) + T.card) := by
  have herror := (abs_le.mp (abs_sum_sub_le hs hx)).1
  zify
  nlinarith

end Sums

/-! ## A divisor for a cap -/

/-- The divisor that leaves room for one unit a member keeps the total within the cap. -/
theorem sum_scaled_le_cap {ι : Type*} {x : ι → ℕ} {T : Finset ι} {room : ℕ} (hs : 0 < s)
    (hroom : ∑ i ∈ T, x i ≤ room * s) : ∑ i ∈ T, scaled s (x i) ≤ room + T.card := by
  have hsum : s * ∑ i ∈ T, scaled s (x i) ≤ s * (room + T.card) := by
    calc s * ∑ i ∈ T, scaled s (x i) ≤ ∑ i ∈ T, x i + s * T.card := sum_scaled_le
      _ ≤ room * s + s * T.card := Nat.add_le_add_right hroom _
      _ = s * (room + T.card) := by ring
  exact Nat.le_of_mul_le_mul_left hsum hs

/-- With the least such divisor the scaled total and the members together are more than half the
cap: for few members by the size of the total, for many by their own number. -/
theorem half_cap_lt {X Q n b s room : ℕ} (hn : 0 < n) (hroom : room + n = b) (hpos : 0 < room)
    (hb : 3 < b) (hX : b < X) (hs : room * s < X + room) (hlow : X + n ≤ s * (Q + n)) (hQ : n ≤ Q) :
    b + 1 < 2 * (Q + n) := by
  by_contra hcontra
  have hsmall : 2 * (Q + n) ≤ b + 1 := Nat.le_of_not_lt hcontra
  have hfew : 2 * n < b - 1 := by omega
  -- with few members the total is too large for the divisor
  have hmul : 2 * room * (X + n) ≤ (b + 1) * (room * s) := by
    calc 2 * room * (X + n) ≤ 2 * room * (s * (Q + n)) := Nat.mul_le_mul_left _ hlow
      _ = room * s * (2 * (Q + n)) := by ring
      _ ≤ room * s * (b + 1) := Nat.mul_le_mul_left _ hsmall
      _ = (b + 1) * (room * s) := by ring
  have hstep : 2 * room * (X + n) < (b + 1) * (X + room) :=
    hmul.trans_lt (Nat.mul_lt_mul_of_pos_left hs (by omega))
  obtain ⟨k, rfl⟩ := Nat.exists_eq_add_of_lt hX
  subst hroom
  zify at *
  nlinarith
end Ureth.Foundation.Scaling
