import Mathlib

/-!
# A price that follows a load

The controller of a fee market on natural numbers: a base moves by a share of itself that grows
with the distance of the load from its target, at least by one above the target, and is clamped
between a floor and a cap. All divisions round down, so a base below the denominator no longer
falls when the load is zero; the descent stops there or at the floor.
-/

namespace Ureth.Foundation.Feedback

/-- How far the base moves for a load of `used`. -/
def drift (d target base used : ℕ) : ℕ := base * (used - target + (target - used)) / target / d

def adjust (d target base used : ℕ) : ℕ :=
  if used = target then base
  else if target < used then base + max (drift d target base used) 1
  else base - drift d target base used

def clamp (floor cap n : ℕ) : ℕ := max floor (min n cap)

variable {d target base used used' floor cap : ℕ}

/-! ## The drift -/

/-- Up to twice the target the drift is at most the base's share. -/
theorem drift_le (hused : used ≤ 2 * target) : drift d target base used ≤ base / d := by
  have hdiff : used - target + (target - used) ≤ target := by omega
  apply Nat.div_le_div_right
  calc base * (used - target + (target - used)) / target
      ≤ base * target / target := Nat.div_le_div_right (Nat.mul_le_mul_left _ hdiff)
    _ ≤ base := by
      rcases Nat.eq_zero_or_pos target with h | h
      · simp [h]
      · rw [Nat.mul_div_cancel _ h]

/-- Further from the target the drift is larger. -/
theorem drift_mono {far near : ℕ} (h : near - target + (target - near) ≤ far - target + (target - far)) :
    drift d target base near ≤ drift d target base far :=
  Nat.div_le_div_right (Nat.div_le_div_right (Nat.mul_le_mul_left _ h))

/-! ## The adjusted base -/

theorem adjust_target : adjust d target base target = base := if_pos rfl

theorem adjust_above (h : target < used) :
    adjust d target base used = base + max (drift d target base used) 1 := by
  rw [adjust, if_neg (by omega), if_pos h]

theorem adjust_below (h : used < target) :
    adjust d target base used = base - drift d target base used := by
  rw [adjust, if_neg (by omega), if_neg (by omega)]

theorem adjust_le_base (h : used ≤ target) : adjust d target base used ≤ base := by
  rcases h.lt_or_eq with h | rfl
  · rw [adjust_below h]
    exact Nat.sub_le _ _
  · rw [adjust_target]

theorem base_lt_adjust (h : target < used) : base < adjust d target base used := by
  rw [adjust_above h]
  have hone := Nat.le_max_right (drift d target base used) 1
  omega

theorem base_le_adjust (h : target ≤ used) : base ≤ adjust d target base used := by
  rcases h.lt_or_eq with h | rfl
  · exact (base_lt_adjust h).le
  · rw [adjust_target]

/-- A larger load never lowers the base: within one side of the target by the drift, across it
by the base itself. -/
theorem adjust_mono (h : used ≤ used') : adjust d target base used ≤ adjust d target base used' := by
  rcases Nat.lt_or_ge used' target with hbelow | habove
  · have hdrift : drift d target base used' ≤ drift d target base used := drift_mono (by omega)
    rw [adjust_below hbelow, adjust_below (by omega)]
    exact Nat.sub_le_sub_left hdrift base
  · rcases Nat.lt_or_ge target used with hused | hused
    · have hdrift : drift d target base used ≤ drift d target base used' := drift_mono (by omega)
      rw [adjust_above hused, adjust_above (by omega)]
      exact Nat.add_le_add_left (max_le_max hdrift le_rfl) base
    · exact (adjust_le_base hused).trans (base_le_adjust habove)

theorem adjust_le (hused : used ≤ 2 * target) :
    adjust d target base used ≤ base + max 1 (base / d) := by
  rcases Nat.lt_or_ge target used with h | h
  · have hdrift : drift d target base used ≤ base / d := drift_le hused
    rw [adjust_above h]
    omega
  · exact (adjust_le_base h).trans (Nat.le_add_right _ _)

theorem base_le_adjust_add (hused : used ≤ 2 * target) :
    base ≤ adjust d target base used + max 1 (base / d) := by
  rcases Nat.lt_or_ge used target with h | h
  · have hdrift : drift d target base used ≤ base / d := drift_le hused
    rw [adjust_below h]
    omega
  · exact (base_le_adjust h).trans (Nat.le_add_right _ _)

/-! ## Clamping -/

theorem floor_le_clamp (n : ℕ) : floor ≤ clamp floor cap n := le_max_left _ _

theorem clamp_le_cap (h : floor ≤ cap) (n : ℕ) : clamp floor cap n ≤ cap :=
  max_le h (min_le_right _ _)

theorem clamp_mono {m n : ℕ} (h : m ≤ n) : clamp floor cap m ≤ clamp floor cap n :=
  max_le_max le_rfl (min_le_min h le_rfl)

theorem clamp_of_mem {n : ℕ} (hfloor : floor ≤ n) (hcap : n ≤ cap) : clamp floor cap n = n := by
  rw [clamp, min_eq_left hcap, max_eq_right hfloor]

/-- Between the bounds a clamped value is no further from a value between the bounds. -/
theorem clamp_near {n w : ℕ} (hfloor : floor ≤ base) (hcap : base ≤ cap) (hle : n ≤ base + w)
    (hge : base ≤ n + w) : clamp floor cap n ≤ base + w ∧ base ≤ clamp floor cap n + w := by
  unfold clamp
  omega

/-! ## The idle descent -/

/-- The clamped base after a block without load. -/
def idle (d floor f : ℕ) : ℕ := max floor (f - f / d)

/-- Where the idle descent from `f` ends: a base below the denominator has no share to lose. -/
def rest (d floor f : ℕ) : ℕ := max floor (min f (d - 1))

theorem clamp_adjust_zero (htarget : 0 < target) (hcap : base ≤ cap) :
    clamp floor cap (adjust d target base 0) = idle d floor base := by
  have hdrift : drift d target base 0 = base / d := by
    rw [drift, Nat.zero_sub, Nat.zero_add, Nat.sub_zero, Nat.mul_div_cancel _ htarget]
  rw [adjust_below htarget, hdrift, clamp, idle, min_eq_left ((Nat.sub_le _ _).trans hcap)]

variable {f : ℕ}

theorem idle_le (h : floor ≤ f) : idle d floor f ≤ f := max_le h (Nat.sub_le _ _)

theorem floor_le_idle : floor ≤ idle d floor f := le_max_left _ _

theorem rest_le (h : floor ≤ f) : rest d floor f ≤ f := max_le h (min_le_left _ _)

/-- One share of a base at or above the denominator leaves at least the denominator less one. -/
theorem pred_le_sub_div (hd : 0 < d) (h : d ≤ f) : d - 1 ≤ f - f / d := by
  have hmul : f ≤ d * (f - (d - 1)) := by
    obtain ⟨k, rfl⟩ := Nat.exists_eq_add_of_le h
    have hsub : d + k - (d - 1) = k + 1 := by omega
    rw [hsub]
    nlinarith
  have hdiv : f / d ≤ f - (d - 1) := Nat.div_le_of_le_mul hmul
  omega

/-- A block without load does not change where the descent ends. -/
theorem rest_idle (hd : 0 < d) (h : floor ≤ f) : rest d floor (idle d floor f) = rest d floor f := by
  unfold rest idle
  rcases Nat.lt_or_ge f d with hlt | hge
  · rw [Nat.div_eq_of_lt hlt, Nat.sub_zero, max_eq_right h]
  · have hkept := pred_le_sub_div hd hge
    omega

/-- Above its end the descent falls strictly. -/
theorem idle_lt (hd : 0 < d) (h : rest d floor f < f) : idle d floor f < f := by
  have hfloor : floor < f := (le_max_left _ _).trans_lt h
  have hdf : d ≤ f := by
    have hmin := (le_max_right floor (min f (d - 1))).trans_lt h
    omega
  have hshare : 0 < f / d := Nat.div_pos hdf hd
  exact max_lt hfloor (by omega)

theorem idle_rest (hd : 0 < d) (h : rest d floor f = f) : idle d floor f = f := by
  have hfloor : floor ≤ f := (le_max_left _ _).trans_eq h
  refine le_antisymm (idle_le hfloor) ?_
  have hstays := rest_idle hd hfloor
  calc f = rest d floor (idle d floor f) := by rw [hstays, h]
    _ ≤ idle d floor f := rest_le floor_le_idle

section Descent

variable {u : ℕ → ℕ}

/-- A sequence of blocks without load. -/
def Idles (d floor : ℕ) (u : ℕ → ℕ) : Prop := floor ≤ u 0 ∧ ∀ k, u (k + 1) = idle d floor (u k)

theorem Idles.floor_le (h : Idles d floor u) (k : ℕ) : floor ≤ u k := by
  cases k with
  | zero => exact h.1
  | succ k => exact h.2 k ▸ floor_le_idle

theorem Idles.antitone (h : Idles d floor u) : Antitone u :=
  antitone_nat_of_succ_le fun k => h.2 k ▸ idle_le (h.floor_le k)

theorem Idles.rest_eq (h : Idles d floor u) (hd : 0 < d) (k : ℕ) :
    rest d floor (u k) = rest d floor (u 0) := by
  induction k with
  | zero => rfl
  | succ k ih => rw [h.2 k, rest_idle hd (h.floor_le k), ih]

theorem Idles.rest_le (h : Idles d floor u) (hd : 0 < d) (k : ℕ) : rest d floor (u 0) ≤ u k := by
  rw [← h.rest_eq hd k]
  exact Feedback.rest_le (h.floor_le k)

/-- The distance to the end is spent in at most as many blocks. -/
theorem Idles.reaches (h : Idles d floor u) (hd : 0 < d) (k : ℕ) :
    u k = rest d floor (u 0) ∨ u k + k ≤ u 0 := by
  induction k with
  | zero => exact .inr le_rfl
  | succ k ih =>
    rcases (h.rest_le hd k).lt_or_eq with hlt | heq
    · rw [← h.rest_eq hd k] at hlt
      have hfall : u (k + 1) < u k := h.2 k ▸ idle_lt hd hlt
      rcases ih with hend | hleft
      · rw [h.rest_eq hd k, hend] at hlt
        exact absurd hlt (lt_irrefl _)
      · exact .inr (by omega)
    · refine .inl ?_
      rw [h.2 k, idle_rest hd ((h.rest_eq hd k).trans heq), ← heq]

theorem Idles.eventually (h : Idles d floor u) (hd : 0 < d) :
    ∃ n, ∀ k, n ≤ k → u k = rest d floor (u 0) := by
  refine ⟨u 0 + 1, fun k hk => ?_⟩
  rcases h.reaches hd k with hend | hleft
  · exact hend
  · omega

end Descent

end Ureth.Foundation.Feedback
