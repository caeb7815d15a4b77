import Mathlib

/-!
# Weighted quorums

The weight of the members of a list that a test picks. Two picks of more than two thirds of the
whole weight share more than a third of it.
-/

namespace Ureth.Foundation

section Weights

variable {α : Type} (weight : α → ℕ)

/-- The weight of the members that `p` picks. -/
def pickWeight (p : α → Bool) : List α → ℕ
  | [] => 0
  | a :: l => (if p a then weight a else 0) + pickWeight p l

variable {weight} {p q : α → Bool} {l : List α}

theorem pickWeight_le_sum : pickWeight weight p l ≤ (l.map weight).sum := by
  induction l with
  | nil => exact le_rfl
  | cons a l ih =>
    rw [pickWeight, List.map_cons, List.sum_cons]
    split <;> omega

theorem pickWeight_mono (h : ∀ a ∈ l, p a = true → q a = true) :
    pickWeight weight p l ≤ pickWeight weight q l := by
  induction l with
  | nil => exact le_rfl
  | cons a l ih =>
    rw [List.forall_mem_cons] at h
    have hrest := ih h.2
    rw [pickWeight, pickWeight]
    by_cases hp : p a = true
    · rw [if_pos hp, if_pos (h.1 hp)]
      omega
    · rw [if_neg hp]
      omega

/-- A pick of members that no test picks. -/
theorem pickWeight_eq_zero (h : ∀ a ∈ l, p a = false) : pickWeight weight p l = 0 := by
  induction l with
  | nil => rfl
  | cons a l ih =>
    rw [List.forall_mem_cons] at h
    rw [pickWeight, ih h.2, h.1]
    rfl

theorem pickWeight_or (h : ∀ a ∈ l, p a = true → q a = false) :
    pickWeight weight (fun a => p a || q a) l = pickWeight weight p l + pickWeight weight q l := by
  induction l with
  | nil => rfl
  | cons a l ih =>
    rw [List.forall_mem_cons] at h
    rw [pickWeight, pickWeight, pickWeight, ih h.2]
    by_cases hp : p a = true
    · rw [hp, h.1 hp]
      simp only [Bool.or_false, if_true, Bool.false_eq_true, if_false]
      omega
    · rw [Bool.not_eq_true] at hp
      rw [hp, Bool.false_or]
      simp only [Bool.false_eq_true, if_false]
      omega

/-- What two picks weigh beyond the whole is in both. -/
theorem pickWeight_add_le : pickWeight weight p l + pickWeight weight q l ≤
    (l.map weight).sum + pickWeight weight (fun a => p a && q a) l := by
  induction l with
  | nil => exact le_rfl
  | cons a l ih =>
    rw [pickWeight, pickWeight, pickWeight, List.map_cons, List.sum_cons]
    cases p a <;> cases q a <;> simp only [Bool.and_self, Bool.and_false, Bool.and_true,
      Bool.false_eq_true, if_false, if_true] <;> omega

/-- Two picks of more than two thirds share more than a third. -/
theorem third_lt_pickWeight_and (hp : 2 * (l.map weight).sum < 3 * pickWeight weight p l)
    (hq : 2 * (l.map weight).sum < 3 * pickWeight weight q l) :
    (l.map weight).sum < 3 * pickWeight weight (fun a => p a && q a) l := by
  have hboth := @pickWeight_add_le α weight p q l
  omega

variable {κ : Type} [DecidableEq κ] {key : α → κ}

/-- Where keys are not repeated, a pick by key is the first member with it. -/
theorem pickWeight_key (hkeys : (l.map key).Nodup) (k : κ) :
    pickWeight weight (fun a => decide (key a = k) && p a) l =
      ((l.find? fun a => decide (key a = k)).map fun a => if p a then weight a else 0).getD 0 := by
  induction l with
  | nil => rfl
  | cons a l ih =>
    rw [List.map_cons, List.nodup_cons] at hkeys
    rw [pickWeight, List.find?_cons]
    by_cases hk : key a = k
    · have hrest : pickWeight weight (fun b => decide (key b = k) && p b) l = 0 := by
        refine pickWeight_eq_zero fun b hb => ?_
        have hne : key b ≠ k := fun h => hkeys.1 (List.mem_map.mpr ⟨b, hb, h.trans hk.symm⟩)
        rw [decide_eq_false hne, Bool.false_and]
      rw [hrest, decide_eq_true hk, Bool.true_and, Nat.add_zero]
      rfl
    · rw [decide_eq_false hk, Bool.false_and, ih hkeys.2]
      simp only [Bool.false_eq_true, if_false, Nat.zero_add]

end Weights

/-- The integer threshold is more than two thirds. -/
theorem two_thirds_iff {total good : ℕ} (h : 0 < total) :
    total - (total - 1) / 3 ≤ good ↔ 2 * total < 3 * good := by
  omega

end Ureth.Foundation
