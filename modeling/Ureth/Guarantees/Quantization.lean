import Ureth.Source.Execution.Quant

/-!
# Quantized weights stand for the raw ones
-/

namespace Ureth.Guarantees
open Ureth.Foundation Ureth.Source.Execution

/-- Accepted weights stay within the cap, at one at least and at the raw weight at most, in the raw
order, and are the raw weights where these fit the cap. A set of members has its share of the raw
total up to twice the number of members over the committed total; and at the profile's cap a total
above it leaves more than half of the cap, the members counted in. -/
theorem quantization_faithful {x q : List UInt64} {b s : UInt64} (h : quantize x b = .ok (q, s)) :
    weightOf q (members x) ≤ b.toNat ∧
    (∀ i ∈ members x, 1 ≤ weightAt q i ∧ weightAt q i ≤ weightAt x i) ∧
    (∀ i ∈ members x, ∀ j ∈ members x, weightAt x j ≤ weightAt x i → weightAt q j ≤ weightAt q i) ∧
    (weightOf x (members x) ≤ b.toNat → q = x) ∧
    (∀ S ⊆ members x,
      |(weightOf q S * weightOf x (members x) : ℤ) - weightOf x S * weightOf q (members x)| <
        2 * x.length * weightOf x (members x)) ∧
    (b = weightCapB → b.toNat < weightOf x (members x) →
      b.toNat + 1 < 2 * (weightOf q (members x) + x.length)) := by
  have hq := quantize_eq_ok h
  have hcard : (members x).card = x.length := Finset.card_range _
  have hnonempty : (members x).Nonempty := Finset.card_pos.mp (hcard ▸ hq.nonempty)
  have htotal := length_le_weightOf hq.positive
  have hlength := hq.nonempty
  rcases hq.weights with ⟨hsmall, rfl⟩ | ⟨hlarge, rfl, hcover, hleast⟩
  · refine ⟨hsmall, fun i hi => ⟨hq.positive i hi, le_rfl⟩, fun i _ j _ hle => hle, fun _ => rfl, ?_, ?_⟩
    · intro S _
      rw [mul_comm, sub_self, abs_zero]
      have hpos : 0 < 2 * q.length * weightOf q (members q) :=
        Nat.mul_pos (Nat.mul_pos two_pos hlength) (hlength.trans_le htotal)
      exact_mod_cast hpos
    · intro _ hlarge
      omega
  · have hs : 0 < s.toNat := Quantized.divisor_pos hcover hlarge
    have hscaled : weightOf (x.map fun v => max (v / s) 1) (members x) =
        ∑ i ∈ members x, Scaling.scaled s.toNat (weightAt x i) :=
      Quantized.weightOf_scaled (Finset.Subset.refl _)
    refine ⟨?_, ?_, ?_, ?_, ?_, ?_⟩
    · have hcap := Scaling.sum_scaled_le_cap hs hcover
      have hroom := hq.room
      rw [hscaled]
      omega
    · intro i hi
      rw [Quantized.weightAt_scaled hi]
      exact ⟨Scaling.one_le_scaled, Scaling.scaled_le (hq.positive i hi)⟩
    · intro i hi j hj hle
      rw [Quantized.weightAt_scaled hi, Quantized.weightAt_scaled hj]
      exact Scaling.scaled_mono hle
    · intro hsmall
      omega
    · intro S hS
      have hshare := Scaling.abs_share_sub_lt hs hq.positive hnonempty hS
      rw [hscaled, Quantized.weightOf_scaled hS]
      simp only [weightOf]
      rw [hcard] at hshare
      exact_mod_cast hshare
    · rintro rfl -
      have hlow := Scaling.sum_add_card_le hs hq.positive
      have hmembers : x.length ≤ ∑ i ∈ members x, Scaling.scaled s.toNat (weightAt x i) := by
        calc x.length = ∑ _i ∈ members x, 1 := by simp [members]
          _ ≤ _ := Finset.sum_le_sum fun i _ => Scaling.one_le_scaled
      have hroom := hq.room
      rw [hcard] at hlow
      rw [hscaled]
      exact Scaling.half_cap_lt hlength (Nat.sub_add_cancel hroom.le) (by omega) (by decide) hlarge
        hleast hlow hmembers

/-- Three members above the cap: the two large ones are cut to half, the small one stays. -/
theorem quantization_faithful_three :
    quantize [100000, 1, 30000] weightCapB = .ok ([50000, 1, 15000], 2) ∧
      weightCapB.toNat + 1 < 2 * (weightOf [50000, 1, 15000] (members [100000, 1, 30000]) + 3) := by
  have h : quantize [100000, 1, 30000] weightCapB = .ok ([50000, 1, 15000], 2) := by decide +kernel
  obtain ⟨-, -, -, -, -, hhalf⟩ := quantization_faithful h
  exact ⟨h, hhalf rfl (by decide)⟩

end Ureth.Guarantees
