import Mathlib

/-!
# Collisions among the inputs of a hash

Results that rest on a hash function take no assumption about it. They say that
either the property holds or two of the strings that were hashed collide, where
the strings are listed by the computation the property is about.
-/

namespace Ureth.Foundation

variable {α β γ : Type}

/-- Two different members of `inputs` with one image. -/
def Collision (H : α → β) (inputs : List α) : Prop :=
  ∃ x ∈ inputs, ∃ y ∈ inputs, x ≠ y ∧ H x = H y

theorem injOn_of_not_collision {H : α → β} {inputs : List α} (h : ¬ Collision H inputs) :
    Set.InjOn H {x | x ∈ inputs} := by
  intro x hx y hy hxy
  by_contra hne
  exact h ⟨x, hx, y, hy, hne, hxy⟩

theorem Collision.mono {H : α → β} {small large : List α} (hsub : ∀ x ∈ small, x ∈ large)
    (h : Collision H small) : Collision H large := by
  obtain ⟨x, hx, y, hy, hne, heq⟩ := h
  exact ⟨x, hsub x hx, y, hsub y hy, hne, heq⟩

end Ureth.Foundation
