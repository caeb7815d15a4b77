import Ureth.Foundation.Triple

/-!
# Gas as a threshold

A call whose state carries a limit and what is spent of it. The call is a
threshold if what it spends decides alone how it depends on the limit: with that
much or more it ends the same way, with less it fails for want of gas. Thresholds
compose.
-/

namespace Ureth.Foundation

/-- Where a state keeps its limit and what is spent of it. -/
structure Gauge (σ : Type) where
  limit : σ → ℕ
  spent : σ → ℕ
  /-- The state under another limit. -/
  grant : ℕ → σ → σ

namespace Run

variable {σ ε α β : Type} {G : Gauge σ} {broke : ε}

/-- The run from `s` to `t` with result `r`, under other limits. -/
structure Settles (G : Gauge σ) (broke : ε) (m : Run σ ε α) (s : σ) (r : Res ε α) (t : σ) : Prop where
  limit : G.limit t = G.limit s
  grows : G.spent s ≤ G.spent t
  within : G.spent t ≤ G.limit s
  enough : ∀ g, G.spent t ≤ g → m (G.grant g s) = (r, G.grant g t)
  short : ∀ g, G.spent s ≤ g → g < G.spent t → (m (G.grant g s)).1 = Res.fail broke

/-- Every run that does not end for want of gas settles. -/
def Threshold (G : Gauge σ) (broke : ε) (m : Run σ ε α) : Prop :=
  ∀ s r t, m s = (r, t) → G.spent s ≤ G.limit s → r ≠ Res.fail broke → Settles G broke m s r t

/-- A part that touches neither the limit nor what is spent. -/
theorem settles_of_fixed {m : Run σ ε α} {s t : σ} {r : Res ε α} (hlimit : G.limit t = G.limit s)
    (hspent : G.spent t = G.spent s) (hle : G.spent s ≤ G.limit s) (h : ∀ g, m (G.grant g s) = (r, G.grant g t)) :
    Settles G broke m s r t where
  limit := hlimit
  grows := hspent.ge
  within := by rw [hspent]; exact hle
  enough g _ := h g
  short g h1 h2 := by omega

theorem threshold_lift (x : Res ε α) : Threshold G broke (lift x : Run σ ε α) := by
  intro s r t hrun hle _
  obtain ⟨rfl, rfl⟩ := Prod.mk.inj hrun
  exact settles_of_fixed rfl rfl hle fun _ => rfl

theorem threshold_pure (a : α) : Threshold G broke (pure a : Run σ ε α) := threshold_lift (.ok a)

theorem Threshold.bind {m : Run σ ε α} {f : α → Run σ ε β} (hm : Threshold G broke m)
    (hf : ∀ a, Threshold G broke (f a)) : Threshold G broke (m >>= f) := by
  intro s r t hrun hle hr
  rcases hfirst : m s with ⟨e | a, u⟩
  · -- the first part ends the call
    rw [bind_apply_error hfirst] at hrun
    obtain ⟨rfl, rfl⟩ := Prod.mk.inj hrun
    have hs := hm s _ u hfirst hle fun h => hr (by rw [Except.error.inj h]; rfl)
    refine ⟨hs.limit, hs.grows, hs.within, fun g hg => ?_, fun g h1 h2 => ?_⟩
    · rw [bind_apply_error (hs.enough g hg)]
    · rw [bind_apply_error (Prod.ext (hs.short g h1 h2) rfl)]
      rfl
  · rw [bind_apply_ok hfirst] at hrun
    have hs := hm s _ u hfirst hle (by simp [Res.fail])
    have ht := hf a u r t hrun (by rw [hs.limit]; exact hs.within) hr
    refine ⟨ht.limit.trans hs.limit, hs.grows.trans ht.grows, by rw [← hs.limit]; exact ht.within, fun g hg => ?_,
      fun g h1 h2 => ?_⟩
    · rw [bind_apply_ok (hs.enough g (ht.grows.trans hg)), ht.enough g hg]
    · by_cases hpaid : G.spent u ≤ g
      · rw [bind_apply_ok (hs.enough g hpaid)]
        exact ht.short g hpaid h2
      · rw [bind_apply_error (Prod.ext (hs.short g h1 (by omega)) rfl)]
        rfl

theorem sequential_threshold (G : Gauge σ) (broke : ε) : Sequential fun _ (m : Run σ ε _) => Threshold G broke m where
  lift := threshold_lift
  bind hm hf := hm.bind hf

/-- A threshold whose results are translated, its want of gas into that of the new errors. -/
theorem Threshold.translate {ε' : Type} {broke' : ε'} {m : Run σ ε α} {m' : Run σ ε' β} {g : Res ε α → Res ε' β}
    (hm : Threshold G broke m) (hbroke : g (Res.fail broke) = Res.fail broke')
    (h : ∀ s, m' s = (g (m s).1, (m s).2)) : Threshold G broke' m' := by
  intro s r t hrun hle hr
  obtain ⟨rfl, rfl⟩ := Prod.mk.inj ((h s).symm.trans hrun)
  have hs := hm s _ _ rfl hle fun hfail => hr (by rw [hfail, hbroke])
  refine ⟨hs.limit, hs.grows, hs.within, fun n hn => ?_, fun n h1 h2 => ?_⟩
  · rw [h, hs.enough n hn]
  · rw [h, hs.short n h1 h2]
    exact hbroke

end Run

end Ureth.Foundation
