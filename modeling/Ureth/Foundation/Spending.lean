import Mathlib.Algebra.Order.Monoid.Canonical.Defs
import Mathlib.Algebra.Order.Monoid.Prod
import Ureth.Foundation.Outcome

/-!
# What a call spends

A tally kept in the state of a call, in any ordered monoid. A call spends at most
`b` if its tally grows by at most `b` however it ends; the parts of a sequence add
up. A call is steady if its result does not depend on the state it starts from.
-/

namespace Ureth.Foundation.Run

variable {σ ε α β : Type} {m : Run σ ε α} {f : α → Run σ ε β}

section Spends

variable {W : Type} [AddCommMonoid W] [PartialOrder W] {tally : σ → W} {b c : W}

def Spends (tally : σ → W) (m : Run σ ε α) (b : W) : Prop := ∀ s, tally (m s).2 ≤ tally s + b

theorem spends_pure (a : α) : Spends tally (pure a : Run σ ε α) 0 := fun s => by simp

theorem spends_lift (x : Res ε α) : Spends tally (lift x : Run σ ε α) 0 := fun s => by simp

theorem spends_refuse (p : Prop) [Decidable p] (e : ε) : Spends tally (refuse p e : Run σ ε Unit) 0 :=
  spends_lift _

theorem spends_modify {g : σ → σ} (h : ∀ s, tally (g s) ≤ tally s + b) :
    Spends tally (modify g : Run σ ε Unit) b := h

variable [IsOrderedAddMonoid W]

theorem Spends.mono (h : Spends tally m b) (hle : b ≤ c) : Spends tally m c :=
  fun s => (h s).trans (by gcongr)

variable [CanonicallyOrderedAdd W]

theorem Spends.free (h : Spends tally m 0) : Spends tally m b := h.mono zero_le

/-- A sequence spends what its parts do; the second may use what the first returned. -/
theorem Spends.bind (hm : Spends tally m b) (hf : ∀ a s t, m s = (.ok a, t) → Spends tally (f a) c) :
    Spends tally (m >>= f) (b + c) := by
  intro s
  have hs := hm s
  rcases hrun : m s with ⟨e | a, t⟩
  · rw [hrun] at hs
    rw [bind_apply_error hrun, ← add_assoc]
    exact hs.trans le_self_add
  · rw [hrun] at hs
    rw [bind_apply_ok hrun]
    calc tally (f a t).2 ≤ tally t + c := hf a s t hrun t
      _ ≤ tally s + b + c := by gcongr
      _ = tally s + (b + c) := add_assoc _ _ _

/-- A part that spends nothing adds nothing. -/
theorem Spends.andThen (hm : Spends tally m b) (hf : ∀ a, Spends tally (f a) 0) : Spends tally (m >>= f) b := by
  have h : Spends tally (m >>= f) (b + 0) := hm.bind fun a _ _ _ => hf a
  rwa [add_zero] at h

theorem Spends.after (hm : Spends tally m 0) (hf : ∀ a s t, m s = (.ok a, t) → Spends tally (f a) c) :
    Spends tally (m >>= f) c := by
  have h : Spends tally (m >>= f) (0 + c) := hm.bind hf
  rwa [zero_add] at h

end Spends

/-! ## Steady calls -/

def Steady (m : Run σ ε α) : Prop := ∀ s t, (m s).1 = (m t).1

theorem Steady.bind_fst (hf : ∀ a, Steady (f a)) (s : σ) :
    ((m >>= f) s).1 = (m s).1 >>= fun a => (f a s).1 := by
  rcases hrun : m s with ⟨e | a, t⟩
  · rw [bind_apply_error hrun]
    rfl
  · rw [bind_apply_ok hrun, hf a t s]
    rfl

theorem Steady.bind (hm : Steady m) (hf : ∀ a, Steady (f a)) : Steady (m >>= f) := by
  intro s t
  rw [bind_fst hf, bind_fst hf, hm s t]
  exact congrArg _ (funext fun a => hf a s t)

theorem steady_pure (a : α) : Steady (pure a : Run σ ε α) := fun _ _ => rfl

theorem steady_lift (x : Res ε α) : Steady (lift x : Run σ ε α) := fun _ _ => rfl

theorem steady_modify (g : σ → σ) : Steady (modify g : Run σ ε Unit) := fun _ _ => rfl

theorem lift_bind_fst (x : Res ε α) (s : σ) : ((lift x >>= f) s).1 = x >>= fun a => (f a s).1 := by
  cases x <;> rfl

theorem bind_fst_ok {s : σ} {a : α} (h : (m s).1 = .ok a) : ((m >>= f) s).1 = (f a (m s).2).1 := by
  rw [bind_apply_ok (Prod.ext h rfl)]

theorem bind_fst_error {s : σ} {e : Fault ε} (h : (m s).1 = .error e) : ((m >>= f) s).1 = .error e := by
  have hm : m s = (.error e, (m s).2) := Prod.ext h rfl
  rw [bind_apply_error hm]

/-! ## Properties that sequences keep -/

/-- A property of calls that a call has if its parts do; parts that leave the state alone may fail in `P`. -/
structure Compositional (P : ε → Prop) (Q : ∀ α : Type, Run σ ε α → Prop) : Prop where
  lift : ∀ {α : Type} {x : Res ε α}, x.FailsOnly P → Q α (Run.lift x)
  modify : ∀ g : σ → σ, Q Unit (Run.modify g)
  bind : ∀ {α β : Type} {m : Run σ ε α} {f : α → Run σ ε β}, Q α m → (∀ a, Q β (f a)) → Q β (m >>= f)

section Compositional

variable {P P' : ε → Prop} {Q : ∀ α : Type, Run σ ε α → Prop}

theorem Compositional.pure (h : Compositional P Q) (a : α) : Q α (Pure.pure a) := h.lift (x := .ok a) trivial

theorem Compositional.refuse (h : Compositional P Q) {c : Prop} [Decidable c] {e : ε} (he : P e) :
    Q Unit (Run.refuse c e) := h.lift (Res.failsOnly_refuse he)

theorem compositional_raises (h : ∀ e, P e → P' e) : Compositional P fun _ (m : Run σ ε _) => Raises P' m where
  lift hx := raises_lift (hx.mono h)
  modify _ _ := trivial
  bind hm hf := hm.andThen hf

/-- The result depends on nothing, and a failure is one in `P`. -/
def Settled (P : ε → Prop) (m : Run σ ε α) : Prop := Steady m ∧ Raises P m

theorem compositional_settled : Compositional P fun _ (m : Run σ ε _) => Settled P m where
  lift hx := ⟨steady_lift _, raises_lift hx⟩
  modify g := ⟨steady_modify g, fun _ => trivial⟩
  bind hm hf := ⟨hm.1.bind fun a => (hf a).1, hm.2.andThen fun a => (hf a).2⟩

end Compositional

end Ureth.Foundation.Run
