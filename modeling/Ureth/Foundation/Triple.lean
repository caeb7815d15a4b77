import Ureth.Foundation.Outcome

/-!
# Pre- and postconditions of stateful calls

A call that may fail keeps the state it reached, so a specification says where it ends with a
value and where it ends without one. A sequence is specified part by part, with one condition
for every way to fail.
-/

namespace Ureth.Foundation.Run

variable {σ τ ε ε' α β : Type} {P : σ → Prop} {Q : α → σ → Prop} {R : β → σ → Prop} {E I : σ → Prop}
  {m : Run σ ε α} {f : α → Run σ ε β}

/-- From `P` the call ends in `Q` with its value, or in `E` with what it failed with. -/
def Ends (P : σ → Prop) (m : Run σ ε α) (Q : α → σ → Prop) (E : Fault ε → σ → Prop) : Prop :=
  ∀ s, P s → (∀ a t, m s = (.ok a, t) → Q a t) ∧ ∀ e t, m s = (.error e, t) → E e t

/-- From `P` the call ends in `Q` with its value, or in `E` without one. -/
def Triple (P : σ → Prop) (m : Run σ ε α) (Q : α → σ → Prop) (E : σ → Prop) : Prop :=
  ∀ s, P s → (∀ a t, m s = (.ok a, t) → Q a t) ∧ ∀ e t, m s = (.error e, t) → E t

/-- The call keeps `I`, however it ends. -/
abbrev Keeps (I : σ → Prop) (m : Run σ ε α) : Prop := Triple I m (fun _ => I) I

theorem Keeps.apply (h : Keeps I m) {s : σ} (hs : I s) : I (m s).2 := by
  obtain ⟨hok, herror⟩ := h s hs
  rcases hm : m s with ⟨e | a, t⟩
  · exact herror e t hm
  · exact hok a t hm

theorem keeps_of_state (h : ∀ s, I s → I (m s).2) : Keeps I m := by
  intro s hs
  refine ⟨?_, ?_⟩
  · intro a t hm
    simpa [hm] using h s hs
  · intro e t hm
    simpa [hm] using h s hs

section Ends

variable {F : Fault ε → σ → Prop}

theorem Ends.bind (hm : Ends P m Q F) (hf : ∀ a, Ends (Q a) (f a) R F) : Ends P (m >>= f) R F := by
  intro s hs
  obtain ⟨hok, herror⟩ := hm s hs
  refine ⟨?_, ?_⟩
  · intro b t h
    obtain ⟨a, u, ha, hb⟩ := bind_eq_ok.mp h
    exact (hf a u (hok a u ha)).1 b t hb
  · intro e t h
    rcases bind_eq.mp h with ⟨a, u, ha, hb⟩ | ⟨e', ha, he⟩
    · exact (hf a u (hok a u ha)).2 e t hb
    · rw [Except.error.inj he]
      exact herror e' t ha

theorem Ends.mono {Q' : α → σ → Prop} {F' : Fault ε → σ → Prop} (h : Ends P m Q F)
    (hq : ∀ a s, Q a s → Q' a s) (he : ∀ e s, F e s → F' e s) : Ends P m Q' F' := by
  intro s hs
  exact ⟨fun a t hm => hq a t ((h s hs).1 a t hm), fun e t hm => he e t ((h s hs).2 e t hm)⟩

theorem ends_of_exists {ι : Type} {A : ι → σ → Prop} (h : ∀ i, Ends (A i) m Q F) : Ends (fun s => ∃ i, A i s) m Q F := by
  rintro s ⟨i, hi⟩
  exact h i s hi

/-- A condition that does not depend on the state is assumed outright. -/
theorem ends_of_and {A : Prop} (h : A → Ends P m Q F) : Ends (fun s => P s ∧ A) m Q F :=
  fun s hs => h hs.2 s hs.1

theorem ends_pure {a : α} (h : ∀ s, P s → Q a s) : Ends P (pure a : Run σ ε α) Q F := by
  intro s hs
  refine ⟨?_, ?_⟩
  · rintro b t hb
    obtain ⟨hval, rfl⟩ := Prod.mk.inj hb
    obtain rfl := Except.ok.inj hval
    exact h s hs
  · intro e t he
    cases (Prod.mk.inj he).1

theorem ends_lift (x : Res ε α) :
    Ends P (lift x : Run σ ε α) (fun a s => x = .ok a ∧ P s) fun e s => x = .error e ∧ P s := by
  intro s hs
  refine ⟨?_, ?_⟩
  · rintro a t ha
    obtain ⟨hval, rfl⟩ := Prod.mk.inj ha
    exact ⟨hval, hs⟩
  · rintro e t he
    obtain ⟨hval, rfl⟩ := Prod.mk.inj he
    exact ⟨hval, hs⟩

theorem ends_okOr (e : ε) (o : Option α) :
    Ends P (lift (Res.okOr e o) : Run σ ε α) (fun a s => P s ∧ o = some a) fun f s => P s ∧ o = none ∧ f = .error e := by
  refine (ends_lift _).mono (fun a s h => ⟨h.2, Res.okOr_eq_ok.mp h.1⟩) fun f s h => ?_
  cases o with
  | none => exact ⟨h.2, rfl, (Except.error.inj h.1).symm⟩
  | some a => cases h.1

theorem ends_refuse (c : Prop) [Decidable c] (e : ε) :
    Ends P (refuse c e : Run σ ε Unit) (fun _ s => P s ∧ ¬ c) fun f s => P s ∧ f = .error e := by
  refine (ends_lift _).mono (fun a s h => ⟨h.2, Res.refuse_eq_ok.mp h.1⟩) fun f s h => ?_
  have hraised := h.1
  unfold Res.refuse at hraised
  split at hraised
  · exact ⟨h.2, (Except.error.inj hraised).symm⟩
  · cases hraised

theorem ends_modify (g : σ → σ) : Ends P (modify g : Run σ ε Unit) (fun _ t => ∃ s, P s ∧ t = g s) F := by
  intro s hs
  refine ⟨fun _ t h => ⟨s, hs, modify_eq_ok.mp h⟩, fun e t h => ?_⟩
  cases (Prod.mk.inj h).1

/-- A question ends with its answer or with its refusal. -/
theorem ends_ask (k : ε' → ε) (g : σ → Except ε' α × σ) :
    Ends P (mapErr k (ask g)) (fun a t => ∃ s, P s ∧ g s = (.ok a, t))
      fun f t => ∃ s e, P s ∧ g s = (.error e, t) ∧ f = .error (k e) := by
  intro s hs
  refine ⟨fun a t h => ⟨s, hs, ask_eq_ok.mp (mapErr_eq_ok.mp h)⟩, fun f t h => ?_⟩
  obtain ⟨hraised, rfl⟩ := Prod.mk.inj h
  rcases hg : g s with ⟨e | a, u⟩
  · simp only [ask, hg] at hraised ⊢
    exact ⟨s, e, hs, hg, (Except.error.inj hraised).symm⟩
  · simp only [ask, hg] at hraised
    cases hraised

end Ends

theorem Triple.bind (hm : Triple P m Q E) (hf : ∀ a, Triple (Q a) (f a) R E) : Triple P (m >>= f) R E :=
  Ends.bind hm hf

theorem Triple.mono {Q' : α → σ → Prop} {E' : σ → Prop} (h : Triple P m Q E)
    (hq : ∀ a s, Q a s → Q' a s) (he : ∀ s, E s → E' s) : Triple P m Q' E' :=
  Ends.mono h hq fun _ => he

/-- A condition that does not depend on the state is assumed outright. -/
theorem triple_of_and {A : Prop} (h : A → Triple P m Q E) : Triple (fun s => A ∧ P s) m Q E :=
  fun s hs => h hs.1 s hs.2

theorem triple_pure {a : α} (h : ∀ s, P s → Q a s) : Triple P (pure a : Run σ ε α) Q E := ends_pure h

theorem triple_lift (x : Res ε α) : Triple P (lift x : Run σ ε α) (fun a s => x = .ok a ∧ P s) P :=
  (ends_lift x).mono (fun _ _ h => h) fun _ _ h => h.2

theorem keeps_lift (x : Res ε α) : Keeps I (lift x : Run σ ε α) :=
  (triple_lift x).mono (fun _ _ h => h.2) fun _ h => h

theorem keeps_pure (a : α) : Keeps I (pure a : Run σ ε α) := triple_pure fun _ h => h

theorem keeps_refuse (c : Prop) [Decidable c] (e : ε) : Keeps I (refuse c e : Run σ ε Unit) :=
  keeps_lift _

theorem keeps_modify {g : σ → σ} (h : ∀ s, I s → I (g s)) : Keeps I (modify g : Run σ ε Unit) :=
  keeps_of_state h

theorem keeps_ite {c : Prop} [Decidable c] {m' : Run σ ε α} (ht : Keeps I m) (he : Keeps I m') :
    Keeps I (if c then m else m') := by
  split
  · exact ht
  · exact he

/-! ## Properties of every part -/

/-- A property that a part has if it leaves the state alone, and that a sequence has if its parts do. -/
structure Sequential (Q : ∀ α : Type, Run σ ε α → Prop) : Prop where
  lift : ∀ {α : Type} (x : Res ε α), Q α (Run.lift x)
  bind : ∀ {α β : Type} {m : Run σ ε α} {f : α → Run σ ε β}, Q α m → (∀ a, Q β (f a)) → Q β (m >>= f)

theorem Sequential.pure {Q : ∀ α : Type, Run σ ε α → Prop} (h : Sequential Q) (a : α) : Q α (Pure.pure a) :=
  h.lift (.ok a)

theorem sequential_keeps (I : σ → Prop) : Sequential fun _ (m : Run σ ε _) => Keeps I m where
  lift := keeps_lift
  bind hm hf := hm.bind hf

/-! ## A call seen on a part of its state -/

/-- `m'` does on the part of its state that `view` shows what `m` does. -/
def Views (view : τ → σ) (m' : Run τ ε α) (m : Run σ ε α) : Prop := ∀ t, m (view t) = ((m' t).1, view (m' t).2)

section Views

variable {view : τ → σ} {n : Run τ ε α} {g : α → Run τ ε β}

theorem Views.bind (hm : Views view n m) (hf : ∀ a, Views view (g a) (f a)) : Views view (n >>= g) (m >>= f) := by
  intro t
  have ht := hm t
  rcases hn : n t with ⟨e | a, u⟩
  · rw [hn] at ht
    rw [bind_apply_error hn, bind_apply_error ht]
  · rw [hn] at ht
    rw [bind_apply_ok hn, bind_apply_ok ht, hf a u]

theorem views_pure (a : α) : Views view (pure a : Run τ ε α) (pure a) := fun _ => rfl

theorem views_lift (x : Res ε α) : Views view (lift x : Run τ ε α) (lift x) := fun _ => rfl

theorem views_modify {k : τ → τ} {h : σ → σ} (hk : ∀ t, h (view t) = view (k t)) :
    Views view (modify k : Run τ ε Unit) (modify h) := by
  intro t
  rw [modify_apply, modify_apply, hk]

theorem views_ask {k : τ → Except ε α × τ} {h : σ → Except ε α × σ}
    (hk : ∀ t, h (view t) = ((k t).1, view (k t).2)) : Views view (ask k) (ask h) := by
  intro t
  unfold ask
  rw [hk]

theorem Views.mapErr {k : ε → ε'} (h : Views view n m) : Views view (n.mapErr k) (m.mapErr k) := by
  intro t
  unfold Run.mapErr
  rw [h t]

theorem views_ite {c : Prop} [Decidable c] {m2 : Run σ ε α} {n2 : Run τ ε α} (ht : Views view n m)
    (he : Views view n2 m2) : Views view (if c then n else n2) (if c then m else m2) := by
  split
  · exact ht
  · exact he

end Views

end Ureth.Foundation.Run
