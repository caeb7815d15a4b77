import Mathlib

/-!
# Outcomes of modelled calls

A modelled call returns a value, returns one of its own errors, or panics. The
panic is a third outcome and not an error: no `map_err` of the program can turn
it into a verdict, so absence of panics is a statement about the same functions
that every other result is about.

Machine integers are naturals. An unchecked addition, multiplication or
subtraction of the program is wrapped in `u64` or `sub`, which panic exactly
where the 64-bit operation overflows or underflows.
-/

namespace Ureth.Foundation

/-- How a call stops short of a value. -/
inductive Fault (ε : Type) where
  | error (reason : ε)
  | panic
  deriving DecidableEq, Repr

abbrev Res (ε α : Type) := Except (Fault ε) α

namespace Res

variable {ε ε' α β : Type}

def fail (e : ε) : Res ε α := .error (.error e)

def panic : Res ε α := .error .panic

/-- An early return of `e` when `c` holds. -/
def refuse (c : Prop) [Decidable c] (e : ε) : Res ε Unit :=
  if c then fail e else .ok ()

def mapErr (f : ε → ε') : Res ε α → Res ε' α
  | .ok a => .ok a
  | .error (.error e) => .error (.error (f e))
  | .error .panic => .error .panic

/-- `expect` on a result: an error of the callee becomes a panic of the caller. -/
def expect : Res ε α → Res ε' α
  | .ok a => .ok a
  | .error _ => panic

/-- `ok_or`. -/
def okOr (e : ε) : Option α → Res ε α
  | some a => .ok a
  | none => fail e

/-- `expect` on an option. -/
def unwrap : Option α → Res ε α
  | some a => .ok a
  | none => panic

/-- A call whose own error is not propagated: the value, or nothing on an error. -/
def attempt : Res ε α → Res ε' (Option α)
  | .ok a => .ok (some a)
  | .error (.error _) => .ok none
  | .error .panic => panic

/-- A value of an unsigned 64-bit expression; overflow panics. -/
def u64 (n : Nat) : Res ε Nat := if n < 2 ^ 64 then .ok n else panic

/-- Unsigned subtraction; underflow panics. -/
def sub (a b : Nat) : Res ε Nat := if b ≤ a then .ok (a - b) else panic

/-- Addition on 64 bits that answers `e` on overflow. -/
def checkedAdd (e : ε) (a b : Nat) : Res ε Nat := if a + b < 2 ^ 64 then .ok (a + b) else fail e

/-- Slice or array indexing. -/
def index (xs : List α) (i : Nat) : Res ε α := unwrap xs[i]?

/-- The outcome is a value or one of the errors of `P`, and not a panic. -/
def FailsOnly (P : ε → Prop) : Res ε α → Prop
  | .ok _ => True
  | .error (.error e) => P e
  | .error .panic => False

/-- The outcome is a value or an error of the program. -/
abbrev NoPanic (x : Res ε α) : Prop := FailsOnly (fun _ => True) x

/-- The value of a call, if it has one. -/
def value? : Res ε α → Option α
  | .ok a => some a
  | .error _ => none

theorem value?_eq_some {x : Res ε α} {a : α} : x.value? = some a ↔ x = .ok a := by
  cases x with
  | ok b => simp [value?]
  | error e => simp [value?]

@[simp] theorem bind_ok (a : α) (f : α → Res ε β) : ((.ok a : Res ε α) >>= f) = f a := rfl

@[simp] theorem bind_error (e : Fault ε) (f : α → Res ε β) :
    ((.error e : Res ε α) >>= f) = .error e := rfl

@[simp] theorem pure_def (a : α) : (pure a : Res ε α) = .ok a := rfl

theorem pure_eq_ok {a b : α} : (pure a : Res ε α) = .ok b ↔ a = b := by
  rw [pure_def, Except.ok.injEq]

@[simp] theorem bind_panic (f : α → Res ε β) : ((panic : Res ε α) >>= f) = panic := rfl

@[simp] theorem bind_fail (e : ε) (f : α → Res ε β) : ((fail e : Res ε α) >>= f) = fail e := rfl

/-- A sequence succeeds exactly when both of its parts do. -/
theorem bind_eq_ok {x : Res ε α} {f : α → Res ε β} {b : β} :
    (x >>= f) = .ok b ↔ ∃ a, x = .ok a ∧ f a = .ok b := by
  cases x with
  | error e => simp
  | ok a => simp

@[simp] theorem fail_ne_ok {e : ε} {a : α} : (fail e : Res ε α) = .ok a ↔ False := by
  simp [fail]

@[simp] theorem panic_ne_ok {a : α} : (panic : Res ε α) = .ok a ↔ False := by
  simp [panic]

@[simp] theorem refuse_eq_ok {c : Prop} [Decidable c] {e : ε} {u : Unit} :
    refuse c e = .ok u ↔ ¬ c := by
  unfold refuse
  split <;> simp [*]

theorem refuse_of_not {c : Prop} [Decidable c] {e : ε} (h : ¬ c) : refuse c e = .ok () := by
  simp [refuse, h]

@[simp] theorem mapErr_eq_ok {f : ε → ε'} {x : Res ε α} {a : α} :
    mapErr f x = .ok a ↔ x = .ok a := by
  rcases x with (_ | _) | _ <;> simp [mapErr]

@[simp] theorem expect_eq_ok {x : Res ε α} {a : α} :
    (expect x : Res ε' α) = .ok a ↔ x = .ok a := by
  cases x <;> simp [expect]

@[simp] theorem okOr_eq_ok {e : ε} {o : Option α} {a : α} : okOr e o = .ok a ↔ o = some a := by
  cases o <;> simp [okOr]

@[simp] theorem unwrap_eq_ok {o : Option α} {a : α} :
    (unwrap o : Res ε α) = .ok a ↔ o = some a := by
  cases o <;> simp [unwrap]

@[simp] theorem u64_eq_ok {n m : Nat} : (u64 n : Res ε Nat) = .ok m ↔ n < 2 ^ 64 ∧ n = m := by
  unfold u64
  split
  next h => simp only [Except.ok.injEq, h, true_and]
  next h => simp only [panic_ne_ok, h, false_and]

theorem u64_of_lt {n : Nat} (h : n < 2 ^ 64) : (u64 n : Res ε Nat) = .ok n :=
  u64_eq_ok.mpr ⟨h, rfl⟩

@[simp] theorem sub_eq_ok {a b c : Nat} : (sub a b : Res ε Nat) = .ok c ↔ b ≤ a ∧ a - b = c := by
  unfold sub
  split <;> simp [*]

@[simp] theorem checkedAdd_eq_ok {e : ε} {a b c : Nat} :
    checkedAdd e a b = .ok c ↔ a + b < 2 ^ 64 ∧ a + b = c := by
  unfold checkedAdd
  split <;> simp_all

@[simp] theorem index_eq_ok {xs : List α} {i : Nat} {a : α} :
    (index xs i : Res ε α) = .ok a ↔ xs[i]? = some a := by
  simp [index]

theorem index_of_lt {xs : List α} {i : Nat} (h : i < xs.length) :
    (index xs i : Res ε α) = .ok xs[i] := by
  simp [h]

/-! What a call can fail with follows the sequence of calls. -/

section FailsOnly

variable {P Q : ε → Prop}

@[simp] theorem failsOnly_ok (a : α) : FailsOnly P (.ok a : Res ε α) := trivial

@[simp] theorem failsOnly_fail {e : ε} (h : P e) : FailsOnly P (fail e : Res ε α) := h

theorem failsOnly_of_eq_ok {x : Res ε α} {a : α} (h : x = .ok a) : FailsOnly P x := by
  rw [h]
  trivial

@[simp] theorem failsOnly_refuse {c : Prop} [Decidable c] {e : ε} (h : P e) : FailsOnly P (refuse c e) := by
  unfold refuse
  split
  · exact h
  · trivial

@[simp] theorem failsOnly_okOr {e : ε} {o : Option α} (h : P e) : FailsOnly P (okOr e o) := by
  cases o with
  | none => exact h
  | some a => trivial

theorem failsOnly_unwrap {o : Option α} {a : α} (h : o = some a) :
    FailsOnly P (unwrap o : Res ε α) := by
  rw [h]
  trivial

theorem failsOnly_u64 {n : Nat} (h : n < 2 ^ 64) : FailsOnly P (u64 n : Res ε Nat) :=
  failsOnly_of_eq_ok (u64_of_lt h)

theorem failsOnly_sub {a b : Nat} (h : b ≤ a) : FailsOnly P (sub a b : Res ε Nat) :=
  failsOnly_of_eq_ok (sub_eq_ok.mpr ⟨h, rfl⟩)

@[simp] theorem failsOnly_checkedAdd {e : ε} {a b : Nat} (h : P e) : FailsOnly P (checkedAdd e a b) := by
  unfold checkedAdd
  split
  · exact failsOnly_ok _
  · exact failsOnly_fail h

theorem failsOnly_index {xs : List α} {i : Nat} (h : i < xs.length) :
    FailsOnly P (index xs i : Res ε α) :=
  failsOnly_of_eq_ok (index_of_lt h)

@[simp] theorem failsOnly_mapErr_iff {P : ε' → Prop} {f : ε → ε'} {x : Res ε α} :
    FailsOnly P (mapErr f x) ↔ FailsOnly (fun e => P (f e)) x := by
  rcases x with (e | _) | a <;> rfl

theorem failsOnly_mapErr {P : ε' → Prop} {f : ε → ε'} {x : Res ε α} (hx : NoPanic x)
    (hf : ∀ e, P (f e)) : FailsOnly P (mapErr f x) := by
  rcases x with (e | _) | a
  · exact hf e
  · exact hx.elim
  · trivial

@[simp] theorem failsOnly_attempt {P : ε' → Prop} {x : Res ε α} (hx : NoPanic x) :
    FailsOnly P (attempt x : Res ε' (Option α)) := by
  rcases x with (e | _) | a
  · trivial
  · exact hx.elim
  · trivial

theorem FailsOnly.mono {x : Res ε α} (hx : FailsOnly P x) (h : ∀ e, P e → Q e) : FailsOnly Q x := by
  rcases x with (e | _) | a
  · exact h e hx
  · exact hx
  · trivial

theorem FailsOnly.noPanic {x : Res ε α} (hx : FailsOnly P x) : NoPanic x :=
  hx.mono fun _ _ => trivial

/-- What a sequence can fail with, after each value of its first part. -/
@[simp] theorem failsOnly_bind {x : Res ε α} {f : α → Res ε β} :
    FailsOnly P (x >>= f) ↔ FailsOnly P x ∧ ∀ a, x = .ok a → FailsOnly P (f a) := by
  rcases x with (e | _) | a
  · simp [FailsOnly]
  · simp [FailsOnly]
  · simp

theorem FailsOnly.bind {x : Res ε α} {f : α → Res ε β} (hx : FailsOnly P x)
    (hf : ∀ a, x = .ok a → FailsOnly P (f a)) : FailsOnly P (x >>= f) :=
  failsOnly_bind.mpr ⟨hx, hf⟩

@[simp] theorem failsOnly_ite {c : Prop} [Decidable c] {x y : Res ε α} :
    FailsOnly P (if c then x else y) ↔ (c → FailsOnly P x) ∧ (¬ c → FailsOnly P y) := by
  split <;> simp [*]

/-- A call either returns a value or one of its errors. -/
theorem FailsOnly.cases {x : Res ε α} (h : FailsOnly P x) :
    (∃ a, x = .ok a) ∨ ∃ e, P e ∧ x = fail e := by
  rcases x with (e | _) | a
  · exact .inr ⟨e, h, rfl⟩
  · exact h.elim
  · exact .inl ⟨a, rfl⟩

theorem FailsOnly.ne_fail {x : Res ε α} (h : FailsOnly P x) {e : ε} (he : ¬ P e) : x ≠ fail e := by
  rintro rfl
  exact he h

end FailsOnly

theorem noPanic_fail (e : ε) : NoPanic (fail e : Res ε α) := trivial

theorem noPanic_refuse (c : Prop) [Decidable c] (e : ε) : NoPanic (refuse c e) :=
  failsOnly_refuse trivial

theorem noPanic_okOr (e : ε) (o : Option α) : NoPanic (okOr e o) := failsOnly_okOr trivial

theorem noPanic_u64 {n : Nat} (h : n < 2 ^ 64) : NoPanic (u64 n : Res ε Nat) := failsOnly_u64 h

theorem noPanic_sub {a b : Nat} (h : b ≤ a) : NoPanic (sub a b : Res ε Nat) := failsOnly_sub h

/-- A loop that stops at the first failure. -/
def each (f : α → Res ε Unit) : List α → Res ε Unit
  | [] => .ok ()
  | a :: as => do
    f a
    each f as

/-- A loop that pushes one result per element and stops at the first failure. -/
def collect (f : α → Res ε β) : List α → Res ε (List β)
  | [] => .ok []
  | a :: as => do
    let b ← f a
    let bs ← collect f as
    return b :: bs

@[simp] theorem each_eq_ok {f : α → Res ε Unit} {as : List α} {u : Unit} :
    each f as = .ok u ↔ ∀ a ∈ as, f a = .ok () := by
  induction as with
  | nil => simp [each]
  | cons a as ih =>
    simp only [each, bind_eq_ok, ih, List.forall_mem_cons]
    constructor
    · rintro ⟨_, ha, has⟩
      exact ⟨ha, has⟩
    · rintro ⟨ha, has⟩
      exact ⟨(), ha, has⟩

@[simp] theorem failsOnly_each {P : ε → Prop} {f : α → Res ε Unit} {as : List α}
    (h : ∀ a ∈ as, FailsOnly P (f a)) : FailsOnly P (each f as) := by
  induction as with
  | nil => simp [each]
  | cons a as ih => exact (h a (by simp)).bind fun _ _ => ih fun b hb => h b (by simp [hb])

/-- A collecting loop succeeds exactly when every round does, with its result. -/
theorem collect_eq_ok {f : α → Res ε β} {as : List α} {bs : List β} :
    collect f as = .ok bs ↔ List.Forall₂ (fun a b => f a = .ok b) as bs := by
  induction as generalizing bs with
  | nil => simp [collect, eq_comm]
  | cons a as ih =>
    simp only [collect, bind_eq_ok, pure_eq_ok]
    constructor
    · rintro ⟨b, hb, bs', hbs, rfl⟩
      exact .cons hb (ih.mp hbs)
    · rintro (_ | ⟨hb, hbs⟩)
      exact ⟨_, hb, _, ih.mpr hbs, rfl⟩

theorem collect_length {f : α → Res ε β} {as : List α} {bs : List β} (h : collect f as = .ok bs) :
    bs.length = as.length :=
  (collect_eq_ok.mp h).length_eq.symm

theorem mem_of_collect {f : α → Res ε β} {as : List α} {bs : List β} (h : collect f as = .ok bs)
    {b : β} (hb : b ∈ bs) : ∃ a ∈ as, f a = .ok b := by
  induction collect_eq_ok.mp h with
  | nil => simp at hb
  | cons hab _ ih =>
    rename_i a b' as' bs' hrest
    rcases List.mem_cons.mp hb with rfl | hb
    · exact ⟨a, by simp, hab⟩
    · obtain ⟨a', ha', hf⟩ := ih (collect_eq_ok.mpr hrest) hb
      exact ⟨a', by simp [ha'], hf⟩

/-- The last result comes from the last element. -/
theorem getLast_of_collect {f : α → Res ε β} {as : List α} {bs : List β} (h : collect f as = .ok bs)
    {b : β} (hb : bs.getLast? = some b) : ∃ a, as.getLast? = some a ∧ f a = .ok b := by
  have hall := List.forall₂_reverse_iff.mpr (collect_eq_ok.mp h)
  rw [← List.head?_reverse] at hb ⊢
  generalize as.reverse = ras, bs.reverse = rbs at hall hb
  cases hall with
  | nil => simp at hb
  | cons hfirst _ =>
    simp only [List.head?_cons, Option.some.injEq] at hb
    exact ⟨_, rfl, hb ▸ hfirst⟩

@[simp] theorem failsOnly_collect {P : ε → Prop} {f : α → Res ε β} {as : List α}
    (h : ∀ a ∈ as, FailsOnly P (f a)) : FailsOnly P (collect f as) := by
  induction as with
  | nil => simp [collect]
  | cons a as ih =>
    refine (h a (by simp)).bind fun b _ => ?_
    exact (ih fun b hb => h b (by simp [hb])).bind fun _ _ => by simp

end Res

/-- A call on a state that outlives its failure: the state after an early return
is the one reached there, as for a `&mut` argument. -/
def Run (σ ε α : Type) := σ → Res ε α × σ

namespace Run

variable {σ ε ε' α β : Type}

instance : Monad (Run σ ε) where
  pure a := fun s => (.ok a, s)
  bind m f := fun s =>
    match m s with
    | (.ok a, s') => f a s'
    | (.error e, s') => (.error e, s')

def lift (x : Res ε α) : Run σ ε α := fun s => (x, s)

def fail (e : ε) : Run σ ε α := lift (Res.fail e)

def refuse (c : Prop) [Decidable c] (e : ε) : Run σ ε Unit := lift (Res.refuse c e)

def mapErr (f : ε → ε') (m : Run σ ε α) : Run σ ε' α := fun s => ((m s).1.mapErr f, (m s).2)

def modify (f : σ → σ) : Run σ ε Unit := fun s => (.ok (), f s)

/-- A question to a service with a state of its own: it answers or refuses, and never panics. -/
def ask (f : σ → Except ε α × σ) : Run σ ε α := fun s => ((f s).1.mapError .error, (f s).2)

/-- `m` once per round, `count` rounds. -/
def times (m : Run σ ε α) : Nat → Run σ ε (List α)
  | 0 => pure []
  | count + 1 => do
    let a ← m
    return a :: (← times m count)

@[simp] theorem pure_apply (a : α) (s : σ) : (pure a : Run σ ε α) s = (.ok a, s) := rfl

@[simp] theorem lift_apply (x : Res ε α) (s : σ) : (lift x : Run σ ε α) s = (x, s) := rfl

@[simp] theorem modify_apply (f : σ → σ) (s : σ) : (modify f : Run σ ε Unit) s = (.ok (), f s) := rfl

theorem bind_apply (m : Run σ ε α) (f : α → Run σ ε β) (s : σ) :
    (m >>= f) s = match m s with
      | (.ok a, s') => f a s'
      | (.error e, s') => (.error e, s') := rfl

theorem bind_apply_ok {m : Run σ ε α} {f : α → Run σ ε β} {s s' : σ} {a : α}
    (h : m s = (.ok a, s')) : (m >>= f) s = f a s' := by
  simp [bind_apply, h]

theorem bind_apply_error {m : Run σ ε α} {f : α → Run σ ε β} {s s' : σ} {e : Fault ε}
    (h : m s = (.error e, s')) : (m >>= f) s = (.error e, s') := by
  simp [bind_apply, h]

/-- A sequence that returns a value passes through a value of its first part. -/
theorem bind_eq_ok {m : Run σ ε α} {f : α → Run σ ε β} {s s' : σ} {b : β} :
    (m >>= f) s = (.ok b, s') ↔ ∃ a t, m s = (.ok a, t) ∧ f a t = (.ok b, s') := by
  rw [bind_apply]
  rcases h : m s with ⟨_ | a, t⟩
  · simp
  · simp

/-- A condition between two steps that does not look at the state between them. -/
theorem exists_guard {p : Prop} {A B : σ → Prop} : (∃ s, A s ∧ p ∧ B s) ↔ p ∧ ∃ s, A s ∧ B s := by
  simp only [and_left_comm, exists_and_left]

/-- A value chosen after a step may be chosen before it. -/
theorem exists_swap {A : σ → Prop} {B : α → σ → Prop} : (∃ s, A s ∧ ∃ a, B a s) ↔ ∃ a s, A s ∧ B a s := by
  constructor
  · rintro ⟨s, hs, a, ha⟩
    exact ⟨a, s, hs, ha⟩
  · rintro ⟨a, s, hs, ha⟩
    exact ⟨s, hs, a, ha⟩

/-- Two steps in a row, whatever follows. -/
theorem exists_then {A : σ → Prop} {B : σ → σ → Prop} {C : σ → Prop} :
    (∃ s, A s ∧ ∃ t, B s t ∧ C t) ↔ ∃ t, (∃ s, A s ∧ B s t) ∧ C t := by
  constructor
  · rintro ⟨s, hs, t, ht, hC⟩
    exact ⟨t, ⟨s, hs, ht⟩, hC⟩
  · rintro ⟨t, ⟨s, hs, ht⟩, hC⟩
    exact ⟨s, hs, t, ht, hC⟩

theorem exists_last {p : Prop} {A B : σ → Prop} : (∃ s, A s ∧ B s ∧ p) ↔ (∃ s, A s ∧ B s) ∧ p := by
  simp only [← and_assoc, exists_and_right]

/-- A sequence ends where its second part does, or where its first part fails. -/
theorem bind_eq {m : Run σ ε α} {f : α → Run σ ε β} {s s' : σ} {r : Res ε β} :
    (m >>= f) s = (r, s') ↔
      (∃ a t, m s = (.ok a, t) ∧ f a t = (r, s')) ∨ ∃ e, m s = (.error e, s') ∧ r = .error e := by
  rw [bind_apply]
  rcases h : m s with ⟨_ | a, t⟩
  · simp [and_comm, eq_comm]
  · simp

theorem lift_eq_ok {x : Res ε α} {s t : σ} {a : α} :
    (lift x : Run σ ε α) s = (.ok a, t) ↔ x = .ok a ∧ t = s := by
  rw [lift_apply, Prod.mk.injEq, eq_comm (a := s)]

theorem refuse_eq_ok {c : Prop} [Decidable c] {e : ε} {s t : σ} {u : Unit} :
    (refuse c e : Run σ ε Unit) s = (.ok u, t) ↔ ¬ c ∧ t = s := by
  rw [refuse, lift_eq_ok, Res.refuse_eq_ok]

theorem modify_eq_ok {f : σ → σ} {s t : σ} {u : Unit} :
    (modify f : Run σ ε Unit) s = (.ok u, t) ↔ t = f s := by
  rw [modify_apply, Prod.mk.injEq, eq_comm (a := f s)]
  exact and_iff_right rfl

theorem pure_eq_ok {s t : σ} {a b : α} :
    (pure a : Run σ ε α) s = (.ok b, t) ↔ a = b ∧ t = s := by
  rw [pure_apply, Prod.mk.injEq, Except.ok.injEq, eq_comm (a := s)]

/-- What a sequence can fail with from a given starting state. -/
theorem failsOnly_bind {P : ε → Prop} {m : Run σ ε α} {f : α → Run σ ε β} {s : σ}
    (hm : (m s).1.FailsOnly P) (hf : ∀ a t, m s = (.ok a, t) → (f a t).1.FailsOnly P) :
    ((m >>= f) s).1.FailsOnly P := by
  rw [bind_apply]
  rcases h : m s with ⟨(e | _) | a, t⟩
  · rw [h] at hm
    exact hm
  · rw [h] at hm
    exact hm
  · exact hf a t h

theorem ask_eq_ok {f : σ → Except ε α × σ} {s t : σ} {a : α} :
    ask f s = (.ok a, t) ↔ f s = (.ok a, t) := by
  unfold ask
  rcases f s with ⟨_ | b, u⟩
  · simp [Except.mapError]
  · simp [Except.mapError]

theorem mapErr_eq_ok {f : ε → ε'} {m : Run σ ε α} {s t : σ} {a : α} :
    mapErr f m s = (.ok a, t) ↔ m s = (.ok a, t) := by
  rw [mapErr, Prod.mk.injEq, Res.mapErr_eq_ok, Prod.ext_iff]

/-! ## What a call can fail with -/

section Raises

variable {P : ε → Prop} {m : Run σ ε α} {f : α → Run σ ε β}

/-- From every state the call fails only with an error in `P`, and never panics. -/
def Raises (P : ε → Prop) (m : Run σ ε α) : Prop := ∀ s, (m s).1.FailsOnly P

theorem Raises.bind (hm : Raises P m) (hf : ∀ a s t, m s = (.ok a, t) → (f a t).1.FailsOnly P) :
    Raises P (m >>= f) :=
  fun s => failsOnly_bind (hm s) fun a t h => hf a s t h

/-- A sequence of calls that fail so whatever came before. -/
theorem Raises.andThen (hm : Raises P m) (hf : ∀ a, Raises P (f a)) : Raises P (m >>= f) :=
  hm.bind fun a _ t _ => hf a t

theorem raises_pure (a : α) : Raises P (pure a : Run σ ε α) := fun _ => trivial

theorem raises_lift {x : Res ε α} (h : x.FailsOnly P) : Raises P (lift x : Run σ ε α) := fun _ => h

theorem raises_refuse {c : Prop} [Decidable c] {e : ε} (h : P e) : Raises P (refuse c e : Run σ ε Unit) :=
  raises_lift (Res.failsOnly_refuse h)

theorem Raises.times (h : Raises P m) (count : Nat) : Raises P (m.times count) := by
  induction count with
  | zero => exact raises_pure _
  | succ count ih => exact h.andThen fun _ => ih.andThen fun _ => raises_pure _

end Raises

/-! ## Calls that never panic -/

/-- No state makes the call panic. -/
def Safe (m : Run σ ε α) : Prop := ∀ s, (m s).1.NoPanic

theorem Safe.bind {m : Run σ ε α} {f : α → Run σ ε β} (hm : Safe m)
    (hf : ∀ a s t, m s = (.ok a, t) → ((f a) t).1.NoPanic) : Safe (m >>= f) :=
  Raises.bind hm hf

/-- A sequence of calls that are safe whatever came before. -/
theorem Safe.andThen {m : Run σ ε α} {f : α → Run σ ε β} (hm : Safe m) (hf : ∀ a, Safe (f a)) :
    Safe (m >>= f) :=
  Raises.andThen hm hf

theorem safe_pure (a : α) : Safe (pure a : Run σ ε α) := fun _ => trivial

theorem safe_lift {x : Res ε α} (h : x.NoPanic) : Safe (lift x : Run σ ε α) := fun _ => h

theorem safe_fail (e : ε) : Safe (fail e : Run σ ε α) := fun _ => trivial

theorem safe_refuse (c : Prop) [Decidable c] (e : ε) : Safe (refuse c e : Run σ ε Unit) :=
  safe_lift (Res.noPanic_refuse c e)

theorem safe_modify (f : σ → σ) : Safe (modify f : Run σ ε Unit) := fun _ => trivial

theorem safe_ask (f : σ → Except ε α × σ) : Safe (ask f) := by
  intro s
  unfold ask
  rcases f s with ⟨_ | _, _⟩ <;> trivial

theorem Safe.mapErr {m : Run σ ε α} (h : Safe m) (f : ε → ε') : Safe (m.mapErr f) :=
  fun s => Res.failsOnly_mapErr (h s) fun _ => trivial

theorem Safe.times {m : Run σ ε α} (h : Safe m) (count : Nat) : Safe (m.times count) :=
  Raises.times h count

end Run

end Ureth.Foundation
