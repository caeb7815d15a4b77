import Ureth.Foundation.Cursor

/-!
# Reading under a token limit

A cursor beside a count of the tokens read so far. A move passes bytes and counts tokens; a count
is compared with the limit whenever it grows. Moves compose as their bytes concatenate and their
tokens add.
-/

namespace Ureth.Foundation

structure Metered where
  cursor : Cursor
  tokens : ℕ

namespace Metered

/-- `m'` is `m` moved over the bytes `b` with `n` more tokens. -/
structure Advance (limit : ℕ) (m : Metered) (b : Bytes) (n : ℕ) (m' : Metered) : Prop where
  cursor : m.cursor.Advance b m'.cursor
  tokens : m'.tokens = m.tokens + n
  within : n = 0 ∨ m'.tokens ≤ limit

variable {limit k n : ℕ} {m m' : Metered} {a b : Bytes}

theorem advance_nil : m.Advance limit [] 0 m' ↔ m' = m := by
  constructor
  · rintro ⟨hcursor, htokens, -⟩
    cases m
    cases m'
    simp only [Cursor.advance_nil] at hcursor
    simp_all
  · rintro rfl
    exact ⟨Cursor.advance_nil.mpr rfl, rfl, .inl rfl⟩

theorem advance_append : m.Advance limit (a ++ b) (k + n) m' ↔
    ∃ t, m.Advance limit a k t ∧ t.Advance limit b n m' := by
  constructor
  · rintro ⟨hcursor, htokens, hwithin⟩
    obtain ⟨d, ha, hb⟩ := Cursor.advance_append.mp hcursor
    refine ⟨⟨d, m.tokens + k⟩, ⟨ha, rfl, ?_⟩, ⟨hb, ?_, ?_⟩⟩
    · dsimp only
      omega
    · dsimp only
      omega
    · omega
  · rintro ⟨t, ⟨ha, hk, hwithin⟩, hb, hn, hwithin'⟩
    refine ⟨Cursor.advance_append.mpr ⟨t.cursor, ha, hb⟩, ?_, ?_⟩
    · omega
    · omega

/-- A move to the end of a slice from its start, with its count within the limit. -/
theorem advance_whole {input : Bytes} {slice : input.length < 2 ^ 63} :
    (∃ m' : Metered, Advance limit ⟨Cursor.start input slice, 0⟩ b n m' ∧ m'.cursor.rest.length = 0) ↔
      input = b ∧ n ≤ limit := by
  constructor
  · rintro ⟨m', ⟨hcursor, htokens, hwithin⟩, hend⟩
    have hrest := hcursor.rest
    rw [Cursor.rest_start, List.eq_nil_of_length_eq_zero hend, List.append_nil] at hrest
    refine ⟨hrest, ?_⟩
    dsimp only at htokens
    omega
  · rintro ⟨hinput, hn⟩
    obtain ⟨d, hd, hend⟩ := (@Cursor.advance_whole input b slice).mpr hinput
    refine ⟨⟨d, n⟩, ⟨hd, (Nat.zero_add n).symm, .inr hn⟩, ?_⟩
    dsimp only
    rw [Cursor.length_rest, hend, hd.input]
    exact Nat.sub_self _

end Metered

/-- A reader repeated: what it reads one by one, each a `view` of a good value, it reads in a row. -/
theorem Run.times_eq_ok {σ ε α β : Type} {read : Run σ ε β} (Good : α → Prop) (view : α → β)
    (step : σ → α → σ → Prop) (walk : σ → List α → σ → Prop)
    (hread : ∀ s t out, read s = (.ok out, t) ↔ ∃ a, Good a ∧ step s a t ∧ out = view a)
    (hnil : ∀ s t, walk s [] t ↔ t = s)
    (hcons : ∀ s a as u, walk s (a :: as) u ↔ ∃ t, step s a t ∧ walk t as u)
    {count : ℕ} {s t : σ} {outs : List β} :
    read.times count s = (.ok outs, t) ↔
      ∃ as, as.length = count ∧ (∀ a ∈ as, Good a) ∧ walk s as t ∧ outs = as.map view := by
  induction count generalizing s t outs with
  | zero =>
    simp only [Run.times, Run.pure_eq_ok, List.length_eq_zero_iff]
    constructor
    · rintro ⟨rfl, rfl⟩
      exact ⟨[], rfl, by simp, (hnil _ _).mpr rfl, rfl⟩
    · rintro ⟨_, rfl, -, hwalk, rfl⟩
      exact ⟨rfl, (hnil _ _).mp hwalk⟩
  | succ count ih =>
    simp only [Run.times, Run.bind_eq_ok, Run.pure_eq_ok, hread, ih]
    constructor
    · rintro ⟨_, u, ⟨a, ha, hstep, rfl⟩, _, _, ⟨as, hlen, hall, hwalk, rfl⟩, rfl, rfl⟩
      exact ⟨a :: as, by simp [hlen], List.forall_mem_cons.mpr ⟨ha, hall⟩,
        (hcons _ _ _ _).mpr ⟨u, hstep, hwalk⟩, rfl⟩
    · rintro ⟨as, hlen, hall, hwalk, rfl⟩
      obtain ⟨a, as, rfl⟩ := List.exists_cons_of_length_eq_add_one hlen
      obtain ⟨u, hstep, hrest⟩ := (hcons _ _ _ _).mp hwalk
      rw [List.forall_mem_cons] at hall
      exact ⟨view a, u, ⟨a, hall.1, hstep, rfl⟩, as.map view, t,
        ⟨as, by simpa using hlen, hall.2, hrest, rfl⟩, rfl, rfl⟩

/-! ## Encodings in a row -/

section Row

variable {α : Type} {encode : α → Bytes}

/-- Encodings that are not empty are together at least as long as their list. -/
theorem length_le_length_flatMap (hpos : ∀ a, 0 < (encode a).length)
    (as : List α) : as.length ≤ (as.flatMap encode).length := by
  induction as with
  | nil => exact le_rfl
  | cons a as ih =>
    have := hpos a
    simp only [List.length_cons, List.flatMap_cons, List.length_append]
    omega

theorem length_flatMap_le {bound : ℕ} {as : List α}
    (h : ∀ a ∈ as, (encode a).length ≤ bound) : (as.flatMap encode).length ≤ bound * as.length := by
  induction as with
  | nil => exact Nat.zero_le _
  | cons a as ih =>
    rw [List.forall_mem_cons] at h
    have hrest := ih h.2
    rw [List.flatMap_cons, List.length_append, List.length_cons, Nat.mul_succ]
    omega

end Row

end Ureth.Foundation
