import Mathlib

/-!
# Adjacent spans of an order

A span is half-open from its start, or has no end. Spans that are not empty and follow one another
without gap or overlap, the last of them without end, are a partition of everything from the first
start on.
-/

namespace Ureth.Foundation

structure Span (α : Type*) where
  start : α
  stop : Option α

namespace Span

variable {α : Type*} [LinearOrder α]

/-- The point is in the span. -/
def Covers (s : Span α) (r : α) : Prop := s.start ≤ r ∧ ∀ e ∈ s.stop, r < e

/-- An end, if there is one, is after the start. -/
def Proper (s : Span α) : Prop := ∀ e ∈ s.stop, s.start < e

/-- `t` starts where `s` ends. -/
def Meets (s t : Span α) : Prop := s.stop = some t.start

variable {s t : Span α} {l : List (Span α)} {r : α}

theorem start_lt_of_meets (hs : s.Proper) (h : s.Meets t) : s.start < t.start :=
  hs t.start (by rw [h]; rfl)

/-- Later spans of a chain start later. -/
theorem start_le_of_chain (hchain : List.IsChain Meets (s :: l)) (hproper : ∀ t ∈ s :: l, t.Proper)
    {t : Span α} (ht : t ∈ s :: l) : s.start ≤ t.start := by
  induction l generalizing s with
  | nil =>
    obtain rfl := List.mem_singleton.mp ht
    exact le_rfl
  | cons u rest ih =>
    rw [List.isChain_cons_cons] at hchain
    rcases List.mem_cons.mp ht with rfl | ht
    · exact le_rfl
    · have hnext := start_lt_of_meets (hproper s (by simp)) hchain.1
      exact hnext.le.trans (ih hchain.2 (fun v hv => hproper v (List.mem_cons_of_mem _ hv)) ht)

/-- In a chain whose last span has no end, a point from the first start on is in one span only. -/
theorem existsUnique_covers (hchain : List.IsChain Meets (s :: l))
    (hproper : ∀ t ∈ s :: l, t.Proper) (hopen : ∀ t ∈ (s :: l).getLast?, t.stop = none)
    (hr : s.start ≤ r) : ∃! i : ℕ, ∃ t : Span α, (s :: l)[i]? = some t ∧ t.Covers r := by
  induction l generalizing s with
  | nil =>
    have hnone : s.stop = none := hopen s rfl
    refine ⟨0, ⟨s, rfl, hr, by simp [hnone]⟩, ?_⟩
    rintro i ⟨t, hi, -⟩
    cases i with
    | zero => rfl
    | succ i => simp at hi
  | cons u rest ih =>
    rw [List.isChain_cons_cons] at hchain
    have hlast : ∀ t ∈ (u :: rest).getLast?, t.stop = none := by
      rw [List.getLast?_cons_cons] at hopen
      exact hopen
    have htail : ∀ t ∈ u :: rest, t.Proper := fun t ht => hproper t (List.mem_cons_of_mem _ ht)
    rcases lt_or_ge r u.start with hbefore | hafter
    · -- the point is before every later span
      refine ⟨0, ⟨s, rfl, hr, ?_⟩, ?_⟩
      · intro e he
        rw [hchain.1] at he
        obtain rfl := Option.mem_some_iff.mp he
        exact hbefore
      · rintro i ⟨t, hi, hstart, -⟩
        cases i with
        | zero => rfl
        | succ i =>
          have hmem : t ∈ u :: rest := List.mem_of_getElem? hi
          have hle := start_le_of_chain hchain.2 htail hmem
          exact absurd (hle.trans hstart) (not_le.mpr hbefore)
    · -- the point is after the first span
      obtain ⟨i, ⟨t, hi, hcovers⟩, hunique⟩ := ih hchain.2 htail hlast hafter
      refine ⟨i + 1, ⟨t, hi, hcovers⟩, ?_⟩
      rintro j ⟨t', hj, hcovers'⟩
      cases j with
      | zero =>
        obtain rfl : s = t' := Option.some.inj hj
        exact absurd (hcovers'.2 u.start (by rw [hchain.1]; rfl)) (not_lt.mpr hafter)
      | succ j => rw [hunique j ⟨t', hj, hcovers'⟩]

omit [LinearOrder α] in
/-- In a chain a span without end is the last one. -/
theorem stop_ne_none_of_chain (hchain : List.IsChain Meets l) {i : ℕ} (hi : l[i]? = some s)
    (hlast : i + 1 < l.length) : s.stop ≠ none := by
  obtain ⟨hlt, rfl⟩ := List.getElem?_eq_some_iff.mp hi
  have hmeets := List.isChain_iff_getElem.mp hchain i hlast
  rw [hmeets]
  simp

end Span

end Ureth.Foundation
