import Mathlib

/-!
# Runs of a labelled transition system

A run is the list of its labels, oldest first. What holds at the start and is kept by
every step holds at the end; what a run does can be cut at any of its steps.
-/

namespace Ureth.Foundation

variable {σ ℓ : Type}

inductive Steps (step : σ → ℓ → σ → Prop) : σ → List ℓ → σ → Prop
  | nil (s : σ) : Steps step s [] s
  | snoc {s t u : σ} {ls : List ℓ} {l : ℓ} (run : Steps step s ls t) (last : step t l u) :
      Steps step s (ls ++ [l]) u

namespace Steps

variable {step : σ → ℓ → σ → Prop} {s t u : σ} {ls ks : List ℓ} {l : ℓ}

theorem single (h : step s l t) : Steps step s [l] t := .snoc (.nil s) h

theorem append (h : Steps step s ls t) (k : Steps step t ks u) : Steps step s (ls ++ ks) u := by
  induction k with
  | nil => simpa using h
  | snoc _ last ih => rw [← List.append_assoc]; exact .snoc ih last

theorem cons (h : step s l t) (k : Steps step t ks u) : Steps step s (l :: ks) u :=
  (single h).append k

/-- The rule of invariants. -/
theorem invariant {I : σ → Prop} (hstep : ∀ s l t, I s → step s l t → I t)
    (h : Steps step s ls t) (hs : I s) : I t := by
  induction h with
  | nil => exact hs
  | snoc _ last ih => exact hstep _ _ _ ih last

theorem nil_iff : Steps step s [] t ↔ s = t := by
  constructor
  · intro h
    generalize hl : ([] : List ℓ) = ls at h
    cases h with
    | nil => rfl
    | snoc => simp at hl
  · rintro rfl
    exact .nil s

theorem snoc_iff : Steps step s (ls ++ [l]) u ↔ ∃ t, Steps step s ls t ∧ step t l u := by
  constructor
  · intro h
    generalize hl : ls ++ [l] = ks at h
    cases h with
    | nil => simp at hl
    | snoc run last =>
      obtain ⟨rfl, hlast⟩ := List.append_inj' hl rfl
      obtain rfl : l = _ := by simpa using hlast
      exact ⟨_, run, last⟩
  · rintro ⟨t, run, last⟩
    exact .snoc run last

end Steps

/-- Along the run there was a `start` step, and from right after it to the end `keep` has held. -/
inductive Since (step : σ → ℓ → σ → Prop) (start : σ → ℓ → σ → Prop) (keep : σ → Prop) :
    σ → List ℓ → σ → Prop
  | now {s t u : σ} {ls : List ℓ} {l : ℓ} (run : Steps step s ls t) (last : step t l u)
      (starts : start t l u) (kept : keep u) : Since step start keep s (ls ++ [l]) u
  | later {s t u : σ} {ls : List ℓ} {l : ℓ} (earlier : Since step start keep s ls t)
      (last : step t l u) (kept : keep u) : Since step start keep s (ls ++ [l]) u

theorem Since.label_mem {step : σ → ℓ → σ → Prop} {Q : ℓ → Prop} {keep : σ → Prop} {s t : σ}
    {ls : List ℓ} (h : Since step (fun _ l _ => Q l) keep s ls t) : ∃ l ∈ ls, Q l := by
  induction h with
  | now _ _ starts => exact ⟨_, by simp, starts⟩
  | later _ _ _ ih =>
    obtain ⟨l, hl, hq⟩ := ih
    exact ⟨l, List.mem_append_left _ hl, hq⟩

/-- What never holds without a `start` step, and is never there without `keep`, has held since
one. The argument may rest on an invariant. -/
theorem Steps.since {step start : σ → ℓ → σ → Prop} {keep P I : σ → Prop} {s t : σ} {ls : List ℓ}
    (hI : ∀ s l t, I s → step s l t → I t) (hkeep : ∀ u, P u → keep u)
    (hstep : ∀ t l u, I t → step t l u → P u → P t ∨ start t l u) (h : Steps step s ls t)
    (hs : I s) (hinit : ¬ P s) (hP : P t) : Since step start keep s ls t := by
  induction h with
  | nil => exact absurd hP hinit
  | snoc run last ih =>
    rcases hstep _ _ _ (run.invariant hI hs) last hP with hbefore | hstart
    · exact .later (ih hbefore) last (hkeep _ hP)
    · exact .now run last hstart (hkeep _ hP)

end Ureth.Foundation
