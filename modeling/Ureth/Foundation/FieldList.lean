import Mathlib

/-!
# Records read by position

An array whose length is part of its type, read at positions that are written out in the program.
Every position can be asked for, so reading one takes no proof; the lemmas say what stands at the
positions below the length.
-/

namespace Ureth.Foundation

/-- A list of exactly `n` values. -/
structure FieldList (α : Type) (n : ℕ) where
  toList : List α
  length_eq : toList.length = n

namespace FieldList

variable {α : Type} {n : ℕ} {v w : FieldList α n} {l : List α}

instance instGetElem [Inhabited α] : GetElem (FieldList α n) ℕ α fun _ _ => True where
  getElem v i _ := v.toList.getD i default

theorem ext (h : v.toList = w.toList) : v = w := by
  cases v
  cases w
  simp_all

/-- The first `n` values of a list, with `d` for those that are missing. -/
def padded (l : List α) (n : ℕ) (d : α) : FieldList α n :=
  ⟨(List.range n).map fun i => l.getD i d, by rw [List.length_map, List.length_range]⟩

theorem toList_padded (h : l.length = n) (d : α) : (padded l n d).toList = l := by
  subst h
  apply List.ext_getElem
  · simp [padded]
  · intro i h1 h2
    simp only [padded, List.getElem_map, List.getElem_range]
    rw [List.getD_eq_getElem?_getD, List.getElem?_eq_getElem h2, Option.getD_some]

variable [Inhabited α]

/-- What stands at a position of the list. -/
theorem getElem_of_toList (h : v.toList = l) (i : ℕ) (hi : i < n) : l[i]? = some v[i] := by
  subst h
  have hlen : i < v.toList.length := by rw [v.length_eq]; exact hi
  change v.toList[i]? = some (v.toList.getD i default)
  rw [List.getD_eq_getElem?_getD, List.getElem?_eq_getElem hlen, Option.getD_some]

theorem getElem_mk (h : l.length = n) (i : ℕ) : (⟨l, h⟩ : FieldList α n)[i] = l.getD i default := rfl

end FieldList

end Ureth.Foundation
