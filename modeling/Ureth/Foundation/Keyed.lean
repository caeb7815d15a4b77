import Mathlib.Data.List.Nodup

/-!
# Lists searched by a key

The first element with a given key, and the change of that element in place. Keys need
not be distinct for a search to be defined; where they are, what is removed is gone.
-/

namespace Ureth.Foundation

variable {α κ : Type} [DecidableEq κ] {key : α → κ} {f : α → α} {k k' : κ} {a : α} {l : List α}

def findKey (key : α → κ) (k : κ) (l : List α) : Option α := l.find? fun a => key a = k

/-- The list with its first element of key `k` changed. -/
def updateKey (key : α → κ) (k : κ) (f : α → α) : List α → List α
  | [] => []
  | a :: as => if key a = k then f a :: as else a :: updateKey key k f as

@[simp] theorem findKey_nil : findKey key k [] = none := rfl

theorem findKey_cons (x : α) : findKey key k (x :: l) = if key x = k then some x else findKey key k l := by
  unfold findKey
  by_cases h : key x = k <;> simp [h]

theorem mem_of_findKey (h : findKey key k l = some a) : a ∈ l := List.mem_of_find?_eq_some h

theorem key_of_findKey (h : findKey key k l = some a) : key a = k := by
  simpa using List.find?_some h

theorem findKey_eq_none : findKey key k l = none ↔ ∀ a ∈ l, key a ≠ k := by
  simp [findKey]

theorem findKey_append (l' : List α) :
    findKey key k (l ++ l') = (findKey key k l).or (findKey key k l') := by
  simp [findKey, List.find?_append]

@[simp] theorem length_updateKey : (updateKey key k f l).length = l.length := by
  induction l with
  | nil => rfl
  | cons x l ih =>
    unfold updateKey
    split
    · rfl
    · simp [ih]

theorem findKey_updateKey (hf : ∀ a, key (f a) = key a) :
    findKey key k' (updateKey key k f l) =
      if k' = k then (findKey key k l).map f else findKey key k' l := by
  induction l with
  | nil => simp [updateKey, findKey]
  | cons x l ih =>
    unfold updateKey
    by_cases hx : key x = k
    · rw [if_pos hx, findKey_cons, findKey_cons, findKey_cons, hf, hx]
      by_cases hk : k' = k
      · simp [hk]
      · simp [hk, Ne.symm hk]
    · rw [if_neg hx, findKey_cons, ih, findKey_cons, findKey_cons, if_neg hx]
      by_cases hk : k' = k
      · subst hk
        simp [hx]
      · simp [hk]

theorem countP_le_updateKey {p : α → Bool} (h : ∀ a, p a = true → p (f a) = true) :
    l.countP p ≤ (updateKey key k f l).countP p := by
  induction l with
  | nil => exact Nat.le_refl 0
  | cons x l ih =>
    unfold updateKey
    split
    · cases hx : p x with
      | false => simp [List.countP_cons, hx]
      | true => simp [hx, h x hx]
    · simpa [List.countP_cons] using ih

theorem map_updateKey {β : Type} {g : α → β} (hg : ∀ a, g (f a) = g a) :
    (updateKey key k f l).map g = l.map g := by
  induction l with
  | nil => rfl
  | cons x l ih =>
    unfold updateKey
    split
    · simp [hg]
    · simp [ih]

/-- With distinct keys, every element is the one its key finds. -/
theorem findKey_of_mem (h : (l.map key).Nodup) (ha : a ∈ l) : findKey key (key a) l = some a := by
  induction l with
  | nil => simp at ha
  | cons x l ih =>
    rw [List.map_cons, List.nodup_cons] at h
    rw [findKey_cons]
    rcases List.mem_cons.mp ha with rfl | ha
    · rw [if_pos rfl]
    · have hx : key x ≠ key a := fun hx => h.1 (hx ▸ List.mem_map_of_mem ha)
      rw [if_neg hx, ih h.2 ha]

end Ureth.Foundation
