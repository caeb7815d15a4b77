import Mathlib.Data.List.Perm.Basic
import Mathlib.Data.List.Nodup

/-!
# First occurrences by a key

A pass over a list that keeps an element when its key has not been seen, as a
loop with a hash set does. What it keeps is determined, up to order, by the keys
that occur.
-/

namespace Ureth.Foundation

variable {α β γ : Type} [DecidableEq β]

/-- The elements whose key is not in `seen` and does not occur before them. -/
def firstFrom (key : α → β) (seen : List β) : List α → List α
  | [] => []
  | a :: as =>
    if key a ∈ seen then firstFrom key seen as else a :: firstFrom key (key a :: seen) as

/-- The first element of each key, in order. -/
def firstBy (key : α → β) (as : List α) : List α := firstFrom key [] as

theorem firstFrom_sublist (key : α → β) (seen : List β) (as : List α) :
    (firstFrom key seen as).Sublist as := by
  induction as generalizing seen with
  | nil => exact .slnil
  | cons a as ih =>
    unfold firstFrom
    split
    · exact (ih seen).cons a
    · exact (ih _).cons_cons a

theorem key_mem_firstFrom {key : α → β} {seen : List β} {as : List α} {k : β} :
    k ∈ (firstFrom key seen as).map key ↔ k ∈ as.map key ∧ k ∉ seen := by
  induction as generalizing seen with
  | nil => simp [firstFrom]
  | cons a as ih =>
    unfold firstFrom
    split
    next hseen =>
      rw [ih, List.map_cons, List.mem_cons]
      constructor
      · rintro ⟨hk, hnot⟩
        exact ⟨.inr hk, hnot⟩
      · rintro ⟨rfl | hk, hnot⟩
        · exact absurd hseen hnot
        · exact ⟨hk, hnot⟩
    next hseen =>
      rw [List.map_cons, List.mem_cons, ih, List.map_cons, List.mem_cons, List.mem_cons]
      constructor
      · rintro (rfl | ⟨hk, hnot⟩)
        · exact ⟨.inl rfl, hseen⟩
        · exact ⟨.inr hk, fun h => hnot (.inr h)⟩
      · rintro ⟨rfl | hk, hnot⟩
        · exact .inl rfl
        · by_cases heq : k = key a
          · exact .inl heq
          · exact .inr ⟨hk, by rintro (h | h); exacts [heq h, hnot h]⟩

theorem nodup_map_firstFrom (key : α → β) (seen : List β) (as : List α) :
    ((firstFrom key seen as).map key).Nodup := by
  induction as generalizing seen with
  | nil => exact .nil
  | cons a as ih =>
    unfold firstFrom
    split
    · exact ih seen
    · rw [List.map_cons, List.nodup_cons]
      exact ⟨fun h => (key_mem_firstFrom.mp h).2 (List.mem_cons_self ..), ih _⟩

theorem firstBy_sublist (key : α → β) (as : List α) : (firstBy key as).Sublist as :=
  firstFrom_sublist key [] as

theorem mem_of_mem_firstBy {key : α → β} {as : List α} {a : α} (h : a ∈ firstBy key as) : a ∈ as :=
  (firstBy_sublist key as).subset h

theorem key_mem_firstBy {key : α → β} {as : List α} {k : β} :
    k ∈ (firstBy key as).map key ↔ k ∈ as.map key := by
  unfold firstBy
  rw [key_mem_firstFrom]
  simp

theorem exists_mem_firstBy {key : α → β} {as : List α} {a : α} (h : a ∈ as) :
    ∃ b ∈ firstBy key as, key b = key a := by
  have hk : key a ∈ (firstBy key as).map key := key_mem_firstBy.mpr (List.mem_map_of_mem h)
  exact List.mem_map.mp hk

theorem nodup_map_firstBy (key : α → β) (as : List α) : ((firstBy key as).map key).Nodup :=
  nodup_map_firstFrom key [] as

theorem length_firstBy_le (key : α → β) (as : List α) : (firstBy key as).length ≤ as.length :=
  (firstBy_sublist key as).length_le

/-- Two lists with the same keys keep the same elements up to order, as far as
the keys determine the observed value. -/
theorem firstBy_map_perm {key : α → β} {f : α → γ} {as bs : List α}
    (hkeys : ∀ k, k ∈ as.map key ↔ k ∈ bs.map key)
    (hf : ∀ a ∈ as, ∀ b ∈ bs, key a = key b → f a = f b)
    (hself : ∀ a ∈ as, ∀ b ∈ as, key a = key b → f a = f b) :
    ((firstBy key as).map f).Perm ((firstBy key bs).map f) := by
  -- both sides are one function of the key, applied to two enumerations of one set of keys
  have hkeyPerm : ((firstBy key as).map key).Perm ((firstBy key bs).map key) := by
    rw [List.perm_ext_iff_of_nodup (nodup_map_firstBy key as) (nodup_map_firstBy key bs)]
    intro k
    rw [key_mem_firstBy, key_mem_firstBy, hkeys]
  let g : β → Option γ := fun k => (as.find? (fun a => key a = k)).map f
  have hg : ∀ a ∈ as, g (key a) = some (f a) := by
    intro a ha
    have hsome : (as.find? (fun b => key b = key a)).isSome = true := by
      rw [List.find?_isSome]
      exact ⟨a, ha, by simp⟩
    obtain ⟨b, hb⟩ := Option.isSome_iff_exists.mp hsome
    have hkey : key b = key a := by simpa using List.find?_some hb
    simp only [g, hb, Option.map_some]
    exact congrArg some (hself b (List.mem_of_find?_eq_some hb) a ha hkey)
  have hgb : ∀ b ∈ bs, g (key b) = some (f b) := by
    intro b hb
    obtain ⟨a, ha, hab⟩ := List.mem_map.mp ((hkeys (key b)).mpr (List.mem_map_of_mem hb))
    rw [← hab, hg a ha, hf a ha b hb hab]
  have hlift : ∀ (cs ds : List α), (∀ c ∈ cs, c ∈ ds) → (∀ c ∈ ds, g (key c) = some (f c)) →
      (cs.map key).filterMap g = cs.map f := by
    intro cs ds hsub hds
    rw [List.filterMap_map, ← List.filterMap_eq_map]
    exact List.filterMap_congr fun c hc => hds c (hsub c hc)
  rw [← hlift _ as (fun c hc => mem_of_mem_firstBy hc) hg,
    ← hlift _ bs (fun c hc => mem_of_mem_firstBy hc) hgb]
  exact hkeyPerm.filterMap g

end Ureth.Foundation
