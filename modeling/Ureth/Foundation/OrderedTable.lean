import Ureth.Foundation.Bytes

/-!
# Ordered tables

A finite map kept as its rows in strictly increasing key order, which is what an
ordered key-value store presents to a cursor. The order of the rows is a field,
so every table has at most one row per key and a scan meets the keys in order.
-/

namespace Ureth.Foundation

structure Table (κ β : Type) [LinearOrder κ] where
  rows : List (κ × β)
  sorted : rows.Pairwise fun a b => a.1 < b.1

namespace Table

variable {κ β : Type} [LinearOrder κ]

def empty : Table κ β := ⟨[], .nil⟩

def find (t : Table κ β) (k : κ) : Option β := (t.rows.find? fun r => r.1 = k).map Prod.snd

/-- The row of `k` replaced, or put in its place. -/
def upsert (k : κ) (v : β) : List (κ × β) → List (κ × β)
  | [] => [(k, v)]
  | r :: rs =>
    if k < r.1 then (k, v) :: r :: rs
    else if k = r.1 then (k, v) :: rs
    else r :: upsert k v rs

theorem mem_upsert {k : κ} {v : β} {rows : List (κ × β)} {r : κ × β}
    (hsorted : rows.Pairwise fun a b => a.1 < b.1) :
    r ∈ upsert k v rows ↔ r = (k, v) ∨ (r ∈ rows ∧ r.1 ≠ k) := by
  induction rows with
  | nil => simp [upsert]
  | cons s rows ih =>
    obtain ⟨hs, hrows⟩ := List.pairwise_cons.mp hsorted
    rw [upsert]
    split_ifs with hlt heq
    · have hne : ∀ a ∈ s :: rows, a.1 ≠ k := by
        intro a ha
        rcases List.mem_cons.mp ha with rfl | ha
        · exact hlt.ne'
        · exact (hlt.trans (hs a ha)).ne'
      rw [List.mem_cons]
      exact or_congr_right ⟨fun h => ⟨h, hne r h⟩, fun h => h.1⟩
    · have hne : ∀ a ∈ rows, a.1 ≠ k := by
        intro a ha
        rw [heq]
        exact (hs a ha).ne'
      rw [List.mem_cons, List.mem_cons]
      refine or_congr_right ⟨fun h => ⟨.inr h, hne r h⟩, ?_⟩
      rintro ⟨rfl | h, hk⟩
      · exact absurd heq.symm hk
      · exact h
    · rw [List.mem_cons, ih hrows, List.mem_cons]
      constructor
      · rintro (rfl | rfl | ⟨h, hk⟩)
        · exact .inr ⟨.inl rfl, Ne.symm heq⟩
        · exact .inl rfl
        · exact .inr ⟨.inr h, hk⟩
      · rintro (rfl | ⟨rfl | h, hk⟩)
        · exact .inr (.inl rfl)
        · exact .inl rfl
        · exact .inr (.inr ⟨h, hk⟩)

theorem pairwise_upsert {k : κ} {v : β} {rows : List (κ × β)}
    (hsorted : rows.Pairwise fun a b => a.1 < b.1) :
    (upsert k v rows).Pairwise fun a b => a.1 < b.1 := by
  induction rows with
  | nil => simp [upsert]
  | cons s rows ih =>
    obtain ⟨hs, hrows⟩ := List.pairwise_cons.mp hsorted
    rw [upsert]
    split_ifs with hlt heq
    · refine List.pairwise_cons.mpr ⟨?_, hsorted⟩
      intro a ha
      rcases List.mem_cons.mp ha with rfl | ha
      · exact hlt
      · exact hlt.trans (hs a ha)
    · exact List.pairwise_cons.mpr ⟨fun a ha => heq ▸ hs a ha, hrows⟩
    · refine List.pairwise_cons.mpr ⟨?_, ih hrows⟩
      intro a ha
      rcases (mem_upsert hrows).mp ha with rfl | ⟨ha, -⟩
      · exact lt_of_le_of_ne (not_lt.mp hlt) (Ne.symm heq)
      · exact hs a ha

def insert (t : Table κ β) (k : κ) (v : β) : Table κ β := ⟨upsert k v t.rows, pairwise_upsert t.sorted⟩

def erase (t : Table κ β) (k : κ) : Table κ β := ⟨t.rows.filter (·.1 ≠ k), t.sorted.filter _⟩

/-- The rows from the first key that is not below `k` on. -/
def since (t : Table κ β) (k : κ) : List (κ × β) := t.rows.dropWhile (·.1 < k)

/-- A key has at most one row. -/
theorem eq_of_mem_rows (t : Table κ β) {r s : κ × β} (hr : r ∈ t.rows) (hs : s ∈ t.rows)
    (hkey : r.1 = s.1) : r = s := by
  have hnodup : (t.rows.map Prod.fst).Nodup := List.pairwise_map.mpr (t.sorted.imp fun h => h.ne)
  exact List.inj_on_of_nodup_map hnodup hr hs hkey

theorem find_eq_some {t : Table κ β} {k : κ} {v : β} : t.find k = some v ↔ (k, v) ∈ t.rows := by
  rw [find, Option.map_eq_some_iff]
  constructor
  · rintro ⟨r, hr, rfl⟩
    have hk : r.1 = k := by simpa using List.find?_some hr
    rw [← hk]
    exact List.mem_of_find?_eq_some hr
  · intro h
    obtain ⟨r, hr⟩ := Option.isSome_iff_exists.mp (List.find?_isSome (p := fun r => r.1 = k).mpr
      ⟨(k, v), h, by simp⟩)
    refine ⟨r, hr, ?_⟩
    have hk : r.1 = k := by simpa using List.find?_some hr
    rw [t.eq_of_mem_rows (List.mem_of_find?_eq_some hr) h hk]

theorem mem_insert {t : Table κ β} {k : κ} {v : β} {r : κ × β} :
    r ∈ (t.insert k v).rows ↔ r = (k, v) ∨ (r ∈ t.rows ∧ r.1 ≠ k) :=
  mem_upsert t.sorted

theorem mem_erase {t : Table κ β} {k : κ} {r : κ × β} :
    r ∈ (t.erase k).rows ↔ r ∈ t.rows ∧ r.1 ≠ k := by
  simp [erase]

theorem find_insert {t : Table κ β} {k j : κ} {v : β} :
    (t.insert k v).find j = if j = k then some v else t.find j := by
  apply Option.ext
  intro w
  rw [find_eq_some, mem_insert]
  split_ifs with h
  · simp [h, eq_comm]
  · simp [h, find_eq_some]

theorem find_erase {t : Table κ β} {k j : κ} :
    (t.erase k).find j = if j = k then none else t.find j := by
  apply Option.ext
  intro w
  rw [find_eq_some, mem_erase]
  split_ifs with h
  · simp [h]
  · simp [h, find_eq_some]

/-- The table without the rows of the listed keys. -/
def eraseAll (t : Table κ β) (keys : List κ) : Table κ β := keys.foldl erase t

theorem mem_eraseAll {t : Table κ β} {keys : List κ} {r : κ × β} :
    r ∈ (t.eraseAll keys).rows ↔ r ∈ t.rows ∧ r.1 ∉ keys := by
  induction keys generalizing t with
  | nil => simp [eraseAll]
  | cons k keys ih =>
    have hstep : t.eraseAll (k :: keys) = (t.erase k).eraseAll keys := rfl
    rw [hstep, ih, mem_erase, List.mem_cons, not_or, and_assoc]

theorem find_eraseAll {t : Table κ β} {keys : List κ} {k : κ} :
    (t.eraseAll keys).find k = if k ∈ keys then none else t.find k := by
  apply Option.ext
  intro w
  rw [find_eq_some, mem_eraseAll]
  split_ifs with h
  · simp [h]
  · simp [h, find_eq_some]

theorem mem_since {t : Table κ β} {k : κ} {r : κ × β} :
    r ∈ t.since k ↔ r ∈ t.rows ∧ k ≤ r.1 := by
  obtain ⟨rows, hsorted⟩ := t
  simp only [since]
  induction rows with
  | nil => simp
  | cons s rows ih =>
    obtain ⟨hs, hrows⟩ := List.pairwise_cons.mp hsorted
    rw [List.dropWhile_cons]
    split_ifs with hlt
    · rw [ih hrows, List.mem_cons]
      constructor
      · rintro ⟨h, hk⟩
        exact ⟨.inr h, hk⟩
      · rintro ⟨rfl | h, hk⟩
        · exact absurd (by simpa using hlt) (not_lt.mpr hk)
        · exact ⟨h, hk⟩
    · have hk : k ≤ s.1 := not_lt.mp (by simpa using hlt)
      refine ⟨fun h => ⟨h, ?_⟩, fun h => h.1⟩
      rcases List.mem_cons.mp h with rfl | h
      · exact hk
      · exact hk.trans (hs r h).le

theorem pairwise_since (t : Table κ β) (k : κ) : (t.since k).Pairwise fun a b => a.1 < b.1 :=
  t.sorted.sublist (List.dropWhile_sublist _)

end Table

/-- Strings of one length are ordered as the numbers they write. -/
theorem bytes_lt_iff {a b : Bytes} (h : a.length = b.length) : a < b ↔ beNat a < beNat b := by
  induction a generalizing b with
  | nil =>
    obtain rfl := List.length_eq_zero_iff.mp h.symm
    simp
  | cons x a ih =>
    obtain ⟨y, b, rfl⟩ := List.exists_cons_of_length_eq_add_one h.symm
    have hlen : a.length = b.length := by simpa using h
    have ha := beNat_lt a
    have hb := beNat_lt b
    rw [hlen] at ha
    rw [List.cons_lt_cons_iff, ih hlen, beNat_cons, beNat_cons, hlen, UInt8.lt_iff_toNat_lt]
    constructor
    · rintro (hxy | ⟨rfl, hab⟩)
      · have hstep : (x.toNat + 1) * 256 ^ b.length ≤ y.toNat * 256 ^ b.length :=
          Nat.mul_le_mul_right _ hxy
        rw [Nat.add_mul, Nat.one_mul] at hstep
        omega
      · omega
    · intro hlt
      by_cases hxy : x.toNat < y.toNat
      · exact .inl hxy
      · right
        have hle : y.toNat ≤ x.toNat := not_lt.mp hxy
        rcases hle.eq_or_lt with heq | hgt
        · exact ⟨UInt8.toNat.inj heq.symm, by rw [heq] at hlt; omega⟩
        · have hstep : (y.toNat + 1) * 256 ^ b.length ≤ x.toNat * 256 ^ b.length :=
            Nat.mul_le_mul_right _ hgt
          rw [Nat.add_mul, Nat.one_mul] at hstep
          omega

/-- A longer string compared with a shorter one: the first bytes decide unless they agree. -/
theorem append_lt_append_iff {a b c d : Bytes} (h : a.length = b.length) :
    a ++ c < b ++ d ↔ a < b ∨ (a = b ∧ c < d) := by
  induction a generalizing b with
  | nil =>
    obtain rfl := List.length_eq_zero_iff.mp h.symm
    simp
  | cons x a ih =>
    obtain ⟨y, b, rfl⟩ := List.exists_cons_of_length_eq_add_one h.symm
    have hlen : a.length = b.length := by simpa using h
    simp only [List.cons_append, List.cons_lt_cons_iff, ih hlen, List.cons.injEq]
    tauto

end Ureth.Foundation
