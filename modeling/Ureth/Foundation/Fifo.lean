import Mathlib.Data.List.DropRight
import Ureth.Foundation.Keyed

/-!
# A bounded queue of keyed entries

An entry is appended unless its key is held; in a full queue the earliest entry makes room.
Seen from the log of everything ever appended, the queue holds the last entries of the log.
-/

namespace Ureth.Foundation

structure Fifo (α : Type) where
  entries : List α
  capacity : Nat
  capacity_pos : 0 < capacity

namespace Fifo

variable {α κ : Type} {key : α → κ} {q : Fifo α} {x : α} {log : List α}

def pushBack (q : Fifo α) (x : α) : Fifo α :=
  { q with entries := (if q.capacity ≤ q.entries.length then q.entries.tail else q.entries) ++ [x] }

theorem mem_pushBack {a : α} (h : a ∈ (q.pushBack x).entries) : a ∈ q.entries ∨ a = x := by
  rcases List.mem_append.mp h with h | h
  · split at h
    · exact .inl (List.mem_of_mem_tail h)
    · exact .inl h
  · exact .inr (List.mem_singleton.mp h)

/-- The queue holds the last entries of the log, with distinct keys. -/
structure Recent (key : α → κ) (q : Fifo α) (log : List α) : Prop where
  entries : q.entries = log.rtake q.capacity
  distinct : (q.entries.map key).Nodup

theorem Recent.of_empty (capacity : Nat) (hpos : 0 < capacity) : Recent key ⟨[], capacity, hpos⟩ [] :=
  ⟨by simp [List.rtake], List.nodup_nil⟩

theorem Recent.length_le (h : Recent key q log) : q.entries.length ≤ q.capacity := by
  rw [h.entries, List.rtake, List.length_drop]
  omega

variable [DecidableEq κ]

/-- Appends `x` unless an entry of its key is held. -/
def enroll (key : α → κ) (q : Fifo α) (x : α) : Fifo α :=
  if findKey key (key x) q.entries = none then q.pushBack x else q

/-- The entries that offering `xs` in order appends. -/
def appended (key : α → κ) : Fifo α → List α → List α
  | _, [] => []
  | q, x :: xs =>
    (if findKey key (key x) q.entries = none then [x] else []) ++ appended key (q.enroll key x) xs

theorem capacity_enroll : (q.enroll key x).capacity = q.capacity := by
  unfold enroll
  split <;> rfl

theorem capacity_foldl_enroll (xs : List α) : (xs.foldl (enroll key) q).capacity = q.capacity := by
  induction xs generalizing q with
  | nil => rfl
  | cons x xs ih => exact ih.trans capacity_enroll

/-- Making room takes the log's last entries, one less than the capacity. -/
theorem entries_pushBack (h : q.entries = log.rtake q.capacity) :
    (q.pushBack x).entries = (log ++ [x]).rtake q.capacity := by
  obtain ⟨n, hn⟩ := Nat.exists_eq_add_of_lt q.capacity_pos
  rw [Nat.zero_add] at hn
  have hroom : (if q.capacity ≤ q.entries.length then q.entries.tail else q.entries) = log.rtake n := by
    rw [h, hn]
    simp only [List.rtake, List.length_drop, List.tail_drop]
    split
    · congr 1
      omega
    · congr 1
      omega
  calc (q.pushBack x).entries = log.rtake n ++ [x] := congrArg (· ++ [x]) hroom
    _ = (log ++ [x]).rtake (n + 1) := (List.rtake_concat_succ ..).symm
    _ = (log ++ [x]).rtake q.capacity := by rw [hn]

namespace Recent

theorem pushBack (h : Recent key q log) (hnew : findKey key (key x) q.entries = none) :
    Recent key (q.pushBack x) (log ++ [x]) := by
  refine ⟨entries_pushBack h.entries, ?_⟩
  have hsub : (if q.capacity ≤ q.entries.length then q.entries.tail else q.entries).Sublist q.entries := by
    split
    · exact List.tail_sublist _
    · exact List.Sublist.refl _
  rw [Fifo.pushBack, List.map_append, List.map_singleton, ← List.concat_eq_append, List.nodup_concat]
  refine ⟨?_, h.distinct.sublist (hsub.map key)⟩
  intro hmem
  obtain ⟨a, ha, hkey⟩ := List.mem_map.mp hmem
  exact findKey_eq_none.mp hnew a (hsub.subset ha) hkey

theorem enroll (h : Recent key q log) :
    Recent key (q.enroll key x) (log ++ if findKey key (key x) q.entries = none then [x] else []) := by
  unfold Fifo.enroll
  split
  · exact h.pushBack ‹_›
  · rwa [List.append_nil]

/-- What a run of offers keeps: the queue follows the log of what they appended. -/
theorem foldl_enroll (h : Recent key q log) (xs : List α) :
    Recent key (xs.foldl (Fifo.enroll key) q) (log ++ appended key q xs) := by
  induction xs generalizing q log with
  | nil => simpa [appended] using h
  | cons x xs ih =>
    have hstep := ih (h.enroll (x := x))
    rwa [List.append_assoc] at hstep

/-- An entry that fewer than `capacity` others have followed is the one its key finds. -/
theorem findKey_of_recent (h : Recent key q log) {i : Nat} (hi : log[i]? = some x)
    (hrecent : log.length ≤ i + q.capacity) : findKey key (key x) q.entries = some x := by
  refine findKey_of_mem h.distinct ?_
  rw [h.entries, List.rtake]
  refine List.mem_of_getElem? (i := i - (log.length - q.capacity)) ?_
  rw [List.getElem?_drop, ← hi]
  congr 1
  omega

end Recent

end Fifo

end Ureth.Foundation
