import Ureth.Foundation.Triple
import Ureth.Source.Payload.TokensSpec

/-!
# A token store with room

Which entries stay when blocks at or below a head are inserted, leased, pinned and admitted.
Eviction takes the lowest evictable number, so an entry above the head goes only when every
entry at or below it is pinned or protected; with enough capacity for the pinned ones that
never happens.
-/

namespace Ureth.Source.Payload
open Ureth.Foundation Ureth.Source.Execution Ureth.Source.Store

namespace ParentAccountingInner

/-- The pins of a hash; none if it has no entry. -/
def pinsOf (inner : ParentAccountingInner) (hash : Bytes32) : Nat :=
  ((inner.find hash).map ParentAccountingEntry.pins).getD 0

/-- The entries above `head`. -/
def above (inner : ParentAccountingInner) (head : UInt64) : List ParentAccountingEntry :=
  inner.tokens.filter fun e => head < e.number

/-- The pinned entries at or below `head`. -/
def pinnedThrough (inner : ParentAccountingInner) (head : UInt64) : List ParentAccountingEntry :=
  inner.tokens.filter fun e => e.number ≤ head ∧ 0 < e.pins

/-- Room beside the entries above the head and the pinned ones for the block being restored, the
protected one and one pin of the caller's own. -/
def Roomy (inner : ParentAccountingInner) (head : UInt64) : Prop :=
  (inner.above head).length + (inner.pinnedThrough head).length + 3 ≤ inner.capacity

instance (inner : ParentAccountingInner) (head : UInt64) : Decidable (inner.Roomy head) :=
  inferInstanceAs (Decidable (_ ≤ _))

/-- The store has developed from `start` by work at or below `head`, with the pins of `out` taken
and not dropped. -/
structure Steady (start : ParentAccountingInner) (head : UInt64) (out : List Bytes32)
    (inner : ParentAccountingInner) : Prop where
  distinct : inner.Distinct
  capacity : inner.capacity = start.capacity
  pins : ∀ h e, inner.find h = some e → e.pins = start.pinsOf h + out.count h
  held : ∀ h, 0 < start.pinsOf h + out.count h → ∃ e, inner.find h = some e
  above : ∀ h e, inner.find h = some e → head < e.number →
    ∃ e0, start.find h = some e0 ∧ head < e0.number
  kept : ∀ h e0, start.find h = some e0 → head < e0.number →
    ∃ e, inner.find h = some e ∧ head < e.number ∧ (e0.admitted = true → e.admitted = true)

variable {start inner inner' : ParentAccountingInner} {head : UInt64} {out : List Bytes32}
  {hash : Bytes32}

/-- With room, some entry at or below the head can be evicted. -/
theorem Steady.exists_low (h : start.Steady head out inner) (hroom : start.Roomy head)
    (hout : out.length ≤ 1) (hfull : inner.capacity ≤ inner.tokens.length) :
    ∃ x ∈ inner.tokens, inner.Evictable x ∧ x.number ≤ head := by
  by_contra hnone
  have hblocked : ∀ x ∈ inner.tokens, x.number ≤ head → ¬ inner.Evictable x := by
    intro x hx hle hev
    exact hnone ⟨x, hx, hev, hle⟩
  -- every hash of the store is one of those that may not be evicted
  have hsub : inner.tokens.map ParentAccountingEntry.hash ⊆
      (start.above head).map ParentAccountingEntry.hash ++
        (start.pinnedThrough head).map ParentAccountingEntry.hash ++ out ++
        inner.protectedHash.toList := by
    intro g hg
    obtain ⟨x, hx, rfl⟩ := List.mem_map.mp hg
    have hfind := h.distinct.find_of_mem hx
    simp only [List.mem_append, List.mem_map, Option.mem_toList]
    by_cases hlow : x.number ≤ head
    · by_cases hpins : x.pins = 0
      · have hprot : inner.protectedHash = some x.hash := by
          by_contra hne
          exact hblocked x hx hlow ⟨hpins, hne⟩
        exact .inr hprot
      · have hpos := h.pins _ _ hfind
        by_cases hmem : x.hash ∈ out
        · exact .inl (.inr hmem)
        · rw [List.count_eq_zero_of_not_mem hmem, Nat.add_zero] at hpos
          cases hstart : start.find x.hash with
          | none => simp [pinsOf, hstart] at hpos; omega
          | some e0 =>
            have hpinned : 0 < e0.pins := by
              simp [pinsOf, hstart] at hpos
              omega
            refine .inl (.inl (.inr ⟨e0, ?_, hash_of_find hstart⟩))
            refine List.mem_filter.mpr ⟨mem_of_find hstart, ?_⟩
            have hle : e0.number ≤ head := by
              by_contra hlt
              obtain ⟨e, he, hgt, -⟩ := h.kept _ _ hstart (UInt64.not_le.mp hlt)
              obtain rfl := Option.some.inj (he.symm.trans hfind)
              exact UInt64.not_le.mpr hgt hlow
            simp [hle, hpinned]
    · obtain ⟨e0, he0, hgt⟩ := h.above _ _ hfind (UInt64.not_le.mp hlow)
      exact .inl (.inl (.inl ⟨e0, List.mem_filter.mpr ⟨mem_of_find he0, by simpa using hgt⟩,
        hash_of_find he0⟩))
  have hlen := (List.Nodup.subperm h.distinct hsub).length_le
  have hprot : inner.protectedHash.toList.length ≤ 1 := by
    cases inner.protectedHash <;> simp
  simp only [List.length_append, List.length_map] at hlen
  have hcap := h.capacity
  unfold Roomy at hroom
  omega

theorem Steady.evictLowest (h : start.Steady head out inner) (hroom : start.Roomy head)
    (hout : out.length ≤ 1) (hfull : inner.capacity ≤ inner.tokens.length)
    (hevict : inner.evictLowest = some inner') : start.Steady head out inner' := by
  have hshrinks := evictLowest_shrinks hevict
  obtain ⟨pre, e, post, hv, rfl⟩ := evictLowest_some hevict
  obtain ⟨x, hx, hxev, hxle⟩ := h.exists_low hroom hout hfull
  have hlow : e.number ≤ head := UInt64.le_trans (hv.lowest hx hxev) hxle
  have hmem : e ∈ inner.tokens := by rw [hv.split]; simp
  have hfind := h.distinct.find_of_mem hmem
  -- everything but the victim is still found
  have hstays : ∀ g x, inner.find g = some x → g ≠ e.hash →
      ({ inner with tokens := pre ++ post } : ParentAccountingInner).find g = some x := by
    intro g x hg hne
    have hx := mem_of_find hg
    rw [hv.split, List.mem_append, List.mem_cons] at hx
    have hx' : x ∈ pre ++ post := by
      rcases hx with hx | rfl | hx
      · exact List.mem_append_left _ hx
      · exact absurd (hash_of_find hg).symm hne
      · exact List.mem_append_right _ hx
    rw [← hash_of_find hg]
    exact (hshrinks.distinct h.distinct).find_of_mem hx'
  refine ⟨hshrinks.distinct h.distinct, h.capacity, ?_, ?_, ?_, ?_⟩
  · intro g x hg
    exact h.pins g x (hshrinks.find h.distinct hg)
  · intro g hpos
    obtain ⟨x, hg⟩ := h.held g hpos
    refine ⟨x, hstays g x hg ?_⟩
    rintro rfl
    obtain rfl := Option.some.inj (hg.symm.trans hfind)
    have hpins := h.pins _ _ hg
    rw [hv.evictable.1] at hpins
    omega
  · intro g x hg hlt
    exact h.above g x (hshrinks.find h.distinct hg) hlt
  · intro g x0 hg hlt
    obtain ⟨x, hx, hgt, hadmitted⟩ := h.kept g x0 hg hlt
    refine ⟨x, hstays g x hx ?_, hgt, hadmitted⟩
    rintro rfl
    obtain rfl := Option.some.inj (hx.symm.trans hfind)
    exact UInt64.not_le.mpr hgt hlow

theorem Steady.evictToCapacity (h : start.Steady head out inner) (hroom : start.Roomy head)
    (hout : out.length ≤ 1) (fuel : Nat) : start.Steady head out (evictToCapacity fuel inner) := by
  induction fuel generalizing inner with
  | zero => exact h
  | succ fuel ih =>
    unfold ParentAccountingInner.evictToCapacity
    split
    next hfull =>
      split
      next inner' hevict => exact ih (h.evictLowest hroom hout (by omega) hevict)
      next => exact h
    next => exact h

theorem Steady.room (h : start.Steady head out inner) (hroom : start.Roomy head)
    (hout : out.length ≤ 1) : start.Steady head out inner.room := by
  unfold ParentAccountingInner.room
  split
  next hfull =>
    cases hevict : inner.evictLowest with
    | none => exact h
    | some inner' => exact h.evictLowest hroom hout hfull hevict
  next => exact h

/-! ## Work at or below the head -/

/-- A change of one entry that keeps its number and its admission. -/
theorem Steady.update {out' : List Bytes32} {f : ParentAccountingEntry → ParentAccountingEntry}
    (h : start.Steady head out inner) (hf : ∀ e, (f e).hash = e.hash)
    (hnumber : ∀ e, head < (f e).number ↔ head < e.number)
    (hadmitted : ∀ e, e.admitted = true → (f e).admitted = true)
    (hpins : ∀ e, inner.find hash = some e → (f e).pins = start.pinsOf hash + out'.count hash)
    (hout : ∀ g, g ≠ hash → out'.count g = out.count g)
    (hfound : ∃ e, inner.find hash = some e) : start.Steady head out' (inner.update hash f) := by
  refine ⟨h.distinct.update hf, h.capacity, ?_, ?_, ?_, ?_⟩
  · intro g e hg
    rw [find_update hf] at hg
    split at hg
    next heq =>
      obtain ⟨old, hold, rfl⟩ := Option.map_eq_some_iff.mp hg
      rw [heq]
      exact hpins old hold
    next hne =>
      rw [hout g hne]
      exact h.pins g e hg
  · intro g hpos
    rw [find_update hf]
    split
    next heq =>
      obtain ⟨e, he⟩ := hfound
      exact ⟨f e, by rw [he]; rfl⟩
    next hne =>
      rw [hout g hne] at hpos
      exact h.held g hpos
  · intro g e hg hlt
    obtain ⟨old, hold, rfl | ⟨-, rfl⟩⟩ := find_of_update hg hf
    · exact h.above g e hold hlt
    · exact h.above g old hold ((hnumber old).mp hlt)
  · intro g e0 hg hlt
    obtain ⟨e, he, hgt, hadm⟩ := h.kept g e0 hg hlt
    rw [find_update hf]
    split
    next heq =>
      subst heq
      exact ⟨f e, by rw [he]; rfl, (hnumber e).mpr hgt, fun h0 => hadmitted e (hadm h0)⟩
    next hne => exact ⟨e, he, hgt, hadm⟩

variable {number : UInt64} {token : CompletedParent} {identity : Option Identity} {admitted : Bool}

theorem Steady.insertInner (h : start.Steady head out inner) (hroom : start.Roomy head)
    (hout : out.length ≤ 1) (hle : number ≤ head) :
    start.Steady head out (inner.insertInner hash number token identity admitted) := by
  cases hfind : inner.find hash with
  | some e =>
    rw [insertInner_of_some hfind]
    refine h.update hash_refresh ?_ ?_ ?_ (fun _ _ => rfl) ⟨e, hfind⟩
    · intro e
      unfold refresh
      split
      · rfl
      · simp only [UInt64.lt_iff_toNat_lt, toNat_max]
        rw [UInt64.le_iff_toNat_le] at hle
        omega
    · intro e hadm
      unfold refresh
      split
      · exact hadm
      · simp [hadm]
    · intro e he
      rw [← h.pins hash e he]
      unfold refresh
      split <;> rfl
  | none =>
    rw [insertInner_of_none hfind]
    have hs := h.room hroom hout
    have hroomNone := (room_shrinks inner).find_none hfind
    have hzero : start.pinsOf hash + out.count hash = 0 := by
      by_contra hpos
      obtain ⟨e, he⟩ := h.held hash (by omega)
      rw [hfind] at he
      cases he
    have hfound (g : Bytes32) :
        ({ inner.room with tokens := inner.room.tokens ++ [⟨hash, number, token, identity, 0, admitted⟩] } :
          ParentAccountingInner).find g =
          if g = hash then some ⟨hash, number, token, identity, 0, admitted⟩ else inner.room.find g := by
      split
      next heq =>
        subst heq
        have hnone : findKey ParentAccountingEntry.hash g inner.room.tokens = none := hroomNone
        simp [find, findKey_append, hnone, findKey_cons]
      next hne => simp [find, findKey_append, findKey_cons, Ne.symm hne]
    refine ⟨?_, hs.capacity, ?_, ?_, ?_, ?_⟩
    · rw [← insertInner_of_none hfind]
      exact h.distinct.insertInner
    · intro g e hg
      rw [hfound] at hg
      split at hg
      next heq =>
        obtain rfl := Option.some.inj hg
        rw [heq, hzero]
      next => exact hs.pins g e hg
    · intro g hpos
      rw [hfound]
      split
      · exact ⟨_, rfl⟩
      · exact hs.held g hpos
    · intro g e hg hlt
      rw [hfound] at hg
      split at hg
      next =>
        obtain rfl := Option.some.inj hg
        exact absurd hle (UInt64.not_le.mpr hlt)
      next => exact hs.above g e hg hlt
    · intro g e0 hg hlt
      obtain ⟨e, he, hgt, hadm⟩ := hs.kept g e0 hg hlt
      refine ⟨e, ?_, hgt, hadm⟩
      rw [hfound, if_neg ?_]
      · exact he
      · rintro rfl
        rw [hroomNone] at he
        cases he

theorem Steady.protect (h : start.Steady head out inner) (p : Option Bytes32) :
    start.Steady head out { inner with protectedHash := p } :=
  ⟨h.distinct, h.capacity, h.pins, h.held, h.above, h.kept⟩

theorem Steady.pin (h : start.Steady head out inner) (hfound : ∃ e, inner.find hash = some e) :
    start.Steady head (hash :: out)
      (inner.update hash fun entry => { entry with pins := entry.pins + 1 }) := by
  refine h.update (fun _ => rfl) (fun _ => Iff.rfl) (fun _ hadm => hadm) ?_ ?_ hfound
  · intro e he
    have hpins := h.pins hash e he
    simp only [List.count_cons_self]
    omega
  · intro g hne
    exact List.count_cons_of_ne (Ne.symm hne)

theorem Steady.admitToken (h : start.Steady head out inner) (hash : Bytes32) :
    start.Steady head out (inner.admitToken hash).2 := by
  unfold ParentAccountingInner.admitToken
  cases hfind : inner.find hash with
  | none => exact h
  | some e =>
    have hs : start.Steady head out (inner.update hash fun entry => { entry with admitted := true }) :=
      h.update (fun _ => rfl) (fun _ => Iff.rfl) (fun _ _ => rfl) (fun e he => h.pins hash e he)
        (fun _ _ => rfl) ⟨e, hfind⟩
    exact hs.protect _

theorem Steady.unpin {ε : Type} (h : start.Steady head [hash] inner) (hroom : start.Roomy head) :
    ∃ inner', (inner.unpin hash : Res ε _) = .ok inner' ∧ start.Steady head [] inner' := by
  obtain ⟨e, he⟩ := h.held hash (by simp)
  have hpins := h.pins hash e he
  simp only [List.count_singleton_self] at hpins
  have hsub : (Res.sub e.pins 1 : Res ε Nat) = .ok (e.pins - 1) := Res.sub_eq_ok.mpr ⟨by omega, rfl⟩
  have hrelease : (inner.release hash : Res ε _) =
      .ok (inner.update hash fun x => { x with pins := e.pins - 1 }) := by
    unfold ParentAccountingInner.release
    rw [he]
    simp only [hsub, Res.bind_ok, Res.pure_eq_ok]
  refine ⟨_, by simp only [ParentAccountingInner.unpin, hrelease, Res.bind_ok, Res.pure_eq_ok]; rfl, ?_⟩
  refine Steady.evictToCapacity ?_ hroom (by simp) _
  refine h.update (fun _ => rfl) (fun _ => Iff.rfl) (fun _ hadm => hadm) ?_ ?_ ⟨e, he⟩
  · intro x _
    simp only [List.count_nil]
    omega
  · intro g hne
    simp [Ne.symm hne]

end ParentAccountingInner

end Ureth.Source.Payload
