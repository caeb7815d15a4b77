import Ureth.Guarantees.Retention
import Ureth.Source.Store.StoreRun

/-!
# The companion store is a shelf

After any sequence of calls, MDBX failures included, the store shows exactly what the shelf holds
after the same calls: the number indexes, the three answers of a lookup, the ranges in order. What a
shelf holds under a hash has been there since it was put. Published numbers never move back, and
the companions and the accounting never change each other.
-/

namespace Ureth.Guarantees
open Ureth.Foundation Ureth.Source.Execution Ureth.Source.Store

/-- What a reader sees of a store that represents the shelf. -/
structure Shows (s : CompanionStore) (a : Shelf) : Prop where
  index : ∀ key, (key, ()) ∈ s.byNumber.rows ↔ ∃ n h, key = indexKey n h ∧
    ∃ value, s.companions.find h.val = some value ∧ storedNumber value.val = .ok n
  accountingIndex : ∀ key, (key, ()) ∈ s.accountingByNumber.rows ↔ ∃ record : StoredAccounting, ∃ h : Bytes32,
    key = indexKey record.blockNumber h ∧ s.accounting.find h.val = some (encodeAccounting record)
  stored : ∀ h n c, a.companions h = some (n, c) → ∃ value record, s.companions.find h.val = some value ∧
    encode c = .ok record ∧ value.val = be64 n ++ record.val
  get : ∀ h, CompanionStore.get h s = .ok (match a.companions h, a.horizon with
    | some (_, c), _ => .found c
    | none, some horizon => .unavailable horizon
    | none, none => .unknown)
  getAccounting : ∀ h, CompanionStore.getAccounting h s = .ok (a.accounting h)
  horizon : CompanionStore.horizon s = .ok a.horizon
  cursor : CompanionStore.evictionCursor s = .ok a.cursor
  range : ∀ lower upper, ∃ entries, CompanionStore.entriesInRange lower upper s = .ok entries ∧
    (∀ h n, (h, n) ∈ entries ↔ (∃ c, a.companions h = some (n, c)) ∧ lower ≤ n ∧ n < upper) ∧
    entries.Pairwise fun x y => x.2 < y.2 ∨ x.2 = y.2 ∧ x.1.val < y.1.val

section

variable {s : CompanionStore} {a b : Shelf}

theorem lookup_eq (a : Shelf) (hash : Bytes32) : a.lookup hash = (match a.companions hash, a.horizon with
    | some (_, c), _ => .found c
    | none, some horizon => .unavailable horizon
    | none, none => .unknown) := by
  unfold Shelf.lookup
  rcases a.companions hash with _ | ⟨n, c⟩
  · cases a.horizon <;> rfl
  · rfl

theorem shows_of_represents (h : Represents s a) : Shows s a where
  index key := by
    rw [h.companions.index]
    constructor
    · rintro ⟨hash, ⟨n, c⟩, hc, rfl⟩
      exact ⟨n, hash, rfl, (Source.Payload.holdsAt_iff h).mpr ⟨c, hc⟩⟩
    · rintro ⟨n, hash, rfl, hvalue⟩
      obtain ⟨c, hc⟩ := (Source.Payload.holdsAt_iff h).mp hvalue
      exact ⟨hash, (n, c), hc, rfl⟩
  accountingIndex key := by
    rw [h.accounting.index]
    constructor
    · rintro ⟨hash, record, hr, rfl⟩
      exact ⟨record, hash, rfl, by rw [h.accounting.record, hr, Option.map_some]⟩
    · rintro ⟨record, hash, rfl, hfind⟩
      rw [h.accounting.record, Option.map_eq_some_iff] at hfind
      obtain ⟨old, hold, hencode⟩ := hfind
      have hsame := decodeAccounting_encodeAccounting old
      rw [hencode, decodeAccounting_encodeAccounting, Except.ok.injEq] at hsame
      exact ⟨hash, old, hold, by rw [hsame]⟩
  stored hash n c hc := by
    obtain ⟨value, hfind, record, hencode, hvalue⟩ := h.companions.present hash (n, c) hc
    exact ⟨value, record, hfind, hencode, hvalue⟩
  get hash := by rw [h.get, lookup_eq]
  getAccounting := h.getAccounting
  horizon := h.numbers.readHorizon
  cursor := h.numbers.readCursor
  range lower upper := by
    obtain ⟨entries, hentries, hmem, horder⟩ := h.entriesInRange lower upper
    exact ⟨entries, hentries, hmem, horder.imp fun hlt => indexKey_lt_iff.mp hlt⟩

/-- The event puts the companion on the shelf. -/
def Puts (hash : Bytes32) (n : UInt64) (c : SealCompanion) (event : StoreEvent) : Prop :=
  event = .done (.put hash n c) ∨ event = .unsynced (.put hash n c)

theorem shelved_before {op : StoreOp} {hash : Bytes32} {n : UInt64} {c : SealCompanion}
    (h : (op.effect a).companions hash = some (n, c)) :
    a.companions hash = some (n, c) ∨ op = .put hash n c := by
  cases op with
  | put g m d =>
    by_cases hg : hash = g
    · subst hg
      simp only [StoreOp.effect, Shelf.put, Function.update_self, Option.some.injEq, Prod.mk.injEq] at h
      obtain ⟨rfl, rfl⟩ := h
      exact .inr rfl
    · simp only [StoreOp.effect, Shelf.put, Function.update_of_ne hg] at h
      exact .inl h
  | remove g =>
    by_cases hg : hash = g
    · subst hg
      simp only [StoreOp.effect, Shelf.remove, Function.update_self, reduceCtorEq] at h
    · simp only [StoreOp.effect, Shelf.remove, Function.update_of_ne hg] at h
      exact .inl h
  | pruneBelow m => exact .inl (Option.filter_eq_some_iff.mp h).1
  | setHorizon m => exact .inl h
  | setEvictionCursor m => exact .inl h
  | putAccounting record => exact .inl h
  | pruneAccountingBelow m => exact .inl h

/-- What a run has on the shelf has been there since it was put. -/
theorem since_put {events : List StoreEvent} (hrun : Steps ShelfStep .empty events a) {hash : Bytes32}
    {n : UInt64} {c : SealCompanion} (hc : a.companions hash = some (n, c)) :
    Since ShelfStep (fun _ event _ => Puts hash n c event) (fun b => b.companions hash = some (n, c))
      .empty events a := by
  refine Steps.since (I := fun _ => True) (P := fun b => b.companions hash = some (n, c))
    (fun _ _ _ _ _ => trivial) (fun _ h => h) ?_ hrun trivial (by simp [Shelf.empty]) hc
  intro t event u _ hstep hu
  cases hstep with
  | done allowed =>
    rcases shelved_before hu with h | rfl
    · exact .inl h
    · exact .inr (.inl rfl)
  | refused => exact .inl hu
  | aborted => exact .inl hu
  | unsynced allowed =>
    rcases shelved_before hu with h | rfl
    · exact .inl h
    · exact .inr (.inr rfl)

end

/-- Every run of the store is a run of the shelf, and every reader sees the shelf. -/
theorem companion_store_refinement {events : List StoreEvent} {s : CompanionStore}
    (hrun : Steps StoreStep .fresh events s) :
    ∃ a, Steps ShelfStep .empty events a ∧ Shows s a ∧
      -- what is on the shelf was the last put under its hash
      (∀ h n c, a.companions h = some (n, c) →
        Since ShelfStep (fun _ event _ => Puts h n c event) (fun b => b.companions h = some (n, c))
          .empty events a) ∧
      -- pruning removes what is below the bound and raises the horizon
      (∀ n, ∃ t, CompanionStore.pruneBelow n s = (.ok (), t) ∧
        Shows t { a with companions := fun h => (a.companions h).filter fun e => n ≤ e.1
                         horizon := some (a.horizon.elim n fun old => max old n) }) ∧
      -- a conflicting record fails and changes nothing
      (∀ record old, a.accounting record.accounting.blockHash = some old → old ≠ record →
        CompanionStore.putAccounting record s =
          (.error (.error (.corrupt "conflicting accounting for block hash")), s)) ∧
      -- published numbers never move back, however the run goes on
      (∀ more t, Steps StoreStep s more t → ∃ b, Steps ShelfStep a more b ∧ Shows t b ∧
        NoLower a.horizon b.horizon ∧ NoLower a.cursor b.cursor) ∧
      -- companions and accounting are apart
      (∀ event t, StoreStep s event t →
        (event.op.onAccounting = false →
          t.accounting = s.accounting ∧ t.accountingByNumber = s.accountingByNumber) ∧
        (event.op.onAccounting = true →
          t.companions = s.companions ∧ t.byNumber = s.byNumber ∧ t.metadata = s.metadata)) := by
  obtain ⟨a, hsteps, hrep⟩ := represents_fresh.steps hrun
  refine ⟨a, hsteps, shows_of_represents hrep, fun h n c hc => since_put hsteps hc, ?_, ?_, ?_, ?_⟩
  · intro n
    obtain ⟨t, ht, hrep'⟩ := hrep.pruneBelow n
    refine ⟨t, ht, ?_⟩
    have hraised : CompanionStore.raised a.horizon n = a.horizon.elim n fun old => max old n := by
      cases a.horizon <;> rfl
    rw [← hraised]
    exact shows_of_represents hrep'
  · intro record old hold hne
    exact hrep.putAccounting_conflict hold hne
  · intro more t hmore
    obtain ⟨b, hmoreSteps, hrep'⟩ := hrep.steps hmore
    exact ⟨b, hmoreSteps, shows_of_represents hrep', ShelfSteps.noLower hmoreSteps⟩
  · intro event t hstep
    exact hstep.frame

theorem companion_store_refinement_pruned :
    ∃ s t, Steps StoreStep .fresh [.done (.put (ownHash 1) 1 blankCompanion)] s ∧
      CompanionStore.get (ownHash 1) s = .ok (.found blankCompanion) ∧
      CompanionStore.pruneBelow 2 s = (.ok (), t) ∧
      CompanionStore.get (ownHash 1) t = .ok (.unavailable 2) := by
  obtain ⟨s, hput, -⟩ := put_blankCompanion represents_fresh (ownHash 1) 1
  have hrun : Steps StoreStep .fresh [.done (.put (ownHash 1) 1 blankCompanion)] s := .single (.done hput)
  obtain ⟨a, hsteps, hshows, -, hprune, -⟩ := companion_store_refinement hrun
  obtain ⟨_, hnil, hlast⟩ := Steps.snoc_iff.mp (show Steps ShelfStep .empty ([] ++ [_]) a from hsteps)
  obtain rfl := Steps.nil_iff.mp hnil
  cases hlast with
  | done allowed =>
    obtain ⟨t, ht, hafter⟩ := hprune 2
    refine ⟨s, t, hrun, (hshows.get _).trans ?_, ht, (hafter.get _).trans ?_⟩
    · simp [StoreOp.effect, Shelf.put]
    · simp [StoreOp.effect, Shelf.put, Shelf.empty, Option.filter]

end Ureth.Guarantees
