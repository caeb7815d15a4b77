import Ureth.Source.Payload.Prune

/-!
# What retention keeps

A pass without a block stored meanwhile only drops companions that are not canonical, and
pruning drops what lies below its bound. Over interleaved runs, a pass leaves nothing that
is not canonical below its end as long as nothing of the kind is stored behind it.
-/

namespace Ureth.Source.Payload
open Ureth.Foundation Ureth.Source.Execution Ureth.Source.Store

/-- The entries a pass has still to ask about or to drop. -/
def Phase.pending : Phase → List (Bytes32 × UInt64)
  | .idle => []
  | .scanning scan => scan.rest
  | .dropping hash number scan => (hash, number) :: scan.rest

section Quiet

variable {canon : UInt64 → Bytes32}

/-- The shelf after an eviction: some companions that are not canonical are gone. -/
structure Evicted (canon : UInt64 → Bytes32) (a b : Shelf) : Prop where
  accounting : b.accounting = a.accounting
  kept : ∀ h e, a.companions h = some e → h = canon e.1 → b.companions h = some e
  nothingNew : ∀ h e, b.companions h = some e → a.companions h = some e

theorem Evicted.refl (a : Shelf) : Evicted canon a a :=
  ⟨rfl, fun _ _ h _ => h, fun _ _ h => h⟩

theorem Evicted.remove {a b : Shelf} (h : Evicted canon a b) {hash : Bytes32}
    (hforeign : ∀ e, b.companions hash = some e → hash ≠ canon e.1) :
    Evicted canon a (b.remove hash) where
  accounting := h.accounting
  kept g e he hcanon := by
    have hbe := h.kept g e he hcanon
    have hne : g ≠ hash := by
      rintro rfl
      exact hforeign e hbe hcanon
    simpa [Shelf.remove, hne] using hbe
  nothingNew g e he := by
    by_cases hg : g = hash
    · simp [Shelf.remove, hg] at he
    · exact h.nothingNew g e (by simpa [Shelf.remove, hg] using he)

/-- A pass from shelf `a` under way without a block stored meanwhile: the entries it has listed
are those of the shelf, and the one it is about to drop is not canonical. -/
structure QuietAt (canon : UInt64 → Bytes32) (a : Shelf) (st : EvictionState) (b : Shelf) : Prop where
  represents : Represents st.store b
  evicted : Evicted canon a b
  listed : ∀ x ∈ st.phase.pending, ∀ e, b.companions x.1 = some e → e.1 = x.2
  foreign : ∀ h n scan, st.phase = .dropping h n scan → canon n ≠ h

theorem QuietStep.quietAt {a b : Shelf} {st st' : EvictionState} {label : EvictionLabel}
    (hstep : QuietStep canon st label st') (hst : QuietAt canon a st b) :
    ∃ b', QuietAt canon a st' b' := by
  obtain ⟨hstep, hquiet⟩ := hstep
  obtain ⟨hrep, hevicted, hlisted, hforeign⟩ := hst
  cases hstep with
  | put => exact absurd rfl (hquiet _ _ _)
  | skipped => exact ⟨b, hrep, hevicted, by simp [Phase.pending], by simp⟩
  | @begun s cursor f entries read below listed =>
    obtain ⟨entries', hentries', hmem, -⟩ := hrep.entriesInRange (cursor.getD 0) (satAdd f 1)
    obtain rfl : entries' = entries := Except.ok.inj (hentries'.symm.trans listed)
    refine ⟨b, hrep, hevicted, ?_, by simp⟩
    rintro ⟨h, n⟩ hx e he
    obtain ⟨⟨c, hc⟩, -⟩ := (hmem h n).mp hx
    rw [he, Option.some.injEq] at hc
    rw [hc]
  | kept =>
    exact ⟨b, hrep, hevicted, fun x hx => hlisted x (List.mem_cons_of_mem _ hx), by simp⟩
  | mismatched differs => exact ⟨b, hrep, hevicted, hlisted, by simpa using differs⟩
  | missed =>
    exact ⟨b, hrep, hevicted, fun x hx => hlisted x (List.mem_cons_of_mem _ hx), by simp⟩
  | @dropped s s' h n scan removed =>
    obtain ⟨t, ht, hrep'⟩ := hrep.remove h
    obtain rfl : t = s' := (Prod.mk.inj (ht.symm.trans removed)).2
    have hgone : ∀ e, b.companions h = some e → h ≠ canon e.1 := by
      intro e he
      rw [hlisted (h, n) (by simp [Phase.pending]) e he]
      exact (hforeign h n scan rfl).symm
    refine ⟨_, hrep', hevicted.remove hgone, ?_, by simp⟩
    intro x hx e he
    by_cases hxh : x.1 = h
    · simp [Shelf.remove, hxh] at he
    · exact hlisted x (List.mem_cons_of_mem _ hx) e (by simpa [Shelf.remove, hxh] using he)
  | @advanced s s' scan last moves written =>
    obtain ⟨t, ht, hrep'⟩ := hrep.setEvictionCursor scan.next
    obtain rfl : t = s' := (Prod.mk.inj (ht.symm.trans written)).2
    exact ⟨_, hrep', ⟨hevicted.accounting, hevicted.kept, hevicted.nothingNew⟩,
      by simp [Phase.pending], by simp⟩
  | stayed => exact ⟨b, hrep, hevicted, by simp [Phase.pending], by simp⟩
  | failed => exact ⟨b, hrep, hevicted, by simp [Phase.pending], by simp⟩

/-- An eviction pass drops no canonical companion and no accounting. -/
theorem evictNonCanonical_evicted {π : Type} {pruner : CompanionPruner π}
    (htrue : pruner.provider.Truthful canon) {p p' : π} {s s' : CompanionStore}
    {r : Res CompanionPruneError Unit} {a : Shelf} (hs : Represents s a)
    (hrun : CompanionPruner.evictNonCanonical pruner (p, s) = (r, (p', s'))) :
    ∃ b, Represents s' b ∧ Evicted canon a b := by
  obtain ⟨ls, hsteps⟩ := evictNonCanonical_steps htrue hs hrun
  have hstart : QuietAt canon a ⟨s, .idle⟩ a := ⟨hs, .refl a, by simp [Phase.pending], by simp⟩
  obtain ⟨b, hb⟩ := hsteps.invariant (I := fun st => ∃ b, QuietAt canon a st b)
    (fun _ _ _ ⟨_, hb⟩ hstep => hstep.quietAt hb) ⟨a, hstart⟩
  exact ⟨b, hb.represents, hb.evicted⟩

/-- The shelf after a retention pass: nothing is new, and what is gone was not canonical or lay
below one of the bounds. -/
structure Retained (canon : UInt64 → Bytes32) (bound : Option UInt64) (accountingBound : UInt64)
    (a b : Shelf) : Prop where
  companions : ∀ h e, a.companions h = some e → h = canon e.1 → (∀ n ∈ bound, n ≤ e.1) →
    b.companions h = some e
  nothingNew : ∀ h e, b.companions h = some e → a.companions h = some e
  accounting : ∀ h r, a.accounting h = some r → accountingBound ≤ r.blockNumber →
    b.accounting h = some r

variable {π : Type} {pruner : CompanionPruner π} {tip : UInt64} {p p' : π} {s s' : CompanionStore}
  {r : Res CompanionPruneError Unit} {a : Shelf}

theorem pruneToDepth_spec (hs : Represents s a)
    (hrun : CompanionPruner.pruneToDepth pruner tip (p, s) = (r, (p', s'))) :
    r = .ok () ∧ ∃ b, Represents s' b ∧ b.accounting = a.accounting ∧
      ∀ h, b.companions h =
        (a.companions h).filter fun e => ∀ d ∈ pruner.depth, satSub tip d ≤ e.1 := by
  unfold CompanionPruner.pruneToDepth at hrun
  cases hdepth : pruner.depth with
  | none =>
    rw [hdepth] at hrun
    obtain ⟨rfl, -, rfl⟩ : .ok () = r ∧ p = p' ∧ s = s' := by simpa using hrun
    exact ⟨rfl, a, hs, rfl, fun h => by cases a.companions h <;> simp [Option.filter]⟩
  | some depth =>
    rw [hdepth] at hrun
    obtain ⟨t, ht, hrep⟩ := hs.pruneBelow (satSub tip depth)
    dsimp only at hrun
    rw [onStore_eq_ok.mpr ⟨ht, rfl⟩] at hrun
    obtain ⟨rfl, -, rfl⟩ : .ok () = r ∧ p = p' ∧ t = s' := by simpa using hrun
    exact ⟨rfl, _, hrep, rfl, fun h => by simp [Shelf.pruneBelow]⟩

theorem pruneAccounting_spec {frontier : UInt64}
    (hfrontier : ∀ p n, (pruner.provider.lastBlockNumber p).1 = .ok n → n = frontier)
    (hs : Represents s a)
    (hrun : CompanionPruner.pruneAccounting pruner (p, s) = (r, (p', s'))) :
    ∃ b, Represents s' b ∧ b.companions = a.companions ∧
      ∀ h record, a.accounting h = some record →
        satSub frontier (satAdd accountingWindow pruner.repairLimit) ≤ record.blockNumber →
        b.accounting h = some record := by
  rw [CompanionPruner.pruneAccounting, Run.bind_eq] at hrun
  rcases hrun with ⟨persisted, ⟨p1, s1⟩, hask, hrun⟩ | ⟨e, hask, rfl⟩
  · simp only [ask_apply, Prod.mk.injEq, Res.mapErr_eq_ok] at hask
    obtain ⟨hanswer, rfl, rfl⟩ := hask
    obtain rfl := hfrontier _ _ hanswer
    obtain ⟨t, ht, hrep⟩ := hs.pruneAccountingBelow
      (satSub persisted (satAdd accountingWindow pruner.repairLimit))
    rw [onStore_eq_ok.mpr ⟨ht, rfl⟩] at hrun
    obtain ⟨-, -, rfl⟩ : .ok () = r ∧ _ = p' ∧ t = s' := by simpa using hrun
    refine ⟨_, hrep, rfl, fun h record hrecord hbound => ?_⟩
    simp [Shelf.pruneAccountingBelow, hrecord, hbound]
  · obtain rfl : s = s' := (Prod.mk.inj (Prod.mk.inj hask).2).2
    exact ⟨a, hs, rfl, fun _ _ h _ => h⟩

/-- What a retention pass keeps, whatever it returns. If it succeeds, no companion is left below
the depth. -/
theorem pruneOnce_spec {frontier : UInt64} (htrue : pruner.provider.Truthful canon)
    (hfrontier : ∀ p n, (pruner.provider.lastBlockNumber p).1 = .ok n → n = frontier)
    (hs : Represents s a)
    (hrun : CompanionPruner.pruneOnce pruner tip (p, s) = (r, (p', s'))) :
    ∃ b, Represents s' b ∧
      Retained canon (pruner.depth.map (satSub tip))
        (satSub frontier (satAdd accountingWindow pruner.repairLimit)) a b ∧
      (r = .ok () → ∀ h e, b.companions h = some e → ∀ d ∈ pruner.depth, satSub tip d ≤ e.1) := by
  rcases hcompanions : (do
    CompanionPruner.evictNonCanonical pruner
    CompanionPruner.pruneToDepth pruner tip : Pass π Unit) (p, s) with ⟨r1, p1, s1⟩
  -- the companions' half
  have hhalf : ∃ m, Represents s1 m ∧ m.accounting = a.accounting ∧
      (∀ h e, a.companions h = some e → h = canon e.1 →
        (∀ d ∈ pruner.depth, satSub tip d ≤ e.1) → m.companions h = some e) ∧
      (∀ h e, m.companions h = some e → a.companions h = some e) ∧
      (r1 = .ok () → ∀ h e, m.companions h = some e → ∀ d ∈ pruner.depth, satSub tip d ≤ e.1) := by
    rw [Run.bind_eq] at hcompanions
    rcases hcompanions with ⟨u, ⟨p2, s2⟩, hevict, hdepth⟩ | ⟨e, hevict, rfl⟩
    · obtain ⟨m2, hrep2, hevicted⟩ := evictNonCanonical_evicted htrue hs hevict
      obtain ⟨-, m, hrep, haccounting, hmem⟩ := pruneToDepth_spec hrep2 hdepth
      refine ⟨m, hrep, haccounting.trans hevicted.accounting, ?_, ?_, ?_⟩
      · intro h e he hcanon hbound
        rw [hmem, hevicted.kept h e he hcanon]
        simpa [Option.filter] using hbound
      · intro h e he
        rw [hmem, Option.filter_eq_some_iff] at he
        exact hevicted.nothingNew h e he.1
      · intro _ h e he d hd
        rw [hmem, Option.filter_eq_some_iff] at he
        exact (of_decide_eq_true he.2) d hd
    · obtain ⟨m, hrep, hevicted⟩ := evictNonCanonical_evicted htrue hs hevict
      exact ⟨m, hrep, hevicted.accounting, fun h e he hcanon _ => hevicted.kept h e he hcanon,
        hevicted.nothingNew, by simp⟩
  obtain ⟨m, hrep, haccounting, hkept, hnew, hdeep⟩ := hhalf
  have hbound (e : Shelved) : (∀ n ∈ pruner.depth.map (satSub tip), n ≤ e.1) ↔
      ∀ d ∈ pruner.depth, satSub tip d ≤ e.1 := by
    cases pruner.depth <;> simp
  unfold CompanionPruner.pruneOnce at hrun
  simp only [hcompanions] at hrun
  split at hrun
  next =>
    obtain ⟨rfl, -, rfl⟩ : .error .panic = r ∧ p1 = p' ∧ s1 = s' := by simpa using hrun
    refine ⟨m, hrep, ⟨fun h e he hc hb => hkept h e he hc ((hbound e).mp hb), hnew, ?_⟩, hdeep⟩
    intro h record hrecord _
    rw [haccounting, hrecord]
  next =>
    rcases haccount : CompanionPruner.pruneAccounting pruner (p1, s1) with ⟨r2, p2, s2⟩
    rw [haccount] at hrun
    obtain ⟨b, hrepb, hsame, hkeptb⟩ := pruneAccounting_spec hfrontier hrep haccount
    obtain ⟨hr, -, rfl⟩ : (do r1; r2) = r ∧ p2 = p' ∧ s2 = s' := by simpa using hrun
    refine ⟨b, hrepb, ⟨?_, ?_, ?_⟩, ?_⟩
    · intro h e he hcanon hb
      rw [hsame]
      exact hkept h e he hcanon ((hbound e).mp hb)
    · intro h e he
      exact hnew h e (hsame ▸ he)
    · intro h record hrecord hb
      exact hkeptb h record (by rw [haccounting, hrecord]) hb
    · rintro rfl h e he
      obtain ⟨_, hr1, -⟩ := Res.bind_eq_ok.mp hr
      exact hdeep hr1 h e (hsame ▸ he)

end Quiet

/-! ## Interleaved runs -/

section Interleaved

variable {canon : UInt64 → Bytes32}

/-- Nothing below the cursor is foreign to the chain. -/
def Settled (canon : UInt64 → Bytes32) (a : Shelf) : Prop :=
  ∀ h e, a.companions h = some e → e.1 < a.cursor.getD 0 → h = canon e.1

/-- How far a pass under way has come: what is stored below its end is canonical, is still to be
asked about, or is not below the lowest number without an answer. -/
structure Covers (canon : UInt64 → Bytes32) (a : Shelf) (pending : List (Bytes32 × UInt64))
    (scan : Scan) : Prop where
  start : scan.start = a.cursor.getD 0
  begun : scan.start < scan.stop
  ordered : pending.Pairwise fun x y => x.2 ≤ y.2
  within : ∀ x ∈ pending, x.2 < scan.stop
  unresolved : ∀ u ∈ scan.unresolved, u < scan.stop ∧ ∀ x ∈ pending, u ≤ x.2
  examined : ∀ h e, a.companions h = some e → e.1 < scan.stop →
    h = canon e.1 ∨ (h, e.1) ∈ pending ∨ ∃ u ∈ scan.unresolved, u ≤ e.1

def Phase.scan? : Phase → Option Scan
  | .idle => none
  | .scanning scan => some scan
  | .dropping _ _ scan => some scan

structure EvictionInv (canon : UInt64 → Bytes32) (st : EvictionState) (a : Shelf) : Prop where
  represents : Represents st.store a
  settled : Settled canon a
  covers : ∀ scan ∈ st.phase.scan?, Covers canon a st.phase.pending scan

/-- The number below which the pruner will not look again: the cursor, or the end of the pass
under way. -/
def EvictionState.frontier (st : EvictionState) : UInt64 :=
  match st.phase.scan? with
  | none => ((CompanionStore.evictionCursor st.store).value?.join).getD 0
  | some scan => scan.stop

/-- A block is stored in time: it is canonical, or the pruner has still to come to its number. -/
def Timely (canon : UInt64 → Bytes32) (st : EvictionState) (hash : Bytes32) (number : UInt64) : Prop :=
  hash = canon number ∨ st.frontier ≤ number

/-- The condition on a step: a block is stored in time, and a pass is not at the last number of
the word, whose successor saturates. -/
def Careful (canon : UInt64 → Bytes32) (st : EvictionState) : EvictionLabel → Prop
  | .put hash number _ => Timely canon st hash number
  | .begun finalized => finalized.toNat < 2 ^ 64 - 1
  | .passed finalized _ => finalized.toNat < 2 ^ 64 - 1
  | _ => True

def CarefulStep (canon : UInt64 → Bytes32) (st : EvictionState) (label : EvictionLabel)
    (st' : EvictionState) : Prop :=
  EvictionStep canon st label st' ∧ Careful canon st label

theorem EvictionInv.frontier_idle {s : CompanionStore} {a : Shelf}
    (h : EvictionInv canon ⟨s, .idle⟩ a) :
    EvictionState.frontier ⟨s, .idle⟩ = a.cursor.getD 0 := by
  have hread : CompanionStore.evictionCursor s = .ok a.cursor := h.represents.numbers.readCursor
  simp [EvictionState.frontier, Phase.scan?, hread, Res.value?]

/-- The cursor is never past the frontier. -/
theorem EvictionInv.cursor_le_frontier {st : EvictionState} {a : Shelf} (h : EvictionInv canon st a) :
    a.cursor.getD 0 ≤ st.frontier := by
  obtain ⟨s, phase⟩ := st
  cases phase with
  | idle => rw [h.frontier_idle]; exact UInt64.le_refl _
  | scanning scan =>
    have hcovers := h.covers scan rfl
    exact hcovers.start ▸ UInt64.le_of_lt hcovers.begun
  | dropping hash number scan =>
    have hcovers := h.covers scan rfl
    exact hcovers.start ▸ UInt64.le_of_lt hcovers.begun

/-- A block stored in time keeps the invariant. -/
theorem EvictionInv.put {s s' : CompanionStore} {phase : Phase} {a : Shelf}
    (h : EvictionInv canon ⟨s, phase⟩ a) {hash : Bytes32} {number : UInt64}
    {companion : SealCompanion} (stored : CompanionStore.put hash number companion s = (.ok (), s'))
    (htimely : Timely canon ⟨s, phase⟩ hash number) :
    EvictionInv canon ⟨s', phase⟩ (a.put hash number companion) := by
  have hold (g : Bytes32) (e : Shelved) (he : (a.put hash number companion).companions g = some e) :
      (g = hash ∧ e.1 = number) ∨ a.companions g = some e := by
    by_cases hg : g = hash
    · subst hg
      obtain rfl : (number, companion) = e := by simpa [Shelf.put] using he
      exact .inl ⟨rfl, rfl⟩
    · exact .inr (by simpa [Shelf.put, hg] using he)
  refine ⟨h.represents.put stored, ?_, ?_⟩
  · intro g e he hbelow
    rcases hold g e he with ⟨rfl, rfl⟩ | he
    · rcases htimely with hcanon | hlate
      · exact hcanon
      · exact absurd (UInt64.le_trans h.cursor_le_frontier hlate) (UInt64.not_le.mpr hbelow)
    · exact h.settled g e he hbelow
  · intro scan hscan
    have hcovers := h.covers scan hscan
    refine ⟨hcovers.start, hcovers.begun, hcovers.ordered, hcovers.within, hcovers.unresolved, ?_⟩
    intro g e he hbelow
    rcases hold g e he with ⟨rfl, rfl⟩ | he
    · rcases htimely with hcanon | hlate
      · exact .inl hcanon
      · have hstop : EvictionState.frontier ⟨s, phase⟩ = scan.stop := by
          simp only [EvictionState.frontier, Option.mem_def.mp hscan]
        exact absurd (hstop ▸ hlate) (UInt64.not_le.mpr hbelow)
    · exact hcovers.examined g e he hbelow

/-- A fresh pass has everything in its range still before it. -/
theorem covers_begun {s : CompanionStore} {a : Shelf} {f : UInt64}
    {entries : List (Bytes32 × UInt64)} (hrep : Represents s a) (hsettled : Settled canon a)
    (hbelow : ¬ a.cursor.getD 0 ≥ satAdd f 1)
    (hlisted : CompanionStore.entriesInRange (a.cursor.getD 0) (satAdd f 1) s = .ok entries) :
    Covers canon a entries ⟨f, a.cursor.getD 0, entries, none⟩ := by
  obtain ⟨entries', hentries', hmem, horder⟩ := hrep.entriesInRange (a.cursor.getD 0) (satAdd f 1)
  obtain rfl : entries' = entries := Except.ok.inj (hentries'.symm.trans hlisted)
  refine ⟨rfl, UInt64.not_le.mp hbelow, horder.imp ?_, fun x hx => ((hmem x.1 x.2).mp hx).2.2,
    by simp, ?_⟩
  · intro x y hxy
    rcases indexKey_lt_iff.mp hxy with hlt | ⟨heq, -⟩
    · exact UInt64.le_of_lt hlt
    · rw [heq]; exact UInt64.le_refl _
  · intro h e he hstop
    by_cases hcursor : e.1 < a.cursor.getD 0
    · exact .inl (hsettled h e he hcursor)
    · exact .inr (.inl ((hmem h e.1).mpr ⟨⟨e.2, he⟩, UInt64.not_lt.mp hcursor, hstop⟩))

section Covers

variable {a : Shelf} {f st n : UInt64} {h : Bytes32} {rest : List (Bytes32 × UInt64)}
  {u : Option UInt64}

theorem Covers.kept (hc : Covers canon a ((h, n) :: rest) ⟨f, st, (h, n) :: rest, u⟩)
    (same : canon n = h) : Covers canon a rest ⟨f, st, rest, u⟩ where
  start := hc.start
  begun := hc.begun
  ordered := hc.ordered.of_cons
  within x hx := hc.within x (List.mem_cons_of_mem _ hx)
  unresolved v hv :=
    ⟨(hc.unresolved v hv).1, fun x hx => (hc.unresolved v hv).2 x (List.mem_cons_of_mem _ hx)⟩
  examined g e he hbelow := by
    rcases hc.examined g e he hbelow with hcanon | hpending | hlate
    · exact .inl hcanon
    · rcases List.mem_cons.mp hpending with heq | hrest
      · obtain ⟨rfl, rfl⟩ := Prod.mk.inj heq
        exact .inl same.symm
      · exact .inr (.inl hrest)
    · exact .inr (.inr hlate)

theorem Covers.missed (hc : Covers canon a ((h, n) :: rest) ⟨f, st, (h, n) :: rest, u⟩) :
    Covers canon a rest ⟨f, st, rest, u.or (some n)⟩ where
  start := hc.start
  begun := hc.begun
  ordered := hc.ordered.of_cons
  within x hx := hc.within x (List.mem_cons_of_mem _ hx)
  unresolved v hv := by
    cases u with
    | none =>
      obtain rfl : n = v := by simpa using hv
      exact ⟨hc.within (h, n) (by simp), fun x hx => List.rel_of_pairwise_cons hc.ordered hx⟩
    | some w =>
      obtain rfl : w = v := by simpa using hv
      have hw := hc.unresolved w rfl
      exact ⟨hw.1, fun x hx => hw.2 x (List.mem_cons_of_mem _ hx)⟩
  examined g e he hbelow := by
    rcases hc.examined g e he hbelow with hcanon | hpending | ⟨w, hw, hle⟩
    · exact .inl hcanon
    · rcases List.mem_cons.mp hpending with heq | hrest
      · obtain ⟨rfl, rfl⟩ := Prod.mk.inj heq
        cases u with
        | none => exact .inr (.inr ⟨e.1, by simp, UInt64.le_refl _⟩)
        | some w => exact .inr (.inr ⟨w, by simp, (hc.unresolved w rfl).2 (g, e.1) (by simp)⟩)
      · exact .inr (.inl hrest)
    · obtain rfl : u = some w := hw
      exact .inr (.inr ⟨w, by simp, hle⟩)

/-- A companion dropped is no longer pending, nor stored. -/
theorem Covers.dropped {scan : Scan} (hc : Covers canon a ((h, n) :: scan.rest) scan) :
    Covers canon (a.remove h) scan.rest scan where
  start := hc.start
  begun := hc.begun
  ordered := hc.ordered.of_cons
  within x hx := hc.within x (List.mem_cons_of_mem _ hx)
  unresolved v hv :=
    ⟨(hc.unresolved v hv).1, fun x hx => (hc.unresolved v hv).2 x (List.mem_cons_of_mem _ hx)⟩
  examined g e he hbelow := by
    by_cases hg : g = h
    · simp [Shelf.remove, hg] at he
    · have he' : a.companions g = some e := by simpa [Shelf.remove, hg] using he
      rcases hc.examined g e he' hbelow with hcanon | hpending | hlate
      · exact .inl hcanon
      · rcases List.mem_cons.mp hpending with heq | hrest
        · exact absurd (Prod.mk.inj heq).1 hg
        · exact .inr (.inl hrest)
      · exact .inr (.inr hlate)

/-- The pass over, everything below the number it ends at is canonical. -/
theorem Covers.below_next {scan : Scan} (hc : Covers canon a [] scan) {g : Bytes32} {e : Shelved}
    (he : a.companions g = some e) (hbelow : e.1 < scan.next) : g = canon e.1 := by
  have hstop : e.1 < scan.stop := by
    cases hu : scan.unresolved with
    | none => simpa [Scan.next, hu] using hbelow
    | some u =>
      have hlt : e.1 < u := by simpa [Scan.next, hu] using hbelow
      exact UInt64.lt_trans hlt (hc.unresolved u hu).1
  rcases hc.examined g e he hstop with hcanon | hpending | ⟨u, hu, hle⟩
  · exact hcanon
  · simp at hpending
  · have hlt : e.1 < u := by simpa [Scan.next, Option.mem_def.mp hu] using hbelow
    exact absurd hle (UInt64.not_le.mpr hlt)

end Covers

theorem lt_raised {n number : UInt64} {current : Option UInt64} :
    n < CompanionStore.raised current number ↔ n < number ∨ n < current.getD 0 := by
  cases current with
  | none => simp [CompanionStore.raised]
  | some c =>
    simp only [CompanionStore.raised, UInt64.lt_iff_toNat_lt, toNat_max, Option.getD_some]
    omega

theorem CarefulStep.inv {st st' : EvictionState} {label : EvictionLabel} {a : Shelf}
    (hstep : CarefulStep canon st label st') (hinv : EvictionInv canon st a) :
    ∃ b, EvictionInv canon st' b := by
  obtain ⟨hstep, hcareful⟩ := hstep
  cases hstep with
  | put stored => exact ⟨_, hinv.put stored hcareful⟩
  | skipped => exact ⟨a, hinv.represents, hinv.settled, by simp [Phase.scan?]⟩
  | @begun s cursor f entries read below listed =>
    obtain rfl : a.cursor = cursor :=
      Except.ok.inj (hinv.represents.numbers.readCursor.symm.trans read)
    refine ⟨a, hinv.represents, hinv.settled, ?_⟩
    rintro scan ⟨⟩
    exact covers_begun hinv.represents hinv.settled below listed
  | kept same =>
    refine ⟨a, hinv.represents, hinv.settled, ?_⟩
    rintro scan ⟨⟩
    exact (hinv.covers _ rfl).kept same
  | mismatched =>
    refine ⟨a, hinv.represents, hinv.settled, ?_⟩
    rintro scan ⟨⟩
    have hc := hinv.covers _ rfl
    exact ⟨hc.start, hc.begun, hc.ordered, hc.within, hc.unresolved, hc.examined⟩
  | missed =>
    refine ⟨a, hinv.represents, hinv.settled, ?_⟩
    rintro scan ⟨⟩
    exact (hinv.covers _ rfl).missed
  | @dropped s s' h n scan removed =>
    obtain ⟨t, ht, hrep⟩ := hinv.represents.remove h
    obtain rfl : t = s' := (Prod.mk.inj (ht.symm.trans removed)).2
    refine ⟨_, hrep, ?_, ?_⟩
    · intro g e he hbelow
      by_cases hg : g = h
      · simp [Shelf.remove, hg] at he
      · exact hinv.settled g e (by simpa [Shelf.remove, hg] using he) hbelow
    · rintro scan' ⟨⟩
      exact (hinv.covers scan rfl).dropped
  | @advanced s s' scan last moves written =>
    obtain ⟨t, ht, hrep⟩ := hinv.represents.setEvictionCursor scan.next
    obtain rfl : t = s' := (Prod.mk.inj (ht.symm.trans written)).2
    have hc : Covers canon a [] scan := last ▸ hinv.covers scan rfl
    refine ⟨_, hrep, ?_, by simp [Phase.scan?]⟩
    intro g e he hbelow
    rcases lt_raised.mp hbelow with hnext | hcursor
    · exact hc.below_next he hnext
    · exact hinv.settled g e he hcursor
  | stayed => exact ⟨a, hinv.represents, hinv.settled, by simp [Phase.scan?]⟩
  | failed => exact ⟨a, hinv.represents, hinv.settled, by simp [Phase.scan?]⟩

theorem evictionInv_fresh : EvictionInv canon ⟨.fresh, .idle⟩ .empty :=
  ⟨represents_fresh, by simp [Settled, Shelf.empty], by simp [Phase.scan?]⟩

theorem Steps.evictionInv {ls : List EvictionLabel} {st : EvictionState}
    (h : Steps (CarefulStep canon) ⟨.fresh, .idle⟩ ls st) : ∃ a, EvictionInv canon st a :=
  h.invariant (I := fun st => ∃ a, EvictionInv canon st a)
    (fun _ _ _ ⟨_, hinv⟩ hstep => hstep.inv hinv) ⟨_, evictionInv_fresh⟩

/-- The end of a pass that had an answer for every number leaves the cursor past the finalized
number. -/
theorem CarefulStep.cursor_of_passed {st st' : EvictionState} {f : UInt64} {a b : Shelf}
    (hstep : CarefulStep canon st (.passed f true) st') (hinv : EvictionInv canon st a)
    (hb : Represents st'.store b) {n : UInt64} (hn : n ≤ f) : n < b.cursor.getD 0 := by
  obtain ⟨hstep, hcareful⟩ := hstep
  have hstop : n < satAdd f 1 := by
    rw [UInt64.le_iff_toNat_le] at hn
    have hf : f.toNat < 2 ^ 64 - 1 := hcareful
    rw [UInt64.lt_iff_toNat_lt, toNat_satAdd]
    simp only [UInt64.toNat_one]
    omega
  have hcursor (s : CompanionStore) (cursor : Option UInt64)
      (hrep : Represents s b) (hread : CompanionStore.evictionCursor s = .ok cursor) :
      b.cursor = cursor := Except.ok.inj (hrep.numbers.readCursor.symm.trans hread)
  generalize hlabel : EvictionLabel.passed f true = label at hstep
  cases hstep with
  | skipped read done =>
    obtain ⟨rfl, -⟩ := EvictionLabel.passed.inj hlabel
    rw [hcursor _ _ hb read]
    exact UInt64.lt_of_lt_of_le hstop done
  | @advanced s s' scan last moves written =>
    obtain ⟨rfl, hresolved⟩ := EvictionLabel.passed.inj hlabel
    obtain ⟨t, ht, hrep⟩ := hinv.represents.setEvictionCursor scan.next
    obtain rfl : t = s' := (Prod.mk.inj (ht.symm.trans written)).2
    have hnone : scan.unresolved = none := Option.isNone_iff_eq_none.mp hresolved.symm
    rw [hcursor t _ hb hrep.numbers.readCursor, Shelf.setCursor, Option.getD_some, lt_raised]
    exact .inl (by simpa [Scan.next, hnone, Scan.stop] using hstop)
  | @stayed s scan last stays =>
    obtain ⟨rfl, hresolved⟩ := EvictionLabel.passed.inj hlabel
    have hnone : scan.unresolved = none := Option.isNone_iff_eq_none.mp hresolved.symm
    have hc := hinv.covers scan rfl
    rw [Scan.next, hnone, Option.getD_none] at stays
    exact absurd hc.begun (by rw [stays]; exact UInt64.lt_irrefl _)
  | put => cases hlabel
  | begun => cases hlabel
  | kept => cases hlabel
  | mismatched => cases hlabel
  | missed => cases hlabel
  | dropped => cases hlabel
  | failed => cases hlabel

end Interleaved

end Ureth.Source.Payload
