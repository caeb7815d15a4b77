import Ureth.Source.Execution.UpdateSpec

/-!
# Epoch coverage of one update

The entries of an accepted update are consecutive epochs whose intervals are a partition of the root
rounds from the first start on.
-/

namespace Ureth.Guarantees
open Ureth.Foundation Ureth.Source Ureth.Source.Execution

/-- An accepted update with entries closes the old tip at or before the first start, at the first
start if no epoch is between; its epochs are consecutive and above the prior tip, no interval is
empty, only the last is open and that is the origin epoch; and every root round from the first
start on, so each one up to the origin round, is in exactly one interval. An accepted update
without entries closes nothing and its prior tip is the origin epoch. -/
theorem epoch_coverage {S : Secp256k1} {u : Update} (h : checkEntries S u = .ok ()) :
    (u.newEntries = [] → u.oldTipEnd = none ∧ u.priorTipEpoch = u.originEpoch) ∧
    ∀ first tail, u.newEntries.head? = some first → u.newEntries.getLast? = some tail →
      (∀ i e, u.newEntries[i]? = some e →
        e.epoch.toNat = first.epoch.toNat + i ∧ u.priorTipEpoch < e.epoch ∧
          (∀ stop ∈ e.stop, e.start < stop) ∧ (e.stop = none ↔ i + 1 = u.newEntries.length)) ∧
      first.start ≤ u.originRound ∧
      (∀ round, first.start ≤ round →
        ∃! i : ℕ, ∃ e, u.newEntries[i]? = some e ∧ e.Covers round) ∧
      tail.stop = none ∧ tail.epoch = u.originEpoch ∧
      ∃ stop, u.oldTipEnd = some stop ∧ stop ≤ first.start ∧
        (first.epoch.toNat = u.priorTipEpoch.toNat + 1 → stop = first.start) := by
  obtain ⟨hlists, hchain, hends⟩ := checkEntries_eq_ok.mp h
  refine ⟨?_, ?_⟩
  · intro hnil
    rcases hends with ⟨-, hclosed⟩ | ⟨first, _, _, hfirst, -⟩
    · exact hclosed
    · rw [hnil] at hfirst
      cases hfirst
  intro first tail hfirst htail
  rcases hends with ⟨hnil, -⟩ | ⟨first', tail', stop, hfirst', htail', hold, hle, hexact, hopen, horigin⟩
  · rw [hnil] at hfirst
    cases hfirst
  obtain rfl := Option.some.inj (hfirst'.symm.trans hfirst)
  obtain rfl := Option.some.inj (htail'.symm.trans htail)
  have hspans : List.IsChain Span.Meets (u.newEntries.map Entry.span) := by
    rw [List.isChain_map]
    exact hchain.imp fun _ _ hfollows => hfollows.meets
  refine ⟨?_, (hlists _ (List.mem_of_mem_head? hfirst)).start_le, ?_, hopen, horigin, stop, hold, hle, ?_⟩
  · intro i e hi
    have hlisted := hlists e (List.mem_of_getElem? hi)
    obtain ⟨hlt, -⟩ := List.getElem?_eq_some_iff.mp hi
    refine ⟨Entry.epoch_eq_of_chain hchain hfirst hi, hlisted.newer,
      Entry.start_lt_of_validate hlisted.valid, ?_, ?_⟩
    · intro hnone
      by_contra hlast
      have hspan : (u.newEntries.map Entry.span)[i]? = some e.span := by
        rw [List.getElem?_map, hi]
        rfl
      refine Span.stop_ne_none_of_chain hspans hspan ?_ ?_
      · rw [List.length_map]
        omega
      · simp [Entry.span, hnone]
    · intro hlast
      have hlastIndex : u.newEntries.length - 1 = i := by omega
      rw [List.getLast?_eq_getElem?, hlastIndex, hi] at htail
      obtain rfl := Option.some.inj htail
      exact hopen
  · intro round hround
    obtain ⟨rest, hentries⟩ := List.head?_eq_some_iff.mp hfirst
    have hproper : ∀ s ∈ u.newEntries.map Entry.span, s.Proper := by
      intro s hs
      obtain ⟨e, he, rfl⟩ := List.mem_map.mp hs
      exact Entry.proper_of_validate (hlists e he).valid
    have hlast : ∀ s ∈ (u.newEntries.map Entry.span).getLast?, s.stop = none := by
      rw [List.getLast?_map, htail]
      intro s hs
      obtain rfl := Option.some.inj hs
      simp [Entry.span, hopen]
    have hunique : ∃! i : ℕ, ∃ s : Span ℕ,
        (u.newEntries.map Entry.span)[i]? = some s ∧ s.Covers round.toNat := by
      rw [hentries, List.map_cons] at hspans hproper hlast ⊢
      exact Span.existsUnique_covers hspans hproper hlast (UInt64.le_iff_toNat_le.mp hround)
    simpa only [List.getElem?_map, Option.map_eq_some_iff, exists_exists_and_eq_and,
      Entry.covers_span] using hunique
  · intro hepoch
    refine hexact (addWithin_eq_some.mpr ?_)
    rw [hepoch]
    rfl

/-! ## A sample update -/

/-- An entry of the regular kind with one member of weight one. -/
def soleEntry (epoch start : UInt64) (stop : Option UInt64) : Entry where
  epoch
  bodyKind := 2
  bodyId := .literal 32 1
  activationCommitId := .literal 32 2
  start
  stop
  signingScheme := 1
  signingConfigHash := .literal 32 3
  members := [⟨⟨ascii "n", by decide, by decide⟩, .literal 33 4, 1⟩]

/-- An update from epoch five, which ended at round 10, to epoch seven. -/
def twoEpochs : Update where
  network := 1
  rootGenesisId := .literal 32 1
  executionChainId := 1
  profileHash := .literal 32 2
  parentHash := .literal 32 3
  blockNumber := 1
  originEpoch := 7
  originRound := 25
  originIdentity := .literal 32 4
  priorTipEpoch := 5
  oldTipEnd := some 10
  newEntries := [soleEntry 6 10 (some 20), soleEntry 7 20 none]

/-- Round 19 is in one of the two epochs. -/
theorem epoch_coverage_two :
    ∃! i : ℕ, ∃ e, twoEpochs.newEntries[i]? = some e ∧ e.Covers 19 := by
  have hchecked : checkEntries .echo twoEpochs = .ok () := by decide +kernel
  obtain ⟨-, -, hcovered, -⟩ := (epoch_coverage hchecked).2 _ _ rfl rfl
  exact hcovered 19 (by decide)

end Ureth.Guarantees
