import Ureth.Foundation.Spans
import Ureth.Source.Execution.Update

/-!
# What an update that passed its checks is

The entry loop of `checkEntries` as a chain condition on the list of entries.
-/

namespace Ureth.Source.Execution
open Ureth.Foundation

/-- The root round is in the entry's interval. -/
def Entry.Covers (e : Entry) (round : UInt64) : Prop :=
  e.start ≤ round ∧ ∀ stop ∈ e.stop, round < stop

/-- `later` has the next epoch and starts where `e` ends. -/
def Entry.Follows (e later : Entry) : Prop :=
  addWithin e.epoch 1 = some later.epoch ∧ e.stop = some later.start

/-- The entry's interval in root rounds. -/
def Entry.span (e : Entry) : Span ℕ := ⟨e.start.toNat, e.stop.map UInt64.toNat⟩

/-- What the entry loop checks of one entry by itself. -/
structure Update.Lists (u : Update) (S : Secp256k1) (e : Entry) : Prop where
  valid : e.validate S = .ok ()
  kind : e.bodyKind ≠ 1
  newer : u.priorTipEpoch < e.epoch
  start_le : e.start ≤ u.originRound
  stop_le : ∀ stop ∈ e.stop, stop ≤ u.originRound

variable {S : Secp256k1} {u : Update} {e later : Entry} {round : UInt64}

theorem Entry.covers_span : e.span.Covers round.toNat ↔ e.Covers round := by
  simp [Span.Covers, Entry.Covers, Entry.span, UInt64.le_iff_toNat_le, UInt64.lt_iff_toNat_lt]

theorem Entry.Follows.epoch_eq (h : e.Follows later) : later.epoch.toNat = e.epoch.toNat + 1 :=
  (addWithin_eq_some.mp h.1).symm

theorem Entry.Follows.meets (h : e.Follows later) : e.span.Meets later.span := by
  simp [Span.Meets, Entry.span, h.2]

/-- The epochs of a chain are consecutive. -/
theorem Entry.epoch_eq_of_chain {entries : List Entry} {first : Entry}
    (hchain : List.IsChain Entry.Follows entries) (hfirst : entries.head? = some first) {i : ℕ}
    (hi : entries[i]? = some e) : e.epoch.toNat = first.epoch.toNat + i := by
  induction i generalizing e with
  | zero =>
    rw [← List.head?_eq_getElem?, hfirst] at hi
    obtain rfl := Option.some.inj hi
    rfl
  | succ i ih =>
    obtain ⟨hlt, rfl⟩ := List.getElem?_eq_some_iff.mp hi
    have hprev := ih (List.getElem?_eq_getElem (Nat.lt_of_succ_lt hlt))
    have hnext := (List.isChain_iff_getElem.mp hchain i hlt).epoch_eq
    omega

/-- A validated interval is not empty. -/
theorem Entry.start_lt_of_validate (h : e.validate S = .ok ()) : ∀ stop ∈ e.stop, e.start < stop := by
  simp only [Entry.validate, Res.bind_eq_ok, Res.refuse_eq_ok] at h
  obtain ⟨_, -, _, hstop, -⟩ := h
  intro stop hmem
  exact UInt64.not_le.mp fun hle => hstop ⟨stop, hmem, hle⟩

theorem Entry.proper_of_validate (h : e.validate S = .ok ()) : e.span.Proper := by
  intro stop hstop
  obtain ⟨stop', hmem, rfl⟩ := Option.map_eq_some_iff.mp hstop
  exact UInt64.lt_iff_toNat_lt.mp (e.start_lt_of_validate h stop' hmem)

/-- The entry loop accepts a list whose entries pass one by one and follow one another. -/
theorem Update.checkEntriesFrom_eq_ok {previous : Option Entry} {entries : List Entry} {w : Unit} :
    u.checkEntriesFrom S previous entries = .ok w ↔
      (∀ e ∈ entries, u.Lists S e) ∧ List.IsChain Entry.Follows (previous.toList ++ entries) := by
  induction entries generalizing previous with
  | nil => cases previous <;> simp [Update.checkEntriesFrom]
  | cons e rest ih =>
    have hlists : u.Lists S e ↔ e.validate S = .ok () ∧ e.bodyKind ≠ 1 ∧ u.priorTipEpoch < e.epoch ∧
        e.start ≤ u.originRound ∧ ∀ stop ∈ e.stop, stop ≤ u.originRound :=
      ⟨fun h => ⟨h.valid, h.kind, h.newer, h.start_le, h.stop_le⟩,
        fun ⟨h1, h2, h3, h4, h5⟩ => ⟨h1, h2, h3, h4, h5⟩⟩
    have hlink : List.IsChain Entry.Follows (previous.toList ++ e :: rest) ↔
        (∀ prev ∈ previous, prev.Follows e) ∧ List.IsChain Entry.Follows (e :: rest) := by
      cases previous <;> simp [List.isChain_cons_cons]
    rw [hlink, List.forall_mem_cons, hlists]
    simp only [Update.checkEntriesFrom, Res.bind_eq_ok, Res.refuse_eq_ok, ih, Option.toList_some,
      List.singleton_append, UInt64.not_le, UInt64.not_lt, not_exists, not_and, not_or, not_not,
      Entry.Follows, exists_and_left, exists_const]
    tauto

/-- `checkEntries` accepts an update without entries at the origin epoch, or a chain of entries
that closes the old tip and ends open in the origin epoch. -/
theorem checkEntries_eq_ok : checkEntries S u = .ok () ↔
    (∀ e ∈ u.newEntries, u.Lists S e) ∧ List.IsChain Entry.Follows u.newEntries ∧
      (u.newEntries = [] ∧ u.oldTipEnd = none ∧ u.priorTipEpoch = u.originEpoch ∨
        ∃ first tail stop, u.newEntries.head? = some first ∧ u.newEntries.getLast? = some tail ∧
          u.oldTipEnd = some stop ∧ stop ≤ first.start ∧
          (addWithin u.priorTipEpoch 1 = some first.epoch → stop = first.start) ∧
          tail.stop = none ∧ tail.epoch = u.originEpoch) := by
  simp only [checkEntries, Res.bind_eq_ok, Update.checkEntriesFrom_eq_ok, Option.toList_none,
    List.nil_append, exists_const]
  rw [and_assoc]
  refine and_congr_right fun _ => and_congr_right fun _ => ?_
  rcases List.eq_nil_or_concat u.newEntries with hnil | ⟨front, tail, hsome⟩
  · simp [hnil]
  · obtain ⟨first, hfirst⟩ : ∃ first, u.newEntries.head? = some first := by
      cases front <;> simp [hsome]
    have htail : u.newEntries.getLast? = some tail := by simp [hsome]
    have hne : u.newEntries ≠ [] := by simp [hsome]
    simp only [hfirst, htail, hne, false_and, false_or, Option.some.injEq, Res.bind_eq_ok,
      Res.refuse_eq_ok, Res.okOr_eq_ok, not_or, not_and, not_not, UInt64.not_lt,
      Option.not_isSome_iff_eq_none, exists_const]
    simp [and_assoc]

end Ureth.Source.Execution
