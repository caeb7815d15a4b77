import Ureth.Guarantees.HeaderAgreement
import Ureth.Source.Execution.InputRegistry

/-!
# The registry keeps the input a commitment first named

Whatever is inserted and looked up, the registry of bound execution inputs holds the last new
insertions, each under its input's own commitment. What is held is not replaced, and an input
accepted again under its commitment is the held one in everything the block executes.
-/

namespace Ureth.Guarantees
open Ureth.Foundation Ureth.Source.Execution
open Ureth.Source.Execution.UnicityBlockExecutionRegistry

/-- After any calls on a registry of any capacity: the entries are the last new insertions, in
their order, under distinct commitments of their own; each is found until as many new ones as
the capacity have followed it; an insertion appends a new entry, or is accepted or refused
with the registry left as it was; and an input accepted under a held commitment agrees with the
held one. -/
theorem execution_registry_history (H : Bytes → Bytes32) (hashSlow : Header → Bytes32) {capacity : Nat}
    {start : UnicityBlockExecutionRegistry} (hstart : withCapacity capacity = .ok start)
    (calls : List Call) (registry : UnicityBlockExecutionRegistry) (hregistry : registry = after H start calls) :
    registry.entries.length ≤ capacity ∧ (registry.entries.map Prod.fst).Nodup ∧
    (∀ entry ∈ registry.entries, entry.2.input.inputCommitment H = .ok entry.1) ∧
    registry.entries = (admitted H start calls).rtake capacity ∧
    (∀ i entry, (admitted H start calls)[i]? = some entry →
      (admitted H start calls).length ≤ i + capacity → registry.get entry.1 = some entry.2) ∧
    (∀ commitment input result next, insert H commitment input registry = (result, next) →
      (result = .ok () ∧ registry.get commitment = none ∧
        input.input.inputCommitment H = .ok commitment ∧
        next.entries = (if capacity ≤ registry.entries.length then registry.entries.tail
          else registry.entries) ++ [(commitment, input)]) ∨
      (result = .ok () ∧ next = registry ∧
        ∃ held, registry.get commitment = some held ∧ held.input = input.input) ∨
      ((∃ e, result = Res.fail e) ∧ next = registry ∧
        (input.input.inputCommitment H ≠ .ok commitment ∨
          ∃ held, registry.get commitment = some held ∧ held.input ≠ input.input))) ∧
    (∀ commitment input held next, registry.get commitment = some held →
      insert H commitment input registry = (.ok (), next) → held.input = input.input ∧
        ∀ p q, BoundExecutionInput.BoundTo H hashSlow p held →
          BoundExecutionInput.BoundTo H hashSlow q input → held.parentHash = input.parentHash ∧
          (held.b1.update = input.b1.update ∨ Collision H [held.b1.update.val, input.b1.update.val]) ∧
          (held.b1.records = input.b1.records ∨
            Collision H [held.b1.records.val, input.b1.records.val])) := by
  obtain ⟨hpos, rfl⟩ := withCapacity_eq_ok.mp hstart
  have hcapacity : registry.capacity = capacity := by rw [hregistry, capacity_after]
  have hrecent : registry.Recent Prod.fst (admitted H ⟨[], capacity, hpos⟩ calls) := by
    rw [hregistry]
    exact recent_after (Fifo.Recent.of_empty capacity hpos) calls
  have hcommitted : Committed H registry := by
    rw [hregistry]
    exact Committed.after (fun _ hmem => by simp at hmem) calls
  refine ⟨hcapacity ▸ hrecent.length_le, hrecent.distinct, hcommitted, hcapacity ▸ hrecent.entries, ?_, ?_, ?_⟩
  · intro i entry hentry hlen
    exact get_eq_some.mpr (hrecent.findKey_of_recent hentry (hcapacity ▸ hlen))
  · intro commitment input result next hinsert
    rcases insert_cases commitment input registry with ⟨hc, hget, h⟩ | ⟨held, hget, hsame, h⟩ | ⟨e, h, hwhy⟩
    · obtain ⟨rfl, rfl⟩ := Prod.mk.inj (h.symm.trans hinsert)
      refine .inl ⟨rfl, hget, hc, ?_⟩
      rw [← hcapacity]
      rfl
    · obtain ⟨rfl, rfl⟩ := Prod.mk.inj (h.symm.trans hinsert)
      exact .inr (.inl ⟨rfl, rfl, held, hget, hsame⟩)
    · obtain ⟨rfl, rfl⟩ := Prod.mk.inj (h.symm.trans hinsert)
      exact .inr (.inr ⟨⟨e, rfl⟩, rfl, hwhy⟩)
  · intro commitment input held next hget hinsert
    have hsame : held.input = input.input := by
      rcases insert_cases commitment input registry with ⟨-, hnone, -⟩ | ⟨held', hget', hsame, -⟩ | ⟨e, h, -⟩
      · rw [hnone] at hget
        cases hget
      · obtain rfl : held' = held := Option.some.inj (hget'.symm.trans hget)
        exact hsame
      · cases (Prod.mk.inj (h.symm.trans hinsert)).1
    exact ⟨hsame, fun p q hheld hinput => hheld.agree hinput hsame⟩

/-- A registry of one entry that takes the first input of a chain keeps it, also when it is
offered again. -/
theorem execution_registry_history_again :
    ∃ start, withCapacity 1 = .ok start ∧
      (after oneWord start [.insert (.literal 32 1) genesisBound, .insert (.literal 32 1) genesisBound]).get
        (.literal 32 1) = some genesisBound := by
  have hstart : withCapacity 1 = .ok ⟨[], 1, Nat.one_pos⟩ := rfl
  have hvalue : (genesisBound.input.inputCommitment oneWord).value? = some (.literal 32 1) :=
    Res.value?_eq_some.mpr smallInput_commitment
  have hadmitted : admitted oneWord ⟨[], 1, Nat.one_pos⟩ [.insert (.literal 32 1) genesisBound,
      .insert (.literal 32 1) genesisBound] = [(.literal 32 1, genesisBound)] := by
    simp [admitted, Call.offer, hvalue, Fifo.appended, Fifo.enroll, Fifo.pushBack, findKey]
  refine ⟨_, hstart, ?_⟩
  obtain ⟨-, -, -, -, hfound, -⟩ := execution_registry_history oneWord (fun _ => .literal 32 0x11) hstart
    [.insert (.literal 32 1) genesisBound, .insert (.literal 32 1) genesisBound] _ rfl
  rw [hadmitted] at hfound
  exact hfound 0 _ rfl (by simp)

end Ureth.Guarantees
