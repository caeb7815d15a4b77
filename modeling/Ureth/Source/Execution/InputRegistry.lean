import Ureth.Foundation.Fifo
import Ureth.Source.Execution.TransitionSpec

/-!
# The registry of bound execution inputs

The import path registers the input of a block under the commitment its header carries, and the
node's execution looks it up there. The registry is a bounded queue: what is held is never
replaced, and a new input takes the place of the earliest one.
-/

namespace Ureth.Source.Execution
open Ureth.Foundation

/-! ## Bound inputs of one root input -/

namespace BoundExecutionInput

variable {H : Bytes → Bytes32} {hashSlow : Header → Bytes32}

theorem eq_or_collision {a b : ByteVec} (h : H a.val = H b.val) : a = b ∨ Collision H [a.val, b.val] := by
  by_cases heq : a.val = b.val
  · exact .inl (Subtype.ext heq)
  · exact .inr ⟨a.val, by simp, b.val, by simp, heq, h⟩

theorem BoundTo.hashes {parent : SealedHeader} {bound : BoundExecutionInput}
    (h : BoundTo H hashSlow parent bound) :
    H bound.b1.update.val = bound.input.b1UpdateHash ∧
      H bound.b1.records.val = bound.input.rootRecordsHash := by
  have hchecked : bound.b1.checkBound H bound.input bound.profile = .ok () := by
    cases h with
    | genesis made =>
      obtain ⟨-, -, -, -, -, hchecked, _, _, -, -, rfl⟩ := fromValidatedGenesis_eq_ok.mp made
      exact hchecked
    | completed made =>
      obtain ⟨-, -, hchecked, rfl⟩ := fromCompletedParent_eq_ok.mp made
      exact hchecked
  simp only [B1Job.checkBound, Res.bind_eq_ok, Res.refuse_eq_ok, not_not] at hchecked
  obtain ⟨_, hupdate, _, hrecords, -⟩ := hchecked
  exact ⟨hupdate, hrecords⟩

/-- They have one parent and, hash collisions aside, the same update and records. -/
theorem BoundTo.agree {p q : SealedHeader} {held bound : BoundExecutionInput}
    (hheld : BoundTo H hashSlow p held) (hbound : BoundTo H hashSlow q bound)
    (hroot : held.input = bound.input) :
    held.parentHash = bound.parentHash ∧
      (held.b1.update = bound.b1.update ∨ Collision H [held.b1.update.val, bound.b1.update.val]) ∧
      (held.b1.records = bound.b1.records ∨ Collision H [held.b1.records.val, bound.b1.records.val]) := by
  obtain ⟨hupdate, hrecords⟩ := hheld.hashes
  obtain ⟨hupdate', hrecords'⟩ := hbound.hashes
  refine ⟨?_, eq_or_collision ?_, eq_or_collision ?_⟩
  · rw [hheld.parented.parentHash, hbound.parented.parentHash, ← hheld.parented.input,
      ← hbound.parented.input, hroot]
  · rw [hupdate, hupdate', hroot]
  · rw [hrecords, hrecords', hroot]

end BoundExecutionInput

/-! ## The registry -/

inductive BlockExecutionRegistryError where
  | commitmentMismatch (declared actual : Bytes32)
  | conflictingInput (commitment : Bytes32)
  | invalidInput
  deriving DecidableEq

abbrev UnicityBlockExecutionRegistry := Fifo (Bytes32 × BoundExecutionInput)

namespace UnicityBlockExecutionRegistry

/-- A registry of no capacity is refused by an assertion. -/
def withCapacity (capacity : Nat) : Res BlockExecutionRegistryError UnicityBlockExecutionRegistry :=
  if h : 0 < capacity then .ok ⟨[], capacity, h⟩ else Res.panic

def get (registry : UnicityBlockExecutionRegistry) (commitment : Bytes32) : Option BoundExecutionInput :=
  (findKey Prod.fst commitment registry.entries).map Prod.snd

/-- The insertion under the lock, of an input whose commitment was checked. -/
def insertInner (commitment : Bytes32) (input : BoundExecutionInput) :
    Run UnicityBlockExecutionRegistry BlockExecutionRegistryError Unit := fun inner =>
  match findKey Prod.fst commitment inner.entries with
  | some existing =>
    if existing.2.input = input.input then (.ok (), inner)
    else (Res.fail (.conflictingInput commitment), inner)
  | none => (.ok (), inner.pushBack (commitment, input))

section

variable (H : Bytes → Bytes32)

def insert (commitment : Bytes32) (input : BoundExecutionInput) :
    Run UnicityBlockExecutionRegistry BlockExecutionRegistryError Unit := do
  let actual ← Run.lift ((input.input.inputCommitment H).mapErr fun _ => .invalidInput)
  Run.refuse (actual ≠ commitment) (.commitmentMismatch commitment actual)
  insertInner commitment input

/-- A call on the registry. -/
inductive Call where
  | insert (commitment : Bytes32) (input : BoundExecutionInput)
  | get (commitment : Bytes32)

/-- The registry after a call; a lookup leaves it. -/
def Call.run (registry : UnicityBlockExecutionRegistry) : Call → UnicityBlockExecutionRegistry
  | .insert commitment input => (UnicityBlockExecutionRegistry.insert H commitment input registry).2
  | .get _ => registry

/-- The entry a call offers: an insertion under the input's own commitment. -/
def Call.offer : Call → List (Bytes32 × BoundExecutionInput)
  | .insert commitment input =>
    if (input.input.inputCommitment H).value? = some commitment then [(commitment, input)] else []
  | .get _ => []

def after (registry : UnicityBlockExecutionRegistry) (calls : List Call) : UnicityBlockExecutionRegistry :=
  calls.foldl (Call.run H) registry

/-- The new insertions a sequence of calls makes, in order: each under its own commitment, which was
not held at that time. -/
def admitted (registry : UnicityBlockExecutionRegistry) (calls : List Call) :
    List (Bytes32 × BoundExecutionInput) :=
  Fifo.appended Prod.fst registry (calls.flatMap (Call.offer H))

end

variable {H : Bytes → Bytes32} {registry : UnicityBlockExecutionRegistry} {commitment : Bytes32}
  {input held : BoundExecutionInput}

theorem withCapacity_eq_ok {capacity : Nat} :
    withCapacity capacity = .ok registry ↔ ∃ h : 0 < capacity, registry = ⟨[], capacity, h⟩ := by
  unfold withCapacity
  split
  · rename_i h
    simp [h, eq_comm]
  · rename_i h
    simp [h]

theorem get_eq_some : registry.get commitment = some held ↔
    findKey Prod.fst commitment registry.entries = some (commitment, held) := by
  rw [get, Option.map_eq_some_iff]
  constructor
  · rintro ⟨⟨key, found⟩, hfound, rfl⟩
    obtain rfl : key = commitment := key_of_findKey hfound
    exact hfound
  · intro hfound
    exact ⟨_, hfound, rfl⟩

theorem get_eq_none : registry.get commitment = none ↔
    findKey Prod.fst commitment registry.entries = none := by
  rw [get, Option.map_eq_none_iff]

/-! ## What an insertion does -/

theorem insert_of_ne (registry : UnicityBlockExecutionRegistry)
    (h : input.input.inputCommitment H ≠ .ok commitment) :
    ∃ e, insert H commitment input registry = (Res.fail e, registry) := by
  have hsafe : (input.input.inputCommitment H).NoPanic := noPanic_inputCommitment
  rcases hsafe.cases with ⟨actual, hactual⟩ | ⟨e, -, hactual⟩
  · have hne : actual ≠ commitment := fun heq => h (heq ▸ hactual)
    refine ⟨.commitmentMismatch commitment actual, ?_⟩
    simp [insert, Run.bind_apply, Run.refuse, Res.refuse, Res.mapErr, Res.fail, hactual, hne]
  · refine ⟨.invalidInput, ?_⟩
    simp [insert, Run.bind_apply, Res.mapErr, Res.fail, hactual]

theorem insert_of_eq (h : input.input.inputCommitment H = .ok commitment) :
    insert H commitment input registry = insertInner commitment input registry := by
  simp [insert, Run.bind_apply, Run.refuse, Res.refuse, Res.mapErr, h]

theorem insert_held (h : input.input.inputCommitment H = .ok commitment)
    (hheld : registry.get commitment = some held) :
    insert H commitment input registry =
      (if held.input = input.input then .ok () else Res.fail (.conflictingInput commitment), registry) := by
  rw [insert_of_eq h, insertInner, get_eq_some.mp hheld]
  by_cases hsame : held.input = input.input
  · simp [hsame]
  · simp [hsame]

theorem insert_new (h : input.input.inputCommitment H = .ok commitment)
    (hnew : registry.get commitment = none) :
    insert H commitment input registry = (.ok (), registry.pushBack (commitment, input)) := by
  rw [insert_of_eq h, insertInner, get_eq_none.mp hnew]

/-- What an insertion does: a new entry, an identical one, or a refusal. -/
theorem insert_cases (commitment : Bytes32) (input : BoundExecutionInput)
    (registry : UnicityBlockExecutionRegistry) :
    (input.input.inputCommitment H = .ok commitment ∧ registry.get commitment = none ∧
      insert H commitment input registry = (.ok (), registry.pushBack (commitment, input))) ∨
    (∃ held, registry.get commitment = some held ∧ held.input = input.input ∧
      insert H commitment input registry = (.ok (), registry)) ∨
    ∃ e, insert H commitment input registry = (Res.fail e, registry) ∧
      (input.input.inputCommitment H ≠ .ok commitment ∨
        ∃ held, registry.get commitment = some held ∧ held.input ≠ input.input) := by
  by_cases h : input.input.inputCommitment H = .ok commitment
  · cases hheld : registry.get commitment with
    | none => exact .inl ⟨h, rfl, insert_new h hheld⟩
    | some held =>
      by_cases hsame : held.input = input.input
      · exact .inr (.inl ⟨held, rfl, hsame, by rw [insert_held h hheld, if_pos hsame]⟩)
      · exact .inr (.inr ⟨_, by rw [insert_held h hheld, if_neg hsame], .inr ⟨held, rfl, hsame⟩⟩)
  · obtain ⟨e, he⟩ := insert_of_ne registry h
    exact .inr (.inr ⟨e, he, .inl h⟩)

/-- Whatever the answer, the registry either takes a new entry or is as before. -/
theorem run_eq (call : Call) :
    call.run H registry = (call.offer H).foldl (Fifo.enroll Prod.fst) registry := by
  cases call with
  | get _ => rfl
  | insert commitment input =>
    by_cases h : input.input.inputCommitment H = .ok commitment
    · simp only [Call.run, Call.offer, Res.value?_eq_some.mpr h, if_true, List.foldl_cons, List.foldl_nil,
        Fifo.enroll]
      cases hheld : registry.get commitment with
      | none => rw [insert_new h hheld, if_pos (get_eq_none.mp hheld)]
      | some held => rw [insert_held h hheld, get_eq_some.mp hheld, if_neg (Option.some_ne_none _)]
    · obtain ⟨e, he⟩ := insert_of_ne registry h
      have hoffer : Call.offer H (.insert commitment input) = [] :=
        if_neg fun hvalue => h (Res.value?_eq_some.mp hvalue)
      rw [hoffer, Call.run, he]
      rfl

theorem after_eq (calls : List Call) :
    after H registry calls = (calls.flatMap (Call.offer H)).foldl (Fifo.enroll Prod.fst) registry := by
  induction calls generalizing registry with
  | nil => rfl
  | cons call calls ih =>
    rw [List.flatMap_cons, List.foldl_append, ← run_eq]
    exact ih

/-! ## Runs -/

theorem capacity_after (calls : List Call) : (after H registry calls).capacity = registry.capacity := by
  rw [after_eq, Fifo.capacity_foldl_enroll]

/-- What every call keeps: each key is the commitment of the input under it. -/
def Committed (H : Bytes → Bytes32) (registry : UnicityBlockExecutionRegistry) : Prop :=
  ∀ entry ∈ registry.entries, entry.2.input.inputCommitment H = .ok entry.1

theorem Committed.run (h : Committed H registry) (call : Call) : Committed H (call.run H registry) := by
  cases call with
  | get _ => exact h
  | insert commitment input =>
    by_cases hc : input.input.inputCommitment H = .ok commitment
    · cases hheld : registry.get commitment with
      | none =>
        rw [Call.run, insert_new hc hheld]
        intro entry hentry
        rcases Fifo.mem_pushBack hentry with hmem | rfl
        · exact h entry hmem
        · exact hc
      | some held =>
        rw [Call.run, insert_held hc hheld]
        exact h
    · obtain ⟨e, he⟩ := insert_of_ne registry hc
      rw [Call.run, he]
      exact h

theorem Committed.after (h : Committed H registry) (calls : List Call) :
    Committed H (after H registry calls) := by
  induction calls generalizing registry with
  | nil => exact h
  | cons call calls ih => exact ih (h.run call)

theorem recent_after {log : List (Bytes32 × BoundExecutionInput)} (h : registry.Recent Prod.fst log)
    (calls : List Call) :
    (after H registry calls).Recent Prod.fst (log ++ admitted H registry calls) := by
  rw [after_eq]
  exact h.foldl_enroll _

end UnicityBlockExecutionRegistry

end Ureth.Source.Execution
