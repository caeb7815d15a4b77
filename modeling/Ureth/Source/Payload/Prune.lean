import Ureth.Foundation.Steps
import Ureth.Foundation.Word64
import Ureth.Source.Store.StoreSpec

/-!
# Companion retention

One retention pass over the companion store: eviction of the companions that are not
canonical at or below finality, pruning below the configured depth, and pruning of the
accounting behind the persisted frontier. The node's chain is asked through a reader whose
answers may change from one question to the next.

A pass is not one transaction, so blocks may be stored between any two of its steps. The
second half gives the pass of the eviction as a transition system with exactly those
interleavings.
-/

namespace Ureth.Source.Payload
open Ureth.Foundation Ureth.Source.Execution Ureth.Source.Store

/-- What retention asks of the node's chain. -/
structure ChainReader (π : Type) where
  finalizedBlockNumber : Run π String (Option UInt64)
  blockHash : UInt64 → Run π String (Option Bytes32)
  lastBlockNumber : Run π String UInt64

inductive CompanionPruneError where
  | store (reason : StoreError)
  | provider (reason : String)
  deriving DecidableEq

def accountingWindow : UInt64 := 16
def defaultRepairLimit : UInt64 := 64

/-- The start-up check of the retention depth against the repair limit. -/
def validateRetention (companionRetentionDepth : Option UInt64) (accountingRepairLimit : UInt64) :
    Res String Unit :=
  match companionRetentionDepth with
  | none => .ok ()
  | some depth => do
    let required ← Res.okOr "accounting repair limit is too large for companion retention"
      (addWithin accountingWindow accountingRepairLimit)
    Res.refuse (¬ depth ≥ required)
      s!"--unicity.companion-retention-depth ({depth}) must be at least accounting window + repair limit ({required})"

structure CompanionPruner (π : Type) where
  provider : ChainReader π
  depth : Option UInt64
  repairLimit : UInt64

abbrev Pass (π α : Type) := Run (π × CompanionStore) CompanionPruneError α

section

variable {π α : Type}

def ask (question : Run π String α) : Pass π α := fun s =>
  ((question s.1).1.mapErr .provider, ((question s.1).2, s.2))

def onStore (txn : Txn α) : Pass π α := fun s =>
  ((txn s.2).1.mapErr .store, (s.1, (txn s.2).2))

end

namespace CompanionPruner

variable {π : Type}

/-- The answer for one entry: only an affirmative mismatch drops it, and the lowest number
without an answer is remembered. -/
def evictEntry (unresolved : Option UInt64) (hash : Bytes32) (number : UInt64) :
    Option Bytes32 → Pass π (Option UInt64)
  | some canonical => do
    if canonical ≠ hash then onStore (CompanionStore.remove hash) else pure ()
    return unresolved
  | none => return unresolved.or (some number)

def evictEntries (provider : ChainReader π) :
    List (Bytes32 × UInt64) → Option UInt64 → Pass π (Option UInt64)
  | [], unresolved => return unresolved
  | (hash, number) :: rest, unresolved => do
    let canonical ← ask (provider.blockHash number)
    let unresolved ← evictEntry unresolved hash number canonical
    evictEntries provider rest unresolved

/-- The pass below `stop`, from the durable cursor on. -/
def evictBelow (provider : ChainReader π) (stop : UInt64) : Pass π Unit := do
  let cursor ← onStore (query CompanionStore.evictionCursor)
  let start := cursor.getD 0
  if start ≥ stop then return ()
  else do
    let entries ← onStore (query (CompanionStore.entriesInRange start stop))
    let unresolved ← evictEntries provider entries none
    let next := unresolved.getD stop
    if next ≠ start then onStore (CompanionStore.setEvictionCursor next) else pure ()

def evictNonCanonical (pruner : CompanionPruner π) : Pass π Unit := do
  match ← ask pruner.provider.finalizedBlockNumber with
  | none => return ()
  | some finalized => evictBelow pruner.provider (satAdd finalized 1)

def pruneToDepth (pruner : CompanionPruner π) (tip : UInt64) : Pass π Unit :=
  match pruner.depth with
  | none => return ()
  | some depth => onStore (CompanionStore.pruneBelow (satSub tip depth))

def pruneAccounting (pruner : CompanionPruner π) : Pass π Unit := do
  let persisted ← ask pruner.provider.lastBlockNumber
  onStore (CompanionStore.pruneAccountingBelow
    (satSub persisted (satAdd accountingWindow pruner.repairLimit)))

/-- One retention pass. The accounting is pruned whatever became of the companions, and the
companions' error is the one that is reported. -/
def pruneOnce (pruner : CompanionPruner π) (tip : UInt64) : Pass π Unit := fun s =>
  let companions := (do evictNonCanonical pruner; pruneToDepth pruner tip : Pass π Unit) s
  match companions.1 with
  | .error .panic => companions
  | result =>
    let accounting := pruneAccounting pruner companions.2
    ((do result; accounting.1), accounting.2)

end CompanionPruner

/-! ## What a pass does to the shelf -/

/-- The store holds a companion of `hash` under block number `number`. -/
def HoldsAt (s : CompanionStore) (hash : Bytes32) (number : UInt64) : Prop :=
  ∃ value, s.companions.find hash.val = some value ∧ storedNumber value.val = .ok number

theorem holdsAt_iff {s : CompanionStore} {a : Shelf} (h : Represents s a) {hash : Bytes32}
    {number : UInt64} : HoldsAt s hash number ↔ ∃ c, a.companions hash = some (number, c) := by
  constructor
  · rintro ⟨value, hfind, hnumber⟩
    cases he : a.companions hash with
    | none =>
      rw [h.companions.absent hash he] at hfind
      cases hfind
    | some e =>
      obtain ⟨value', hfind', hvalue⟩ := h.companions.present hash e he
      obtain rfl : value' = value := Option.some.inj (hfind'.symm.trans hfind)
      rw [hvalue.storedNumber, Except.ok.injEq] at hnumber
      exact ⟨e.2, by rw [← hnumber]⟩
  · rintro ⟨c, he⟩
    obtain ⟨value, hfind, hvalue⟩ := h.companions.present hash _ he
    exact ⟨value, hfind, hvalue.storedNumber⟩

/-- The answers of the reader never name a hash other than the one at that number. -/
def ChainReader.Truthful {π : Type} (provider : ChainReader π) (canon : UInt64 → Bytes32) : Prop :=
  ∀ n p h, (provider.blockHash n p).1 = .ok (some h) → h = canon n

/-! ## The eviction as a transition system -/

/-- A pass under way: what it was begun with, the entries it has still to ask about, and
the lowest number it had no answer for. -/
structure Scan where
  finalized : UInt64
  start : UInt64
  rest : List (Bytes32 × UInt64)
  unresolved : Option UInt64

def Scan.stop (scan : Scan) : UInt64 := satAdd scan.finalized 1

/-- The number the cursor is set to at the end of the pass. -/
def Scan.next (scan : Scan) : UInt64 := scan.unresolved.getD scan.stop

inductive Phase where
  | idle
  | scanning (scan : Scan)
  | dropping (hash : Bytes32) (number : UInt64) (scan : Scan)

structure EvictionState where
  store : CompanionStore
  phase : Phase

inductive EvictionLabel where
  | put (hash : Bytes32) (number : UInt64) (companion : SealCompanion)
  | begun (finalized : UInt64)
  | answered
  | dropped
  | failed
  | passed (finalized : UInt64) (resolved : Bool)

/-- One step of the pruner or of a block being stored. The canonical hashes of the finalized
numbers are fixed; whether the provider has an answer is not. -/
inductive EvictionStep (canon : UInt64 → Bytes32) :
    EvictionState → EvictionLabel → EvictionState → Prop
  | put {s s' : CompanionStore} {phase : Phase} {hash : Bytes32} {number : UInt64}
      {companion : SealCompanion}
      (stored : CompanionStore.put hash number companion s = (.ok (), s')) :
      EvictionStep canon ⟨s, phase⟩ (.put hash number companion) ⟨s', phase⟩
  | skipped {s : CompanionStore} {cursor : Option UInt64} {finalized : UInt64}
      (read : CompanionStore.evictionCursor s = .ok cursor)
      (done : cursor.getD 0 ≥ satAdd finalized 1) :
      EvictionStep canon ⟨s, .idle⟩ (.passed finalized true) ⟨s, .idle⟩
  | begun {s : CompanionStore} {cursor : Option UInt64} {finalized : UInt64}
      {entries : List (Bytes32 × UInt64)}
      (read : CompanionStore.evictionCursor s = .ok cursor)
      (below : ¬ cursor.getD 0 ≥ satAdd finalized 1)
      (listed : CompanionStore.entriesInRange (cursor.getD 0) (satAdd finalized 1) s = .ok entries) :
      EvictionStep canon ⟨s, .idle⟩ (.begun finalized)
        ⟨s, .scanning ⟨finalized, cursor.getD 0, entries, none⟩⟩
  | kept {s : CompanionStore} {f st n : UInt64} {h : Bytes32} {rest : List (Bytes32 × UInt64)}
      {u : Option UInt64} (same : canon n = h) :
      EvictionStep canon ⟨s, .scanning ⟨f, st, (h, n) :: rest, u⟩⟩ .answered
        ⟨s, .scanning ⟨f, st, rest, u⟩⟩
  | mismatched {s : CompanionStore} {f st n : UInt64} {h : Bytes32}
      {rest : List (Bytes32 × UInt64)} {u : Option UInt64} (differs : canon n ≠ h) :
      EvictionStep canon ⟨s, .scanning ⟨f, st, (h, n) :: rest, u⟩⟩ .answered
        ⟨s, .dropping h n ⟨f, st, rest, u⟩⟩
  | missed {s : CompanionStore} {f st n : UInt64} {h : Bytes32} {rest : List (Bytes32 × UInt64)}
      {u : Option UInt64} :
      EvictionStep canon ⟨s, .scanning ⟨f, st, (h, n) :: rest, u⟩⟩ .answered
        ⟨s, .scanning ⟨f, st, rest, u.or (some n)⟩⟩
  | dropped {s s' : CompanionStore} {h : Bytes32} {n : UInt64} {scan : Scan}
      (removed : CompanionStore.remove h s = (.ok (), s')) :
      EvictionStep canon ⟨s, .dropping h n scan⟩ .dropped ⟨s', .scanning scan⟩
  | advanced {s s' : CompanionStore} {scan : Scan} (last : scan.rest = [])
      (moves : scan.next ≠ scan.start)
      (written : CompanionStore.setEvictionCursor scan.next s = (.ok (), s')) :
      EvictionStep canon ⟨s, .scanning scan⟩ (.passed scan.finalized scan.unresolved.isNone)
        ⟨s', .idle⟩
  | stayed {s : CompanionStore} {scan : Scan} (last : scan.rest = [])
      (stays : scan.next = scan.start) :
      EvictionStep canon ⟨s, .scanning scan⟩ (.passed scan.finalized scan.unresolved.isNone)
        ⟨s, .idle⟩
  | failed {s : CompanionStore} {phase : Phase} :
      EvictionStep canon ⟨s, phase⟩ .failed ⟨s, .idle⟩

/-- A step that stores no block. -/
def QuietStep (canon : UInt64 → Bytes32) (st : EvictionState) (label : EvictionLabel)
    (st' : EvictionState) : Prop :=
  EvictionStep canon st label st' ∧ ∀ h n c, label ≠ .put h n c

section Refinement

variable {π : Type} {provider : ChainReader π} {canon : UInt64 → Bytes32}

theorem ask_apply {α : Type} (question : Run π String α) (p : π) (s : CompanionStore) :
    ask question (p, s) = ((question p).1.mapErr .provider, ((question p).2, s)) := rfl

theorem onStore_apply {α : Type} (txn : Txn α) (p : π) (s : CompanionStore) :
    (onStore txn : Pass π α) (p, s) = ((txn s).1.mapErr .store, (p, (txn s).2)) := rfl

theorem onStore_eq_ok {α : Type} {txn : Txn α} {p p' : π} {s s' : CompanionStore} {v : α} :
    (onStore txn : Pass π α) (p, s) = (.ok v, (p', s')) ↔ txn s = (.ok v, s') ∧ p' = p := by
  rw [onStore_apply]
  constructor
  · intro h
    simp only [Prod.mk.injEq, Res.mapErr_eq_ok] at h
    exact ⟨Prod.ext h.1 h.2.2, h.2.1.symm⟩
  · rintro ⟨h, rfl⟩
    rw [h]
    rfl

theorem EvictionStep.represents {st st' : EvictionState} {label : EvictionLabel} {a : Shelf}
    (hstep : EvictionStep canon st label st') (hst : Represents st.store a) :
    ∃ b, Represents st'.store b := by
  cases hstep with
  | put stored => exact ⟨_, hst.put stored⟩
  | @dropped s s' h n scan removed =>
    obtain ⟨t, ht, hrep⟩ := hst.remove h
    obtain rfl : t = s' := (Prod.mk.inj (ht.symm.trans removed)).2
    exact ⟨_, hrep⟩
  | @advanced s s' scan last moves written =>
    obtain ⟨t, ht, hrep⟩ := hst.setEvictionCursor scan.next
    obtain rfl : t = s' := (Prod.mk.inj (ht.symm.trans written)).2
    exact ⟨_, hrep⟩
  | skipped => exact ⟨a, hst⟩
  | begun => exact ⟨a, hst⟩
  | kept => exact ⟨a, hst⟩
  | mismatched => exact ⟨a, hst⟩
  | missed => exact ⟨a, hst⟩
  | stayed => exact ⟨a, hst⟩
  | failed => exact ⟨a, hst⟩

/-- The phase a loop over the entries ends in. -/
def scanned (f st : UInt64) : Res CompanionPruneError (Option UInt64) → Phase
  | .ok u => .scanning ⟨f, st, [], u⟩
  | .error _ => .idle

/-- The answers of a loop over the entries are steps of the system, to the end of the entries
or to a failure. -/
theorem evictEntries_steps (htrue : provider.Truthful canon) (f st : UInt64)
    {entries : List (Bytes32 × UInt64)} {u : Option UInt64} {p p' : π} {s s' : CompanionStore}
    {r : Res CompanionPruneError (Option UInt64)} {a : Shelf} (hs : Represents s a)
    (hrun : CompanionPruner.evictEntries provider entries u (p, s) = (r, (p', s'))) :
    ∃ ls, Steps (QuietStep canon) ⟨s, .scanning ⟨f, st, entries, u⟩⟩ ls ⟨s', scanned f st r⟩ := by
  induction entries generalizing u p s a with
  | nil =>
    obtain ⟨rfl, -, rfl⟩ : .ok u = r ∧ p = p' ∧ s = s' := by
      simpa [CompanionPruner.evictEntries] using hrun
    exact ⟨[], .nil _⟩
  | cons x rest ih =>
    obtain ⟨h, n⟩ := x
    rw [CompanionPruner.evictEntries, Run.bind_eq] at hrun
    rcases hrun with ⟨canonical, ⟨p1, s1⟩, hask, hrun⟩ | ⟨e, hask, rfl⟩
    · simp only [ask_apply, Prod.mk.injEq, Res.mapErr_eq_ok] at hask
      obtain ⟨hanswer, rfl, rfl⟩ := hask
      cases canonical with
      | none =>
        obtain ⟨ls, hsteps⟩ := ih hs hrun
        exact ⟨_, .cons ⟨.missed, by simp⟩ hsteps⟩
      | some c =>
        obtain rfl := htrue _ _ _ hanswer
        by_cases hne : canon n ≠ h
        · obtain ⟨t, ht, hrep⟩ := hs.remove h
          have hrun' : CompanionPruner.evictEntries provider rest u
              ((provider.blockHash n p).2, t) = (r, (p', s')) := by
            rw [← hrun]
            simp only [CompanionPruner.evictEntry, if_pos hne]
            rw [Run.bind_apply_ok (Run.bind_eq_ok.mpr ⟨(), _, onStore_eq_ok.mpr ⟨ht, rfl⟩, rfl⟩)]
          obtain ⟨ls, hsteps⟩ := ih hrep hrun'
          exact ⟨_, .cons ⟨.mismatched hne, by simp⟩ (.cons ⟨.dropped ht, by simp⟩ hsteps)⟩
        · have hrun' : CompanionPruner.evictEntries provider rest u
              ((provider.blockHash n p).2, s) = (r, (p', s')) := by
            rw [← hrun]
            simp only [CompanionPruner.evictEntry, if_neg hne]
            rfl
          obtain ⟨ls, hsteps⟩ := ih hs hrun'
          exact ⟨_, .cons ⟨.kept (not_not.mp hne), by simp⟩ hsteps⟩
    · obtain rfl : s = s' := (Prod.mk.inj (Prod.mk.inj hask).2).2
      exact ⟨_, .single ⟨.failed, by simp⟩⟩

/-- A pass that runs without a block being stored meanwhile is a run of the system. A
successful one ends with the step that says so. -/
theorem evictBelow_steps (htrue : provider.Truthful canon) {f : UInt64} {p p' : π}
    {s s' : CompanionStore} {r : Res CompanionPruneError Unit} {a : Shelf} (hs : Represents s a)
    (hrun : CompanionPruner.evictBelow provider (satAdd f 1) (p, s) = (r, (p', s'))) :
    ∃ ls, Steps (QuietStep canon) ⟨s, .idle⟩ ls ⟨s', .idle⟩ ∧
      (r = .ok () → ∃ resolved, ls.getLast? = some (.passed f resolved)) := by
  have hcursor : CompanionStore.evictionCursor s = .ok a.cursor := hs.numbers.readCursor
  obtain ⟨entries, hentries, -⟩ := hs.entriesInRange (a.cursor.getD 0) (satAdd f 1)
  rw [CompanionPruner.evictBelow, Run.bind_apply_ok (onStore_eq_ok.mpr
    ⟨show query CompanionStore.evictionCursor s = (.ok a.cursor, s) by rw [query, hcursor], rfl⟩)] at hrun
  by_cases hdone : a.cursor.getD 0 ≥ satAdd f 1
  · simp only [if_pos hdone] at hrun
    obtain ⟨rfl, -, rfl⟩ : .ok () = r ∧ p = p' ∧ s = s' := by simpa using hrun
    exact ⟨_, .single ⟨.skipped hcursor hdone, by simp⟩, fun _ => ⟨_, rfl⟩⟩
  · simp only [if_neg hdone] at hrun
    rw [Run.bind_apply_ok (onStore_eq_ok.mpr
      ⟨show query (CompanionStore.entriesInRange _ _) s = (.ok entries, s) by rw [query, hentries], rfl⟩),
      Run.bind_eq] at hrun
    have hbegun : QuietStep canon ⟨s, .idle⟩ (.begun f)
        ⟨s, .scanning ⟨f, a.cursor.getD 0, entries, none⟩⟩ :=
      ⟨.begun hcursor hdone hentries, by simp⟩
    rcases hrun with ⟨u, ⟨p1, s1⟩, hloop, hrun⟩ | ⟨e, hloop, rfl⟩
    · obtain ⟨ls, hsteps⟩ := evictEntries_steps htrue f (a.cursor.getD 0) hs hloop
      obtain ⟨b, hrep⟩ : ∃ b, Represents s1 b :=
        hsteps.invariant (I := fun st => ∃ b, Represents st.store b)
          (fun _ _ _ ⟨_, hb⟩ hstep => hstep.1.represents hb) ⟨a, hs⟩
      by_cases hmoves : u.getD (satAdd f 1) ≠ a.cursor.getD 0
      · simp only [if_pos hmoves] at hrun
        obtain ⟨t, ht, -⟩ := hrep.setEvictionCursor (u.getD (satAdd f 1))
        rw [onStore_eq_ok.mpr ⟨ht, rfl⟩] at hrun
        obtain ⟨-, -, rfl⟩ : .ok () = r ∧ p1 = p' ∧ t = s' := by simpa using hrun
        have hlast : QuietStep canon ⟨s1, scanned f (a.cursor.getD 0) (.ok u)⟩
            (.passed f u.isNone) ⟨t, .idle⟩ := ⟨.advanced rfl hmoves ht, by simp⟩
        exact ⟨.begun f :: (ls ++ [.passed f u.isNone]), .cons hbegun (.snoc hsteps hlast),
          fun _ => ⟨u.isNone, by simp [List.getLast?_cons]⟩⟩
      · simp only [if_neg hmoves] at hrun
        obtain ⟨-, -, rfl⟩ : .ok () = r ∧ p1 = p' ∧ s1 = s' := by simpa using hrun
        have hlast : QuietStep canon ⟨s1, scanned f (a.cursor.getD 0) (.ok u)⟩
            (.passed f u.isNone) ⟨s1, .idle⟩ := ⟨.stayed rfl (not_not.mp hmoves), by simp⟩
        exact ⟨.begun f :: (ls ++ [.passed f u.isNone]), .cons hbegun (.snoc hsteps hlast),
          fun _ => ⟨u.isNone, by simp [List.getLast?_cons]⟩⟩
    · obtain ⟨ls, hsteps⟩ := evictEntries_steps htrue f (a.cursor.getD 0) hs hloop
      exact ⟨_, .cons hbegun hsteps, by simp⟩

theorem evictNonCanonical_steps {pruner : CompanionPruner π} (htrue : pruner.provider.Truthful canon)
    {p p' : π} {s s' : CompanionStore} {r : Res CompanionPruneError Unit} {a : Shelf}
    (hs : Represents s a)
    (hrun : CompanionPruner.evictNonCanonical pruner (p, s) = (r, (p', s'))) :
    ∃ ls, Steps (QuietStep canon) ⟨s, .idle⟩ ls ⟨s', .idle⟩ := by
  rw [CompanionPruner.evictNonCanonical, Run.bind_eq] at hrun
  rcases hrun with ⟨finalized, ⟨p1, s1⟩, hask, hrun⟩ | ⟨e, hask, rfl⟩
  · obtain rfl : s = s1 := (Prod.mk.inj (Prod.mk.inj hask).2).2
    cases finalized with
    | none =>
      obtain ⟨-, -, rfl⟩ : .ok () = r ∧ p1 = p' ∧ s = s' := by simpa using hrun
      exact ⟨[], .nil _⟩
    | some f =>
      obtain ⟨ls, hsteps, -⟩ := evictBelow_steps htrue hs hrun
      exact ⟨ls, hsteps⟩
  · obtain rfl : s = s' := (Prod.mk.inj (Prod.mk.inj hask).2).2
    exact ⟨[], .nil _⟩

end Refinement

end Ureth.Source.Payload
