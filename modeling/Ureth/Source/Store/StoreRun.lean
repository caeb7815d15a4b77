import Ureth.Foundation.Steps
import Ureth.Foundation.Triple
import Ureth.Foundation.Word64
import Ureth.Source.Store.StoreSpec

/-!
# Runs of the companion store

Any sequence of the store's operations. A call returns what the store's own checks say, or fails
because MDBX does: before the commit, and then nothing of its transaction is kept, or at the sync
after it, and then all of it is. A run of the store is a run of the shelf it represents.
-/

namespace Ureth.Source.Store
open Ureth.Foundation Ureth.Source.Execution

/-- The operations that write. -/
inductive StoreOp where
  | put (hash : Bytes32) (number : UInt64) (companion : SealCompanion)
  | remove (hash : Bytes32)
  | pruneBelow (number : UInt64)
  | setHorizon (number : UInt64)
  | setEvictionCursor (number : UInt64)
  | putAccounting (record : StoredAccounting)
  | pruneAccountingBelow (number : UInt64)

def Shelf.setHorizon (a : Shelf) (number : UInt64) : Shelf := { a with horizon := some number }

namespace StoreOp

def run : StoreOp → Txn Unit
  | .put hash number companion => CompanionStore.put hash number companion
  | .remove hash => CompanionStore.remove hash
  | .pruneBelow number => CompanionStore.pruneBelow number
  | .setHorizon number => CompanionStore.setHorizon number
  | .setEvictionCursor number => CompanionStore.setEvictionCursor number
  | .putAccounting record => CompanionStore.putAccounting record
  | .pruneAccountingBelow number => CompanionStore.pruneAccountingBelow number

/-- What the operation does to the shelf. -/
def effect (a : Shelf) : StoreOp → Shelf
  | .put hash number companion => a.put hash number companion
  | .remove hash => a.remove hash
  | .pruneBelow number => a.pruneBelow number
  | .setHorizon number => a.setHorizon number
  | .setEvictionCursor number => a.setCursor number
  | .putAccounting record => a.putAccounting record
  | .pruneAccountingBelow number => a.pruneAccountingBelow number

/-- When the operation is carried out: a companion has to fit its record, a horizon must not move
back, and a hash has one accounting. -/
def Allowed (a : Shelf) : StoreOp → Prop
  | .put _ _ companion => companion.Framed ∧ companion.layout.length + numberLen < 2 ^ 63
  | .setHorizon number => ∀ current, a.horizon = some current → current ≤ number
  | .putAccounting record => ∀ old, a.accounting record.accounting.blockHash = some old → old = record
  | _ => True

/-- The operations on the accounting; the others are on the companions, the horizon and the cursor. -/
def onAccounting : StoreOp → Bool
  | .putAccounting _ => true
  | .pruneAccountingBelow _ => true
  | _ => false

end StoreOp

/-! ## One operation -/

section Run

variable {s s' : CompanionStore} {a : Shelf}

theorem fits_of_put {hash : Bytes32} {number : UInt64} {companion : SealCompanion}
    (hput : CompanionStore.put hash number companion s = (.ok (), s')) :
    companion.Framed ∧ companion.layout.length + numberLen < 2 ^ 63 := by
  simp only [CompanionStore.put, Run.bind_eq_ok, Run.lift_eq_ok, encode_eq_ok, toVec_eq_ok] at hput
  obtain ⟨record, _, ⟨⟨hframed, hlayout⟩, -⟩, value, _, ⟨hvalue, -⟩, -⟩ := hput
  have hlen := congrArg List.length hvalue
  rw [List.length_append, length_be64, ← hlayout] at hlen
  have hfits := value.property
  rw [numberLen]
  exact ⟨hframed, by omega⟩

theorem Represents.setHorizon (h : Represents s a) {number : UInt64}
    (hallowed : ∀ current, a.horizon = some current → current ≤ number) :
    ∃ t, CompanionStore.setHorizon number s = (.ok (), t) ∧ Represents t (a.setHorizon number) := by
  have hread : query (readMetaNumber horizonKey) s = (.ok a.horizon, s) := by
    rw [query_apply, h.numbers.readHorizon]
  refine ⟨{ s with metadata := s.metadata.insert horizonKey (be64 number) }, transaction_eq_ok.mpr ?_, ?_⟩
  · rw [Run.bind_apply_ok hread]
    cases hz : a.horizon with
    | none => rfl
    | some current =>
      have hle := UInt64.not_lt.mpr (hallowed current hz)
      exact Run.bind_eq_ok.mpr ⟨(), s, Run.refuse_eq_ok.mpr ⟨hle, rfl⟩, rfl⟩
  · exact ⟨⟨h.companions.absent, h.companions.present, h.companions.index⟩,
      ⟨h.accounting.named, h.accounting.record, h.accounting.index⟩, h.numbers.putHorizon rfl⟩

/-- A horizon that would move back is refused, with both numbers. -/
theorem Represents.setHorizon_error (h : Represents s a) {number current : UInt64}
    (hz : a.horizon = some current) (hlt : number < current) :
    CompanionStore.setHorizon number s = (.error (.error (.horizonRegression current number)), s) := by
  have hread : query (readMetaNumber horizonKey) s = (.ok (some current), s) := by
    rw [query_apply, h.numbers.readHorizon, hz]
  unfold CompanionStore.setHorizon transaction
  rw [Run.bind_apply_ok hread]
  simp [Run.bind_apply, Run.refuse, Res.refuse, Res.fail, hlt]

theorem Represents.putAccounting_conflict (h : Represents s a) {record old : StoredAccounting}
    (hold : a.accounting record.accounting.blockHash = some old) (hne : old ≠ record) :
    CompanionStore.putAccounting record s =
      (.error (.error (.corrupt "conflicting accounting for block hash")), s) := by
  have hconflict : ∃ old, a.accounting record.accounting.blockHash = some old ∧ old ≠ record :=
    ⟨old, hold, hne⟩
  have hrefuse := refuseConflict_eq h record
  unfold CompanionStore.putAccounting transaction
  simp only [Run.bind_apply, hrefuse, Res.refuse, if_pos hconflict]
  rfl

/-- An operation the shelf allows takes effect; one it does not allow changes nothing. -/
theorem Represents.run (h : Represents s a) (op : StoreOp) :
    (op.Allowed a ∧ ∃ t, op.run s = (.ok (), t) ∧ Represents t (op.effect a)) ∨
      (¬ op.Allowed a ∧ ∃ e, op.run s = (.error e, s)) := by
  cases op with
  | put hash number companion =>
    rcases hput : CompanionStore.put hash number companion s with ⟨e | ⟨⟩, t⟩
    · refine .inr ⟨?_, e, ?_⟩
      · intro hallowed
        obtain ⟨t', ht'⟩ := h.put_ok hallowed.1 hallowed.2 hash number
        rw [hput] at ht'
        cases (Prod.mk.inj ht').1
      · rw [StoreOp.run, hput, put_error hput]
    · exact .inl ⟨fits_of_put hput, t, hput, h.put hput⟩
  | remove hash => exact .inl ⟨trivial, h.remove hash⟩
  | pruneBelow number => exact .inl ⟨trivial, h.pruneBelow number⟩
  | setHorizon number =>
    by_cases hallowed : StoreOp.Allowed a (.setHorizon number)
    · exact .inl ⟨hallowed, h.setHorizon hallowed⟩
    · refine .inr ⟨hallowed, ?_⟩
      rw [StoreOp.Allowed] at hallowed
      push Not at hallowed
      obtain ⟨current, hz, hlt⟩ := hallowed
      exact ⟨_, h.setHorizon_error hz (UInt64.not_le.mp hlt)⟩
  | setEvictionCursor number => exact .inl ⟨trivial, h.setEvictionCursor number⟩
  | putAccounting record =>
    by_cases hallowed : StoreOp.Allowed a (.putAccounting record)
    · exact .inl ⟨hallowed, h.putAccounting hallowed⟩
    · refine .inr ⟨hallowed, ?_⟩
      rw [StoreOp.Allowed] at hallowed
      push Not at hallowed
      obtain ⟨old, hold, hne⟩ := hallowed
      exact ⟨_, h.putAccounting_conflict hold hne⟩
  | pruneAccountingBelow number => exact .inl ⟨trivial, h.pruneAccountingBelow number⟩

end Run

/-! ## What an operation leaves alone -/

section Frame

variable {α : Type} {I : CompanionStore → Prop} {op : StoreOp}

theorem keeps_query (f : CompanionStore → Res StoreError α) : Run.Keeps I (query f) :=
  Run.keeps_of_state fun _ h => h

theorem keeps_transaction {body : Txn α} (h : Run.Keeps I body) : Run.Keeps I (transaction body) := by
  intro t ht
  refine ⟨fun v u hu => (h t ht).1 v u (transaction_eq_ok.mp hu), fun e u hu => ?_⟩
  have hsame : u = t := by
    have hkept := transaction_error (congrArg Prod.fst hu)
    rwa [hu] at hkept
  rwa [hsame]

theorem keeps_pruneRows {drop : Bytes → CompanionStore → CompanionStore} {reason : String}
    {number : UInt64} (hdrop : ∀ key t, I t → I (drop key t)) (rows : List (Bytes × Unit)) :
    Run.Keeps I (CompanionStore.pruneRows drop reason number rows) := by
  induction rows with
  | nil => exact Run.keeps_pure ()
  | cons r rows ih =>
    refine Run.Triple.bind (Run.keeps_refuse _ _) fun _ => Run.keeps_ite (Run.keeps_pure ()) ?_
    exact Run.Triple.bind (Run.keeps_modify (hdrop _)) fun _ => ih

theorem keeps_dropStaleIndex {hash : Bytes32} {number : UInt64}
    (hindex : ∀ t index, I t → I { t with byNumber := index }) :
    Run.Keeps I (CompanionStore.dropStaleIndex hash number) := by
  refine Run.Triple.bind (keeps_query _) fun existing => ?_
  cases existing with
  | none => exact Run.keeps_pure ()
  | some value =>
    refine Run.Triple.bind (Run.keeps_lift _) fun old => Run.keeps_modify fun t ht => ?_
    split
    · exact hindex t _ ht
    · exact ht

theorem keeps_refuseConflict (record : StoredAccounting) :
    Run.Keeps I (CompanionStore.refuseConflict record) := by
  refine Run.Triple.bind (keeps_query _) fun old => ?_
  cases old with
  | none => exact Run.keeps_pure ()
  | some bytes => exact Run.Triple.bind (Run.keeps_lift _) fun _ => Run.keeps_refuse _ _

/-- The operations on companions, horizon and cursor do not touch the accounting. -/
theorem StoreOp.keeps_accounting (hop : op.onAccounting = false)
    (hcompanions : ∀ t table index, I t → I { t with companions := table, byNumber := index })
    (hmetadata : ∀ t table, I t → I { t with metadata := table }) : Run.Keeps I op.run := by
  have hput (key : Bytes) (number : UInt64) : Run.Keeps I (putMetaNumber key number) :=
    Run.keeps_modify fun t ht => hmetadata t _ ht
  cases op with
  | put hash number companion =>
    refine Run.Triple.bind (Run.keeps_lift _) fun _ => Run.Triple.bind (Run.keeps_lift _) fun _ => ?_
    refine keeps_transaction (Run.Triple.bind (keeps_dropStaleIndex ?_) fun _ => ?_)
    · exact fun t index ht => hcompanions t t.companions index ht
    · exact Run.keeps_modify fun t ht => hcompanions t _ _ ht
  | remove hash =>
    refine keeps_transaction (Run.Triple.bind (keeps_query _) fun existing => ?_)
    cases existing with
    | none => exact Run.keeps_pure ()
    | some value =>
      exact Run.Triple.bind (Run.keeps_lift _) fun _ => Run.keeps_modify fun t ht => hcompanions t _ _ ht
  | pruneBelow number =>
    refine keeps_transaction (Run.Triple.bind (keeps_query _) fun _ =>
      Run.Triple.bind (keeps_query _) fun rows => Run.Triple.bind (keeps_pruneRows ?_ rows) fun _ => hput _ _)
    exact fun key t ht => hcompanions t _ _ ht
  | setHorizon number =>
    refine keeps_transaction (Run.Triple.bind (keeps_query _) fun current => ?_)
    cases current with
    | none => exact hput _ _
    | some current => exact Run.Triple.bind (Run.keeps_refuse _ _) fun _ => hput _ _
  | setEvictionCursor number =>
    exact keeps_transaction (Run.Triple.bind (keeps_query _) fun _ => hput _ _)
  | putAccounting record => cases hop
  | pruneAccountingBelow number => cases hop

/-- The operations on the accounting do not touch the rest. -/
theorem StoreOp.keeps_companions (hop : op.onAccounting = true)
    (haccounting : ∀ t table index, I t → I { t with accounting := table, accountingByNumber := index }) :
    Run.Keeps I op.run := by
  cases op with
  | putAccounting record =>
    exact keeps_transaction (Run.Triple.bind (keeps_refuseConflict record) fun _ =>
      Run.keeps_modify fun t ht => haccounting t _ _ ht)
  | pruneAccountingBelow number =>
    refine keeps_transaction (Run.Triple.bind (keeps_query _) fun rows => keeps_pruneRows ?_ rows)
    exact fun key t ht => haccounting t _ _ ht
  | put hash number companion => cases hop
  | remove hash => cases hop
  | pruneBelow number => cases hop
  | setHorizon number => cases hop
  | setEvictionCursor number => cases hop

end Frame

/-- The accounting tables of two stores are the same. -/
def SameAccounting (s s' : CompanionStore) : Prop :=
  s'.accounting = s.accounting ∧ s'.accountingByNumber = s.accountingByNumber

/-- The companions, the horizon and the cursor of two stores are the same. -/
def SameCompanions (s s' : CompanionStore) : Prop :=
  s'.companions = s.companions ∧ s'.byNumber = s.byNumber ∧ s'.metadata = s.metadata

theorem StoreOp.run_frame (op : StoreOp) (s : CompanionStore) :
    (op.onAccounting = false → SameAccounting s (op.run s).2) ∧
      (op.onAccounting = true → SameCompanions s (op.run s).2) := by
  refine ⟨fun hop => ?_, fun hop => ?_⟩
  · exact (StoreOp.keeps_accounting (I := SameAccounting s) hop (fun _ _ _ h => h) fun _ _ h => h).apply
      ⟨rfl, rfl⟩
  · exact (StoreOp.keeps_companions (I := SameCompanions s) hop fun _ _ _ h => h).apply ⟨rfl, rfl, rfl⟩

/-! ## Runs -/

/-- One call of the store and how it ended. -/
inductive StoreEvent where
  /-- The call returned. -/
  | done (op : StoreOp)
  /-- A check of the store turned the call down. -/
  | refused (op : StoreOp)
  /-- MDBX failed before the commit. -/
  | aborted (op : StoreOp)
  /-- MDBX failed at the sync after the commit. -/
  | unsynced (op : StoreOp)

def StoreEvent.op : StoreEvent → StoreOp
  | .done op => op
  | .refused op => op
  | .aborted op => op
  | .unsynced op => op

inductive StoreStep : CompanionStore → StoreEvent → CompanionStore → Prop
  | done {s s' : CompanionStore} {op : StoreOp} (ran : op.run s = (.ok (), s')) :
      StoreStep s (.done op) s'
  | refused {s s' : CompanionStore} {op : StoreOp} {e : Fault StoreError}
      (ran : op.run s = (.error e, s')) : StoreStep s (.refused op) s'
  | aborted {s : CompanionStore} {op : StoreOp} : StoreStep s (.aborted op) s
  | unsynced {s s' : CompanionStore} {op : StoreOp} (ran : op.run s = (.ok (), s')) :
      StoreStep s (.unsynced op) s'

/-- The calls on the shelf. -/
inductive ShelfStep : Shelf → StoreEvent → Shelf → Prop
  | done {a : Shelf} {op : StoreOp} (allowed : op.Allowed a) : ShelfStep a (.done op) (op.effect a)
  | refused {a : Shelf} {op : StoreOp} (against : ¬ op.Allowed a) : ShelfStep a (.refused op) a
  | aborted {a : Shelf} {op : StoreOp} : ShelfStep a (.aborted op) a
  | unsynced {a : Shelf} {op : StoreOp} (allowed : op.Allowed a) : ShelfStep a (.unsynced op) (op.effect a)

variable {s s' : CompanionStore} {a b : Shelf} {op : StoreOp} {event : StoreEvent}

theorem Represents.ran_ok (h : Represents s a) (hran : op.run s = (.ok (), s')) :
    op.Allowed a ∧ Represents s' (op.effect a) := by
  rcases h.run op with ⟨hallowed, t, ht, hrep⟩ | ⟨-, e, he⟩
  · rw [hran] at ht
    obtain ⟨-, rfl⟩ := Prod.mk.inj ht
    exact ⟨hallowed, hrep⟩
  · rw [hran] at he
    cases (Prod.mk.inj he).1

theorem Represents.ran_error (h : Represents s a) {e : Fault StoreError}
    (hran : op.run s = (.error e, s')) : ¬ op.Allowed a ∧ s' = s := by
  rcases h.run op with ⟨-, t, ht, -⟩ | ⟨hagainst, e', he⟩
  · rw [hran] at ht
    cases (Prod.mk.inj ht).1
  · rw [hran] at he
    exact ⟨hagainst, (Prod.mk.inj he).2⟩

/-- A call of the store is the call of the shelf it represents. -/
theorem Represents.step (h : Represents s a) (hstep : StoreStep s event s') :
    ∃ b, ShelfStep a event b ∧ Represents s' b := by
  cases hstep with
  | done ran =>
    obtain ⟨hallowed, hrep⟩ := h.ran_ok ran
    exact ⟨_, .done hallowed, hrep⟩
  | refused ran =>
    obtain ⟨hagainst, rfl⟩ := h.ran_error ran
    exact ⟨a, .refused hagainst, h⟩
  | aborted => exact ⟨a, .aborted, h⟩
  | unsynced ran =>
    obtain ⟨hallowed, hrep⟩ := h.ran_ok ran
    exact ⟨_, .unsynced hallowed, hrep⟩

theorem Represents.steps (h : Represents s a) {events : List StoreEvent}
    (hrun : Steps StoreStep s events s') : ∃ b, Steps ShelfStep a events b ∧ Represents s' b := by
  induction hrun with
  | nil => exact ⟨a, .nil a, h⟩
  | snoc _ last ih =>
    obtain ⟨b, hsteps, hrep⟩ := ih
    obtain ⟨c, hstep, hrep'⟩ := hrep.step last
    exact ⟨c, .snoc hsteps hstep, hrep'⟩

theorem StoreStep.frame (hstep : StoreStep s event s') :
    (event.op.onAccounting = false → SameAccounting s s') ∧
      (event.op.onAccounting = true → SameCompanions s s') := by
  have hran {op : StoreOp} {r : Res StoreError Unit} (ran : op.run s = (r, s')) :
      (op.onAccounting = false → SameAccounting s s') ∧ (op.onAccounting = true → SameCompanions s s') := by
    have hframe := op.run_frame s
    rwa [ran] at hframe
  cases hstep with
  | done ran => exact hran ran
  | refused ran => exact hran ran
  | aborted => exact ⟨fun _ => ⟨rfl, rfl⟩, fun _ => ⟨rfl, rfl, rfl⟩⟩
  | unsynced ran => exact hran ran

/-! ## Published numbers -/

/-- A published number that has not moved back; one not published is below all others. -/
def NoLower (old new : Option UInt64) : Prop := ∀ n, old = some n → ∃ m, new = some m ∧ n ≤ m

theorem NoLower.refl (x : Option UInt64) : NoLower x x := fun n hn => ⟨n, hn, UInt64.le_refl n⟩

theorem NoLower.trans {x y z : Option UInt64} (hxy : NoLower x y) (hyz : NoLower y z) : NoLower x z := by
  intro n hn
  obtain ⟨m, hm, hnm⟩ := hxy n hn
  obtain ⟨k, hk, hmk⟩ := hyz m hm
  exact ⟨k, hk, UInt64.le_trans hnm hmk⟩

theorem noLower_raised (x : Option UInt64) (number : UInt64) :
    NoLower x (some (CompanionStore.raised x number)) := by
  intro n hn
  subst hn
  refine ⟨_, rfl, ?_⟩
  rw [CompanionStore.raised, UInt64.le_iff_toNat_le, toNat_max]
  exact le_max_left _ _

theorem StoreOp.noLower (hallowed : op.Allowed a) :
    NoLower a.horizon (op.effect a).horizon ∧ NoLower a.cursor (op.effect a).cursor := by
  cases op with
  | pruneBelow number => exact ⟨noLower_raised _ _, .refl _⟩
  | setHorizon number => exact ⟨fun n hn => ⟨number, rfl, hallowed n hn⟩, .refl _⟩
  | setEvictionCursor number => exact ⟨.refl _, noLower_raised _ _⟩
  | put hash number companion => exact ⟨.refl _, .refl _⟩
  | remove hash => exact ⟨.refl _, .refl _⟩
  | putAccounting record => exact ⟨.refl _, .refl _⟩
  | pruneAccountingBelow number => exact ⟨.refl _, .refl _⟩

theorem ShelfStep.noLower (hstep : ShelfStep a event b) :
    NoLower a.horizon b.horizon ∧ NoLower a.cursor b.cursor := by
  cases hstep with
  | done allowed => exact StoreOp.noLower allowed
  | refused => exact ⟨.refl _, .refl _⟩
  | aborted => exact ⟨.refl _, .refl _⟩
  | unsynced allowed => exact StoreOp.noLower allowed

theorem ShelfSteps.noLower {events : List StoreEvent} (hrun : Steps ShelfStep a events b) :
    NoLower a.horizon b.horizon ∧ NoLower a.cursor b.cursor := by
  induction hrun with
  | nil => exact ⟨.refl _, .refl _⟩
  | snoc _ last ih => exact ⟨ih.1.trans last.noLower.1, ih.2.trans last.noLower.2⟩

end Ureth.Source.Store
