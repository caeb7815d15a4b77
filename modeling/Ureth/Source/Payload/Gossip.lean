import Ureth.Foundation.Steps

/-!
# The gossip gate

The network reports `Idle` only through a gate that the authenticated seal methods open. The
gate's flag is read and the network's state written in separate steps, by the calls of `open`,
by the construction of the network and by the launcher's calls of `update_sync_state`; a step of
the system is one load, one swap, one lock operation or one update of the inner state.
-/

namespace Ureth.Source.Payload.Gossip
open Ureth.Foundation

inductive SyncState
  | idle
  | syncing
  deriving DecidableEq, Repr

/-- What the wrapped handle keeps about synchronisation. -/
structure NetworkHandle where
  isSyncing : Bool
  initialSyncDone : Bool
  deriving DecidableEq, Repr

namespace NetworkHandle

def updateSyncState (handle : NetworkHandle) (state : SyncState) : NetworkHandle where
  isSyncing := state ≠ .idle
  initialSyncDone := handle.initialSyncDone || (handle.isSyncing && state = .idle)

/-- What the transaction manager asks before it takes gossip. -/
def isInitiallySyncing (handle : NetworkHandle) : Bool :=
  if handle.initialSyncDone then false else handle.isSyncing

end NetworkHandle

/-- Where a call of `GossipGate::open` stands. -/
inductive OpenCall
  | ready
  /-- The swap found the gate closed. -/
  | swapped
  | locked
  /-- The callback, if there is one, has run; the lock is still held. -/
  | called
  /-- The flag says whether this call is the one that opened the gate. -/
  | returned (first : Bool)
  deriving DecidableEq, Repr

/-- Where `TxGossipNetwork::new` stands. -/
inductive Construction
  | ready
  /-- The gate was closed when it was asked. -/
  | closed
  /-- In `on_open`, before its lock. -/
  | registering
  | locked
  /-- The gate was open under the lock: the callback runs at once. -/
  | running
  | storing
  | returned
  deriving DecidableEq, Repr

/-- Where a call of `update_sync_state` stands. -/
inductive UpdateCall
  | ready
  | checked (isOpen : Bool)
  | returned
  deriving DecidableEq, Repr

/-- Who holds the lock of the callback's slot. -/
inductive Holder
  | opener (i : Nat)
  | construction
  deriving DecidableEq, Repr

structure GateState where
  /-- `GateInner::open`. -/
  opened : Bool
  /-- Whether a callback is in the slot of `GateInner::on_open`. -/
  onOpen : Bool
  lock : Option Holder
  handle : NetworkHandle
  opens : Nat → OpenCall
  construction : Construction
  updates : Nat → UpdateCall

/-- A new gate over a network handle; nothing is under way. -/
def GateState.start (handle : NetworkHandle) : GateState where
  opened := false
  onOpen := false
  lock := none
  handle := handle
  opens _ := .ready
  construction := .ready
  updates _ := .ready

/-- What a step shows: the gate opens, the network's state is set, or neither. -/
inductive GateLabel
  | opens
  | sets (state : SyncState)
  | silent
  deriving DecidableEq, Repr

inductive GateStep : GateState → GateLabel → GateState → Prop
  /-- `open`: the swap, by the first call. -/
  | swapFirst {s : GateState} (i : Nat) (ready : s.opens i = .ready) (closed : s.opened = false) :
      GateStep s .opens
        { s with opened := true, opens := Function.update s.opens i .swapped }
  /-- `open`: the swap, by any later call, which returns. -/
  | swapLater {s : GateState} (i : Nat) (ready : s.opens i = .ready) (isOpen : s.opened = true) :
      GateStep s .silent { s with opens := Function.update s.opens i (.returned false) }
  | openLock {s : GateState} (i : Nat) (swapped : s.opens i = .swapped) (free : s.lock = none) :
      GateStep s .silent
        { s with lock := some (.opener i), opens := Function.update s.opens i .locked }
  /-- `open`: the slot has a callback, which sets the network `Idle`. -/
  | openCall {s : GateState} (i : Nat) (locked : s.opens i = .locked) (registered : s.onOpen = true) :
      GateStep s (.sets .idle)
        { s with
          handle := s.handle.updateSyncState .idle
          opens := Function.update s.opens i .called }
  | openSkip {s : GateState} (i : Nat) (locked : s.opens i = .locked) (empty : s.onOpen = false) :
      GateStep s .silent { s with opens := Function.update s.opens i .called }
  | openUnlock {s : GateState} (i : Nat) (called : s.opens i = .called) :
      GateStep s .silent
        { s with lock := none, opens := Function.update s.opens i (.returned true) }
  /-- `new`: the gate's flag. -/
  | newCheck {s : GateState} (ready : s.construction = .ready) :
      GateStep s .silent
        { s with construction := if s.opened then .registering else .closed }
  | newForward {s : GateState} (closed : s.construction = .closed) :
      GateStep s (.sets .syncing)
        { s with
          handle := s.handle.updateSyncState .syncing
          construction := .registering }
  | newLock {s : GateState} (registering : s.construction = .registering) (free : s.lock = none) :
      GateStep s .silent { s with lock := some .construction, construction := .locked }
  /-- `on_open`: the flag again, under the lock. -/
  | newCheckLocked {s : GateState} (locked : s.construction = .locked) :
      GateStep s .silent
        { s with construction := if s.opened then .running else .storing }
  | newCall {s : GateState} (running : s.construction = .running) :
      GateStep s (.sets .idle)
        { s with handle := s.handle.updateSyncState .idle, construction := .storing }
  | newStore {s : GateState} (storing : s.construction = .storing) :
      GateStep s .silent { s with onOpen := true, lock := none, construction := .returned }
  /-- `update_sync_state`: the launcher has the network, and reads the gate's flag. -/
  | updateCheck {s : GateState} (j : Nat) (ready : s.updates j = .ready)
      (constructed : s.construction = .returned) :
      GateStep s .silent { s with updates := Function.update s.updates j (.checked s.opened) }
  /-- `update_sync_state`: what the flag said is forwarded, whatever the launcher reported. -/
  | updateForward {s : GateState} (j : Nat) (isOpen : Bool) (checked : s.updates j = .checked isOpen) :
      GateStep s (.sets (if isOpen then .idle else .syncing))
        { s with
          handle := s.handle.updateSyncState (if isOpen then .idle else .syncing)
          updates := Function.update s.updates j .returned }

namespace GateState

/-- The first call of `open` is past its callback. -/
def Called (s : GateState) : Prop := ∃ i, s.opens i = .called ∨ s.opens i = .returned true

/-- The network has been constructed and the first `open` has returned. -/
def Settled (s : GateState) : Prop := s.construction = .returned ∧ ∃ i, s.opens i = .returned true

/-- No call of `update_sync_state` still has to forward what it read of a closed gate. -/
def Quiet (s : GateState) : Prop := ∀ j, s.updates j ≠ .checked false

/-- The network reports `Idle`, and no step sets it to `Syncing`. -/
def StaysIdle (s : GateState) : Prop :=
  s.handle.isSyncing = false ∧ ∀ t, ¬ GateStep s (.sets .syncing) t

/-- `new` is past its check of the flag under the lock. -/
def Registered (s : GateState) : Prop := s.construction = .storing ∨ s.construction = .returned

/-- How the parts of a state fit together, in every run. -/
structure Coherent (s : GateState) : Prop where
  unopened : s.opened = false → ∀ i, s.opens i = .ready
  openLocked : ∀ i, s.opens i = .locked ∨ s.opens i = .called → s.lock = some (.opener i)
  newLocked : s.construction = .locked ∨ s.construction = .running ∨ s.construction = .storing →
    s.lock = some .construction
  lockHeld : ∀ i, s.lock = some (.opener i) → s.opens i = .locked ∨ s.opens i = .called
  lockBuilt : s.lock = some .construction → s.construction ≠ .returned
  onOpen : s.onOpen = true ↔ s.construction = .returned
  updated : s.construction ≠ .returned → ∀ j, s.updates j = .ready
  running : s.construction = .running → s.opened = true
  answered : ∀ j, s.updates j = .checked true → s.opened = true

theorem coherent_start (handle : NetworkHandle) : (start handle).Coherent := by
  constructor <;> simp [start]

end GateState

section Step

variable {s t : GateState} {l : GateLabel}

/-- A call of `open` that moves outside the lock section. -/
theorem GateState.Coherent.opens (hs : s.Coherent) {i : Nat} {call : OpenCall}
    (hout : s.opens i ≠ .locked ∧ s.opens i ≠ .called) (hcall : call ≠ .locked ∧ call ≠ .called)
    (hopened : s.opened = true) :
    { s with opens := Function.update s.opens i call }.Coherent where
  unopened h := absurd (hopened.symm.trans h) (by simp)
  openLocked k hk := by
    rcases eq_or_ne k i with rfl | hne
    · simp [hcall] at hk
    · exact hs.openLocked k (by simpa [hne] using hk)
  newLocked := hs.newLocked
  lockHeld k hk := by
    have hheld := hs.lockHeld k hk
    have hne : k ≠ i := by
      rintro rfl
      exact hheld.elim hout.1 hout.2
    simpa [hne] using hheld
  lockBuilt := hs.lockBuilt
  onOpen := hs.onOpen
  updated := hs.updated
  running := hs.running
  answered := hs.answered

/-- A call of `open` that moves to `call` while it holds the lock. -/
theorem GateState.Coherent.holds (hs : s.Coherent) {i : Nat} {call : OpenCall}
    (hcall : call = .locked ∨ call = .called) (hopened : s.opened = true)
    (hlock : s.lock = none ∨ s.lock = some (.opener i)) :
    { s with lock := some (.opener i), opens := Function.update s.opens i call }.Coherent where
  unopened h := absurd (hopened.symm.trans h) (by simp)
  openLocked k hk := by
    rcases eq_or_ne k i with rfl | hne
    · rfl
    · have := hs.openLocked k (by simpa [hne] using hk)
      rcases hlock with h | h <;> simp_all
  newLocked h := by
    have := hs.newLocked h
    rcases hlock with h | h <;> simp_all
  lockHeld k hk := by
    obtain rfl : i = k := by simpa using hk
    simpa using hcall
  lockBuilt h := by simp at h
  onOpen := hs.onOpen
  updated := hs.updated
  running := hs.running
  answered := hs.answered

theorem GateState.Coherent.opened_of_opens (hs : s.Coherent) (i : Nat) (h : s.opens i ≠ .ready) :
    s.opened = true := by
  by_contra hno
  exact h (hs.unopened (by simpa using hno) i)

theorem GateState.Coherent.constructed_of_updates (hs : s.Coherent) (j : Nat)
    (h : s.updates j ≠ .ready) : s.construction = .returned := by
  by_contra hno
  exact h (hs.updated hno j)

theorem GateState.Coherent.withHandle (hs : s.Coherent) (handle : NetworkHandle) :
    { s with handle := handle }.Coherent :=
  { hs with }

/-- A call of `update_sync_state` touches nothing the gate rests on. -/
theorem GateState.Coherent.updates (hs : s.Coherent) (hbuilt : s.construction = .returned) (j : Nat)
    (call : UpdateCall) (hcall : call = .checked true → s.opened = true) :
    { s with updates := Function.update s.updates j call }.Coherent :=
  { hs with
    updated := fun h => absurd hbuilt h
    answered := fun k hk => by
      rcases eq_or_ne k j with rfl | hne
      · exact hcall (by simpa using hk)
      · exact hs.answered k (by simpa [hne] using hk) }

theorem GateStep.coherent (h : GateStep s l t) (hs : s.Coherent) : t.Coherent := by
  cases h with
  | swapFirst i ready closed =>
    have hopen : { s with opened := true }.Coherent :=
      { hs with unopened := by simp, running := fun _ => rfl, answered := fun _ _ => rfl }
    exact hopen.opens (by simp [ready]) (by simp) rfl
  | swapLater i ready isOpen => exact hs.opens (by simp [ready]) (by simp) isOpen
  | openLock i swapped free =>
    exact hs.holds (.inl rfl) (hs.opened_of_opens i (by simp [swapped])) (.inl free)
  | openCall i locked registered =>
    have hlock := hs.openLocked i (.inl locked)
    have hmoved := hs.holds (.inr rfl) (hs.opened_of_opens i (by simp [locked])) (.inr hlock)
    rw [← hlock] at hmoved
    exact hmoved.withHandle _
  | openSkip i locked empty =>
    have hlock := hs.openLocked i (.inl locked)
    have hmoved := hs.holds (.inr rfl) (hs.opened_of_opens i (by simp [locked])) (.inr hlock)
    rwa [← hlock] at hmoved
  | openUnlock i called =>
    have hlock := hs.openLocked i (.inr called)
    have hopened := hs.opened_of_opens i (by simp [called])
    exact
      { unopened := fun h => absurd (hopened.symm.trans h) (by simp)
        openLocked := by
          intro k hk
          rcases eq_or_ne k i with rfl | hne
          · simp at hk
          · have hother := hs.openLocked k (by simpa [hne] using hk)
            rw [hlock] at hother
            exact absurd (by simpa using hother : i = k).symm hne
        newLocked := fun h => by
          have := hs.newLocked h
          rw [hlock] at this
          simp at this
        lockHeld := by simp
        lockBuilt := by simp
        onOpen := hs.onOpen
        updated := hs.updated
        running := hs.running
        answered := hs.answered }
  | newCheck ready =>
    exact
      { hs with
        newLocked := by cases s.opened <;> simp
        lockBuilt := by cases s.opened <;> simp
        onOpen := by have := hs.onOpen; cases s.opened <;> simp_all
        updated := fun _ => hs.updated (by simp [ready])
        running := by cases s.opened <;> simp }
  | newForward closed =>
    exact
      { hs with
        newLocked := by simp
        lockBuilt := by simp
        onOpen := by simpa [closed] using hs.onOpen
        updated := fun _ => hs.updated (by simp [closed])
        running := by simp }
  | newLock registering free =>
    exact
      { hs with
        openLocked := fun k hk => by have := hs.openLocked k hk; simp [free] at this
        newLocked := fun _ => rfl
        lockHeld := by simp
        lockBuilt := by simp
        onOpen := by simpa [registering] using hs.onOpen
        updated := fun _ => hs.updated (by simp [registering])
        running := by simp }
  | newCheckLocked locked =>
    exact
      { hs with
        newLocked := fun _ => hs.newLocked (.inl locked)
        lockBuilt := by cases s.opened <;> simp
        onOpen := by have := hs.onOpen; cases s.opened <;> simp_all
        updated := fun _ => hs.updated (by simp [locked])
        running := by cases s.opened <;> simp }
  | newCall running =>
    exact
      { hs with
        newLocked := fun _ => hs.newLocked (.inr (.inl running))
        lockBuilt := by simp
        onOpen := by simpa [running] using hs.onOpen
        updated := fun _ => hs.updated (by simp [running])
        running := by simp }
  | newStore storing =>
    have hlock := hs.newLocked (.inr (.inr storing))
    exact
      { hs with
        openLocked := fun k hk => by have := hs.openLocked k hk; simp [hlock] at this
        newLocked := by simp
        lockHeld := by simp
        lockBuilt := by simp
        onOpen := by simp
        updated := by simp
        running := by simp }
  | updateCheck j ready constructed => exact hs.updates constructed j _ (by simp)
  | updateForward j isOpen checked =>
    exact (hs.updates (hs.constructed_of_updates j (by simp [checked])) j _ (by simp)).withHandle _

theorem GateStep.closed (h : GateStep s .opens t) : s.opened = false := by
  generalize hl : GateLabel.opens = l at h
  cases h <;> simp at hl
  case swapFirst closed => exact closed

/-- The gate never closes. -/
theorem GateStep.opened (h : GateStep s l t) (hopened : s.opened = true ∨ l = .opens) :
    t.opened = true := by
  cases h with
  | swapFirst => rfl
  | _ => exact hopened.resolve_right (by simp)

/-- What keeps a settled network `Idle`: once the gate is open no call holds the old answer, and
where the first `open` is past its callback a registered network is `Idle`. -/
structure GateState.Calm (s : GateState) : Prop where
  coherent : s.Coherent
  quiet : s.opened = true → s.Quiet
  idle : s.Called → s.Registered → s.handle.isSyncing = false

theorem GateState.Coherent.opened_of_called (hs : s.Coherent) (h : s.Called) : s.opened = true := by
  obtain ⟨i, hi⟩ := h
  refine hs.opened_of_opens i ?_
  rcases hi with hi | hi <;> simp [hi]

/-- Under a closed gate nothing has been called. -/
theorem GateState.Coherent.calm_of_closed (hs : s.Coherent) (h : s.opened = false) : s.Calm where
  coherent := hs
  quiet hopen := by simp [h] at hopen
  idle hcalled := by simp [hs.opened_of_called hcalled] at h

theorem called_of_update {f : Nat → OpenCall} {i : Nat} {call : OpenCall}
    (hcall : call ≠ .called ∧ call ≠ .returned true)
    (h : ∃ k, Function.update f i call k = .called ∨ Function.update f i call k = .returned true) :
    ∃ k, f k = .called ∨ f k = .returned true := by
  obtain ⟨k, hk⟩ := h
  rcases eq_or_ne k i with rfl | hne
  · simp [hcall] at hk
  · exact ⟨k, by simpa [hne] using hk⟩

/-- The lock keeps a construction that is storing apart from every call in its lock section. -/
theorem GateState.Coherent.not_storing (hs : s.Coherent) {i : Nat}
    (h : s.opens i = .locked ∨ s.opens i = .called) : s.construction ≠ .storing := by
  intro hstoring
  have hlock := hs.openLocked i h
  rw [hs.newLocked (.inr (.inr hstoring))] at hlock
  simp at hlock

/-- One step keeps the network calm, the opening swap if no old answer is under way. -/
theorem GateStep.calm (h : GateStep s l t) (hs : s.Calm) (hquiet : l = .opens → s.Quiet) : t.Calm := by
  have hcoherent := h.coherent hs.coherent
  cases h with
  | swapFirst i ready closed =>
    refine ⟨hcoherent, fun _ => hquiet rfl, fun hcalled hreg => ?_⟩
    exact hs.idle (called_of_update (by simp) hcalled) hreg
  | swapLater i ready isOpen =>
    refine ⟨hcoherent, hs.quiet, fun hcalled hreg => ?_⟩
    exact hs.idle (called_of_update (by simp) hcalled) hreg
  | openLock i swapped free =>
    refine ⟨hcoherent, hs.quiet, fun hcalled hreg => ?_⟩
    exact hs.idle (called_of_update (by simp) hcalled) hreg
  | openCall i locked registered => exact ⟨hcoherent, hs.quiet, fun _ _ => rfl⟩
  | openSkip i locked empty =>
    refine ⟨hcoherent, hs.quiet, fun _ hreg => ?_⟩
    rcases hreg with hstoring | hreturned
    · exact absurd hstoring (hs.coherent.not_storing (.inl locked))
    · simp [hs.coherent.onOpen.mpr hreturned] at empty
  | openUnlock i called =>
    exact ⟨hcoherent, hs.quiet, fun _ hreg => hs.idle ⟨i, .inl called⟩ hreg⟩
  | newCheck ready =>
    refine ⟨hcoherent, hs.quiet, fun _ hreg => ?_⟩
    cases hopen : s.opened <;> simp [GateState.Registered, hopen] at hreg
  | newForward closed => exact ⟨hcoherent, hs.quiet, fun _ hreg => by simp [GateState.Registered] at hreg⟩
  | newLock registering free =>
    exact ⟨hcoherent, hs.quiet, fun _ hreg => by simp [GateState.Registered] at hreg⟩
  | newCheckLocked locked =>
    refine ⟨hcoherent, hs.quiet, fun hcalled hreg => ?_⟩
    -- A call is past its callback, so the flag is up and the construction runs the callback itself.
    have hopened : s.opened = true := hs.coherent.opened_of_called hcalled
    simp [GateState.Registered, hopened] at hreg
  | newCall running => exact ⟨hcoherent, hs.quiet, fun _ _ => rfl⟩
  | newStore storing => exact ⟨hcoherent, hs.quiet, fun hcalled _ => hs.idle hcalled (.inl storing)⟩
  | updateCheck j ready constructed =>
    refine ⟨hcoherent, fun hopened k => ?_, fun hcalled hreg => hs.idle hcalled hreg⟩
    rcases eq_or_ne k j with rfl | hne
    · simpa using hopened
    · simpa [hne] using hs.quiet hopened k
  | updateForward j isOpen checked =>
    refine ⟨hcoherent, fun hopened k => ?_, fun hcalled _ => ?_⟩
    · rcases eq_or_ne k j with rfl | hne
      · simp
      · simpa [hne] using hs.quiet hopened k
    · have hopened := hs.coherent.opened_of_called hcalled
      cases isOpen with
      | false => exact absurd checked (hs.quiet hopened j)
      | true => rfl

theorem GateState.Settled.called (h : s.Settled) : s.Called := by
  obtain ⟨-, i, hi⟩ := h
  exact ⟨i, .inr hi⟩

theorem GateState.Calm.staysIdle (hs : s.Calm) (h : s.Settled) : s.StaysIdle := by
  have hopened := hs.coherent.opened_of_called h.called
  refine ⟨hs.idle h.called (.inr h.1), fun t hstep => ?_⟩
  generalize hl : GateLabel.sets SyncState.syncing = l at hstep
  cases hstep <;> simp at hl
  case newForward closed => simp [h.1] at closed
  case updateForward j isOpen checked =>
    cases isOpen with
    | false => exact hs.quiet hopened j checked
    | true => simp at hl

/-- An answer of a closed gate that is under way when the gate opens may be forwarded last: the
first `open` returns, and the network is set back to `Syncing`. -/
theorem GateStep.reverts (hs : s.Coherent) (h : GateStep s .opens t) {j : Nat}
    (hold : s.updates j = .checked false) :
    ∃ ks u v, Steps GateStep t ks u ∧ u.Settled ∧ GateStep u (.sets .syncing) v ∧ v.Settled ∧
      v.handle.isSyncing = true := by
  have hbuilt := hs.constructed_of_updates j (by simp [hold])
  have hslot := hs.onOpen.mpr hbuilt
  generalize hl : GateLabel.opens = l at h
  cases h <;> simp at hl
  case swapFirst i ready closed =>
    have hfree : s.lock = none := by
      cases hlock : s.lock with
      | none => rfl
      | some holder =>
        cases holder with
        | construction => exact absurd hbuilt (hs.lockBuilt hlock)
        | opener k =>
          have hheld := hs.lockHeld k hlock
          simp [hs.unopened closed k] at hheld
    have hlocked := GateStep.openLock
      (s := { s with opened := true, opens := Function.update s.opens i .swapped }) i (by simp) hfree
    have hcalled := GateStep.openCall (s := { s with
      opened := true
      lock := some (.opener i)
      opens := Function.update (Function.update s.opens i .swapped) i .locked }) i (by simp) hslot
    have hunlocked := GateStep.openUnlock (s := { s with
      opened := true
      lock := some (.opener i)
      handle := s.handle.updateSyncState .idle
      opens := Function.update (Function.update (Function.update s.opens i .swapped) i .locked) i
        .called }) i (by simp)
    have hforwarded := GateStep.updateForward (s := { s with
      opened := true
      lock := none
      handle := s.handle.updateSyncState .idle
      opens := Function.update (Function.update (Function.update (Function.update s.opens i .swapped) i
        .locked) i .called) i (.returned true) }) j false hold
    exact ⟨_, _, _, .cons hlocked (.cons hcalled (.single hunlocked)), ⟨hbuilt, i, by simp⟩, hforwarded,
      ⟨hbuilt, i, by simp⟩, rfl⟩

end Step

end Ureth.Source.Payload.Gossip
