import Ureth.Source.Payload.Gossip

/-!
# The gossip gate stays open

Over every interleaving of the calls of `open`, the construction of the network and the
launcher's calls of `update_sync_state`. The launcher's call reads the gate's flag and writes the
network's state in two steps, so a call that read the flag before the gate opened can write
`Syncing` after the first `open` has returned. This is the only way: without such a call the
network stays `Idle`. Nor does it matter to the transaction manager, which asks for the initial
sync only.
-/

namespace Ureth.Guarantees
open Ureth.Foundation Ureth.Source.Payload.Gossip

/-- A step that opens the gate only while no call has still to forward what it read of the
closed gate. -/
def QuietStep (s : GateState) (l : GateLabel) (t : GateState) : Prop :=
  GateStep s l t ∧ (l = .opens → s.Quiet)

/-- **The gate stays open** in every run whose opening swap finds no call of `update_sync_state`
between its check of the flag and its update: once the network has been constructed and the first
`open` has returned, the network is `Idle` and no step sets it to `Syncing`. At an opening swap the
condition is exact, since otherwise some continuation sets the network back. -/
theorem gate_stays_open (handle : NetworkHandle) :
    (∀ ls u, Steps QuietStep (.start handle) ls u → u.Settled → u.StaysIdle) ∧
      ∀ ls s t, Steps GateStep (.start handle) ls s → GateStep s .opens t →
        ((∀ ks u, Steps GateStep t ks u → u.Settled → u.StaysIdle) ↔ s.Quiet) := by
  have hstart := GateState.coherent_start handle
  refine ⟨fun ls u hrun hsettled => ?_, fun ls s t hrun hopen => ⟨fun hkept j hold => ?_, ?_⟩⟩
  · have hcalm := hrun.invariant (I := GateState.Calm) (fun s l t hs h => h.1.calm hs h.2)
      (hstart.calm_of_closed rfl)
    exact hcalm.staysIdle hsettled
  · have hs := hrun.invariant (I := GateState.Coherent) (fun s l t hs h => h.coherent hs) hstart
    obtain ⟨ks, u, v, hks, hsettled, hset, -⟩ := hopen.reverts hs hold
    exact (hkept ks u hks hsettled).2 v hset
  · intro hquiet ks u hks hsettled
    have hs := hrun.invariant (I := GateState.Coherent) (fun s l t hs h => h.coherent hs) hstart
    -- The gate is open from here on, so no later step is an opening one.
    have hafter : t.Calm ∧ t.opened = true :=
      ⟨hopen.calm (hs.calm_of_closed hopen.closed) fun _ => hquiet, hopen.opened (.inr rfl)⟩
    have hcalm := hks.invariant (I := fun s => s.Calm ∧ s.opened = true)
      (fun s l t hs h => ⟨h.calm hs.1 fun hl => absurd (hl ▸ h).closed (by simp [hs.2]),
        h.opened (.inl hs.2)⟩) hafter
    exact hcalm.1.staysIdle hsettled

/-- A network built under a closed gate, which then opens: the run meets the condition. -/
theorem gate_stays_open_built_closed :
    ∃ ls u, Steps QuietStep (.start ⟨false, false⟩) ls u ∧ u.Settled ∧ u.StaysIdle := by
  have hnew : Steps QuietStep (.start ⟨false, false⟩) _ _ :=
    .cons ⟨.newCheck rfl, by simp⟩ (.cons ⟨.newForward rfl, by simp⟩ (.cons ⟨.newLock rfl rfl, by simp⟩
      (.cons ⟨.newCheckLocked rfl, by simp⟩ (.single ⟨.newStore rfl, by simp⟩))))
  have hopen : Steps QuietStep _ _ _ :=
    hnew.append (.cons ⟨.swapFirst 0 rfl rfl, fun _ j => by simp [GateState.start]⟩
      (.cons ⟨.openLock 0 (by simp) rfl, by simp⟩ (.cons ⟨.openCall 0 (by simp) rfl, by simp⟩
        (.single ⟨.openUnlock 0 (by simp), by simp⟩))))
  exact ⟨_, _, hopen, ⟨rfl, 0, by simp⟩,
    (gate_stays_open ⟨false, false⟩).1 _ _ hopen ⟨rfl, 0, by simp⟩⟩

/-- The launcher's call reads the closed gate, the gate opens and its first `open` returns with the
network `Idle`; then the launcher's call forwards `Syncing`. -/
theorem gate_set_back_to_syncing :
    ∃ ls u v, Steps GateStep (.start ⟨false, false⟩) ls u ∧ u.Settled ∧ u.handle.isSyncing = false ∧
      GateStep u (.sets .syncing) v ∧ v.Settled ∧ v.handle.isSyncing = true := by
  have hrun : Steps GateStep (.start ⟨false, false⟩) _ _ :=
    .cons (.newCheck rfl) (.cons (.newForward rfl) (.cons (.newLock rfl rfl)
      (.cons (.newCheckLocked rfl) (.cons (.newStore rfl) (.cons (.updateCheck 0 rfl rfl)
        (.cons (.swapFirst 0 rfl rfl) (.cons (.openLock 0 (by simp) rfl)
          (.cons (.openCall 0 (by simp) rfl) (.single (.openUnlock 0 (by simp)))))))))))
  exact ⟨_, _, _, hrun, ⟨rfl, 0, by simp⟩, rfl, .updateForward 0 false rfl, ⟨rfl, 0, by simp⟩, rfl⟩

end Ureth.Guarantees
