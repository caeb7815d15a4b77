import Ureth.Guarantees.Retention
import Ureth.Source.Payload.Import

/-!
# Companions of accepted blocks

Over every sequence of imports and served payloads: a block the engine answered VALID for has
its companion, and keeps it through every later call except one. A refused import removes the
companion by the block's hash, so a block presented again and not answered VALID that time
loses the companion it was accepted with.
-/

namespace Ureth.Guarantees
open Ureth.Foundation Ureth.Source.Execution Ureth.Source.Store Ureth.Source.Payload

/-- The transactions of retention and eviction. -/
inductive RetentionOp where
  | evict (hash : Bytes32)
  | pruneBelow (number : UInt64)
  | pruneAccountingBelow (number : UInt64)
  | setEvictionCursor (number : UInt64)

def RetentionOp.run : RetentionOp → Txn Unit
  | .evict hash => CompanionStore.remove hash
  | .pruneBelow number => CompanionStore.pruneBelow number
  | .pruneAccountingBelow number => CompanionStore.pruneAccountingBelow number
  | .setEvictionCursor number => CompanionStore.setEvictionCursor number

theorem RetentionOp.represents (op : RetentionOp) {s : CompanionStore} {a : Shelf}
    (hs : Represents s a) : ∃ b, Represents (op.run s).2 b := by
  cases op with
  | evict hash =>
    obtain ⟨t, ht, hrep⟩ := hs.remove hash
    exact ⟨_, by rwa [run, ht]⟩
  | pruneBelow number =>
    obtain ⟨t, ht, hrep⟩ := hs.pruneBelow number
    exact ⟨_, by rwa [run, ht]⟩
  | pruneAccountingBelow number =>
    obtain ⟨t, ht, hrep⟩ := hs.pruneAccountingBelow number
    exact ⟨_, by rwa [run, ht]⟩
  | setEvictionCursor number =>
    obtain ⟨t, ht, hrep⟩ := hs.setEvictionCursor number
    exact ⟨_, by rwa [run, ht]⟩

inductive SealCall (ρ : Type) where
  | newPayload (request : ρ) (companion : SealCompanion)
  | getPayload (payloadId : Bytes)
  | retention (op : RetentionOp)

section

variable {π ρ ι δ : Type} {H : Bytes → Bytes32} {services : SealServices π ρ ι δ} {hash : Bytes32}

def SealStep (H : Bytes → Bytes32) (services : SealServices π ρ ι δ) (st : π × CompanionStore) :
    SealCall ρ → π × CompanionStore → Prop
  | .newPayload request companion, st' => ∃ r, newPayloadWithSeal services request companion st = (r, st')
  | .getPayload payloadId, st' => ∃ r, getPayloadWithSeal H services payloadId st = (r, st')
  | .retention op, st' => st' = (st.1, (op.run st.2).2)

/-- The call forwards the block `hash`, and the engine's answer is not VALID. -/
def TurnedDown (services : SealServices π ρ ι δ) (hash : Bytes32) (st : π × CompanionStore) :
    SealCall ρ → Prop
  | .newPayload request companion =>
    ∃ status, Answered services request companion st hash status ∧ status ≠ .valid
  | _ => False

theorem SealStep.represents {st st' : π × CompanionStore} {call : SealCall ρ} {a : Shelf}
    (hs : Represents st.2 a) (h : SealStep H services st call st') : ∃ b, Represents st'.2 b := by
  obtain ⟨p, s⟩ := st
  obtain ⟨p', s'⟩ := st'
  cases call with
  | newPayload request companion =>
    obtain ⟨r, hrun⟩ := h
    obtain ⟨b, hb, -⟩ := newPayloadWithSeal_effect hs hrun
    exact ⟨b, hb⟩
  | getPayload payloadId =>
    obtain ⟨r, hrun⟩ := h
    rcases getPayloadWithSeal_effect H payloadId a p s r p' s' hs hrun with hb | ⟨_, _, _, hb⟩
    · exact ⟨_, hb⟩
    · exact ⟨_, hb⟩
  | retention op =>
    obtain ⟨-, rfl⟩ := Prod.mk.inj h
    exact op.represents hs

theorem exists_companion_put {a : Shelf} (h : ∃ e, a.companions hash = some e) (g : Bytes32)
    (number : UInt64) (companion : SealCompanion) :
    ∃ e, (a.put g number companion).companions hash = some e := by
  by_cases hg : hash = g
  · subst hg
    exact ⟨(number, companion), by simp [Shelf.put]⟩
  · simpa [Shelf.put, hg] using h

theorem answered_unique {request : ρ} {companion : SealCompanion} {st : π × CompanionStore}
    {h₁ h₂ : Bytes32} {s₁ s₂ : PayloadStatus} (k₁ : Answered services request companion st h₁ s₁)
    (k₂ : Answered services request companion st h₂ s₂) : h₁ = h₂ ∧ s₁ = s₂ := by
  obtain ⟨prepared, _, _, _, _, himport, rfl, -, hinsert, hanswer⟩ := k₁
  obtain ⟨prepared', _, _, _, _, himport', rfl, -, hinsert', hanswer'⟩ := k₂
  obtain ⟨rfl, rfl⟩ : prepared = prepared' ∧ _ = _ := by simpa [himport] using himport'
  obtain ⟨-, rfl⟩ := Prod.mk.inj (hinsert.symm.trans hinsert')
  obtain ⟨hstatus, -⟩ := Prod.mk.inj (hanswer.symm.trans hanswer')
  exact ⟨rfl, Except.ok.inj hstatus⟩

/-- A block answered VALID has its companion. -/
theorem held_of_valid {st st' : π × CompanionStore} {request : ρ} {companion : SealCompanion}
    {a : Shelf} (hs : Represents st.2 a)
    (hstep : SealStep H services st (.newPayload request companion) st')
    (hvalid : Answered services request companion st hash .valid) : Held st'.2 hash := by
  obtain ⟨p, s⟩ := st
  obtain ⟨p', s'⟩ := st'
  obtain ⟨r, hrun⟩ := hstep
  obtain ⟨b, hb, heffect⟩ := newPayloadWithSeal_effect hs hrun
  rw [held_iff hb]
  cases heffect with
  | untouched unanswered => exact absurd hvalid (unanswered _ _)
  | @stored _ number only =>
    obtain ⟨rfl, -⟩ := only _ _ hvalid
    exact ⟨(number, companion), by simp [Shelf.put]⟩
  | takenBack answered refused => exact absurd (answered_unique answered hvalid).2 refused

/-- A call of a handler keeps a companion exactly when it does not turn the block down. -/
theorem held_after_iff {st st' : π × CompanionStore} {call : SealCall ρ} {a : Shelf}
    (hs : Represents st.2 a) (hheld : Held st.2 hash) (hstep : SealStep H services st call st')
    (hhandler : ∀ op, call ≠ .retention op) :
    Held st'.2 hash ↔ ¬ TurnedDown services hash st call := by
  obtain ⟨p, s⟩ := st
  obtain ⟨p', s'⟩ := st'
  rw [held_iff hs] at hheld
  cases call with
  | newPayload request companion =>
    obtain ⟨r, hrun⟩ := hstep
    obtain ⟨b, hb, heffect⟩ := newPayloadWithSeal_effect hs hrun
    rw [held_iff hb]
    cases heffect with
    | untouched unanswered =>
      refine iff_of_true hheld ?_
      rintro ⟨status, hanswered, -⟩
      exact unanswered _ _ hanswered
    | stored only =>
      refine iff_of_true (exists_companion_put hheld _ _ _) ?_
      rintro ⟨status, hanswered, hne⟩
      exact hne (only _ _ hanswered).2
    | @takenBack g number status answered refused =>
      by_cases hg : hash = g
      · subst hg
        exact iff_of_false (by simp [Shelf.remove]) (not_not.mpr ⟨status, answered, refused⟩)
      · refine iff_of_true ?_ ?_
        · obtain ⟨e, he⟩ := exists_companion_put hheld g number companion
          exact ⟨e, by simpa [Shelf.remove, hg] using he⟩
        · rintro ⟨status', hanswered, -⟩
          exact hg (answered_unique hanswered answered).1
  | getPayload payloadId =>
    obtain ⟨r, hrun⟩ := hstep
    refine iff_of_true ?_ (fun h => h)
    rcases getPayloadWithSeal_effect H payloadId a p s r p' s' hs hrun with hb | ⟨_, _, _, hb⟩
    · exact (held_iff hb).mpr hheld
    · exact (held_iff hb).mpr (exists_companion_put hheld _ _ _)
  | retention op => exact absurd rfl (hhandler op)

/-- A call that does not turn the block down, or a step of retention that leaves it. -/
def UndisturbedStep (H : Bytes → Bytes32) (services : SealServices π ρ ι δ) (hash : Bytes32)
    (st : π × CompanionStore) (call : SealCall ρ) (st' : π × CompanionStore) : Prop :=
  SealStep H services st call st' ∧ ¬ TurnedDown services hash st call ∧
    ((∃ op, call = .retention op) → Held st'.2 hash)

theorem Steps.held {st st' : π × CompanionStore} {calls : List (SealCall ρ)} {a : Shelf}
    (hs : Represents st.2 a) (hheld : Held st.2 hash)
    (h : Steps (UndisturbedStep H services hash) st calls st') :
    (∃ b, Represents st'.2 b) ∧ Held st'.2 hash := by
  refine h.invariant (I := fun st => (∃ b, Represents st.2 b) ∧ Held st.2 hash) ?_ ⟨⟨a, hs⟩, hheld⟩
  rintro st call st' ⟨⟨b, hb⟩, hheld⟩ ⟨hstep, hkept, hretained⟩
  refine ⟨hstep.represents hb, ?_⟩
  by_cases hop : ∃ op, call = .retention op
  · exact hretained hop
  · exact (held_after_iff hb hheld hstep (by simpa using hop)).mpr hkept

end

/-- Once a block was answered VALID, its companion is there and stays there as long as no later
call forwards the block and is not answered VALID (and retention leaves it). A call of that
kind does take it away. -/
theorem accepted_block_keeps_companion {π ρ ι δ : Type} (H : Bytes → Bytes32)
    (services : SealServices π ρ ι δ) (hash : Bytes32) {p₀ : π} {before : List (SealCall ρ)}
    {st st₁ : π × CompanionStore} {request : ρ} {companion : SealCompanion}
    (hbefore : Steps (SealStep H services) (p₀, .fresh) before st)
    (hcall : SealStep H services st (.newPayload request companion) st₁)
    (hvalid : Answered services request companion st hash .valid) :
    Held st₁.2 hash ∧
    (∀ after st₂, Steps (UndisturbedStep H services hash) st₁ after st₂ →
      Held st₂.2 hash ∧
      ∀ call st₃, SealStep H services st₂ call st₃ → (∀ op, call ≠ .retention op) →
        (Held st₃.2 hash ↔ ¬ TurnedDown services hash st₂ call)) := by
  obtain ⟨a, hs⟩ : ∃ a, Represents st.2 a :=
    hbefore.invariant (I := fun st => ∃ a, Represents st.2 a)
      (fun _ _ _ ⟨_, ha⟩ hstep => hstep.represents ha) ⟨_, represents_fresh⟩
  obtain ⟨a₁, hs₁⟩ := hcall.represents hs
  have hheld := held_of_valid hs hcall hvalid
  refine ⟨hheld, fun after st₂ hafter => ?_⟩
  obtain ⟨⟨b, hb⟩, hheld₂⟩ := Steps.held hs₁ hheld hafter
  exact ⟨hheld₂, fun call st₃ hstep hhandler => held_after_iff hb hheld₂ hstep hhandler⟩

/-- An engine that gives the answers of a list in turn. -/
def scriptedAnswer : Run (List PayloadStatus) String PayloadStatus
  | [] => (Res.fail "no answer", [])
  | status :: rest => (.ok status, rest)

/-- One block at number 1, and a scripted engine. -/
def scriptedServices : SealServices (List PayloadStatus) Unit Unit Unit where
  tryImportSealPayload _ _ := pure ⟨(), .zero 32, (), ownHash 7, 1⟩
  insertExecutionInput _ _ := pure ()
  newPayload _ := scriptedAnswer
  resolvePayload _ := Run.fail .unknownPayload
  rootInput _ := pure none
  b1Update _ := pure none
  records _ := pure none
  pairBinding _ := pure none
  envelope _ := .ok ()

/-- The block is imported once and answered VALID: it is held. -/
theorem accepted_block_keeps_companion_once :
    ∃ st, SealStep (fun _ => .zero 32) scriptedServices ([.valid], .fresh)
      (.newPayload () blankCompanion) st ∧ Held st.2 (ownHash 7) := by
  obtain ⟨s, hput, -⟩ := put_blankCompanion represents_fresh (ownHash 7) 1
  have hanswered : Answered scriptedServices () blankCompanion ([.valid], .fresh) (ownHash 7) .valid :=
    ⟨⟨(), .zero 32, (), ownHash 7, 1⟩, _, _, _, _, rfl, rfl, hput, rfl, rfl⟩
  have hstart : Steps (SealStep (fun _ => .zero 32) scriptedServices)
      ([PayloadStatus.valid], CompanionStore.fresh) [] ([.valid], .fresh) := .nil _
  exact ⟨_, ⟨_, rfl⟩, (accepted_block_keeps_companion _ _ _ hstart ⟨_, rfl⟩ hanswered).1⟩

/-- The same block is imported twice. The engine answers VALID and then SYNCING, and the
companion it was accepted with is gone. -/
theorem accepted_block_loses_companion :
    ∃ s₁ s₂, newPayloadWithSeal scriptedServices () blankCompanion ([.valid, .syncing], .fresh) =
        (.ok .valid, ([.syncing], s₁)) ∧ Held s₁ (ownHash 7) ∧
      newPayloadWithSeal scriptedServices () blankCompanion ([.syncing], s₁) =
        (.ok .syncing, ([], s₂)) ∧ ¬ Held s₂ (ownHash 7) := by
  obtain ⟨s₁, hput₁, hs₁⟩ := put_blankCompanion represents_fresh (ownHash 7) 1
  obtain ⟨t, hput₂, ht⟩ := put_blankCompanion hs₁ (ownHash 7) 1
  obtain ⟨s₂, hremove, hs₂⟩ := ht.remove (ownHash 7)
  refine ⟨s₁, s₂, ?_, ?_, ?_, ?_⟩
  · simp [newPayloadWithSeal, storeAndForward, forward, Run.bind_apply, serviceAnswer_apply,
      storeAnswer_apply, service_apply, scriptedServices, scriptedAnswer, answerOf, hput₁, Res.mapErr]
  · exact (held_iff hs₁).mpr ⟨(1, blankCompanion), by simp [Shelf.put]⟩
  · simp [newPayloadWithSeal, storeAndForward, forward, Run.bind_apply, serviceAnswer_apply,
      storeAnswer_apply, service_apply, scriptedServices, scriptedAnswer, answerOf, hput₂, hremove,
      Res.mapErr]
  · rw [held_iff hs₂]
    simp [Shelf.remove]

end Ureth.Guarantees
