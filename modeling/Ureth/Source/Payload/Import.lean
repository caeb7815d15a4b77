import Ureth.Source.Execution.Pairing
import Ureth.Source.Payload.Prune

/-!
# The seal handlers and the companion store

`newPayloadWithSeal` and `getPayloadWithSeal` in the order of their effects on the companion
store. The checks before the store is touched, the engine and the payload store are services
that answer as they like and keep a state of their own; between them stands what the
handlers decide themselves: what is stored, what is forwarded, and what is taken back.
-/

namespace Ureth.Source.Payload
open Ureth.Foundation Ureth.Source.Execution Ureth.Source.Store

inductive PayloadStatus where
  | valid
  | invalid (validationError : String)
  | syncing
  | accepted
  deriving DecidableEq

/-- The refusals of an import; a refusal of an inner check carries that check's text. -/
inductive SealImportError where
  | rootInput (error : String)
  | unexpectedBlobHashes (count : Nat)
  | payload (error : String)
  | versionFields (error : String)
  | unknownParent
  | parentAccountingMissing
  | binding (error : String)
  | pairBinding (error : String)
  | companionNotDurable (error : String)
  | replay (error : String)
  | provider (error : String)
  deriving DecidableEq

def SealImportError.toText : SealImportError → String
  | .rootInput error => "rootInput is not a canonical root input: " ++ error
  | .unexpectedBlobHashes count => s!"blob versioned hashes are unsupported ({count} supplied)"
  | .payload error => "payload is not well formed: " ++ error
  | .versionFields error => "payload version fields are invalid: " ++ error
  | .unknownParent => "payload parent is unknown"
  | .parentAccountingMissing => "parent accounting token is not retained"
  | .binding error => "parent binding failed: " ++ error
  | .pairBinding error => error
  | .companionNotDurable error => "companion is not durable: " ++ error
  | .replay error => "local execution rejected the block: " ++ error
  | .provider error => "provider read failed: " ++ error

inductive EngineApiError where
  | unknownPayload
  | timestamp (error : String)
  | companionNotRetained (payloadId : Bytes)
  | internal (error : String)
  | newPayload (error : String)
  deriving DecidableEq

def importResponse : SealImportError → Res EngineApiError PayloadStatus
  | .unknownParent => .ok .syncing
  | .parentAccountingMissing => .ok .syncing
  | .provider error => Res.fail (.internal (SealImportError.provider error).toText)
  | .companionNotDurable error =>
    Res.fail (.internal (SealImportError.companionNotDurable error).toText)
  | error => .ok (.invalid error.toText)

/-- An import that passed its checks: what is forwarded, and what it is stored under. -/
structure PreparedSealImport (ι δ : Type) where
  executionData : δ
  commitment : Bytes32
  input : ι
  blockHash : Bytes32
  blockNumber : UInt64

/-- A payload the node built. -/
structure BuiltPayload where
  blockHash : Bytes32
  blockNumber : UInt64

/-- What the handlers call on: the import checks, the registry of execution inputs, the consensus
engine, the payload store and the registry of build jobs. -/
structure SealServices (π ρ ι δ : Type) where
  tryImportSealPayload : ρ → SealCompanion → Run π SealImportError (PreparedSealImport ι δ)
  insertExecutionInput : Bytes32 → ι → Run π String Unit
  newPayload : δ → Run π String PayloadStatus
  resolvePayload : Bytes → Run π EngineApiError BuiltPayload
  rootInput : Bytes → Run π EngineApiError (Option RootInputV2)
  b1Update : Bytes → Run π EngineApiError (Option ByteVec)
  records : Bytes → Run π EngineApiError (Option ByteVec)
  pairBinding : Bytes → Run π EngineApiError (Option PairBinding)
  /-- The conversion of the payload into the served envelope. -/
  envelope : BuiltPayload → Res EngineApiError Unit

abbrev Handler (π α : Type) := Run (π × CompanionStore) EngineApiError α

section

variable {π ρ ι δ ε α : Type}

def service (f : ε → EngineApiError) (call : Run π ε α) : Handler π α := fun s =>
  ((call s.1).1.mapErr f, ((call s.1).2, s.2))

/-- A callee's own error as a value, for a caller that looks at it. -/
def answerOf : Res ε α → Res EngineApiError (Except ε α)
  | .ok a => .ok (.ok a)
  | .error (.error e) => .ok (.error e)
  | .error .panic => Res.panic

def storeAnswer (txn : Txn α) : Handler π (Except StoreError α) := fun s =>
  (answerOf (txn s.2).1, (s.1, (txn s.2).2))

def serviceAnswer (call : Run π ε α) : Handler π (Except ε α) := fun s =>
  (answerOf (call s.1).1, ((call s.1).2, s.2))

/-- The forward of a stored block. What the engine does not accept keeps no companion; a failed
removal is only logged. -/
def forward (services : SealServices π ρ ι δ) (prepared : PreparedSealImport ι δ) :
    Handler π PayloadStatus := do
  service .internal (services.insertExecutionInput prepared.commitment prepared.input)
  let status ← service .newPayload (services.newPayload prepared.executionData)
  if status ≠ .valid then do
    let _ ← storeAnswer (CompanionStore.remove prepared.blockHash)
    return status
  else return status

/-- The companion is durable before the engine sees the block. -/
def storeAndForward (services : SealServices π ρ ι δ) (companion : SealCompanion)
    (prepared : PreparedSealImport ι δ) : Handler π PayloadStatus := do
  match ← storeAnswer (CompanionStore.put prepared.blockHash prepared.blockNumber companion) with
  | .error error => Run.lift (importResponse (.companionNotDurable error.toText))
  | .ok () => forward services prepared

def newPayloadWithSeal (services : SealServices π ρ ι δ) (request : ρ) (companion : SealCompanion) :
    Handler π PayloadStatus := do
  match ← serviceAnswer (services.tryImportSealPayload request companion) with
  | .error error => Run.lift (importResponse error)
  | .ok prepared => storeAndForward services companion prepared

def buildProvenance : Text := ⟨ascii "build", by decide +kernel⟩

/-- A byte vector out of an encoder. -/
def asVec (b : Bytes) : Res EngineApiError ByteVec :=
  if h : b.length < 2 ^ 63 then .ok ⟨b, h⟩ else Res.panic

def buildSealCompanion (H : Bytes → Bytes32) (rootInput : RootInputV2) (b1Update records : ByteVec)
    (pairBinding : PairBinding) : Res EngineApiError SealCompanion := do
  let rootInput ← (rootInput.canonicalCbor H).mapErr fun e => .internal (reprStr e)
  return { rootInput := ← asVec rootInput
           b1Update := b1Update
           records := records
           pairBinding := ← asVec pairBinding.canonicalCbor
           witnesses := []
           provenance := buildProvenance }

/-- A part of the build job; the bounded registry may have dropped the job. -/
def jobPart (payloadId : Bytes) (part : Run π EngineApiError (Option α)) : Handler π α := do
  let answer ← service id part
  Run.lift (Res.okOr (.companionNotRetained payloadId) answer)

def getPayloadWithSeal (H : Bytes → Bytes32) (services : SealServices π ρ ι δ) (payloadId : Bytes) :
    Handler π SealCompanion := do
  let payload ← service id (services.resolvePayload payloadId)
  let rootInput ← jobPart payloadId (services.rootInput payloadId)
  let b1Update ← jobPart payloadId (services.b1Update payloadId)
  let records ← jobPart payloadId (services.records payloadId)
  let pairBinding ← jobPart payloadId (services.pairBinding payloadId)
  let companion ← Run.lift (buildSealCompanion H rootInput b1Update records pairBinding)
  Run.lift (services.envelope payload)
  match ← storeAnswer (CompanionStore.put payload.blockHash payload.blockNumber companion) with
  | .error error => Run.fail (.internal error.toText)
  | .ok () => return companion

end

/-! ## What the handlers do to the shelf -/

/-- The store has a companion under this hash. -/
def Held (s : CompanionStore) (hash : Bytes32) : Prop := ∃ number, HoldsAt s hash number

theorem held_iff {s : CompanionStore} {a : Shelf} (h : Represents s a) {hash : Bytes32} :
    Held s hash ↔ ∃ e, a.companions hash = some e := by
  simp only [Held, holdsAt_iff h, Prod.exists]

section Effects

variable {π ρ ι δ : Type} {services : SealServices π ρ ι δ}

/-- The request passed its checks as the block `hash`, was stored and forwarded, and the engine
answered `status`. -/
def Answered (services : SealServices π ρ ι δ) (request : ρ) (companion : SealCompanion)
    (st : π × CompanionStore) (hash : Bytes32) (status : PayloadStatus) : Prop :=
  ∃ prepared p1 s1 p2 p3,
    services.tryImportSealPayload request companion st.1 = (.ok prepared, p1) ∧
      prepared.blockHash = hash ∧
      CompanionStore.put prepared.blockHash prepared.blockNumber companion st.2 = (.ok (), s1) ∧
      services.insertExecutionInput prepared.commitment prepared.input p1 = (.ok (), p2) ∧
      services.newPayload prepared.executionData p2 = (.ok status, p3)

/-- What one import leaves on the shelf. -/
inductive ImportEffect (services : SealServices π ρ ι δ) (request : ρ) (companion : SealCompanion)
    (st : π × CompanionStore) (a : Shelf) : Shelf → Prop
  | untouched (unanswered : ∀ hash status, ¬ Answered services request companion st hash status) :
      ImportEffect services request companion st a a
  | stored {hash : Bytes32} {number : UInt64}
      (only : ∀ hash' status, Answered services request companion st hash' status →
        hash' = hash ∧ status = .valid) :
      ImportEffect services request companion st a (a.put hash number companion)
  | takenBack {hash : Bytes32} {number : UInt64} {status : PayloadStatus}
      (answered : Answered services request companion st hash status) (refused : status ≠ .valid) :
      ImportEffect services request companion st a ((a.put hash number companion).remove hash)

theorem storeAnswer_apply {α : Type} (txn : Txn α) (p : π) (s : CompanionStore) :
    (storeAnswer txn : Handler π (Except StoreError α)) (p, s) =
      (answerOf (txn s).1, (p, (txn s).2)) := rfl

theorem serviceAnswer_apply {ε α : Type} (call : Run π ε α) (p : π) (s : CompanionStore) :
    (serviceAnswer call : Handler π (Except ε α)) (p, s) =
      (answerOf (call p).1, ((call p).2, s)) := rfl

theorem service_apply {ε α : Type} (f : ε → EngineApiError) (call : Run π ε α) (p : π)
    (s : CompanionStore) :
    (service f call : Handler π α) (p, s) = ((call p).1.mapErr f, ((call p).2, s)) := rfl

/-- The forward keeps the companion unless the engine answers something other than VALID. -/
theorem forward_effect {prepared : PreparedSealImport ι δ} {p p' : π} {s s' : CompanionStore}
    {r : Res EngineApiError PayloadStatus} {a : Shelf} (hs : Represents s a)
    (hrun : forward services prepared (p, s) = (r, (p', s'))) :
    (∃ p2 p3 status,
      services.insertExecutionInput prepared.commitment prepared.input p = (.ok (), p2) ∧
        services.newPayload prepared.executionData p2 = (.ok status, p3) ∧ status ≠ .valid ∧
        Represents s' (a.remove prepared.blockHash)) ∨
    (∀ p2 p3 status,
      services.insertExecutionInput prepared.commitment prepared.input p = (.ok (), p2) →
        services.newPayload prepared.executionData p2 = (.ok status, p3) → status = .valid) ∧
      s' = s := by
  rw [forward, Run.bind_eq] at hrun
  rcases hrun with ⟨_, ⟨p2, s2⟩, hinsert, hrun⟩ | ⟨e, hinsert, -⟩
  · simp only [service_apply, Prod.mk.injEq, Res.mapErr_eq_ok] at hinsert
    obtain ⟨hinserted, rfl, rfl⟩ := hinsert
    rw [Run.bind_eq] at hrun
    rcases hrun with ⟨status, ⟨p3, s3⟩, hanswer, hrun⟩ | ⟨e, hanswer, -⟩
    · simp only [service_apply, Prod.mk.injEq, Res.mapErr_eq_ok] at hanswer
      obtain ⟨hanswered, rfl, rfl⟩ := hanswer
      by_cases hvalid : status = .valid
      · simp only [hvalid, ne_eq, not_true_eq_false, if_false] at hrun
        obtain ⟨-, -, rfl⟩ : _ = r ∧ _ = p' ∧ s = s' := by simpa using hrun
        refine .inr ⟨?_, rfl⟩
        intro p2 p3 status' hi ha
        rw [hi, ha] at hanswered
        rw [← hvalid]
        exact Except.ok.inj hanswered
      · simp only [ne_eq, hvalid, not_false_eq_true, if_true] at hrun
        obtain ⟨t, ht, hrep⟩ := hs.remove prepared.blockHash
        rw [Run.bind_apply_ok (by rw [storeAnswer_apply, ht]; rfl)] at hrun
        obtain ⟨-, -, rfl⟩ : _ = r ∧ _ = p' ∧ t = s' := by simpa using hrun
        exact .inl ⟨_, _, status, Prod.ext hinserted rfl, Prod.ext hanswered rfl, hvalid, hrep⟩
    · simp only [service_apply, Prod.mk.injEq] at hanswer
      refine .inr ⟨?_, hanswer.2.2.symm⟩
      intro p2 p3 status hi ha
      simp only [hi, ha, Res.mapErr] at hanswer
      cases hanswer.1
  · simp only [service_apply, Prod.mk.injEq] at hinsert
    refine .inr ⟨?_, hinsert.2.2.symm⟩
    intro p2 p3 status hi
    simp only [hi, Res.mapErr] at hinsert
    cases hinsert.1

theorem newPayloadWithSeal_effect {request : ρ} {companion : SealCompanion} {p p' : π}
    {s s' : CompanionStore} {r : Res EngineApiError PayloadStatus} {a : Shelf}
    (hs : Represents s a)
    (hrun : newPayloadWithSeal services request companion (p, s) = (r, (p', s'))) :
    ∃ b, Represents s' b ∧ ImportEffect services request companion (p, s) a b := by
  rcases himport : services.tryImportSealPayload request companion p with ⟨ri, p1⟩
  rw [newPayloadWithSeal, Run.bind_apply, serviceAnswer_apply, himport] at hrun
  have hrefused (h : ∀ prepared, ri ≠ .ok prepared) :
      ImportEffect services request companion (p, s) a a := by
    refine .untouched ?_
    rintro hash status ⟨prepared, _, _, _, _, himport', -⟩
    rw [himport, Prod.mk.injEq] at himport'
    exact h prepared himport'.1
  rcases ri with (e | _) | prepared
  · obtain ⟨-, -, rfl⟩ : importResponse e = r ∧ p1 = p' ∧ s = s' := by simpa [answerOf] using hrun
    exact ⟨a, hs, hrefused (by simp)⟩
  · obtain ⟨-, -, rfl⟩ : .error .panic = r ∧ p1 = p' ∧ s = s' := by
      simpa [answerOf, Res.panic] using hrun
    exact ⟨a, hs, hrefused (by simp)⟩
  · rcases hput : CompanionStore.put prepared.blockHash prepared.blockNumber companion s with ⟨rp, s1⟩
    simp only [answerOf, storeAndForward, Run.bind_apply, storeAnswer_apply, hput] at hrun
    have hunstored (h : rp ≠ .ok ()) : ImportEffect services request companion (p, s) a a := by
      refine .untouched ?_
      rintro hash status ⟨prepared', _, _, _, _, himport', -, hput', -⟩
      rw [himport, Prod.mk.injEq, Except.ok.injEq] at himport'
      rw [← himport'.1, hput, Prod.mk.injEq] at hput'
      exact h hput'.1
    rcases rp with (e | _) | _
    · obtain rfl := put_error hput
      obtain ⟨-, -, rfl⟩ : _ = r ∧ p1 = p' ∧ s1 = s' := by simpa using hrun
      exact ⟨a, hs, hunstored (by simp)⟩
    · obtain rfl := put_error hput
      obtain ⟨-, -, rfl⟩ : .error .panic = r ∧ p1 = p' ∧ s1 = s' := by simpa [Res.panic] using hrun
      exact ⟨a, hs, hunstored (by simp)⟩
    · have hstored := hs.put hput
      rcases forward_effect hstored hrun with
        ⟨p2, p3, status, hinsert, hanswer, hne, hrep⟩ | ⟨honly, rfl⟩
      · exact ⟨_, hrep, .takenBack ⟨prepared, _, _, _, _, himport, rfl, hput, hinsert, hanswer⟩ hne⟩
      · refine ⟨_, hstored, .stored ?_⟩
        rintro hash status ⟨prepared', _, _, _, _, himport', rfl, -, hinsert, hanswer⟩
        obtain ⟨rfl, rfl⟩ : prepared = prepared' ∧ p1 = _ := by simpa [himport] using himport'
        exact ⟨rfl, honly _ _ _ hinsert hanswer⟩

/-- A part of a handler that does not touch the store. -/
def Frames {α : Type} (m : Handler π α) : Prop := ∀ st, (m st).2.2 = st.2

theorem frames_jobPart {α : Type} (payloadId : Bytes) (part : Run π EngineApiError (Option α)) :
    Frames (jobPart payloadId part) := by
  rintro ⟨p, s⟩
  rw [jobPart, Run.bind_apply, service_apply]
  rcases (part p).1 with (_ | _) | _ <;> rfl

/-- From a store of shelf `a`, the handler ends in a store of `a` or of `a` with one companion
more. -/
def StoresAtMostOne {α : Type} (a : Shelf) (m : Handler π α) : Prop :=
  ∀ p s r p' s', Represents s a → m (p, s) = (r, (p', s')) →
    Represents s' a ∨ ∃ hash number companion, Represents s' (a.put hash number companion)

theorem StoresAtMostOne.bind {α β : Type} {a : Shelf} {m : Handler π α} {f : α → Handler π β}
    (hm : Frames m) (hf : ∀ x, StoresAtMostOne a (f x)) : StoresAtMostOne a (m >>= f) := by
  intro p s r p' s' hs hrun
  rcases Run.bind_eq.mp hrun with ⟨x, ⟨p1, s1⟩, hfirst, hrest⟩ | ⟨e, hfirst, -⟩
  · have hsame := hm (p, s)
    rw [hfirst] at hsame
    obtain rfl : s1 = s := hsame
    exact hf x p1 s1 r p' s' hs hrest
  · have hsame := hm (p, s)
    rw [hfirst] at hsame
    obtain rfl : s' = s := hsame
    exact .inl hs

/-- Serving a built payload stores its companion or leaves the store as it was. -/
theorem getPayloadWithSeal_effect (H : Bytes → Bytes32) (payloadId : Bytes) (a : Shelf) :
    StoresAtMostOne a (getPayloadWithSeal H services payloadId) := by
  refine .bind (fun _ => rfl) fun payload => .bind (frames_jobPart _ _) fun rootInput =>
    .bind (frames_jobPart _ _) fun b1Update => .bind (frames_jobPart _ _) fun records =>
    .bind (frames_jobPart _ _) fun pairBinding => .bind (fun _ => rfl) fun companion =>
    .bind (fun _ => rfl) fun _ => ?_
  intro p s r p' s' hs hrun
  rcases hput : CompanionStore.put payload.blockHash payload.blockNumber companion s with ⟨rp, s1⟩
  simp only [Run.bind_apply, storeAnswer_apply, hput] at hrun
  rcases rp with (e | _) | _
  · obtain rfl := put_error hput
    obtain ⟨-, -, rfl⟩ : _ = r ∧ p = p' ∧ s1 = s' := by simpa [answerOf, Run.fail] using hrun
    exact .inl hs
  · obtain rfl := put_error hput
    obtain ⟨-, -, rfl⟩ : .error .panic = r ∧ p = p' ∧ s1 = s' := by
      simpa [answerOf, Res.panic] using hrun
    exact .inl hs
  · obtain ⟨-, -, rfl⟩ : _ = r ∧ p = p' ∧ s1 = s' := by simpa [answerOf] using hrun
    exact .inr ⟨_, _, _, hs.put hput⟩

end Effects

end Ureth.Source.Payload
