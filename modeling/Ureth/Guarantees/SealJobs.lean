import Ureth.Guarantees.HeaderAgreement
import Ureth.Source.Payload.SealJobs

/-!
# A build job resolves to what it was bound to

Whatever is inserted and resolved, the registry of seal build jobs holds the last new jobs under
distinct payload ids. A job answers only for its own parent and attributes, and a retry under its
id is accepted only for the same build input, which then has the same update and records.
-/

namespace Ureth.Guarantees
open Ureth.Foundation Ureth.Source.Execution Ureth.Source.Payload
open Ureth.Source.Payload.SealJobRegistry

/-- After any calls on a registry of any capacity. Equal sealed headers have equal hashes; where
the header asked for is sealed under its own hash it is the job's, header-hash collisions aside. -/
theorem seal_job_registry_history (H : Bytes → Bytes32) (hashSlow : Header → Bytes32) (P : StockPayload)
    (hsame : ∀ a b, P.sameHeader a b = true → a.hash = b.hash) {capacity : Nat} {start : SealJobRegistry}
    (hstart : withCapacity capacity = .ok start) (calls : List Call) (registry : SealJobRegistry)
    (hregistry : registry = after P start calls) :
    (registry.entries.map ResolvedPayloadJob.payloadId).Nodup ∧ registry.entries.length ≤ capacity ∧
    registry.entries = (installed start calls).rtake capacity ∧
    (∀ config evmConfig, resolve H P registry config = .ok evmConfig →
      ∃ job ∈ registry.entries, job.evmConfig = evmConfig ∧ job.payloadId = config.payloadId ∧
        P.sameHeader job.parent config.parentHeader = true ∧ job.attributes = config.attributes ∧
        (job.Made H hashSlow P → evmConfig.bound.parentHash = config.parentHeader.hash ∧
          (hashSlow config.parentHeader.header = config.parentHeader.hash →
            job.parent = config.parentHeader ∨
              Collision hashSlow [job.parent.header, config.parentHeader.header]))) ∧
    (∀ job next result, insert P job registry = (result, next) →
      (∀ held ∈ registry.entries, held.payloadId ≠ job.payloadId) → result = .ok () ∧
        next.entries = (if capacity ≤ registry.entries.length then registry.entries.tail
          else registry.entries) ++ [job]) ∧
    (∀ job held next result, insert P job registry = (result, next) → held ∈ registry.entries →
      held.payloadId = job.payloadId → next = registry ∧
        (result = .ok () → held.SameBuildInput P job ∧
          (held.Made H hashSlow P → job.Made H hashSlow P →
            (held.evmConfig.bound.b1.update = job.evmConfig.bound.b1.update ∨
              Collision H [held.evmConfig.bound.b1.update.val, job.evmConfig.bound.b1.update.val]) ∧
            (held.evmConfig.bound.b1.records = job.evmConfig.bound.b1.records ∨
              Collision H [held.evmConfig.bound.b1.records.val, job.evmConfig.bound.b1.records.val])))) := by
  obtain ⟨hpos, rfl⟩ := withCapacity_eq_ok.mp hstart
  have hcapacity : registry.capacity = capacity := by rw [hregistry, capacity_after]
  have hrecent : registry.Recent ResolvedPayloadJob.payloadId (installed ⟨[], capacity, hpos⟩ calls) := by
    rw [hregistry]
    exact recent_after (Fifo.Recent.of_empty capacity hpos) calls
  refine ⟨hrecent.distinct, hcapacity ▸ hrecent.length_le, hcapacity ▸ hrecent.entries, ?_, ?_, ?_⟩
  · intro config evmConfig hresolve
    obtain ⟨job, hfound, hheader, hattributes, -, rfl⟩ := resolve_eq_ok.mp hresolve
    refine ⟨job, mem_of_findKey hfound, rfl, key_of_findKey hfound, hheader, hattributes, fun hmade => ?_⟩
    obtain ⟨hsealed, hparent, -⟩ := hmade.sealed
    refine ⟨hparent.trans (hsame _ _ hheader), fun hown => ?_⟩
    by_cases heq : job.parent.header = config.parentHeader.header
    · exact .inl (sealedHeader_ext heq (hsame _ _ hheader))
    · refine .inr ⟨_, by simp, _, by simp, heq, ?_⟩
      rw [hsealed, hown, hsame _ _ hheader]
  · intro job next result hinsert hnone
    rcases insert_cases (P := P) job registry with ⟨-, h⟩ | ⟨held, hheld, -⟩
    · obtain ⟨rfl, rfl⟩ := Prod.mk.inj (h.symm.trans hinsert)
      refine ⟨rfl, ?_⟩
      rw [← hcapacity]
      rfl
    · exact absurd (key_of_findKey hheld) (hnone held (mem_of_findKey hheld))
  · intro job held next result hinsert hmem hid
    have hfound : findKey ResolvedPayloadJob.payloadId job.payloadId registry.entries = some held :=
      hid ▸ findKey_of_mem hrecent.distinct hmem
    rcases insert_cases (P := P) job registry with ⟨hnone, -⟩ | ⟨held', hheld, h⟩
    · rw [hnone] at hfound
      cases hfound
    · obtain rfl : held' = held := Option.some.inj (hheld.symm.trans hfound)
      obtain ⟨hresult, rfl⟩ := Prod.mk.inj (h.symm.trans hinsert)
      refine ⟨rfl, fun hok => ?_⟩
      rw [hok] at hresult
      by_cases hbuild : held'.SameBuildInput P job
      · refine ⟨hbuild, fun hmade hmade' => ?_⟩
        obtain ⟨_, hbound⟩ := hmade.bound
        obtain ⟨_, hbound'⟩ := hmade'.bound
        exact (hbound.agree hbound' hbuild.2.2.2).2
      · rw [if_neg hbuild] at hresult
        cases hresult

/-! ## The first build of a chain -/

/-- Ids of nothing but the commitment, the desired gas limit, headers compared in full. -/
def plainPayload : StockPayload where
  payloadId := fun _ _ => []
  calculateBlockGasLimit := fun _ desired => desired
  sameHeader := fun a b => a = b

def firstAttributes : UnicityPayloadAttributes where
  inner := { timestamp := 1800000001, prevRandao := .literal 32 1, suggestedFeeRecipient := .literal 20 5
             withdrawals := some [], parentBeaconBlockRoot := some (.literal 32 1), slotNumber := none
             targetGasLimit := none }
  commitment := .literal 32 1

def firstJob : ResolvedPayloadJob where
  parent := genesisHeader
  attributes := firstAttributes
  payloadId := firstAttributes.payloadId oneWord plainPayload (.literal 32 0x11)
  evmConfig := genesisConfig
  pairBinding := none

theorem firstJob_made : firstJob.Made oneWord (fun _ => .literal 32 0x11) plainPayload where
  created := by
    refine ⟨firstAttributes, ⟨60000000, false⟩, ?_⟩
    have hparent : genesisConfig.validateParent (fun _ => .literal 32 0x11) genesisHeader = .ok () :=
      UnicityEvmConfig.validateParent_of_parented boundTo_genesis.parented
    have hattributes := genesisAttributes_valid
    simp only [ResolvedPayloadJob.new, validatePayloadJob, Res.bind_eq_ok, Res.refuse_eq_ok, Res.mapErr_eq_ok,
      Res.pure_eq_ok]
    exact ⟨(), by simp, (), ⟨(), hparent, hattributes⟩, rfl⟩
  bound := ⟨genesisHeader, boundTo_genesis⟩

/-- The first build of a chain is installed, and resolved for its own parent. -/
theorem seal_job_registry_history_first :
    ∃ start, withCapacity 1 = .ok start ∧
      resolve oneWord plainPayload (after plainPayload start [.insert firstJob])
        ⟨genesisHeader, firstAttributes, firstJob.payloadId⟩ = .ok genesisConfig ∧
      genesisConfig.bound.parentHash = genesisHeader.hash := by
  have hstart : withCapacity 1 = .ok ⟨[], 1, Nat.one_pos⟩ := rfl
  have hresolve : resolve oneWord plainPayload (after plainPayload ⟨[], 1, Nat.one_pos⟩ [.insert firstJob])
      ⟨genesisHeader, firstAttributes, firstJob.payloadId⟩ = .ok genesisConfig :=
    resolve_eq_ok.mpr ⟨firstJob, by simp [after, Call.run, SealJobRegistry.insert, Fifo.pushBack, findKey],
      by simp [plainPayload, firstJob], rfl, rfl, rfl⟩
  have hsame : ∀ a b, plainPayload.sameHeader a b = true → a.hash = b.hash := by
    intro a b hab
    rw [of_decide_eq_true hab]
  obtain ⟨-, -, -, hanswers, -, -⟩ := seal_job_registry_history oneWord (fun _ => .literal 32 0x11)
    plainPayload hsame hstart [.insert firstJob] _ rfl
  obtain ⟨job, hjob, -, -, -, -, hmade⟩ := hanswers _ _ hresolve
  obtain rfl : job = firstJob := by
    simpa [after, Call.run, SealJobRegistry.insert, Fifo.pushBack] using hjob
  exact ⟨_, hstart, hresolve, (hmade firstJob_made).1⟩

end Ureth.Guarantees
