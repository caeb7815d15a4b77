import Ureth.Source.Execution.InputRegistry
import Ureth.Source.Execution.Pairing

/-!
# The registry of seal build jobs

A build request is bound to its parent and attributes before it is installed, under an
eight-byte payload id that is only a handle; the payload builder resolves it by that id and
compares the whole binding again. The stock payload id, the stock gas-limit rule and the
comparison of sealed headers are parameters.
-/

namespace Ureth.Source.Payload
open Ureth.Foundation Ureth.Source.Execution

structure EthPayloadAttributes where
  timestamp : UInt64
  prevRandao : Bytes32
  suggestedFeeRecipient : Fixed 20
  withdrawals : Option (List Withdrawal)
  parentBeaconBlockRoot : Option Bytes32
  slotNumber : Option UInt64
  targetGasLimit : Option UInt64
  deriving DecidableEq

structure UnicityPayloadAttributes where
  inner : EthPayloadAttributes
  commitment : Bytes32
  deriving DecidableEq

structure EthereumBuilderConfig where
  desiredGasLimit : UInt64
  skipStateRoot : Bool

structure PayloadConfig where
  parentHeader : SealedHeader
  attributes : UnicityPayloadAttributes
  payloadId : Bytes

structure PayloadJobResolutionError where
  message : String
  deriving DecidableEq

structure ResolvedPayloadJob where
  parent : SealedHeader
  attributes : UnicityPayloadAttributes
  payloadId : Bytes
  evmConfig : UnicityEvmConfig
  pairBinding : Option PairBinding

/-- The code of other crates that a payload job runs. -/
structure StockPayload where
  payloadId : EthPayloadAttributes → Bytes32 → Bytes
  /-- `calculate_block_gas_limit` of the parent's limit and the desired one. -/
  calculateBlockGasLimit : UInt64 → UInt64 → UInt64
  /-- The equality of sealed headers. -/
  sameHeader : SealedHeader → SealedHeader → Bool

def payloadIdDomain : Bytes := ascii "UNICITY_PAYLOAD_ID_EXTRADATA_COMMITMENT_V1"

section

variable (H : Bytes → Bytes32) (hashSlow : Header → Bytes32) (P : StockPayload)

/-- The stock id, bound to the commitment and cut to eight bytes. -/
def UnicityPayloadAttributes.payloadId (attributes : UnicityPayloadAttributes) (parentHash : Bytes32) : Bytes :=
  (H (payloadIdDomain ++ P.payloadId attributes.inner parentHash ++ attributes.commitment.val)).val.take 8

def EthereumBuilderConfig.gasLimitWithTarget (config : EthereumBuilderConfig) (parentGasLimit : UInt64)
    (targetGasLimit : Option UInt64) : UInt64 :=
  P.calculateBlockGasLimit parentGasLimit (targetGasLimit.getD config.desiredGasLimit)

def nextBlockAttributes (parent : SealedHeader) (attributes : UnicityPayloadAttributes)
    (builderConfig : EthereumBuilderConfig) : NextBlockEnvAttributes where
  timestamp := attributes.inner.timestamp
  suggestedFeeRecipient := attributes.inner.suggestedFeeRecipient
  prevRandao := attributes.inner.prevRandao
  gasLimit := builderConfig.gasLimitWithTarget P parent.header.gasLimit attributes.inner.targetGasLimit
  parentBeaconBlockRoot := attributes.inner.parentBeaconBlockRoot
  withdrawals := attributes.inner.withdrawals
  extraData := attributes.commitment.val
  slotNumber := attributes.inner.slotNumber

def validatePayloadJob (config : UnicityEvmConfig) (parent : SealedHeader)
    (attributes : NextBlockEnvAttributes) : Res BindingError Unit := do
  config.validateParent hashSlow parent
  config.validateNextAttributes H attributes

namespace ResolvedPayloadJob

def new (parent : SealedHeader) (attributes : UnicityPayloadAttributes) (evmConfig : UnicityEvmConfig)
    (builderConfig : EthereumBuilderConfig) : Res PayloadJobResolutionError ResolvedPayloadJob := do
  Res.refuse (builderConfig.skipStateRoot = true) ⟨"Unicity payload jobs require state-root computation"⟩
  let payloadId := attributes.payloadId H P parent.hash
  (validatePayloadJob H hashSlow evmConfig parent (nextBlockAttributes P parent attributes builderConfig)).mapErr
    fun error => ⟨error.message⟩
  return { parent, attributes, payloadId, evmConfig, pairBinding := none }

def withPairBinding (job : ResolvedPayloadJob) (binding : PairBinding) : ResolvedPayloadJob :=
  { job with pairBinding := some binding }

def checkBinding (job : ResolvedPayloadJob) (config : PayloadConfig) : Res PayloadJobResolutionError Unit :=
  Res.refuse (P.sameHeader job.parent config.parentHeader = false ∨ job.attributes ≠ config.attributes ∨
    config.attributes.payloadId H P config.parentHeader.hash ≠ config.payloadId)
    ⟨"payload job binding mismatch"⟩

def SameBuildInput (job other : ResolvedPayloadJob) : Prop :=
  P.sameHeader job.parent other.parent = true ∧ job.attributes = other.attributes ∧
    job.pairBinding = other.pairBinding ∧ job.evmConfig.bound.input = other.evmConfig.bound.input

instance (job other : ResolvedPayloadJob) : Decidable (job.SameBuildInput P other) :=
  inferInstanceAs (Decidable (_ ∧ _))

/-- A job as its constructor and `withPairBinding` leave it, for a configuration whose input was
bound to some parent. -/
structure Made (job : ResolvedPayloadJob) : Prop where
  created : ∃ attributes builderConfig, new H hashSlow P job.parent attributes job.evmConfig builderConfig =
    .ok { job with pairBinding := none }
  bound : ∃ parent, BoundExecutionInput.BoundTo H hashSlow parent job.evmConfig.bound

end ResolvedPayloadJob

abbrev SealJobRegistry := Fifo ResolvedPayloadJob

namespace SealJobRegistry

/-- A registry of no capacity is refused by an assertion. -/
def withCapacity (capacity : Nat) : Res PayloadJobResolutionError SealJobRegistry :=
  if h : 0 < capacity then .ok ⟨[], capacity, h⟩ else Res.panic

def insert (job : ResolvedPayloadJob) : Run SealJobRegistry PayloadJobResolutionError Unit := fun inner =>
  match findKey ResolvedPayloadJob.payloadId job.payloadId inner.entries with
  | some existing =>
    if existing.SameBuildInput P job then (.ok (), inner)
    else (Res.fail ⟨"duplicate payload job with different input"⟩, inner)
  | none => (.ok (), inner.pushBack job)

def resolve (registry : SealJobRegistry) (config : PayloadConfig) :
    Res PayloadJobResolutionError UnicityEvmConfig := do
  let job ← Res.okOr ⟨"payload job is absent"⟩
    (findKey ResolvedPayloadJob.payloadId config.payloadId registry.entries)
  job.checkBinding H P config
  return job.evmConfig

/-- A call on the registry. -/
inductive Call where
  | insert (job : ResolvedPayloadJob)
  | resolve (config : PayloadConfig)

/-- The registry after a call; resolving leaves it. -/
def Call.run (registry : SealJobRegistry) : Call → SealJobRegistry
  | .insert job => (SealJobRegistry.insert P job registry).2
  | .resolve _ => registry

/-- The jobs a call offers. -/
def Call.offer : Call → List ResolvedPayloadJob
  | .insert job => [job]
  | .resolve _ => []

def after (registry : SealJobRegistry) (calls : List Call) : SealJobRegistry :=
  calls.foldl (Call.run P) registry

/-- The new jobs a sequence of calls installs, in order. -/
def installed (registry : SealJobRegistry) (calls : List Call) : List ResolvedPayloadJob :=
  Fifo.appended ResolvedPayloadJob.payloadId registry (calls.flatMap Call.offer)

end SealJobRegistry

end

/-! ## What the registry does -/

section

variable {H : Bytes → Bytes32} {hashSlow : Header → Bytes32} {P : StockPayload}

theorem sealedHeader_ext {a b : SealedHeader} (hheader : a.header = b.header) (hhash : a.hash = b.hash) :
    a = b := by
  cases a
  cases b
  simp_all

/-- A job was validated against its own parent, and its id is that of its attributes. -/
theorem ResolvedPayloadJob.new_eq_ok {parent : SealedHeader} {attributes : UnicityPayloadAttributes}
    {evmConfig : UnicityEvmConfig} {builderConfig : EthereumBuilderConfig} {job : ResolvedPayloadJob}
    (h : ResolvedPayloadJob.new H hashSlow P parent attributes evmConfig builderConfig = .ok job) :
    hashSlow parent.header = parent.hash ∧ evmConfig.bound.parentHash = parent.hash ∧
      job = ⟨parent, attributes, attributes.payloadId H P parent.hash, evmConfig, none⟩ := by
  simp only [new, validatePayloadJob, UnicityEvmConfig.validateParent, Res.bind_eq_ok, Res.refuse_eq_ok,
    Res.mapErr_eq_ok, Res.pure_eq_ok, not_or, not_not] at h
  obtain ⟨_, -, _, ⟨_, ⟨_, ⟨hsealed, hparent, -⟩, -⟩, -⟩, rfl⟩ := h
  exact ⟨hsealed, hparent.symm, rfl⟩

theorem ResolvedPayloadJob.Made.sealed {job : ResolvedPayloadJob} (h : job.Made H hashSlow P) :
    hashSlow job.parent.header = job.parent.hash ∧ job.evmConfig.bound.parentHash = job.parent.hash ∧
      job.payloadId = job.attributes.payloadId H P job.parent.hash := by
  obtain ⟨attributes, builderConfig, hnew⟩ := h.created
  obtain ⟨hsealed, hparent, heq⟩ := new_eq_ok hnew
  refine ⟨hsealed, hparent, ?_⟩
  have hattributes : job.attributes = attributes := congrArg ResolvedPayloadJob.attributes heq
  rw [hattributes]
  exact congrArg ResolvedPayloadJob.payloadId heq

namespace SealJobRegistry

variable {registry : SealJobRegistry} {job held : ResolvedPayloadJob} {config : PayloadConfig}
  {evmConfig : UnicityEvmConfig}

theorem withCapacity_eq_ok {capacity : Nat} :
    withCapacity capacity = .ok registry ↔ ∃ h : 0 < capacity, registry = ⟨[], capacity, h⟩ := by
  unfold withCapacity
  split
  · rename_i h
    simp [h, eq_comm]
  · rename_i h
    simp [h]

/-- What an insertion does: a new job, an identical one, or a refusal. -/
theorem insert_cases (job : ResolvedPayloadJob) (registry : SealJobRegistry) :
    (findKey ResolvedPayloadJob.payloadId job.payloadId registry.entries = none ∧
      insert P job registry = (.ok (), registry.pushBack job)) ∨
    ∃ held, findKey ResolvedPayloadJob.payloadId job.payloadId registry.entries = some held ∧
      insert P job registry = (if held.SameBuildInput P job then .ok ()
        else Res.fail ⟨"duplicate payload job with different input"⟩, registry) := by
  cases hheld : findKey ResolvedPayloadJob.payloadId job.payloadId registry.entries with
  | none => exact .inl ⟨rfl, by simp [insert, hheld]⟩
  | some held =>
    refine .inr ⟨held, rfl, ?_⟩
    by_cases hsame : held.SameBuildInput P job
    · simp [insert, hheld, hsame]
    · simp [insert, hheld, hsame]

theorem run_eq (call : Call) :
    call.run P registry = call.offer.foldl (Fifo.enroll ResolvedPayloadJob.payloadId) registry := by
  cases call with
  | resolve _ => rfl
  | insert job =>
    simp only [Call.run, Call.offer, List.foldl_cons, List.foldl_nil, Fifo.enroll]
    rcases insert_cases (P := P) job registry with ⟨hnew, h⟩ | ⟨held, hheld, h⟩
    · rw [h, if_pos hnew]
    · rw [h, hheld, if_neg (Option.some_ne_none _)]

theorem after_eq (calls : List Call) : after P registry calls =
    (calls.flatMap Call.offer).foldl (Fifo.enroll ResolvedPayloadJob.payloadId) registry := by
  induction calls generalizing registry with
  | nil => rfl
  | cons call calls ih =>
    rw [List.flatMap_cons, List.foldl_append, ← run_eq (P := P)]
    exact ih

theorem capacity_after (calls : List Call) : (after P registry calls).capacity = registry.capacity := by
  rw [after_eq, Fifo.capacity_foldl_enroll]

theorem recent_after {log : List ResolvedPayloadJob}
    (h : registry.Recent ResolvedPayloadJob.payloadId log) (calls : List Call) :
    (after P registry calls).Recent ResolvedPayloadJob.payloadId (log ++ installed registry calls) := by
  rw [after_eq]
  exact h.foldl_enroll _

theorem resolve_eq_ok : resolve H P registry config = .ok evmConfig ↔
    ∃ job, findKey ResolvedPayloadJob.payloadId config.payloadId registry.entries = some job ∧
      P.sameHeader job.parent config.parentHeader = true ∧ job.attributes = config.attributes ∧
      config.attributes.payloadId H P config.parentHeader.hash = config.payloadId ∧
      job.evmConfig = evmConfig := by
  simp only [resolve, ResolvedPayloadJob.checkBinding, Res.bind_eq_ok, Res.okOr_eq_ok, Res.refuse_eq_ok,
    Res.pure_eq_ok, not_or, not_not, Bool.not_eq_false]
  constructor
  · rintro ⟨job, hfound, _, ⟨hheader, hattributes, hid⟩, rfl⟩
    exact ⟨job, hfound, hheader, hattributes, hid, rfl⟩
  · rintro ⟨job, hfound, hheader, hattributes, hid, rfl⟩
    exact ⟨job, hfound, (), ⟨hheader, hattributes, hid⟩, rfl⟩

end SealJobRegistry

end

end Ureth.Source.Payload
