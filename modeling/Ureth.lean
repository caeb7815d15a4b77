import Ureth.Foundation.Bits
import Ureth.Foundation.Bytes
import Ureth.Foundation.CborTree
import Ureth.Foundation.Collision
import Ureth.Foundation.Cursor
import Ureth.Foundation.Feedback
import Ureth.Foundation.FieldList
import Ureth.Foundation.Fifo
import Ureth.Foundation.FirstBy
import Ureth.Foundation.HashPath
import Ureth.Foundation.HeadTail
import Ureth.Foundation.Keyed
import Ureth.Foundation.Metered
import Ureth.Foundation.OrderedTable
import Ureth.Foundation.Outcome
import Ureth.Foundation.Quorum
import Ureth.Foundation.Scaling
import Ureth.Foundation.Sha256
import Ureth.Foundation.Spans
import Ureth.Foundation.Spending
import Ureth.Foundation.Steps
import Ureth.Foundation.SumTree
import Ureth.Foundation.Threshold
import Ureth.Foundation.Triple
import Ureth.Foundation.Utf8
import Ureth.Foundation.Word64
import Ureth.Guarantees.AnchorTable
import Ureth.Guarantees.BaseFee
import Ureth.Guarantees.BatchOrder
import Ureth.Guarantees.BatchWork
import Ureth.Guarantees.BlockExecutor
import Ureth.Guarantees.CborScanners
import Ureth.Guarantees.CertificateReaders
import Ureth.Guarantees.ClaimBinding
import Ureth.Guarantees.EnvelopeAbi
import Ureth.Guarantees.EpochCoverage
import Ureth.Guarantees.EpochTransitions
import Ureth.Guarantees.EvictionSafety
import Ureth.Guarantees.ExecutionInput
import Ureth.Guarantees.FeeRule
import Ureth.Guarantees.GasThreshold
import Ureth.Guarantees.GossipGate
import Ureth.Guarantees.HeaderAgreement
import Ureth.Guarantees.ImportAdmission
import Ureth.Guarantees.ImportRetention
import Ureth.Guarantees.InputRegistry
import Ureth.Guarantees.KernelAbi
import Ureth.Guarantees.LineageAccounting
import Ureth.Guarantees.LineageWalk
import Ureth.Guarantees.NullifierBinding
import Ureth.Guarantees.Quantization
import Ureth.Guarantees.RecoveryAdmission
import Ureth.Guarantees.Retention
import Ureth.Guarantees.ReturnHistory
import Ureth.Guarantees.ReturnRefinement
import Ureth.Guarantees.RsmtBinding
import Ureth.Guarantees.SealJobs
import Ureth.Guarantees.SealQuorum
import Ureth.Guarantees.SplitConservation
import Ureth.Guarantees.StoreRefinement
import Ureth.Guarantees.StoredCodecs
import Ureth.Guarantees.SystemGas
import Ureth.Guarantees.TokenResolution
import Ureth.Guarantees.UpdateAdmission
import Ureth.Source.B1.Batch
import Ureth.Source.B1.BatchOrder
import Ureth.Source.B1.BatchSpec
import Ureth.Source.B1.Cbor
import Ureth.Source.B1.CborItem
import Ureth.Source.B1.CborSpec
import Ureth.Source.B1.CborWalk
import Ureth.Source.B1.Certificate
import Ureth.Source.B1.CertificateReaders
import Ureth.Source.B1.CertificateSpec
import Ureth.Source.B1.EvaluateSpec
import Ureth.Source.B1.QuorumSpec
import Ureth.Source.B1.Registry
import Ureth.Source.B1.RegistrySpec
import Ureth.Source.B1.Rsmt
import Ureth.Source.B1.RsmtSpec
import Ureth.Source.B1.Wire
import Ureth.Source.B2.AbiSpec
import Ureth.Source.B2.Allocation
import Ureth.Source.B2.Cbor
import Ureth.Source.B2.CborItem
import Ureth.Source.B2.CborSpec
import Ureth.Source.B2.CborWalk
import Ureth.Source.B2.HistoryChain
import Ureth.Source.B2.Kernel
import Ureth.Source.B2.Lineage
import Ureth.Source.B2.LineageSpec
import Ureth.Source.B2.LineageWalk
import Ureth.Source.B2.NullifierPath
import Ureth.Source.B2.ReturnSpec
import Ureth.Source.B2.Semantics
import Ureth.Source.B2.SemanticsSpec
import Ureth.Source.B2.Wire
import Ureth.Source.Bridge.Abi
import Ureth.Source.Bridge.AbiSpec
import Ureth.Source.Bridge.AnchorSpec
import Ureth.Source.Bridge.Cfg
import Ureth.Source.Bridge.Compose
import Ureth.Source.Bridge.HistorySpec
import Ureth.Source.Bridge.MeterSpec
import Ureth.Source.Bridge.Wire
import Ureth.Source.Crypto
import Ureth.Source.Execution.Binding
import Ureth.Source.Execution.Block
import Ureth.Source.Execution.BlockSpec
import Ureth.Source.Execution.Complete
import Ureth.Source.Execution.Environment
import Ureth.Source.Execution.Executor
import Ureth.Source.Execution.ExecutorSpec
import Ureth.Source.Execution.Hooks
import Ureth.Source.Execution.InputRegistry
import Ureth.Source.Execution.Pairing
import Ureth.Source.Execution.PairingSpec
import Ureth.Source.Execution.Quant
import Ureth.Source.Execution.Records
import Ureth.Source.Execution.RecordsCodec
import Ureth.Source.Execution.Transition
import Ureth.Source.Execution.TransitionSpec
import Ureth.Source.Execution.TransitionWire
import Ureth.Source.Execution.Update
import Ureth.Source.Execution.UpdateCodec
import Ureth.Source.Execution.UpdateSpec
import Ureth.Source.Execution.Wire
import Ureth.Source.Execution.WireSpec
import Ureth.Source.Payload.Consensus
import Ureth.Source.Payload.EvictionSpec
import Ureth.Source.Payload.Gossip
import Ureth.Source.Payload.Import
import Ureth.Source.Payload.Prune
import Ureth.Source.Payload.PruneSpec
import Ureth.Source.Payload.Recovery
import Ureth.Source.Payload.RecoverySpec
import Ureth.Source.Payload.SealJobs
import Ureth.Source.Payload.TokenSystem
import Ureth.Source.Payload.Tokens
import Ureth.Source.Payload.TokensRoom
import Ureth.Source.Payload.TokensSpec
import Ureth.Source.Store.Records
import Ureth.Source.Store.Store
import Ureth.Source.Store.StoreRun
import Ureth.Source.Store.StoreSpec
