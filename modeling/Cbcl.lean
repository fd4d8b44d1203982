import Cbcl.WorklistProofs
import Cbcl.MessageModel
import Cbcl.ProtocolModel
import Cbcl.StoreModel
import Cbcl.RepeatModel
import Cbcl.RoleModel
import Cbcl.VerifierModel
import Cbcl.RepeatTableProofs
import Cbcl.StoreExtensionProofs
import Cbcl.VerdictShapeProofs
import Cbcl.VerdictStabilityProofs
import Cbcl.AdmissionModel
import Cbcl.AdmissionSafetyProofs
import Cbcl.VerdictLocalityProofs
import Cbcl.AdmissionConfluenceProofs
import Cbcl.ActModel
import Cbcl.CanonicalModel
import Cbcl.CanonicalProofs
import Cbcl.CertificationModel
import Cbcl.EscrowHistoryProofs
import Cbcl.EscrowObservationProofs
import Cbcl.KeyedSortProofs
import Cbcl.MerkleProofs
import Cbcl.RecogniserModel
import Cbcl.RecogniserProofs
import Cbcl.Sha256Model
import Cbcl.StateFoldProofs
import Cbcl.TypedAddrModel
import Cbcl.TypedAddrProofs
import Cbcl.BundleModel
import Cbcl.BundleProofs
import Cbcl.CodecModel
import Cbcl.MessageTextProofs
import Cbcl.PositionsModel
import Cbcl.PositionsProofs
import Cbcl.ResourceResumeModel
import Cbcl.ResourceResumeProofs
import Cbcl.ShelvesProofs
import Cbcl.SummaryModel
import Cbcl.SummaryProofs
import Cbcl.DialectCanonicalModel
import Cbcl.DialectCanonicalProofs
import Cbcl.DialectParserModel
import Cbcl.EngineModel
import Cbcl.EquivocationModel
import Cbcl.EquivocationProofs
import Cbcl.EvaluatorModel
import Cbcl.ExportConfluenceProofs
import Cbcl.PipelineModel
import Cbcl.PipelineProofs
import Cbcl.QuorumIdentityProofs
import Cbcl.RedactionProofs
import Cbcl.DescentProofs
import Cbcl.ScopingProofs
import Cbcl.IntendModel
import Cbcl.IntendProofs
import Cbcl.CoverageModel
import Cbcl.CoverageProofs
import Cbcl.CodecProofs
import Cbcl.SignedMessageModel
import Cbcl.SignedMessageProofs
import Cbcl.AgentModel
import Cbcl.AgentProofs
import Cbcl.AvlProofs
import Cbcl.BundleOrderProofs
import Cbcl.CacheRefinementProofs
import Cbcl.CatchUpProofs
import Cbcl.CopyDischargeProofs
import Cbcl.EvidenceArchiveProofs
import Cbcl.EvidenceProofs
import Cbcl.FromStrModel
import Cbcl.FromStrProofs
import Cbcl.FuelProofs
import Cbcl.GraphSearchProofs
import Cbcl.ProtocolGraphProofs
import Cbcl.ProtocolMirrorProofs
import Cbcl.RestoreProofs
import Cbcl.ActIdentityProofs
import Cbcl.EscrowGrowthProofs
import Cbcl.EscrowSpendProofs
import Cbcl.FixedWidthProofs
import Cbcl.HlcModel
import Cbcl.HlcProofs
import Cbcl.PendingQueueModel
import Cbcl.PendingQueueProofs
import Cbcl.RecursionProofs
import Cbcl.DeclaredBoundsProofs
import Cbcl.ExpansionProofs
import Cbcl.KernelGrowthProofs
import Cbcl.RegisterProofs
import Cbcl.SupersessionProofs
import Cbcl.GossipModel
import Cbcl.GossipProofs
import Cbcl.Sha256Proofs
import Cbcl.ClosureProofs
import Cbcl.RelationMapProofs
import Cbcl.RoutesModel
import Cbcl.RoutesProofs
import Cbcl.ActSetProofs
import Cbcl.BinderOrderProofs
import Cbcl.ContextModel
import Cbcl.ContextProofs
import Cbcl.RoleCheckProofs
import Cbcl.RolePastProofs
import Cbcl.SpreadProofs
import Cbcl.ShuffleProofs
import Cbcl.GossipSpreadProofs
import Cbcl.ReadTreeProofs
import Cbcl.MaySendProofs
import Cbcl.BlameProofs
