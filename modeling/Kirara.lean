import Kirara.AttributionRemovals
import Kirara.BackendRuns
import Kirara.BackupLocations
import Kirara.BoxTables
import Kirara.BreakerPeriods
import Kirara.BreakerRuns
import Kirara.BuilderRoundTrips
import Kirara.CircuitStores
import Kirara.ClaudeRequests
import Kirara.CodeSurvival
import Kirara.CompactedTurns
import Kirara.ConfigSaves
import Kirara.ConfirmOnce
import Kirara.ContentHashes
import Kirara.CreatorSubjects
import Kirara.CredentialExposure
import Kirara.CycleScan
import Kirara.DelegatedHistories
import Kirara.DelegationDepth
import Kirara.DependencyCancellations
import Kirara.DispatchExplanations
import Kirara.DispatchReachability
import Kirara.EventDeliveries
import Kirara.ExtractionTargets
import Kirara.FailoverQueues
import Kirara.FileHistories
import Kirara.HookVerdicts
import Kirara.InputAgreement
import Kirara.LogicalTraces
import Kirara.LoopRuns
import Kirara.MathDegrading
import Kirara.MediaCarriers
import Kirara.OneBotContent
import Kirara.OneBotServices
import Kirara.OutboxOnce
import Kirara.OutboxOrder
import Kirara.PaginationErrors
import Kirara.PendingRequests
import Kirara.PluginRuns
import Kirara.PresetDeletions
import Kirara.PriceBackups
import Kirara.PriceSyncEffects
import Kirara.QQBotDeliveries
import Kirara.ReachabilityWarnings
import Kirara.ReceiptOwnership
import Kirara.Rectifications
import Kirara.RegistryInvariants
import Kirara.RegistryReloads
import Kirara.RequestPermits
import Kirara.ResourceFailures
import Kirara.SendPacings
import Kirara.ServerCaches
import Kirara.SessionStores
import Kirara.SkillVersions
import Kirara.SpanCuts
import Kirara.SpokenRoles
import Kirara.StreamAttempts
import Kirara.StreamDeliveries
import Kirara.StreamedTurns
import Kirara.ToolAllowlists
import Kirara.ToolAnswers
import Kirara.TrustedAgents
import Kirara.TypeCompatibility
import Kirara.WorkflowRestarts
