import Forail.Api.EventLineage
import Forail.Api.EventPreorder
import Forail.Api.EventTree
import Forail.Api.OpenEvents
import Forail.Api.SummaryLoop
import Forail.Api.SummaryRows
import Forail.Api.WebAuthn
import Forail.Api.WebAuthnRuns
import Forail.Api.WebhookDeliveries
import Forail.Api.Webhooks
import Forail.Api.WorkflowNodes
import Forail.Api.WorkflowServer
import Forail.Base.Acyclicity
import Forail.Base.Binary64
import Forail.Base.Dict
import Forail.Base.DoubleSplit
import Forail.Base.Json
import Forail.Base.JsonRoundTrip
import Forail.Base.JsonScalars
import Forail.Base.Keyed
import Forail.Base.MapM
import Forail.Base.MarkedReplace
import Forail.Base.NextAfter
import Forail.Base.Percent
import Forail.Base.PosixPath
import Forail.Base.Preorder
import Forail.Base.Pruning
import Forail.Base.RealPath
import Forail.Base.Register
import Forail.Base.RootedDag
import Forail.Base.Runs
import Forail.Base.Stride
import Forail.Base.Table
import Forail.Base.TokenBucket
import Forail.Base.UriComponent
import Forail.Base.Value
import Forail.Base.Walk
import Forail.Commands.ImportMatching
import Forail.Commands.ImportOneToOne
import Forail.Commands.ImportRenames
import Forail.Commands.ImportRepeat
import Forail.Commands.ImportResult
import Forail.Commands.ImportVariables
import Forail.Commands.InstanceIdMatches
import Forail.Commands.InventoryImport
import Forail.Commands.KeyRotation
import Forail.Commands.RegenerateSecretKey
import Forail.Commands.RotatedAnswers
import Forail.Commands.RotatedCredentials
import Forail.Commands.RotatedSecrets
import Forail.Conf.SettingsWrapper
import Forail.Dispatch.AutoscalePool
import Forail.Dispatch.CallbackBroker
import Forail.Dispatch.CallbackFlush
import Forail.Dispatch.CallbackRuns
import Forail.Dispatch.Heartbeat
import Forail.Dispatch.HeartbeatReap
import Forail.Dispatch.LocalReaper
import Forail.Dispatch.Periodic
import Forail.Dispatch.PoolInvariant
import Forail.Dispatch.PoolWorker
import Forail.Dispatch.ReaperInvariant
import Forail.Dispatch.Recovery
import Forail.Dispatch.WorkerBookkeeping
import Forail.Dispatch.WorkerSteps
import Forail.Eda.Deduplication
import Forail.Eda.EventRuns
import Forail.Eda.RunInvariant
import Forail.Eda.Throttling
import Forail.Middleware.MfaEnforcement
import Forail.Middleware.NamedUrlPaths
import Forail.Middleware.SharedGraph
import Forail.Middleware.UrlModification
import Forail.Models.DeletedGroups
import Forail.Models.GroupClosure
import Forail.Models.GroupDeletion
import Forail.Models.InstantiatedNodes
import Forail.Models.InventorySlices
import Forail.Models.LaunchPrompts
import Forail.Models.NextRun
import Forail.Models.NodeJobKwargs
import Forail.Models.RequestLifecycle
import Forail.Models.RoleAncestors
import Forail.Models.RoleSweeps
import Forail.Models.Schedules
import Forail.Models.ServiceRequests
import Forail.Models.SliceFacts
import Forail.Models.SlicePartition
import Forail.Models.SpawnedJobs
import Forail.Models.SpawnedVariables
import Forail.Models.SurveyContract
import Forail.Models.SurveyLaunch
import Forail.Models.SurveyVariables
import Forail.Models.UnifiedJob
import Forail.Models.WorkflowApprovals
import Forail.Models.WorkflowNodes
import Forail.Policy.Evaluator
import Forail.Redact.HiddenSecrets
import Forail.Redact.RedactedText
import Forail.Redact.RedactedUri
import Forail.Redact.UriCleaner
import Forail.Scanning.Adapters
import Forail.Scanning.Runner
import Forail.Scanning.UnscannedLaunches
import Forail.Scheduler.BulkReschedule
import Forail.Scheduler.CapacityAccounting
import Forail.Scheduler.Confluence
import Forail.Scheduler.Convergence
import Forail.Scheduler.DagCalls
import Forail.Scheduler.DagSimple
import Forail.Scheduler.DagWorkflow
import Forail.Scheduler.DependencyChecks
import Forail.Scheduler.DependencyGraph
import Forail.Scheduler.DependencyIsolation
import Forail.Scheduler.DependencyManager
import Forail.Scheduler.DependencyOrigins
import Forail.Scheduler.DependencyPass
import Forail.Scheduler.DnrFixpoint
import Forail.Scheduler.GroupLimits
import Forail.Scheduler.HasCycle
import Forail.Scheduler.MarkDnr
import Forail.Scheduler.MutualExclusion
import Forail.Scheduler.NestedWorkflowRuns
import Forail.Scheduler.NestedWorkflows
import Forail.Scheduler.NodesToRun
import Forail.Scheduler.OneUpdate
import Forail.Scheduler.Outcome
import Forail.Scheduler.Progress
import Forail.Scheduler.Settled
import Forail.Scheduler.TaskManager
import Forail.Scheduler.TaskManagerCycles
import Forail.Scheduler.TaskManagerModels
import Forail.Scheduler.Topological
import Forail.Scheduler.UpdateFreshness
import Forail.Scheduler.WorkflowInvariant
import Forail.Scheduler.WorkflowRun
import Forail.Scheduler.WorkflowVerdict
import Forail.Tasks.AlertRuns
import Forail.Tasks.AnalyticsGather
import Forail.Tasks.CachedFacts
import Forail.Tasks.ClusterMembership
import Forail.Tasks.Drift
import Forail.Tasks.DriftAlerts
import Forail.Tasks.FactCache
import Forail.Tasks.FactPaths
import Forail.Tasks.FinalNotification
import Forail.Tasks.LicenseConsumed
import Forail.Tasks.MembershipPolicies
import Forail.Tasks.PeriodicScheduler
import Forail.Tasks.SchedulerRuns
import Forail.Tasks.TerminalStatus
import Forail.Tenancy.ConcurrentJobs
import Forail.Tenancy.DailyCap
import Forail.Tenancy.Isolation
import Forail.Tenancy.Quota
import Forail.Tenancy.RateLimit
import Forail.Tenancy.StrictIsolation
import Forail.Ui.ChartGraph
import Forail.Ui.ChartNodes
import Forail.Ui.EditedCharts
import Forail.Ui.EventArrivals
import Forail.Ui.EventLevels
import Forail.Ui.EventRows
import Forail.Ui.JobEvents
import Forail.Ui.LoadedChart
import Forail.Ui.QueryEntries
import Forail.Ui.QueryStrings
import Forail.Ui.QueryValues
import Forail.Ui.ReadQueries
import Forail.Ui.RemovedParams
import Forail.Ui.SaveBatches
import Forail.Ui.SaveCompletes
import Forail.Ui.SaveInvariant
import Forail.Ui.SaveRuns
import Forail.Ui.SaveSteps
import Forail.Ui.SaveVisualizer
import Forail.Ui.SaveableGraph
import Forail.Ui.SavedCharts
import Forail.Ui.UpdatedQueries
import Forail.Ui.UrlParams
import Forail.Ui.VisualizerRuns
import Forail.Ui.WorkflowReducer
import Forail.Utils.EmptyGroups
import Forail.Utils.Encryption
import Forail.Utils.FactFilter
import Forail.Utils.FollowedPaths
import Forail.Utils.GenerateGraph
import Forail.Utils.GraphCandidates
import Forail.Utils.InventoryLoading
import Forail.Utils.InventoryRoundTrip
import Forail.Utils.LoadedInventory
import Forail.Utils.MemInventory
import Forail.Utils.NamedUrlGraph
import Forail.Utils.NamedUrlText
import Forail.Utils.RemovedGroups
import Forail.WsRelay.Consumers
import Forail.WsRelay.RelayManager
import Forail.WsRelay.RelayProducers
import Forail.WsRelay.RelayRounds
