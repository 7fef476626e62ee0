import Triage.Relay.Completeness
import Triage.Objstore.Retention
import Triage.Sign.Canonical
import Triage.Client.SocketTransport
import Triage.Relay.PauseFlush
import Triage.Sync.SseTransport
import Triage.Sync.CatchUp
import Triage.Managed.UploadTamper
import Triage.Managed.StorageEnvelope
import Triage.Managed.TriageTrail
import Triage.Managed.ReadPaths
import Triage.Managed.FeedRest
import Triage.Managed.CleanupGaps
import Triage.Managed.PayloadSealed
import Triage.Managed.ViewSessions
import Triage.Ui.AddressBar
import Triage.Ui.TriageReadRuns
import Triage.Managed.DependencyVerdict
import Triage.Client.Memberships
import Triage.Client.WorkspaceExport
import Triage.Objstore.FetchMint
import Triage.Objstore.PutReport
import Triage.Client.SyncPayload
import Triage.Client.ObjectPayload
import Triage.Bundles.DiffConserved
import Triage.Managed.HistoryWindows
import Triage.Bundles.LineDiff
import Triage.Npm.CombinedFindings
import Triage.Client.TriageGcRuns
import Triage.Npm.OldVersion
import Triage.Npm.PatchTrees
import Triage.Bundles.VersionOrder
import Triage.Managed.AgentSessions
import Triage.Managed.ReportFilter
import Triage.Workspace.MergedGroups
import Triage.Managed.Turns
import Triage.Managed.UploadRead
import Triage.Managed.NpmLoads
import Triage.Ui.HistoryTrunk
import Triage.Managed.DiskDeletes
import Triage.Client.VaultWipe
import Triage.Ui.SizeFlowTotals
import Triage.Ui.SizeFlowKept
import Triage.Ui.ReplayWithin
import Triage.Ui.MatrixBest
import Triage.Client.TriageScopes
import Triage.Ui.TriageClick
import Triage.Ui.BundleSearchRuns
import Triage.Common.Utf8
import Triage.Ui.StrongComponents
import Triage.Managed.SmallCaches
import Triage.Client.FindingLink
import Triage.Managed.CachePaths
import Triage.Client.WorkspaceMerge
import Triage.Managed.NpmFileRows
