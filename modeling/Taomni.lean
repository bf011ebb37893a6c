import Taomni.Layout.Persistence
import Taomni.TabPolicy.Transaction
import Taomni.Lsp.ContentChange
import Taomni.Save.Discard
import Taomni.Save.Committer
import Taomni.Vnc.QueueRun
import Taomni.Vnc.FrameFlowRun
import Taomni.Agent.CommandLineSound
import Taomni.Agent.SqlStatement
import Taomni.Backup.RestoreRun
import Taomni.Backup.Transfer
import Taomni.Backup.EntryPaths
import Taomni.Workspace.ResourceReplaceSafety
import Taomni.Workspace.AtomicWriteEffect
import Taomni.Mail.SyncRaces
import Taomni.Mail.Mbox
import Taomni.Mail.VCardRoundTrip
import Taomni.Mail.SearchCriteria
import Taomni.Sockscap.Policy
import Taomni.Mobile.BrokerControl
import Taomni.Mobile.BrokerResume
import Taomni.Mobile.AuthRun
import Taomni.Servers.TftpExact
import Taomni.Hbase.ScanComplete
import Taomni.Document.Composition
import Taomni.Merge.Symmetry
import Taomni.Git.NameStatusRoundTrip
import Taomni.Servers.Sftp
import Taomni.Servers.FileServing
import Taomni.Rdp.DriveConfined
import Taomni.Rdp.RemoteFilesExact
import Taomni.Rdp.DisplayConverges
import Taomni.Workspace.ReplaceExact
import Taomni.Save.TextEdits
import Taomni.TabPolicy.PlanSafety
import Taomni.Layout.Operations
import Taomni.Save.NormalizationIdempotent
import Taomni.Workspace.EditHistory
import Taomni.Vnc.PixelBuffer
import Taomni.Sockscap.SniffingRuns
import Taomni.Vnc.Tight
import Taomni.Vnc.GradientInverse
import Taomni.Swarm.Scheduling
import Taomni.Lanchat.Wire
import Taomni.Lsp.SemanticTokens
import Taomni.Database.SchemaSwitch
import Taomni.Sockscap.SuffixProbe
import Taomni.Hbase.CellBlock
import Taomni.Mobile.Replay
import Taomni.Database.GridMeaning
import Taomni.Hbase.ShellCommands
import Taomni.Database.DangerGuard
import Taomni.Sockscap.DnsAnswersExact
import Taomni.Sockscap.ShareLinkRoundTrip
import Taomni.Database.ManualCommit
import Taomni.Servers.Telnet
import Taomni.Rdp.RemoteNames
import Taomni.Session.QuickConnect
import Taomni.Vnc.ZrleBound
