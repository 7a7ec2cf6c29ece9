import CDRuntime.Splice
import CDRuntime.CDID
import CDRuntime.Parts
import CDRuntime.MsgTags
import CDRuntime.CommLog
import CDRuntime.CommLogBlocks
import CDRuntime.CommLogBounds
import CDRuntime.CommLogReplay
import CDRuntime.CommLogRestart
import CDRuntime.Layout
import CDRuntime.CommLogPack
import CDRuntime.Cells
import CDRuntime.Runs
import CDRuntime.DataStore
import CDRuntime.DataStoreBounded
import CDRuntime.DataStoreGrowing
import CDRuntime.DataStoreRealloc
import CDRuntime.TableStore
import CDRuntime.AttrFields
import CDRuntime.Packer
import CDRuntime.DataStoreRead
import CDRuntime.DataStoreFetch
import CDRuntime.DataStoreFlushed
import CDRuntime.DataStoreFlushMode
import CDRuntime.BufferConsumer
import CDRuntime.PackerRestore
import CDRuntime.PackerImage
import CDRuntime.PackerFile
import CDRuntime.Preserve
import CDRuntime.PreserveItems
import CDRuntime.PreserveLog
import CDRuntime.PreserveRestore
import CDRuntime.PreserveRecovery
import CDRuntime.RollbackCell
import CDRuntime.RollbackAgreement
import CDRuntime.FileRegions
import CDRuntime.FileRegionsApart
import CDRuntime.TaskSplit
import CDRuntime.TaskSplit3D
import CDRuntime.PhaseTree
import CDRuntime.PhaseIdentity
import CDRuntime.PhaseSound
import CDRuntime.TunedHandle
import CDRuntime.MergeGroups
import CDRuntime.ConfigText
import CDRuntime.ConfigRoundTrip
import CDRuntime.Loop32
import CDRuntime.Compaction
import CDRuntime.LibcLog
import CDRuntime.LibcFrees
import CDRuntime.LibcReplay
import CDRuntime.TableOps
import CDRuntime.Tables
import CDRuntime.EntrySearch
import CDRuntime.PhaseRewind
import CDRuntime.PhaseMarks
import CDRuntime.Recovery
import CDRuntime.RecoveryStates
import CDRuntime.RecoveryReplay
import CDRuntime.Escalation
import CDRuntime.ChildLogs
import CDRuntime.CommLogPacked
import CDRuntime.CommLogCommute
import CDRuntime.PendingRequests
import CDRuntime.PendingRuns
import CDRuntime.PendingSettled
import CDRuntime.MpiWrappers
import CDRuntime.CommLogContents
import CDRuntime.MpiRecording
import CDRuntime.MpiReplay
import CDRuntime.Mailbox
import CDRuntime.MailboxInv
import CDRuntime.MailboxRuns
import CDRuntime.RemoteEntries
import CDRuntime.Collectives
import CDRuntime.ErrorReports
import CDRuntime.ErrorReportsRuns
import CDRuntime.ErrorReportsCounters
import CDRuntime.ErrorReportsProgress
import CDRuntime.ErrorReportsWhole
