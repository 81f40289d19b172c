import JaxFs.KeyedMap
import JaxFs.LinkedData
import JaxFs.Paths
import JaxFs.PathOps
import JaxFs.Conflict
import JaxFs.MergeWithResolver
import JaxFs.ConflictCopies
import JaxFs.Manifest
import JaxFs.Node
import JaxFs.Program
import JaxFs.Primitives
import JaxFs.BucketLog
import JaxFs.SyncBucket
import JaxFs.PrefixCode
import JaxFs.ReferencePrimitives
import JaxFs.SyncBucketWalk
import JaxFs.SyncBucketProvenance
import JaxFs.SyncBucketApply
import JaxFs.MountTree
import JaxFs.Mount
import JaxFs.MountLookup
import JaxFs.MountRewrite
import JaxFs.MountAnswers
import JaxFs.MountMv
import JaxFs.Database
import JaxFs.Peer
import JaxFs.PeerSave
import JaxFs.MountManager
import JaxFs.RefreshMount
import JaxFs.RefreshLog
import JaxFs.MountMkdir
import JaxFs.RefreshWork
import JaxFs.LogJoin
import JaxFs.Replicas
import JaxFs.StoredVersion
import JaxFs.MountEdits
import JaxFs.MountSystem
import JaxFs.SaveLoad
import JaxFs.VersionChain
import JaxFs.CollectOps
import JaxFs.OpIds
import JaxFs.MergedTree
import JaxFs.FileTree
import JaxFs.TreeRefinement
import JaxFs.PinsCover
import JaxFs.Histories
import JaxFs.LogRecords
import JaxFs.Ping
import JaxFs.LogProviders
import JaxFs.LogOrder
import JaxFs.InodeTable
import JaxFs.Fuse
import JaxFs.FuseRequests
import JaxFs.FuseRename
import JaxFs.FuseWrite
import JaxFs.FuseCache
import JaxFs.FuseCoherence
import JaxFs.SyncBucketStore
import JaxFs.PeerSystem
import JaxFs.LogAgreement
import JaxFs.BucketsApart
import JaxFs.LogTable
import JaxFs.Requests
import JaxFs.Interleaving
import JaxFs.SharedMount
import JaxFs.SharedEdits
import JaxFs.SharedStages
import JaxFs.LostUpdates
import JaxFs.MemoryLog
import JaxFs.BaseWins
import JaxFs.ObjectStore
import JaxFs.ObjectStoreRaces
import JaxFs.ObjectStoreActor
import JaxFs.AbsolutePaths
import JaxFs.Export
import JaxFs.DirectoryView
import JaxFs.LoggedTree
import JaxFs.FuseDaemon
import JaxFs.DaemonSync
import JaxFs.StaleCaches
import JaxFs.SyncListeners
import JaxFs.Gateway
import JaxFs.GatewayVersions
import JaxFs.FuseRead
import JaxFs.InodeBijection
import JaxFs.NormalizedPaths
import JaxFs.BackwardChain
import JaxFs.CommonAncestor
import JaxFs.SubtreeListing
import JaxFs.LsHandler
import JaxFs.DirectoriesOnly
import JaxFs.AddFrame
import JaxFs.KeyParsing
import JaxFs.RelinkedFile
import JaxFs.RenameHandlers
import JaxFs.Folds
import JaxFs.Unsigned
import JaxFs.CidLinks
import JaxFs.LamportClock
import JaxFs.MergeAgain
import JaxFs.MergeAccounting
import JaxFs.ConflictNames
import JaxFs.Signatures
import JaxFs.Pieces
import JaxFs.ObjectStoreExports
import JaxFs.ImportSafety
import JaxFs.HistoryPaging
import JaxFs.Chunks
import JaxFs.PinLists
import JaxFs.DownloadPins
import JaxFs.ReplicatedHistory
import JaxFs.Queues
import JaxFs.Network
import JaxFs.LogMatching
import JaxFs.JobQueue
import JaxFs.SingleWriter
import JaxFs.CatchUp
import JaxFs.Convergence
import JaxFs.Ownership
import JaxFs.MountTable
import JaxFs.MountLifecycle
import JaxFs.MountSessions
import JaxFs.MountLoops
import JaxFs.MountStages
import JaxFs.MountStatuses
import JaxFs.MountRefinement
import JaxFs.LocalExport
