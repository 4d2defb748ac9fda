import McServerDashboard.Lib.Run
import McServerDashboard.Lib.Writes
import McServerDashboard.Fs.Tree
import McServerDashboard.Fs.Disk
import McServerDashboard.Fs.Mutators
import McServerDashboard.Fs.Generation
import McServerDashboard.Fs.Threads
import McServerDashboard.Fs.Live
import McServerDashboard.Fs.Complete
import McServerDashboard.Fs.Lease
import McServerDashboard.Dataplane.Publish
import McServerDashboard.Dataplane.Hydrate
import McServerDashboard.Fs.Shape
import McServerDashboard.Fs.Versions
import McServerDashboard.Servers.Entities
import McServerDashboard.Servers.FinalSnapshot
import McServerDashboard.Servers.AtRest
import McServerDashboard.Obj.Bucket
import McServerDashboard.Obj.Mutators
import McServerDashboard.Obj.Generation
import McServerDashboard.Obj.FileTree
import McServerDashboard.Lib.Tar
import McServerDashboard.Obj.Stream
import McServerDashboard.Obj.Threads
import McServerDashboard.Obj.Live
import McServerDashboard.Identity.Entities
import McServerDashboard.Identity.Transactions
import McServerDashboard.Identity.Sessions
import McServerDashboard.Identity.Ended
import McServerDashboard.Identity.Stored
import McServerDashboard.Identity.Requests
import McServerDashboard.Identity.OtherSessions
import McServerDashboard.Fleet.Inventory
import McServerDashboard.Fleet.Held
import McServerDashboard.Servers.Lifecycle
import McServerDashboard.Servers.Writes
import McServerDashboard.Servers.Convergence
import McServerDashboard.Servers.Settled
import McServerDashboard.Servers.Settings
import McServerDashboard.Servers.Placement
import McServerDashboard.Worker.Instances
import McServerDashboard.Worker.Ownership
import McServerDashboard.Worker.Snapshot
import McServerDashboard.Worker.SaveOff
import McServerDashboard.Worker.Scratch
import McServerDashboard.Worker.Displaced
import McServerDashboard.Worker.Recovery
import McServerDashboard.Worker.Generations
import McServerDashboard.Lib.RowLocks
import McServerDashboard.Lib.Transactions
import McServerDashboard.Community.Entities
import McServerDashboard.Community.UseCases
import McServerDashboard.Lib.TransactionLogic
import McServerDashboard.Lib.TransactionEnds
import McServerDashboard.Community.Commits
import McServerDashboard.Community.Endings
import McServerDashboard.Community.Ceiling
import McServerDashboard.Community.Owners
import McServerDashboard.Community.Interleavings
import McServerDashboard.Lib.Patterns
import McServerDashboard.Lib.Properties
import McServerDashboard.Properties.Reader
import McServerDashboard.Lib.Utf8
import McServerDashboard.Lib.Transcode
import McServerDashboard.Properties.Javaproperties
import McServerDashboard.Properties.Escapes
import McServerDashboard.Properties.Writer
import McServerDashboard.Backups.Retention
import McServerDashboard.Fleet.ControlPlane
import McServerDashboard.Relay.Delivery
import McServerDashboard.Relay.Healing
import McServerDashboard.Worker.Status
import McServerDashboard.Files.Paths
import McServerDashboard.Files.Archive
import McServerDashboard.Properties.Guard
import McServerDashboard.Files.UseCases
import McServerDashboard.Fs.Frame
import McServerDashboard.Files.Root
import McServerDashboard.Files.FsStore
import McServerDashboard.Files.ObjStore
import McServerDashboard.Files.Rollback
import McServerDashboard.Files.AtRest
import McServerDashboard.Properties.Rewritten
import McServerDashboard.Properties.Platform
import McServerDashboard.Properties.OnePass
import McServerDashboard.Files.Plugins
import McServerDashboard.Files.Import
import McServerDashboard.Files.Rejected
import McServerDashboard.Files.Published
import McServerDashboard.Lib.Trace
import McServerDashboard.Lib.Deque
import McServerDashboard.Lib.Dict
import McServerDashboard.Fleet.RealTimeEvents
import McServerDashboard.Fleet.Registry
import McServerDashboard.Fleet.Reservations
import McServerDashboard.Relay.Tokens
import McServerDashboard.Lib.Bufio
import McServerDashboard.Lib.Archive
import McServerDashboard.Worker.PackTar
import McServerDashboard.Worker.UnpackTar
import McServerDashboard.Worker.RoundTrip
import McServerDashboard.Lib.Characters
import McServerDashboard.Plugins.VersionRange
import McServerDashboard.Lib.BreadthFirst
import McServerDashboard.Plugins.Resolution
import McServerDashboard.Plugins.Rows
import McServerDashboard.Plugins.Reconcile
import McServerDashboard.Plugins.Closure
import McServerDashboard.Plugins.Blocking
import McServerDashboard.Plugins.Plan
import McServerDashboard.Plugins.Validation
import McServerDashboard.Plugins.Ranges
import McServerDashboard.Storage.Region
import McServerDashboard.Lib.PrefixCodes
import McServerDashboard.Storage.ReadProbe
import McServerDashboard.Worker.RegionFsck
import McServerDashboard.Relay.Packets
import McServerDashboard.Lib.AnyOrder
import McServerDashboard.Lib.Crowd
import McServerDashboard.Lib.FixedWindow
import McServerDashboard.Relay.IPCaps
import McServerDashboard.Relay.SessionSink
import McServerDashboard.Relay.Game
import McServerDashboard.Relay.FlowTable
import McServerDashboard.Relay.Bedrock
import McServerDashboard.Storage.ContentPools
import McServerDashboard.Servers.Observed
import McServerDashboard.Schedules.Entities
import McServerDashboard.Schedules.Warnings
import McServerDashboard.Lib.Interference
import McServerDashboard.Worker.EditFile
import McServerDashboard.Worker.Lanes
import McServerDashboard.Worker.Orphans
import McServerDashboard.Servers.Reconciler
import McServerDashboard.Lib.Padded
import McServerDashboard.Plugins.VersionOrder
import McServerDashboard.Plugins.VersionAlike
import McServerDashboard.Lib.ReadSlice
import McServerDashboard.Worker.LogDemux
import McServerDashboard.Worker.LogPump
import McServerDashboard.Lib.Texts
import McServerDashboard.Plugins.Manifest
import McServerDashboard.Files.ResourcePack
import McServerDashboard.Lib.Framing
import McServerDashboard.Worker.Rcon
import McServerDashboard.Identity.Attempts
import McServerDashboard.Schedules.Moves
import McServerDashboard.Schedules.Occurrences
import McServerDashboard.Schedules.Retries
