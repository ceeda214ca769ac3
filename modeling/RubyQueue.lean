import RubyQueue.Base.Run
import RubyQueue.Sqlite
import RubyQueue.Quote
import RubyQueue.Table
import RubyQueue.JobQueue
import RubyQueue.Transaction
import RubyQueue.Schedule
import RubyQueue.Feeder
import RubyQueue.Children
import RubyQueue.Clients
import RubyQueue.System
import RubyQueue.Starts
import RubyQueue.Completions
import RubyQueue.Lifecycle
import RubyQueue.Ownership
import RubyQueue.Base.RecordLock
import RubyQueue.Isolation
import RubyQueue.Pidfile
import RubyQueue.Recovery
import RubyQueue.Rotation
import RubyQueue.Runner
import RubyQueue.Submitter
import RubyQueue.Base.Padded
import RubyQueue.Timestamp
import RubyQueue.Oldest
import RubyQueue.Morgue
import RubyQueue.Tokenize
import RubyQueue.Insert
import RubyQueue.QueryText
import RubyQueue.ReadOnly
import RubyQueue.Daemon
import RubyQueue.Tracking
import RubyQueue.Shutdown
import RubyQueue.Reaping
import RubyQueue.Base.Behaviour
import RubyQueue.Locking
import RubyQueue.Snapshot
import RubyQueue.Operations
import RubyQueue.Status
import RubyQueue.Listing
import RubyQueue.Update
import RubyQueue.Delete
import RubyQueue.Scrub
import RubyQueue.Base.FileTree
import RubyQueue.Batch
import RubyQueue.Interpolate
import RubyQueue.JobFiles
import RubyQueue.Pipeline
import RubyQueue.Resubmitter
import RubyQueue.Stamptime
import RubyQueue.LockdRecover
import RubyQueue.RecoverWrap
import RubyQueue.SnapshotResult
import RubyQueue.Touch
import RubyQueue.Toucher
import RubyQueue.Cron
import RubyQueue.Base.Numeral
import RubyQueue.Integer
import RubyQueue.Infile
import RubyQueue.Updater
import RubyQueue.JobIds
import RubyQueue.Base.Loop
import RubyQueue.SleepCycle
import RubyQueue.ZombieIos
import RubyQueue.Base.Shell
import RubyQueue.JobRunner
import RubyQueue.ArrayFields
import RubyQueue.Where
import RubyQueue.ExitCodes
import RubyQueue.RenderedCodes
import RubyQueue.Querier
import RubyQueue.Base.HardLink
import RubyQueue.Lockfile
import RubyQueue.Backlog
import RubyQueue.Capacity
import RubyQueue.Conservation
import RubyQueue.AquireLock
import RubyQueue.LockText
import RubyQueue.Attributes
import RubyQueue.Feeding
import RubyQueue.JobRunnerDaemon
import RubyQueue.Retries
import RubyQueue.Lines
import RubyQueue.Atomicity
import RubyQueue.Staging
