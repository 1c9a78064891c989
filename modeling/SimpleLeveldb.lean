import SimpleLeveldb.Lib.Loop
import SimpleLeveldb.Lib.Crc
import SimpleLeveldb.Basic
import SimpleLeveldb.Lib.Varint
import SimpleLeveldb.Util.Coding
import SimpleLeveldb.Util.Fields
import SimpleLeveldb.Util.Crc32c
import SimpleLeveldb.Util.Hash
import SimpleLeveldb.Util.VarintValue
import SimpleLeveldb.Env
import SimpleLeveldb.Log.Format
import SimpleLeveldb.Log.Writer
import SimpleLeveldb.Log.Reader
import SimpleLeveldb.Log.Reading
import SimpleLeveldb.Log.RoundTrip
import SimpleLeveldb.Log.TornTail
import SimpleLeveldb.Log.Items
import SimpleLeveldb.Log.Walk
import SimpleLeveldb.Log.Soundness
import SimpleLeveldb.Log.EndOfFile
import SimpleLeveldb.Log.Place
import SimpleLeveldb.Log.Damage
import SimpleLeveldb.Log.FromOffset
import SimpleLeveldb.DbFormat
import SimpleLeveldb.WriteBatch
import SimpleLeveldb.BatchHeader
import SimpleLeveldb.Version.VersionEdit
import SimpleLeveldb.Version.EditRoundTrip
import SimpleLeveldb.Version.Decoding
import SimpleLeveldb.Filename
import SimpleLeveldb.Lib.Horner
import SimpleLeveldb.FileGrammar
import SimpleLeveldb.SanitizeOptions
import SimpleLeveldb.Outcomes
import SimpleLeveldb.Lib.Ring
import SimpleLeveldb.Version.VersionList
import SimpleLeveldb.Version.Linked
import SimpleLeveldb.Version.VersionSet
import SimpleLeveldb.Version.Install
import SimpleLeveldb.Lib.ThreeWay
import SimpleLeveldb.KeyOrder
import SimpleLeveldb.Separators
import SimpleLeveldb.Version.Atomic
import SimpleLeveldb.Version.ListRuns
import SimpleLeveldb.DbImpl
import SimpleLeveldb.Version.Liveness
import SimpleLeveldb.Recovery
import SimpleLeveldb.Lib.Buckets
import SimpleLeveldb.Cache.LruCache
import SimpleLeveldb.Cache.Lists
import SimpleLeveldb.Cache.Table
import SimpleLeveldb.Lib.Slots
import SimpleLeveldb.Cache.Slots
import SimpleLeveldb.Cache.TableRuns
import SimpleLeveldb.Cache.Operations
import SimpleLeveldb.Cache.Runs
import SimpleLeveldb.Cache.Ledger
import SimpleLeveldb.Lib.LruMap
import SimpleLeveldb.Cache.Recency
import SimpleLeveldb.Cache.Sharded
import SimpleLeveldb.Cache.Lifetime
import SimpleLeveldb.Lib.Chain
import SimpleLeveldb.SkipList.SkipList
import SimpleLeveldb.SkipList.Search
import SimpleLeveldb.SkipList.Insert
import SimpleLeveldb.SkipList.Runs
import SimpleLeveldb.SkipList.Iterator
import SimpleLeveldb.SkipList.Concurrent
import SimpleLeveldb.SkipList.ConcurrentRuns
import SimpleLeveldb.Lib.Prog
import SimpleLeveldb.Steps
import SimpleLeveldb.Disk
import SimpleLeveldb.Current
import SimpleLeveldb.CurrentRuns
import SimpleLeveldb.Log.Checksum
import SimpleLeveldb.Log.Continue
import SimpleLeveldb.Version.Score
import SimpleLeveldb.Version.TrivialMove
import SimpleLeveldb.Background
import SimpleLeveldb.Listing
import SimpleLeveldb.Log.Reports
import SimpleLeveldb.Version.Manifest
import SimpleLeveldb.Version.RecoverNumbers
import SimpleLeveldb.Version.LastWriter
import SimpleLeveldb.Version.Folding
import SimpleLeveldb.Open
import SimpleLeveldb.Log.Append
import SimpleLeveldb.Log.Alignment
import SimpleLeveldb.Log.Layout
import SimpleLeveldb.Log.ShortDamage
import SimpleLeveldb.Version.OnDisk
import SimpleLeveldb.Version.Bare
import SimpleLeveldb.Version.Snapshot
import SimpleLeveldb.Version.WriteEdit
import SimpleLeveldb.Version.Stored
import SimpleLeveldb.Version.Reopen
import SimpleLeveldb.Version.JournalRuns
import SimpleLeveldb.Version.ReopenRuns
import SimpleLeveldb.OpenRuns
import SimpleLeveldb.Creation
import SimpleLeveldb.Lib.Census
import SimpleLeveldb.Posix.Limiter
import SimpleLeveldb.Lib.Custody
import SimpleLeveldb.Posix.OpenFiles
import SimpleLeveldb.Posix.OpenFileRuns
import SimpleLeveldb.Posix.Errno
import SimpleLeveldb.Posix.RandomAccess
import SimpleLeveldb.Posix.SequentialFile
import SimpleLeveldb.CurrentHandshake
import SimpleLeveldb.Posix.WritableFile
import SimpleLeveldb.Lib.Regions
import SimpleLeveldb.Util.Arena
import SimpleLeveldb.Util.Random
import SimpleLeveldb.StatusMemory
import SimpleLeveldb.Version.Durable
import SimpleLeveldb.Version.DurableRuns
import SimpleLeveldb.LogFileRuns
