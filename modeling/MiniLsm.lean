import MiniLsm.Lib.Assoc
import MiniLsm.Lib.Cursor
import MiniLsm.Lib.BigEndian
import MiniLsm.Lib.Merging
import MiniLsm.Lib.Recency
import MiniLsm.Lib.Segments
import MiniLsm.Lib.Steps
import MiniLsm.Key
import MiniLsm.Libraries
import MiniLsm.Block
import MiniLsm.Bloom
import MiniLsm.Table
import MiniLsm.TableSpec
import MiniLsm.Iterators
import MiniLsm.IteratorsSpec
import MiniLsm.Lib.Double
import MiniLsm.MemTable
import MiniLsm.MemTableSpec
import MiniLsm.WalSpec
import MiniLsm.Compact
import MiniLsm.Manifest
import MiniLsm.Storage
import MiniLsm.StorageSpec
import MiniLsm.CompactSpec
import MiniLsm.Invariant
import MiniLsm.Replay
import MiniLsm.ControllerSpec
import MiniLsm.LeveledSpec
import MiniLsm.Tasks
import MiniLsm.Runs
import MiniLsm.Exec
import MiniLsm.Sequences
import MiniLsm.Corruption
import MiniLsm.Durability
import MiniLsm.Recovery
import MiniLsm.Sync
import MiniLsm.Freezing
import MiniLsm.Sessions
import MiniLsm.Crashes
import MiniLsm.FirstSession
import MiniLsm.Sizes
import MiniLsm.Flushing
import MiniLsm.Files
import MiniLsm.LostRecords
import MiniLsm.Cli
import MiniLsm.CliSpec
import MiniLsm.Threads
import MiniLsm.Reads
import MiniLsm.Snapshots
import MiniLsm.Truncation
import MiniLsm.Filter
import MiniLsm.Bounds
import MiniLsm.BlockCache
import MiniLsm.Structure
import MiniLsm.Quiescence
import MiniLsm.Values
