import Squirrel.Db.BurstErrors
import Squirrel.Db.DbFormat
import Squirrel.Db.FileName
import Squirrel.Db.InternalKeys
import Squirrel.Db.LogAccounting
import Squirrel.Db.LogCorruption
import Squirrel.Db.LogDurability
import Squirrel.Db.LogFaults
import Squirrel.Db.LogFile
import Squirrel.Db.LogFormat
import Squirrel.Db.LogLayout
import Squirrel.Db.LogOffset
import Squirrel.Db.LogPosition
import Squirrel.Db.LogReader
import Squirrel.Db.LogRoundTrip
import Squirrel.Db.LogSoundness
import Squirrel.Db.LogStream
import Squirrel.Db.LogWriter
import Squirrel.Db.MemTable
import Squirrel.Db.MemTableIterator
import Squirrel.Db.MemTableLayout
import Squirrel.Db.MemTableLinear
import Squirrel.Db.RandomHeight
import Squirrel.Db.SetCurrent
import Squirrel.Db.SkipList
import Squirrel.Db.SkipListConcurrent
import Squirrel.Db.SkipListInsert
import Squirrel.Db.SkipListLayout
import Squirrel.Db.SkipListLevels
import Squirrel.Db.SkipListLinear
import Squirrel.Db.SkipListRefine
import Squirrel.Db.TableCache
import Squirrel.Db.TableLookup
import Squirrel.Lib.Atomic
import Squirrel.Lib.BitArray
import Squirrel.Lib.ByteMemory
import Squirrel.Lib.Carving
import Squirrel.Lib.Cursor
import Squirrel.Lib.Decimal
import Squirrel.Lib.Decoder
import Squirrel.Lib.Interleave
import Squirrel.Lib.Lehmer
import Squirrel.Lib.LinkedList
import Squirrel.Lib.LittleEndian
import Squirrel.Lib.Lru
import Squirrel.Lib.Ring
import Squirrel.Lib.Simulation
import Squirrel.Lib.SortedSet
import Squirrel.Table.ApproximateOffset
import Squirrel.Table.Block
import Squirrel.Table.BlockBuilder
import Squirrel.Table.BlockCache
import Squirrel.Table.BlockCacheIterators
import Squirrel.Table.BlockCacheRefinement
import Squirrel.Table.BlockCursor
import Squirrel.Table.BlockOwnership
import Squirrel.Table.BlockRoundTrip
import Squirrel.Table.BlockSafety
import Squirrel.Table.BlockTermination
import Squirrel.Table.BlockWalk
import Squirrel.Table.DamagedTable
import Squirrel.Table.FilterBlock
import Squirrel.Table.FilterRuns
import Squirrel.Table.FilterSafety
import Squirrel.Table.Format
import Squirrel.Table.IteratorWrapper
import Squirrel.Table.Merger
import Squirrel.Table.MergerDuplicates
import Squirrel.Table.SingleTable
import Squirrel.Table.Table
import Squirrel.Table.TableBuilder
import Squirrel.Table.TableFaults
import Squirrel.Table.TableFile
import Squirrel.Table.TableInvariant
import Squirrel.Table.TableOpen
import Squirrel.Table.TableRoundTrip
import Squirrel.Table.TableRuns
import Squirrel.Table.TwoLevelErrors
import Squirrel.Table.TwoLevelIterator
import Squirrel.Util.Arena
import Squirrel.Util.Bloom
import Squirrel.Util.Cache
import Squirrel.Util.CacheInvariant
import Squirrel.Util.CacheLifetime
import Squirrel.Util.CachePinning
import Squirrel.Util.CacheRefinement
import Squirrel.Util.CacheTable
import Squirrel.Util.Coding
import Squirrel.Util.Comparator
import Squirrel.Util.Crc32c
import Squirrel.Util.Crc32cTables
import Squirrel.Util.Env
import Squirrel.Util.FileLock
import Squirrel.Util.FilterPolicy
import Squirrel.Util.HandleTable
import Squirrel.Util.Hash
import Squirrel.Util.Limiter
import Squirrel.Util.Logger
import Squirrel.Util.PosixFiles
import Squirrel.Util.PosixWritableFile
import Squirrel.Util.Random
import Squirrel.Util.Schedule
import Squirrel.Util.ShardedCache
import Squirrel.Util.StatusLayout
import Squirrel.Util.VarintCodec
import Squirrel.Util.WindowsWritableFile
