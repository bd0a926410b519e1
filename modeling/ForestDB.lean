import ForestDB.Btree.Load
import ForestDB.Hbtrie.Range
import ForestDB.Hbtrie.Partial
import ForestDB.Wal.SnapLookup
import ForestDB.Wal.Copy
import ForestDB.Wal.StaleRun
import ForestDB.Wal.TrieRun
import ForestDB.Wal.DataSize
import ForestDB.Wal.Memory
import ForestDB.Wal.SeqIndex
import ForestDB.Iterator.View
import ForestDB.Bcache.Failure
import ForestDB.Superblock.Atomic
import ForestDB.Superblock.Return
import ForestDB.Superblock.Restart
import ForestDB.Superblock.Writable
import ForestDB.Stale.Rollback
import ForestDB.Stale.Gather
import ForestDB.Compact.Batch
import ForestDB.Btree.Subblock
import ForestDB.Btree.Search
import ForestDB.Kvs.Rewind
