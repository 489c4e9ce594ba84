import LockFreeStructures.Lib.Ring
import LockFreeStructures.Lib.Word
import LockFreeStructures.Common.Utility
import LockFreeStructures.Queue.Block
import LockFreeStructures.Queue.BlockManager
import LockFreeStructures.Queue.Slots
import LockFreeStructures.Queue.Numbering
import LockFreeStructures.Queue.Elements
import LockFreeStructures.FastQueue.Defs
import LockFreeStructures.FastQueue.Run
import LockFreeStructures.FastQueue.Manager
import LockFreeStructures.FastQueue.Layout
import LockFreeStructures.FastQueue.Index
import LockFreeStructures.FastQueue.Elements
import LockFreeStructures.FastQueue.Acquire
import LockFreeStructures.FastQueue.Bulk
import LockFreeStructures.FastQueue.Dequeue
import LockFreeStructures.FastQueue.Enqueue
import LockFreeStructures.FastQueue.EnqueueBulk
import LockFreeStructures.FastQueue.Fifo
import LockFreeStructures.FastQueue.FailedBulk
import LockFreeStructures.SlowQueue.Defs
import LockFreeStructures.SlowQueue.BlockCount
import LockFreeStructures.SlowQueue.Index
import LockFreeStructures.SlowQueue.Layout
import LockFreeStructures.SlowQueue.Dequeue
import LockFreeStructures.SlowQueue.Enqueue
import LockFreeStructures.SlowQueue.RollBack
import LockFreeStructures.SlowQueue.EnqueueBulk
import LockFreeStructures.SlowQueue.Fifo
import LockFreeStructures.SlowQueue.Clear
import LockFreeStructures.Lib.Transition
import LockFreeStructures.ReaderWriterQueue.Semaphore
import LockFreeStructures.Lib.Probing
import LockFreeStructures.HashTable.Defs
import LockFreeStructures.HashTable.FiniteMap
import LockFreeStructures.HashTable.FailedGrowth
import LockFreeStructures.Lib.MaskedProbing
import LockFreeStructures.HashTable.Masked
import LockFreeStructures.HashTable.Sharing
import LockFreeStructures.HashTable.SharedKey
import LockFreeStructures.HashTable.Agreement
import LockFreeStructures.HashTable.SpacedRuns
import LockFreeStructures.Lib.BitMixing
import LockFreeStructures.HashTable.KeyHash
import LockFreeStructures.Queue.Lookup
import LockFreeStructures.Queue.Sizing
import LockFreeStructures.Queue.IndexGrowth
import LockFreeStructures.Lib.Interleaving
import LockFreeStructures.HashTable.Concurrent
import LockFreeStructures.HashTable.Ownership
import LockFreeStructures.HashTable.Occupancy
import LockFreeStructures.HashTable.GetOrAddByFunc
import LockFreeStructures.Lib.CircularBuffer
import LockFreeStructures.ReaderWriterQueue.Defs
import LockFreeStructures.ReaderWriterQueue.Invariant
import LockFreeStructures.ReaderWriterQueue.Consumer
import LockFreeStructures.ReaderWriterQueue.Producer
import LockFreeStructures.ReaderWriterQueue.Lossless
import LockFreeStructures.ReaderWriterQueue.Blocking
import LockFreeStructures.ReaderWriterQueue.Reserved
import LockFreeStructures.ReaderWriterQueue.Throws
import LockFreeStructures.SlowQueue.FailedBulk
import LockFreeStructures.Lib.LinkedList
import LockFreeStructures.ConcurrentQueue.Defs
import LockFreeStructures.ConcurrentQueue.ProducerList
import LockFreeStructures.ConcurrentQueue.Consume
import LockFreeStructures.ConcurrentQueue.ConsumerToken
import LockFreeStructures.ConcurrentQueue.ProducerToken
import LockFreeStructures.ConcurrentQueue.Rotation
import LockFreeStructures.Queue.Size
import LockFreeStructures.Queue.FreeListDas
import LockFreeStructures.FastQueue.Size
import LockFreeStructures.SlowQueue.Size
import LockFreeStructures.ConcurrentQueue.Size
import LockFreeStructures.ConcurrentQueue.Quota
import LockFreeStructures.FastQueue.Renaming
import LockFreeStructures.ConcurrentQueue.Move
import LockFreeStructures.ConcurrentQueue.MovedFrom
import LockFreeStructures.Lib.Tally
import LockFreeStructures.Queue.DequeueCounters
import LockFreeStructures.Queue.FreeList
import LockFreeStructures.Queue.SharedManager
import LockFreeStructures.FastQueue.Shared
import LockFreeStructures.FastQueue.SharedInvariant
import LockFreeStructures.FastQueue.SharedProducer
import LockFreeStructures.FastQueue.SharedConsumer
import LockFreeStructures.FastQueue.SharedRuns
import LockFreeStructures.Hash.Defs
import LockFreeStructures.Hash.Linearization
import LockFreeStructures.ConcurrentQueue.Shared
import LockFreeStructures.ConcurrentQueue.SharedRuns
