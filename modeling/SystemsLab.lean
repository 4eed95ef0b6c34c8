import SystemsLab.TwoPhase.Serial
import SystemsLab.MvccDemo.Chain
import SystemsLab.Mvcc.Isolation
import SystemsLab.LockStore.Serial
import SystemsLab.LockStore.SelfLock
import SystemsLab.LockStore.Deadlock
import SystemsLab.Avl.Content
import SystemsLab.Enrollment.Balance
import SystemsLab.RbTree.Calls
import SystemsLab.BTree.Calls
import SystemsLab.BPlusTree.Calls
import SystemsLab.WalDemo.Framing
import SystemsLab.WalReplay.Replay
import SystemsLab.KvServer.Framing
import SystemsLab.LruCache.Calls
import SystemsLab.StringLru.Calls
import SystemsLab.PageSim.Lru
import SystemsLab.PageSim.Clock
import SystemsLab.PageSim.Arc
import SystemsLab.WordCount.Total
import SystemsLab.RequestQueue.Delivery
import SystemsLab.ProducerConsumer.Waiting
import SystemsLab.BoundedBuffer.Waiting
import SystemsLab.FutexLatch.Exclusion
import SystemsLab.OpenTable.Calls
import SystemsLab.KeyStore.Slots
import SystemsLab.FileCache.Names
import SystemsLab.ChainedTable.Calls
import SystemsLab.LockedMap.Linearizable
import SystemsLab.MemoryPool.Calls
import SystemsLab.SlabCache.Calls
import SystemsLab.IdAllocator.Calls
import SystemsLab.BPlusTree.Bounds
import SystemsLab.ExprTree.Evaluation
import SystemsLab.AioMerge.Merge
import SystemsLab.FifoChat.Delivery
import SystemsLab.QueryEngine.Pipeline
import SystemsLab.BloomFilter.Filter
import SystemsLab.ExprGrammar.Precedence
import SystemsLab.IntTable.Calls
import SystemsLab.SkipList.WellFormed
import SystemsLab.BinarySearch.Trees
import SystemsLab.LevelOrder.Insertion
import SystemsLab.Sorting.BubbleSelection
import SystemsLab.Majority.Voting
import SystemsLab.Parentheses.Validity
import SystemsLab.StringRotation.Rotation
import SystemsLab.FirstUnique.Scan
import SystemsLab.ChatServer.Broadcast
