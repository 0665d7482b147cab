import GoBlocks.Lib.Path
import GoBlocks.Lib.Counting
import GoBlocks.Lib.Transition
import GoBlocks.Lib.Progress
import GoBlocks.Lib.Interleaving
import GoBlocks.Lib.RwMutex
import GoBlocks.Lib.LinkedList
import GoBlocks.Lib.Channel
import GoBlocks.Lib.Closing
import GoBlocks.Lib.Stage
import GoBlocks.Lib.Radix
import GoBlocks.Lib.BitArray
import GoBlocks.Lib.BitDistance
import GoBlocks.Datastore.Key
import GoBlocks.Key
import GoBlocks.Base58
import GoBlocks.Key.Text
import GoBlocks.Key.Converter
import GoBlocks.Multihash
import GoBlocks.Block
import GoBlocks.Hash
import GoBlocks.Flaky
import GoBlocks.Datastore.Query
import GoBlocks.Datastore.Basic
import GoBlocks.Datastore.Sync
import GoBlocks.Lru
import GoBlocks.Lru.Recency
import GoBlocks.Lru.Atomic
import GoBlocks.Blockstore.Basic
import GoBlocks.Blockstore.MapStore
import GoBlocks.Blockstore.ClassMap
import GoBlocks.Blockstore.Integrity
import GoBlocks.Blockstore.Enumeration
import GoBlocks.Blockstore.AllKeys
import GoBlocks.Blockstore.AllKeysComplete
import GoBlocks.Blockstore.KeyStream
import GoBlocks.Blockstore.KeyPipeline
import GoBlocks.Blockstore.Stuck
import GoBlocks.Blockstore.Confined
import GoBlocks.Blockstore.FaithfulMap
import GoBlocks.Blockstore.WriteCache
import GoBlocks.Blockstore.WriteCacheFailures
import GoBlocks.Blockstore.WriteCacheElision
import GoBlocks.Blockstore.WriteCacheConcurrent
import GoBlocks.Blockstore.Atomic
import GoBlocks.Blockstore.Commit
import GoBlocks.Blockstore.Linearizable
import GoBlocks.Process.Basic
import GoBlocks.Process.Invariant
import GoBlocks.Process.Exclusive
import GoBlocks.Process.Teardown
import GoBlocks.Process.Function
import GoBlocks.Process.Work
import GoBlocks.Process.Quiet
import GoBlocks.Worker.BlockList
import GoBlocks.Worker.Deque
import GoBlocks.Worker.ClientLoop
import GoBlocks.Worker.Basic
import GoBlocks.Worker.Accepted
import GoBlocks.Worker.Announced
import GoBlocks.Worker.Order
import GoBlocks.Worker.Closed
import GoBlocks.Worker.Tokens
import GoBlocks.Worker.Rest
import GoBlocks.BlockService.Basic
import GoBlocks.BlockService.Writes
import GoBlocks.BlockService.Deleted
import GoBlocks.BlockService.Closed
import GoBlocks.BlockService.GetBlocks
import GoBlocks.BlockService.Fetch
import GoBlocks.BlockService.Delivered
import GoBlocks.BlockService.Returns
import GoBlocks.Bloom.Filter
import GoBlocks.Bloom.Algebra
import GoBlocks.Bloom.Indexing
import GoBlocks.Bloom.Hamming
import GoBlocks.BlockSet.Basic
import GoBlocks.BlockSet.Agreement
import GoBlocks.BlockSet.Filters
import GoBlocks.BlockSet.Failures
import GoBlocks.Context.Basic
import GoBlocks.Context.Invariant
import GoBlocks.Context.Making
import GoBlocks.Context.Settled
import GoBlocks.Context.Reach
import GoBlocks.Context.Cause
import GoBlocks.Context.Work
import GoBlocks.Context.Rest
import GoBlocks.Context.AtRest
import GoBlocks.Context.Listed
import GoBlocks.Context.Release
