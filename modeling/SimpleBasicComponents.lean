import SimpleBasicComponents.BTree.Model
import SimpleBasicComponents.BTree.Split
import SimpleBasicComponents.BlockList.Destruction
import SimpleBasicComponents.BlockList.Elements
import SimpleBasicComponents.BlockList.Model
import SimpleBasicComponents.Deadlock.Routines
import SimpleBasicComponents.DnsClient.Async
import SimpleBasicComponents.DnsClient.Bounds
import SimpleBasicComponents.DnsClient.Compression
import SimpleBasicComponents.DnsClient.Cycles
import SimpleBasicComponents.DnsClient.Lifetimes
import SimpleBasicComponents.DnsClient.Model
import SimpleBasicComponents.DnsClient.Names
import SimpleBasicComponents.DnsClient.Packets
import SimpleBasicComponents.DnsClient.Question
import SimpleBasicComponents.DnsClient.Response
import SimpleBasicComponents.DnsClient.Spelling
import SimpleBasicComponents.EventReactor.Buffers
import SimpleBasicComponents.EventReactor.Interest
import SimpleBasicComponents.EventReactor.Model
import SimpleBasicComponents.LinkedQueue.Destroy
import SimpleBasicComponents.LinkedQueue.Fifo
import SimpleBasicComponents.LinkedQueue.Links
import SimpleBasicComponents.LinkedQueue.Model
import SimpleBasicComponents.LinkedQueue.Schedule
import SimpleBasicComponents.LockFreeQueue.Capacity
import SimpleBasicComponents.LockFreeQueue.Count
import SimpleBasicComponents.LockFreeQueue.Delivery
import SimpleBasicComponents.LockFreeQueue.Model
import SimpleBasicComponents.LockFreeQueue.OpenCalls
import SimpleBasicComponents.LockFreeQueue.Progress
import SimpleBasicComponents.LockFreeQueue.Sequential
import SimpleBasicComponents.LockFreeQueue.Tickets
import SimpleBasicComponents.MemoryPool.Appending
import SimpleBasicComponents.MemoryPool.Blocks
import SimpleBasicComponents.MemoryPool.InitialContent
import SimpleBasicComponents.MemoryPool.LargeBlocks
import SimpleBasicComponents.MemoryPool.Memory
import SimpleBasicComponents.MemoryPool.Model
import SimpleBasicComponents.MemoryPool.Overrun
import SimpleBasicComponents.MemoryPool.Ownership
import SimpleBasicComponents.MemoryPool.Placement
import SimpleBasicComponents.MemoryPool.Recursion
import SimpleBasicComponents.MemoryPool.Refinement
import SimpleBasicComponents.MemoryPool.Reset
import SimpleBasicComponents.MemoryPool.Reuse
import SimpleBasicComponents.MemoryPool.Search
import SimpleBasicComponents.MinHeapTimer.Destroy
import SimpleBasicComponents.MinHeapTimer.Growth
import SimpleBasicComponents.MinHeapTimer.Heap
import SimpleBasicComponents.MinHeapTimer.Model
import SimpleBasicComponents.MinHeapTimer.Pending
import SimpleBasicComponents.MinHeapTimer.PriorityQueue
import SimpleBasicComponents.MinHeapTimer.Settling
import SimpleBasicComponents.MinHeapTimer.Sift
import SimpleBasicComponents.NetFamily.Addresses
import SimpleBasicComponents.NetFamily.Model
import SimpleBasicComponents.NetFamily.Replies
import SimpleBasicComponents.RbTree.Balance
import SimpleBasicComponents.RbTree.Colors
import SimpleBasicComponents.RbTree.Deletion
import SimpleBasicComponents.RbTree.FiniteMap
import SimpleBasicComponents.RbTree.Height
import SimpleBasicComponents.RbTree.Insertion
import SimpleBasicComponents.RbTree.Links
import SimpleBasicComponents.RbTree.Listing
import SimpleBasicComponents.RbTree.Mend
import SimpleBasicComponents.RbTree.Model
import SimpleBasicComponents.RbTree.Raise
import SimpleBasicComponents.RbTree.Release
import SimpleBasicComponents.RbTree.Removal
import SimpleBasicComponents.RbTree.Reversal
import SimpleBasicComponents.RbTree.Rotation
import SimpleBasicComponents.RbTree.Search
import SimpleBasicComponents.RbTree.Storage
import SimpleBasicComponents.RbTree.Successor
import SimpleBasicComponents.Reactor.Admission
import SimpleBasicComponents.Reactor.Echo
import SimpleBasicComponents.Reactor.IdleSweep
import SimpleBasicComponents.Reactor.Model
import SimpleBasicComponents.Reactor.Slots
import SimpleBasicComponents.RingBuffer.Accounting
import SimpleBasicComponents.RingBuffer.Bounds
import SimpleBasicComponents.RingBuffer.Fifo
import SimpleBasicComponents.RingBuffer.Lines
import SimpleBasicComponents.RingBuffer.Model
import SimpleBasicComponents.Semantics.Acyclic
import SimpleBasicComponents.Semantics.BinaryHeap
import SimpleBasicComponents.Semantics.BinaryTree
import SimpleBasicComponents.Semantics.BumpArena
import SimpleBasicComponents.Semantics.Bytes
import SimpleBasicComponents.Semantics.CString
import SimpleBasicComponents.Semantics.Chain
import SimpleBasicComponents.Semantics.Ensures
import SimpleBasicComponents.Semantics.FirstFit
import SimpleBasicComponents.Semantics.Heap
import SimpleBasicComponents.Semantics.HexNumerals
import SimpleBasicComponents.Semantics.History
import SimpleBasicComponents.Semantics.Ledger
import SimpleBasicComponents.Semantics.Locking
import SimpleBasicComponents.Semantics.Loop
import SimpleBasicComponents.Semantics.Machine
import SimpleBasicComponents.Semantics.Observed
import SimpleBasicComponents.Semantics.Paths
import SimpleBasicComponents.Semantics.Potential
import SimpleBasicComponents.Semantics.Projection
import SimpleBasicComponents.Semantics.SortedSet
import SimpleBasicComponents.Semantics.Tally
import SimpleBasicComponents.SetTimer.Iterators
import SimpleBasicComponents.SetTimer.MainLoop
import SimpleBasicComponents.SetTimer.Model
import SimpleBasicComponents.SetTimer.Serving
import SimpleBasicComponents.SkipList.Destruction
import SimpleBasicComponents.SkipList.Insertion
import SimpleBasicComponents.SkipList.Levels
import SimpleBasicComponents.SkipList.Model
import SimpleBasicComponents.SkipList.Removal
import SimpleBasicComponents.SkipList.Rows
import SimpleBasicComponents.SkipList.Search
import SimpleBasicComponents.ThreadPool.Conservation
import SimpleBasicComponents.ThreadPool.Model
import SimpleBasicComponents.ThreadPool.Ordering
import SimpleBasicComponents.ThreadPool.Shutdown
import SimpleBasicComponents.ThreadPool.Steps
import SimpleBasicComponents.ThreadPool.Waiting
import SimpleBasicComponents.ThreadPool.WakeUp
import SimpleBasicComponents.TimeWheel.Cancellation
import SimpleBasicComponents.TimeWheel.Cascade
import SimpleBasicComponents.TimeWheel.Clearing
import SimpleBasicComponents.TimeWheel.Clock
import SimpleBasicComponents.TimeWheel.Digits
import SimpleBasicComponents.TimeWheel.Missed
import SimpleBasicComponents.TimeWheel.Model
import SimpleBasicComponents.TimeWheel.Runs
import SimpleBasicComponents.TimeWheel.Slots
import SimpleBasicComponents.TryCatch.Finalization
import SimpleBasicComponents.TryCatch.Model
import SimpleBasicComponents.TryCatch.Phases
import SimpleBasicComponents.TryCatch.Reference
import SimpleBasicComponents.TryCatch.Simulation
import SimpleBasicComponents.WebServer.Connections
import SimpleBasicComponents.WebServer.Delivery
import SimpleBasicComponents.WebServer.Dispatch
import SimpleBasicComponents.WebServer.FdTable
import SimpleBasicComponents.WebServer.Growth
import SimpleBasicComponents.WebServer.Model
import SimpleBasicComponents.WebServer.Registry
import SimpleBasicComponents.WebServer.Requests
import SimpleBasicComponents.WebServer.Responses
import SimpleBasicComponents.WebServer.Server
import SimpleBasicComponents.WebServer.Teardown
import SimpleBasicComponents.WebServer.WebRoot
