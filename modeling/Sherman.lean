import Sherman.Concurrency.RelyGuarantee
import Sherman.Page.LeafSpec
import Sherman.Page.InternalSpec
import Sherman.Cache.IndexCache
import Sherman.Tree.Operations
import Sherman.Tree.Preservation
import Sherman.Tree.Locking
import Sherman.Tree.Initial
import Sherman.Tree.Structure
import Sherman.Tree.Sequential
import Sherman.Tree.Transparency
import Sherman.Tree.Aborting
import Sherman.Tree.Linearizing
import Sherman.Concurrency.Transition
import Sherman.Lock.Machine
import Sherman.Lock.HandOver
import Sherman.Alloc.Disjoint
import Sherman.Race.PageRead
import Sherman.Race.EntryRead
import Sherman.Race.LeafRead
import Sherman.Root.Chain
import Sherman.Buffer.Rotation
import Sherman.Coroutine.WakeUp
import Sherman.Cache.Lookup
import Sherman.Cache.Accounting
import Sherman.Buffer.ReceiveRing
import Sherman.Buffer.SendRing
import Sherman.Cluster.Barrier
import Sherman.Cluster.Wiring
import Sherman.Page.Routing
import Sherman.Page.LeafContents
import Sherman.Tree.LockDiscipline
import Sherman.Tree.Occupancy
import Sherman.Tree.Caching
import Sherman.Tree.Isolation
import Sherman.Tree.RangeQuery
import Sherman.Tree.RangeDistinct
import Sherman.Tree.LeafFetch
import Sherman.Lock.WRLock
import Sherman.Rdma.PollWithCQ
import Sherman.SkipList.Linearizing
import Sherman.Cache.Reclaiming
import Sherman.Cluster.Sum
import Sherman.Tree.ByteMemory
import Sherman.Tree.Draining
import Sherman.Tree.LeafChain
import Sherman.SkipList.Random
