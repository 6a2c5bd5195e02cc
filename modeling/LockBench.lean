import LockBench.Machine
import LockBench.Interleave
import LockBench.StoreBuffer
import LockBench.ReaderSlots
import LockBench.SpinFlag
import LockBench.PcpuRwLock
import LockBench.PcpuRwLockV2
import LockBench.EpochRcu
import LockBench.EpochRcuInvariant
import LockBench.EpochRcuSafety
import LockBench.OccLock
import LockBench.HashIndex
import LockBench.HashIndexSafety
import LockBench.IndexAdapters
import LockBench.WormholeIndex
import LockBench.WormholeGet
import LockBench.WormholeGetWalk
import LockBench.WormholeGetSteps
import LockBench.WormholeGetLocks
import LockBench.WormholeGetInvariant
import LockBench.WormholeGetPaths
import LockBench.WormholeGetContents
import LockBench.Linearize
import LockBench.KeyValue
import LockBench.SkipList
import LockBench.SkipListShape
import LockBench.SkipListLocal
import LockBench.SkipListInstants
import LockBench.SkipListInvariant
import LockBench.SkipListQuiet
import LockBench.SkipListStores
import LockBench.SkipListLinearizable
import LockBench.SkipListOptimistic
import LockBench.WaitsFor
import LockBench.SkipListDeadlock
import LockBench.OccSeqlock
import LockBench.ShimLock
import LockBench.BenchHarness
import LockBench.Cells
import LockBench.BptreeNode
import LockBench.BptreeIndex
import LockBench.BptreeShape
import LockBench.BptreePut
import LockBench.BptreeRefines
import LockBench.BptreeInvariant
import LockBench.BptreeHeight
import LockBench.IdealLocks
import LockBench.BptreeRanges
import LockBench.BptreeRangesStep
import LockBench.BptreeCoupling
import LockBench.BptreeContents
import LockBench.BptreeCouplingInvariant
import LockBench.BptreeCouplingStep
import LockBench.BptreeCouplingWork
import LockBench.BptreeCouplingSafety
import LockBench.BptreeLinearizable
import LockBench.BptreeDeadlock
import LockBench.BptreeRaceFree
import LockBench.BptreeAtRest
import LockBench.RwLock
import LockBench.TicketLock
import LockBench.WormholeWalk
import LockBench.PlaceValue
import LockBench.WormholeKeys
import LockBench.CpuTopology
import LockBench.NumberText
import LockBench.CpuList
import LockBench.BenchArgs
import LockBench.WorkloadLabels
import LockBench.Grouping
import LockBench.FallibleSort
import LockBench.AggregateRows
import LockBench.Aggregate
import LockBench.RoundUp
import LockBench.RwMask
import LockBench.HashSpread
import LockBench.HashTable
import LockBench.HashTableRefines
import LockBench.SkipListSeq
import LockBench.SortedLinks
import LockBench.SkipListSeqRefines
import LockBench.ShimDowngrade
