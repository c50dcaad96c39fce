import SmartTree.Lib.Transition
import SmartTree.Key
import SmartTree.KeyOrder
import SmartTree.LocalCache
import SmartTree.LocalCacheLastWrite
import SmartTree.WorkFunc
import SmartTree.LocalCacheCoroutine
import SmartTree.LocalLock.Table
import SmartTree.LocalLock.Queue
import SmartTree.LocalLock.Serving
import SmartTree.LocalLock.ReadView
import SmartTree.LocalLock.Window
import SmartTree.LocalLock.Delegation
import SmartTree.LocalLock.Exclusion
import SmartTree.LocalLock.OneKey
import SmartTree.LocalLock.Combining
import SmartTree.LocalLock.History
import SmartTree.LocalLock.Handover
import SmartTree.Hocl.Balance
import SmartTree.Hocl.Embedded
import SmartTree.RadixCache.LongestPrefix
import SmartTree.GlobalAllocator
import SmartTree.LocalAllocatorApart
import SmartTree.Node
import SmartTree.HeaderWord
import SmartTree.Tree.Memory
import SmartTree.Tree.Machine
import SmartTree.Tree.Step
import SmartTree.Tree.Layout
import SmartTree.Tree.Chain
import SmartTree.Tree.Publish
import SmartTree.Tree.Match
import SmartTree.Tree.Knows
import SmartTree.Tree.Local
import SmartTree.Tree.Outcome
import SmartTree.Tree.Update
import SmartTree.Tree.Safe
import SmartTree.Tree.Structure
import SmartTree.Tree.Settled
import SmartTree.Tree.Grafted
import SmartTree.Tree.Owed
import SmartTree.Tree.AloneRead
import SmartTree.Tree.AloneWrite
import SmartTree.Tree.AloneSplit
import SmartTree.Tree.Alone
import SmartTree.Tree.Range
import SmartTree.Tree.Walk
import SmartTree.Tree.Session
import SmartTree.Tree.Contexts
import SmartTree.Tree.TaskStep
import SmartTree.Tree.Filed
import SmartTree.Tree.SplitWrite
import SmartTree.Tree.Outdated
import SmartTree.Tree.Select
import SmartTree.Keeper.Memcached
import SmartTree.Keeper.Barrier
import SmartTree.Keeper.Sum
import SmartTree.Coroutine.Command
import SmartTree.Coroutine.Operations
import SmartTree.Coroutine.Master
import SmartTree.Tree.Reverse
import SmartTree.Tree.CachedQuery
import SmartTree.Tree.TransientQuery
import SmartTree.EntryWord
import SmartTree.Dsm.TwoCasMask
import SmartTree.Dsm.ReadBatches
import SmartTree.Dsm.Receive
import SmartTree.Tree.Checksum
import SmartTree.LocalCacheOrder
import SmartTree.Tree.MigratePath
import SmartTree.Tree.SearchRound
import SmartTree.Tree.EmptyTail
import SmartTree.RadixCache.Budget
import SmartTree.Tree.Refused
import SmartTree.Tree.LoneMap
import SmartTree.Tree.Progress
