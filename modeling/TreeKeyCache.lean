import TreeKeyCache.Lib.Entries
import TreeKeyCache.Types
import TreeKeyCache.Keys
import TreeKeyCache.Read
import TreeKeyCache.Program
import TreeKeyCache.Write
import TreeKeyCache.Lookup
import TreeKeyCache.Sections
import TreeKeyCache.PathSections
import TreeKeyCache.Labels
import TreeKeyCache.PathMap
import TreeKeyCache.Nodes
import TreeKeyCache.Refinement
import TreeKeyCache.Calls
import TreeKeyCache.Lib.PrefixCode
import TreeKeyCache.TextSerializers
import TreeKeyCache.Lib.SharedCells
import TreeKeyCache.Pool
import TreeKeyCache.Interleaving
import TreeKeyCache.Writers
import TreeKeyCache.ConcurrentRuns
import TreeKeyCache.ConcurrentSets
import TreeKeyCache.Prune
import TreeKeyCache.PruneRuns
import TreeKeyCache.PruneInvisible
import TreeKeyCache.Lib.Worklist
import TreeKeyCache.Traversal
import TreeKeyCache.FullTreeSet
import TreeKeyCache.Monitors
import TreeKeyCache.ChildrenRegistry
import TreeKeyCache.KeyLifetimes
import TreeKeyCache.LockedWrites
import TreeKeyCache.Presence
import TreeKeyCache.Environments
import TreeKeyCache.LockPairs
import TreeKeyCache.AllOrNothing
import TreeKeyCache.AnyKeys
import TreeKeyCache.Layout
import TreeKeyCache.Ancestors
import TreeKeyCache.InheritedKeys
import TreeKeyCache.NodeLifetimes
import TreeKeyCache.KeyHistories
import TreeKeyCache.AsyncTraversal
import TreeKeyCache.Materialised
import TreeKeyCache.BasePaths
import TreeKeyCache.Lib.MemoTable
import TreeKeyCache.Memoizer
import TreeKeyCache.SavedTrees
import TreeKeyCache.BulkWrites
import TreeKeyCache.SetSequences
import TreeKeyCache.BulkForm
import TreeKeyCache.BulkDeadlines
import TreeKeyCache.Versions
import TreeKeyCache.RandomIterate
import TreeKeyCache.Undecodable
import TreeKeyCache.UndecodableVersions
import TreeKeyCache.VersionTraversals
import TreeKeyCache.HistoryBasePaths
import TreeKeyCache.PrunePipeline
import TreeKeyCache.UndecodableData
import TreeKeyCache.Selectors
import TreeKeyCache.NodeTtls
import TreeKeyCache.PrunedTrees
import TreeKeyCache.PruneChanges
import TreeKeyCache.PairedNodes
import TreeKeyCache.BulkOrder
import TreeKeyCache.WorkingLists
import TreeKeyCache.ReferenceOrders
import TreeKeyCache.MergedVersions
import TreeKeyCache.WholeTrees
import TreeKeyCache.FilledSteps
import TreeKeyCache.ResumedRuns
import TreeKeyCache.ReprocessedChildren
import TreeKeyCache.Enumerations
import TreeKeyCache.PruneConcurrent
import TreeKeyCache.AsyncQueue
import TreeKeyCache.KeyCoders
import TreeKeyCache.InMemorySet
import TreeKeyCache.PositiveTtls
import TreeKeyCache.RedisTtls
import TreeKeyCache.Completion
import TreeKeyCache.LiveEnumerations
import TreeKeyCache.SettledNodes
import TreeKeyCache.RepairedRegistry
import TreeKeyCache.CopiedCaches
import TreeKeyCache.Retries
import TreeKeyCache.FrozenReads
