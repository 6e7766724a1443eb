import VeloGraphX.Lib.FuelLoop
import VeloGraphX.Lib.PointUpdate
import VeloGraphX.Lib.Slice
import VeloGraphX.Lib.SortedList
import VeloGraphX.Storage.PackedDeltaStore
import VeloGraphX.Storage.PackedDeltaLayout
import VeloGraphX.Storage.PackedDeltaMap
import VeloGraphX.Lib.CountingSort
import VeloGraphX.Storage.SegmentedCsr
import VeloGraphX.Storage.SegmentedCsrBuild
import VeloGraphX.Storage.DynamicGraph
import VeloGraphX.Storage.EffectiveRows
import VeloGraphX.Lib.LastWrite
import VeloGraphX.Model.ArcSet
import VeloGraphX.Storage.DynamicGraphRefinement
import VeloGraphX.Storage.DynamicGraphCalls
import VeloGraphX.Storage.DynamicGraphReverse
import VeloGraphX.Access.GraphAccess
import VeloGraphX.Lib.PriorityQueue
import VeloGraphX.Lib.ShortestPath
import VeloGraphX.Incremental.Dijkstra
import VeloGraphX.Incremental.Sssp
import VeloGraphX.Model.Weights
import VeloGraphX.Storage.WeightedDynamicGraph
import VeloGraphX.Access.WeightedGraphAccess
import VeloGraphX.Incremental.EdgeKey
import VeloGraphX.Incremental.WeightedSssp
import VeloGraphX.Incremental.WeightedSsspRuns
import VeloGraphX.Incremental.ReusableKeySet
import VeloGraphX.Incremental.Bfs
import VeloGraphX.Incremental.BfsLevels
import VeloGraphX.Incremental.BfsRepair
import VeloGraphX.Incremental.BfsInvalidation
import VeloGraphX.Incremental.BfsCollect
import VeloGraphX.Incremental.BfsApply
import VeloGraphX.Incremental.BfsRuns
import VeloGraphX.Incremental.SsspRuns
import VeloGraphX.Storage.CsrGraph
import VeloGraphX.Storage.StoreAgreement
import VeloGraphX.Storage.TemporalGraph
import VeloGraphX.Storage.TemporalWindow
import VeloGraphX.Storage.Consolidation
import VeloGraphX.Io.BinaryGraph
import VeloGraphX.Io.TruncatedGraph
import VeloGraphX.Lib.RecencyList
import VeloGraphX.Storage.PartitionCache
import VeloGraphX.Storage.AsyncPartitionLoader
import VeloGraphX.Runtime.WorkStealingPool
import VeloGraphX.Runtime.PoolAccounting
import VeloGraphX.Runtime.PoolFailures
import VeloGraphX.Runtime.WaitIdle
import VeloGraphX.Runtime.ParallelFor
import VeloGraphX.Runtime.ChunkLoop
import VeloGraphX.Incremental.GrownSource
import VeloGraphX.Lib.DisjointSets
import VeloGraphX.Incremental.ConnectedComponents
import VeloGraphX.Incremental.UnionFindSpec
import VeloGraphX.Incremental.ComponentRepair
import VeloGraphX.Incremental.EngineSteps
import VeloGraphX.Lib.Peeling
import VeloGraphX.Incremental.ComponentRuns
import VeloGraphX.Incremental.KCore
import VeloGraphX.Access.UndirectedGraph
import VeloGraphX.Incremental.KCoreRegion
import VeloGraphX.Incremental.KCoreRuns
import VeloGraphX.Lib.Triangles
import VeloGraphX.Incremental.TriangleCount
import VeloGraphX.Incremental.TriangleRuns
import VeloGraphX.Lib.VariableByte
import VeloGraphX.Lib.BlockLoop
import VeloGraphX.Storage.CompressedAdjacency
import VeloGraphX.Lib.CheckedMemory
import VeloGraphX.Storage.BlockedAdjacency
import VeloGraphX.Storage.SimdFriendly
import VeloGraphX.Storage.VectorizedDecode
import VeloGraphX.Storage.FixedWidthRoundTrip
import VeloGraphX.Storage.EncoderChecks
import VeloGraphX.Storage.PayloadLength
import VeloGraphX.Storage.MappedRange
import VeloGraphX.Storage.ConsolidationController
import VeloGraphX.Kernels.Intersection
import VeloGraphX.Access.ReadableGraph
import VeloGraphX.Incremental.PageRank
import VeloGraphX.Lib.RandomWalk
import VeloGraphX.Access.RankVectors
import VeloGraphX.Algorithms.StaticPageRank
import VeloGraphX.Lib.ClassNumbering
import VeloGraphX.Algorithms.StaticComponents
import VeloGraphX.Incremental.PageRankTurns
import VeloGraphX.Incremental.PageRankRepair
import VeloGraphX.Incremental.PageRankRuns
import VeloGraphX.Algorithms.StaticTriangles
import VeloGraphX.Lib.TracedLoop
import VeloGraphX.Algorithms.OuterLoops
import VeloGraphX.Lib.ListBounds
import VeloGraphX.Storage.TemporalChanges
import VeloGraphX.Incremental.CanonicalBatch
import VeloGraphX.Incremental.BfsReached
import VeloGraphX.Incremental.BfsAffected
import VeloGraphX.Lib.Tiling
import VeloGraphX.Runtime.Partitioner
import VeloGraphX.Runtime.NumaScheduler
import VeloGraphX.Incremental.KeySetRuns
import VeloGraphX.Incremental.BfsWorkspace
import VeloGraphX.Storage.PackedDeltaRuns
import VeloGraphX.Lib.UnionByRank
import VeloGraphX.Lib.EventLog
import VeloGraphX.Incremental.ComponentLog
import VeloGraphX.Incremental.ComponentRanks
import VeloGraphX.Lib.Interleaving
import VeloGraphX.Runtime.ThreadPool
import VeloGraphX.Runtime.ThreadPoolAccounting
import VeloGraphX.Runtime.ThreadPoolProgress
import VeloGraphX.Lib.TextStream
import VeloGraphX.Io.EdgeListText
import VeloGraphX.Lib.RandomWalkLimit
import VeloGraphX.Algorithms.PageRankLimit
import VeloGraphX.Incremental.PageRankAccuracy
import VeloGraphX.Storage.OverlayBounds
import VeloGraphX.Algorithms.StaticBfs
import VeloGraphX.Storage.PartitionResidency
import VeloGraphX.Lib.Jaccard
import VeloGraphX.Algorithms.Similarity
import VeloGraphX.Access.BackendFunctions
import VeloGraphX.Runtime.CpuList
import VeloGraphX.Runtime.NumaPlacement
import VeloGraphX.Runtime.ClientScript
import VeloGraphX.Runtime.NumaDispatch
import VeloGraphX.Storage.CompressionPolicy
import VeloGraphX.Algorithms.ReachableComponents
import VeloGraphX.Runtime.PoolProgress
import VeloGraphX.Runtime.PoolFairness
import VeloGraphX.Runtime.PoolStatistics
