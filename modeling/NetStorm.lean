import NetStorm.RouteRelease
import NetStorm.Multicast
import NetStorm.UpdateSlots
import NetStorm.WorkerSharding
import NetStorm.SwitchSafety
import NetStorm.OptimizerState
import NetStorm.Wire
import NetStorm.FlowControl
import NetStorm.TopoBarrier
import NetStorm.KVWorker
import NetStorm.Retransmission
import NetStorm.NodeRecovery
import NetStorm.EngineProgress
import NetStorm.EngineWait
import NetStorm.DisjointRoutes
import NetStorm.Performance
import NetStorm.QuotaDivision
import NetStorm.PullCallback
import NetStorm.GradientCompression
import NetStorm.ChainRule
import NetStorm.PlanExecution
import NetStorm.TreeReduce
import NetStorm.NodeColoring
import NetStorm.RowSparseSum
import NetStorm.ExactPool
import NetStorm.RoundedPool
import NetStorm.Library.SortedWindows
import NetStorm.Library.NearestEven
import NetStorm.HandedOutKeys
import NetStorm.MultiPrecision
import NetStorm.RowSparseKeys
import NetStorm.CompressedKeys
import NetStorm.CompressionParams
import NetStorm.Library.TreeSearch
import NetStorm.BacktrackSearch
import NetStorm.BalancedSplit
import NetStorm.CommandType
import NetStorm.SizeBuckets
import NetStorm.TraceWalk
import NetStorm.ThreadsafeQueue
import NetStorm.EngineBulk
import NetStorm.EngineExceptions
import NetStorm.CommonExprTermination
import NetStorm.RowSparseParallel
import NetStorm.DenseSum
import NetStorm.MergeBuffers
import NetStorm.TreeBroadcast
import NetStorm.Json
import NetStorm.JsonHandlers
import NetStorm.SaveLoadJson
import NetStorm.SaveLoadSymbol
