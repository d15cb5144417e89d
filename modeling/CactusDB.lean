import CactusDB.Optimizer.Session
import CactusDB.Optimizer.FusionLimits
import CactusDB.Mcts.ExpressionSearch
import CactusDB.Mcts.Messages
import CactusDB.Mcts.ReusableSearch
import CactusDB.Optimizer.OfferHistory
import CactusDB.Aggregates.CatArrayInput
import CactusDB.Aggregates.SumArray
import CactusDB.MlFunctions.KernelFrames
import CactusDB.Optimizer.ConvConversions
import CactusDB.Optimizer.ImageWindows
import CactusDB.Cost.ChargedCalls
import CactusDB.MlFunctions.Embedding
import CactusDB.MlFunctions.NNBuilder
import CactusDB.MlFunctions.LeafValues
import CactusDB.Filters.BytesConjunction
import CactusDB.Filters.SkippedRanges
import CactusDB.Aggregates.DecimalAverage
import CactusDB.Exec.NodeNumbers
import CactusDB.Common.ManagedArenas
import CactusDB.Common.CoalesceIo
import CactusDB.Functions.KllRuns
import CactusDB.Expression.ConjunctExpr
import CactusDB.Exec.RowsFrames
import CactusDB.Exec.StreamingAggregation
import CactusDB.MlFunctions.BlockedMultiply
import CactusDB.MlFunctions.VerticalBlocks
import CactusDB.Optimizer.ForestSplits
import CactusDB.Optimizer.PlanSearch
import CactusDB.Optimizer.PushdownSearch
import CactusDB.Optimizer.PlanSplice
import CactusDB.Query2Vec.ShortestPaths
import CactusDB.Query2Vec.SubtreeFeatures
import CactusDB.Query2Vec.TreeHeights
import CactusDB.Functions.Ntile
import CactusDB.Types.DecimalUtil
