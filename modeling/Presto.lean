import Presto.Orc.Filter.IntegerDomains
import Presto.Orc.ChunkFraming
import Presto.Operator.Aggregation.DecimalAverageAggregation
import Presto.Predicate.TupleDomainDecisions
import Presto.Predicate.Simplification
import Presto.Operator.ShuffleProtocol
import Presto.Execution.Buffer.BroadcastCompleteness
import Presto.Execution.Buffer.ArbitraryAssignment
import Presto.Execution.Buffer.PartitionedLifecycle
import Presto.Operator.SortedPositionLinks
import Presto.Execution.ResourceGroups.PriorityRivals
import Presto.Execution.ResourceGroups.RunGuarantees
import Presto.Operator.GroupBy.GroupByRuns
import Presto.Types.DecimalSlices
import Presto.Operator.Window.WindowRuns
import Presto.Types.CanonicalDecimals
import Presto.Memory.BroadcastBytes
import Presto.Operator.Scalar.LevenshteinDistance
import Presto.Operator.Scalar.Substr
import Presto.Operator.Scalar.Sequence
import Presto.Operator.Scalar.StringPosition
