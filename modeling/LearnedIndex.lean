import LearnedIndex.Oracle
import LearnedIndex.SortedList
import LearnedIndex.Search
import LearnedIndex.Handover
import LearnedIndex.FastRandom
import LearnedIndex.Loading
import LearnedIndex.Competitors
import LearnedIndex.DoubleBuffer.Visibility
import LearnedIndex.DynamicPgm.Deletes
import LearnedIndex.DynamicPgm.Sessions
import LearnedIndex.Hybrid.Range
import LearnedIndex.Hybrid.Applicable
import LearnedIndex.Hybrid.Deadlock
import LearnedIndex.Hybrid.Migration
import LearnedIndex.Hybrid.Rebuild
import LearnedIndex.Searches.Classes
import LearnedIndex.Searches.Interchange
import LearnedIndex.Searches.Interpolation
import LearnedIndex.Searches.LinearAvx
import LearnedIndex.Transition
import LearnedIndex.Util
import LearnedIndex.Workload.Kinds
import LearnedIndex.Workload.Latency
import LearnedIndex.Workload.Negative
import LearnedIndex.Workload.Recovery
import LearnedIndex.Workload.Schedules
import LearnedIndex.Workload.Splitting
import LearnedIndex.Lipp.Heap.Insert
import LearnedIndex.Contest
import LearnedIndex.Lipp.Range
import LearnedIndex.Greedy
import LearnedIndex.PiecewiseLinear.AddPoint
import LearnedIndex.PiecewiseLinear.Segment
import LearnedIndex.PiecewiseLinear.Segmentation
import LearnedIndex.StaticPgm.Defs
import LearnedIndex.StaticPgm.Segment
import LearnedIndex.StaticPgm.Level
import LearnedIndex.StaticPgm.Build
import LearnedIndex.StaticPgm.Search
