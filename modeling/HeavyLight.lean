import HeavyLight.Exec
import HeavyLight.HeapIntervals
import HeavyLight.SegmentTree
import HeavyLight.SegmentTreeSpec
import HeavyLight.TreeVector
import HeavyLight.IntBounds
import HeavyLight.WrapAround
import HeavyLight.ParentTree
import HeavyLight.HeavyPath
import HeavyLight.TreePath
import HeavyLight.GraphTree
import HeavyLight.Lifting
import HeavyLight.Hld
import HeavyLight.AdjTree
import HeavyLight.Dfs
import HeavyLight.Decompose
import HeavyLight.Preprocess
import HeavyLight.DfsArrays
import HeavyLight.Chains
import HeavyLight.BuildOverflow
import HeavyLight.Lca
import HeavyLight.QueryPath
import HeavyLight.ClimbBounds
import HeavyLight.Session
import HeavyLight.Memory
import HeavyLight.ParPreprocess
import HeavyLight.Rerun
import HeavyLight.IntRuns
import HeavyLight.ArityTree
import HeavyLight.GenerateTree
import HeavyLight.Levels
import HeavyLight.GenerateLevels
import HeavyLight.ForkJoin
import HeavyLight.Traces
import HeavyLight.History
import HeavyLight.QueryParallel
import HeavyLight.ParDecompose
import HeavyLight.ParDfs
import HeavyLight.HeavyChoice
import HeavyLight.Schedules
import HeavyLight.ParallelFor
import HeavyLight.ParNumbering
import HeavyLight.ParLoops
import HeavyLight.Machines
import HeavyLight.WorkDeque
import HeavyLight.JobTree
import HeavyLight.Scheduler
import HeavyLight.SchedulerJobs
import HeavyLight.SchedulerRuns
import HeavyLight.DequeScheduler
import HeavyLight.LeftDepth
import HeavyLight.Pairs
import HeavyLight.DequeTags
import HeavyLight.DequeDepth
import HeavyLight.DequeRuns
import HeavyLight.RaceFree
import HeavyLight.Workers
import HeavyLight.Driver
