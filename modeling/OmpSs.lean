import OmpSs.Lib.Run
import OmpSs.Lib.Precedence
import OmpSs.Deps.DependableObject
import OmpSs.Deps.BaseDomain
import OmpSs.Deps.Accounting
import OmpSs.Deps.Plain
import OmpSs.Deps.Effects
import OmpSs.Deps.PlainRelease
import OmpSs.Deps.PlainSubmit
import OmpSs.Deps.PlainAccess
import OmpSs.Deps.PlainAccounting
import OmpSs.Deps.PlainOrder
import OmpSs.Deps.TaskGraph
import OmpSs.Deps.PlainConflict
import OmpSs.Lib.CountedLoop
import OmpSs.Loops.StaticFor
import OmpSs.Lib.Ticket
import OmpSs.Loops.Worksharing
import OmpSs.Loops.DynamicFor
import OmpSs.Loops.GuidedFor
import OmpSs.Support.Region
import OmpSs.Support.RegionTree
import OmpSs.Support.RegionTreeContainer
import OmpSs.Barr.CentralizedBarrier
import OmpSs.Barr.DisseminationBarrier
import OmpSs.Barr.TreeBarrier
import OmpSs.Lib.SortedMap
import OmpSs.Lib.Tiling
import OmpSs.Support.SimpleAllocator
import OmpSs.Core.WDDeque
import OmpSs.Core.GlobalReg
import OmpSs.Core.RegionCache
import OmpSs.Core.TaskMemory
import OmpSs.Core.RegionDict
import OmpSs.Core.RegionParts
import OmpSs.Support.RegionPart
import OmpSs.Support.RegionCut
import OmpSs.Support.RegionTreePartition
import OmpSs.Support.RegionTreePopulate
import OmpSs.Core.RegionBacking
import OmpSs.Core.RegionEvict
import OmpSs.Core.RegionTransfer
import OmpSs.Lib.WideWord
import OmpSs.Loops.LastPrivate
import OmpSs.Mcxx.Cexpr
import OmpSs.Mcxx.ExpressionReduction
import OmpSs.Mcxx.LoopCollapse
import OmpSs.Mcxx.StrengthReduction
import OmpSs.Core.RegionSelect
import OmpSs.Lib.DepthFirst
import OmpSs.Mcxx.Refcount
import OmpSs.Mcxx.RefcountBalance
import OmpSs.Mcxx.RefcountRuns
import OmpSs.Support.MemoryMapCut
import OmpSs.Support.MemoryMapExact
import OmpSs.Support.MemoryMapMerge
import OmpSs.Lib.Cube
import OmpSs.Lib.Strides
import OmpSs.Support.RegionBuilder
import OmpSs.Support.RegionPartition
import OmpSs.Deps.EarlyRelease
import OmpSs.Deps.PlainEarlyRelease
import OmpSs.Deps.BaseRegions
import OmpSs.Deps.RegionMap
import OmpSs.Deps.Regions
import OmpSs.Deps.RegionsConflict
import OmpSs.Core.FitRegion
import OmpSs.Core.RegionForm
import OmpSs.Core.RegionIds
import OmpSs.Core.RegionSubstract
import OmpSs.Core.SlabRegion
import OmpSs.Core.TaskRoot
import OmpSs.Loops.EmptyLoop
import OmpSs.Loops.Slicers
import OmpSs.Loops.StaticShares
import OmpSs.Support.RegionCollection
import OmpSs.Deps.Perfect
import OmpSs.Deps.PerfectConflict
import OmpSs.Deps.CRegions
import OmpSs.Deps.CRegionsAccess
import OmpSs.Deps.CRegionsConflict
import OmpSs.Core.DirectoryEntry
import OmpSs.Core.Router
import OmpSs.Core.ThreadTeam
import OmpSs.Core.WDPriorityBounds
import OmpSs.Lib.FirstFit
import OmpSs.Lib.LoopCount
import OmpSs.Mcxx.CollapseCount
import OmpSs.Mcxx.ComparisonReduction
import OmpSs.Mcxx.LoopNormalize
import OmpSs.Support.SimpleAllocatorQueries
import OmpSs.Lib.Interval
import OmpSs.Lib.LoopTrace
import OmpSs.Mcxx.InductionFinal
import OmpSs.Mcxx.Ranges
import OmpSs.Mcxx.RangeArithmetic
import OmpSs.Mcxx.RangeSets
import OmpSs.Mcxx.RangeValue
import OmpSs.Mcxx.FoldedRanges
import OmpSs.Mcxx.FoldedArithmetic
import OmpSs.Mcxx.FoldedValue
import OmpSs.Lib.TwoPowers
import OmpSs.Mcxx.CexprPow
import OmpSs.Mcxx.VectorReduction
import OmpSs.Mcxx.LoopUnroll
import OmpSs.Mcxx.LoopUnrollExact
import OmpSs.Mcxx.LoopUnrollJumps
import OmpSs.Loops.NextItemOverflow
import OmpSs.Mcxx.MinimalInteger
import OmpSs.Mcxx.StringUtils
import OmpSs.Mcxx.TppBlocks
import OmpSs.Mcxx.ConstOrder
import OmpSs.Lib.RedBlackTree
import OmpSs.Mcxx.RedBlackTree
import OmpSs.Mcxx.RedBlackTreeInsert
import OmpSs.Mcxx.RedBlackTreeMap
import OmpSs.Mcxx.ConstPool
import OmpSs.Mcxx.ConstUnique
import OmpSs.Mcxx.FortranSplit
import OmpSs.Mcxx.FixedFormContinue
import OmpSs.Mcxx.FixedFormJoin
import OmpSs.Mcxx.LoopHeaderExact
import OmpSs.Lib.HashChains
import OmpSs.Mcxx.Dhash
import OmpSs.Lib.TwoEndedMerge
import OmpSs.Mcxx.MergeSortStr
import OmpSs.Lib.RowMajor
import OmpSs.Mcxx.ArraySubscript
import OmpSs.Support.RegionShifts
import OmpSs.Mcxx.SlicerLoop
import OmpSs.Lib.LoopSplit
import OmpSs.Mcxx.GompLoop
import OmpSs.Mcxx.IntelLoop
import OmpSs.Mcxx.VectorExpressionReduction
