import HosBoot.Foundation.Memory
import HosBoot.Foundation.Align
import HosBoot.Foundation.Word
import HosBoot.Foundation.Paging
import HosBoot.Foundation.Bump
import HosBoot.Foundation.Runs
import HosBoot.Foundation.Digits
import HosBoot.Foundation.Fallible
import HosBoot.Common.Align
import HosBoot.Common.Elf64
import HosBoot.Common.Stdlib
import HosBoot.Common.CString
import HosBoot.Common.Options
import HosBoot.Common.Math
import HosBoot.Common.Format
import HosBoot.Common.FormatReads
import HosBoot.I386.Terminal
import HosBoot.I386.TerminalRows
import HosBoot.I386.TerminalStores
import HosBoot.I386.Printf
import HosBoot.I386.PrintfStep
import HosBoot.I386.PrintfConversions
import HosBoot.I386.PrintfPadded
import HosBoot.I386.PrintfScan
import HosBoot.X8664.State
import HosBoot.X8664.Multiboot
import HosBoot.X8664.Reserve
import HosBoot.X8664.ReserveComplete
import HosBoot.X8664.MapWalk
import HosBoot.X8664.Estimate
import HosBoot.X8664.PageBuilder
import HosBoot.X8664.AllocInvariant
import HosBoot.X8664.WindowInvariant
import HosBoot.X8664.MapPage
import HosBoot.X8664.SectionRun
import HosBoot.X8664.FinishTables
import HosBoot.X8664.BuildTables
import HosBoot.X8664.Budget
import HosBoot.X8664.Translation
import HosBoot.X8664.Placement
import HosBoot.X8664.LoadKernel
import HosBoot.X8664.Init
import HosBoot.X8664.Modules
import HosBoot.X8664.KernelHalf
import HosBoot.X8664.LongMode
import HosBoot.Foundation.AtomicObject
import HosBoot.Foundation.RingBuffer
import HosBoot.Rts.WSDeque
import HosBoot.Rts.SparkPool
import HosBoot.Rts.SparkPoolRuns
import HosBoot.Rts.SparkCount
import HosBoot.Rts.Capability
import HosBoot.Foundation.LinearHash
import HosBoot.Rts.Hash
import HosBoot.Rts.HashRefines
import HosBoot.Foundation.Sequential
import HosBoot.Rts.HashRuns
import HosBoot.Foundation.Tiling
import HosBoot.Foundation.LinkedList
import HosBoot.Rts.BlockAlloc
import HosBoot.Rts.BlockHeader
import HosBoot.Rts.BlockModel
import HosBoot.Rts.BlockGroups
import HosBoot.Rts.BlockMoves
import HosBoot.Rts.BlockSteps
import HosBoot.Rts.BlockMega
import HosBoot.Rts.BlockFree
import HosBoot.Rts.BlockInit
import HosBoot.Rts.BlockTake
import HosBoot.Rts.BlockMBlocks
import HosBoot.Rts.BlockCalls
import HosBoot.Rts.BlockReturn
import HosBoot.Rts.BlockRefines
import HosBoot.Rts.BlockLinks
import HosBoot.Rts.BlockFreeing
import HosBoot.Rts.BlockAllocating
import HosBoot.Rts.BlockReturning
import HosBoot.Rts.BlockClient
import HosBoot.Rts.BlockRuns
import HosBoot.Rts.BlockSafety
import HosBoot.Rts.BlockSanity
import HosBoot.Rts.BlockAccounts
import HosBoot.Foundation.LinkedQueue
import HosBoot.Rts.MVar
import HosBoot.Rts.MVarSpec
import HosBoot.Rts.MVarStages
import HosBoot.Rts.MVarInv
import HosBoot.Rts.MVarMoves
import HosBoot.Rts.MVarQueues
import HosBoot.Rts.MVarOps
import HosBoot.Rts.MVarThreads
import HosBoot.Rts.MVarBlocks
import HosBoot.Rts.MVarRuns
import HosBoot.Rts.MVarGuarantees
