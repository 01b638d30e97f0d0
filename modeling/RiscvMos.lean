import RiscvMos.LibByteMemory
import RiscvMos.LibLinkChain
import RiscvMos.LibIntrusiveQueue
import RiscvMos.LibRoundRobin
import RiscvMos.LibBuffer
import RiscvMos.AllocatorRuns
import RiscvMos.WalkSpec
import RiscvMos.PageTableRuns
import RiscvMos.BootTable
import RiscvMos.RoundRobin
import RiscvMos.SchedList
import RiscvMos.EnvTables
import RiscvMos.EnvIds
import RiscvMos.Teardown
import RiscvMos.Isolation
import RiscvMos.SegmentPlan
import RiscvMos.UnmapPages
import RiscvMos.GrowRange
import RiscvMos.PrintFormat
import RiscvMos.LoadImage
import RiscvMos.SlotReuse
import RiscvMos.Freewalk
import RiscvMos.EnvLookup
import RiscvMos.Dispatch
import RiscvMos.CopyTable
import RiscvMos.SetupSpace
import RiscvMos.ManyEnvs
import RiscvMos.Slices
import RiscvMos.AllocFailure
import RiscvMos.TrapReturn
import RiscvMos.ImageReads
import RiscvMos.LoadCalls
import RiscvMos.TableRoom
import RiscvMos.LoadRoom
import RiscvMos.PublishedEnv
import RiscvMos.AsidRuns
import RiscvMos.Memcpy
import RiscvMos.Memset
import RiscvMos.LibThreeWay
import RiscvMos.Strcmp
import RiscvMos.PrintCursor
import RiscvMos.PrintNum
import RiscvMos.Readelf
import RiscvMos.Bintoc
import RiscvMos.LibHostWord
import RiscvMos.LibBudget
import RiscvMos.Fsformat
import RiscvMos.FsMemory
import RiscvMos.FsLinks
import RiscvMos.FsDirectory
import RiscvMos.FsNames
import RiscvMos.FsInit
import RiscvMos.FsCreate
import RiscvMos.FsFile
import RiscvMos.FsContents
import RiscvMos.FsRuns
import RiscvMos.FsBounds
import RiscvMos.FsEndian
import RiscvMos.FsTree
import RiscvMos.FsTreeSteps
import RiscvMos.FsImage
import RiscvMos.FsBitmap
import RiscvMos.LibSv39Access
import RiscvMos.UserAccess
import RiscvMos.OtherSpaces
import RiscvMos.LibPrivateMemory
import RiscvMos.UserMemories
import RiscvMos.SystemRuns
import RiscvMos.LibWaiting
import RiscvMos.Waiting
import RiscvMos.KernelSpace
import RiscvMos.TrapOutcomes
import RiscvMos.LibSv39Cache
import RiscvMos.CachedRuns
import RiscvMos.LibLinkPath
import RiscvMos.DoubleFree
import RiscvMos.Strings
import RiscvMos.BootFrames
import RiscvMos.CutTables
import RiscvMos.PageLedger
import RiscvMos.Queue
import RiscvMos.Console
