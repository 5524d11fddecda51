import MiaowOs.Lib.Ring
import MiaowOs.Lib.Blocks
import MiaowOs.Lib.Spans
import MiaowOs.Lib.Bytes
import MiaowOs.Lib.Cyclic
import MiaowOs.Lib.Chain
import MiaowOs.Lib.Highest
import MiaowOs.Lib.Interleave
import MiaowOs.Lib.Interference
import MiaowOs.Lib.Progress
import MiaowOs.Lib.Sieve
import MiaowOs.Memory
import MiaowOs.ListHead
import MiaowOs.ListRuns
import MiaowOs.String
import MiaowOs.Vsprintf
import MiaowOs.Formatting
import MiaowOs.Number
import MiaowOs.Printk
import MiaowOs.Parsing
import MiaowOs.FormatLanguage
import MiaowOs.Mm.PageAlloc
import MiaowOs.Mm.FreeLists
import MiaowOs.Mm.Buddy
import MiaowOs.Mm.Owned
import MiaowOs.Mm.BuddyRuns
import MiaowOs.Mm.BuddyCalls
import MiaowOs.Mm.Memblock
import MiaowOs.Mm.MemblockLists
import MiaowOs.Mm.MemblockAdd
import MiaowOs.Mm.MemblockRemove
import MiaowOs.Mm.MemblockWalk
import MiaowOs.Mm.MemblockRuns
import MiaowOs.Mm.MemblockFit
import MiaowOs.Mm.MemblockSets
import MiaowOs.Mm.MemblockPasses
import MiaowOs.Mm.Slab
import MiaowOs.Mm.SlabPages
import MiaowOs.Mm.SlabInv
import MiaowOs.Mm.SlabCalls
import MiaowOs.Mm.SlabRuns
import MiaowOs.Mm.Init
import MiaowOs.Mm.Boot
import MiaowOs.Kernel.Context
import MiaowOs.Kernel.Timer
import MiaowOs.Kernel.Task
import MiaowOs.Kernel.Trap
import MiaowOs.Kernel.Runs
import MiaowOs.Kernel.TaskSafety
import MiaowOs.Kernel.RoundRobin
import MiaowOs.Kernel.TimerRuns
import MiaowOs.Mm.Mmu
import MiaowOs.Mm.PageTables
import MiaowOs.Mm.AddressMap
import MiaowOs.Mm.Switch
import MiaowOs.Mm.Protection
import MiaowOs.Mm.MappingRuns
import MiaowOs.Mm.TablePool
import MiaowOs.Kernel.Log
import MiaowOs.Kernel.Preemption
import MiaowOs.Kernel.Loading
import MiaowOs.Kernel.Start
import MiaowOs.Kernel.Console
import MiaowOs.Kernel.Uart
import MiaowOs.Apps
import MiaowOs.Tools.Check
import MiaowOs.Tools.Gate
import MiaowOs.Tools.Verdict
import MiaowOs.Kernel.Programs
