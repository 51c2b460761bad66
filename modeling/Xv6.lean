import Xv6.Lib.Prog
import Xv6.Lib.Run
import Xv6.Lib.Sums
import Xv6.Params
import Xv6.Kalloc
import Xv6.PageTable
import Xv6.PageTableLaws
import Xv6.MappingLaws
import Xv6.SpaceLaws
import Xv6.FillLaws
import Xv6.Fs
import Xv6.Proc
import Xv6.Swap
import Xv6.FsLaws
import Xv6.SwapLaws
import Xv6.Fault
import Xv6.FaultLaws
import Xv6.Consistency
import Xv6.Slots
import Xv6.Frames
import Xv6.FaultPanics
import Xv6.PagingMemory
import Xv6.Exec
import Xv6.ArgLaws
import Xv6.ExecLaws
import Xv6.ExecEnds
import Xv6.ExecOutcome
import Xv6.Fork
import Xv6.ForkLaws
import Xv6.User
import Xv6.System
import Xv6.Ownership
import Xv6.SlotRuns
import Xv6.Lib.Flat
import Xv6.Contents
import Xv6.UserRuns
import Xv6.DataRuns
import Xv6.HeapRuns
import Xv6.ForkImage
import Xv6.ExecImage
import Xv6.SwapFiles
import Xv6.SwapIsolation
import Xv6.Disk.Log
import Xv6.Lib.Crash
import Xv6.Disk.Recovery
import Xv6.Disk.Transactions
import Xv6.Disk.Bcache
import Xv6.Disk.BcacheLaws
import Xv6.Disk.BcacheOrder
import Xv6.Lib.Radix
import Xv6.Sv39
import Xv6.Sv39Laws
import Xv6.FaultCalls
import Xv6.LockedCopies
import Xv6.LockedCopyLaws
import Xv6.FileCalls
import Xv6.FileCallLaws
import Xv6.Disk.Blocks
import Xv6.Disk.BlockLaws
import Xv6.FaultAccess
import Xv6.ForkTable
import Xv6.HeapShrink
import Xv6.FifoRuns
import Xv6.Eviction
import Xv6.SwapCapacity
import Xv6.Lib.Circular
import Xv6.Pipes
import Xv6.PipeFifo
import Xv6.PipeWakeups
import Xv6.Disk.Virtio
import Xv6.Disk.VirtioLaws
import Xv6.Disk.VirtioRuns
import Xv6.ProcTree
import Xv6.ProcTreeRuns
import Xv6.Names.Calls
import Xv6.Names.InodeLaws
import Xv6.Names.PathLaws
import Xv6.SwapFailures
import Xv6.LazyLoad
import Xv6.KernelFaults
import Xv6.UserCopies
import Xv6.ExecArgs
import Xv6.Memstat
import Xv6.Names.SwapFile
import Xv6.Resize
import Xv6.FailedMemory
import Xv6.Names.Resolve
import Xv6.Console
import Xv6.UserStrings
import Xv6.ConsoleReads
import Xv6.Disk.FileData
import Xv6.Programs.Grep
import Xv6.Programs.GrepLines
import Xv6.Programs.Shell
import Xv6.Programs.ShellTokens
import Xv6.Programs.ShellGrammar
import Xv6.Programs.ShellLines
import Xv6.Lib.Linked
import Xv6.Programs.Umalloc
import Xv6.Programs.UmallocLaws
import Xv6.Programs.UmallocRuns
import Xv6.Sched
import Xv6.SchedLaws
import Xv6.SchedRuns
