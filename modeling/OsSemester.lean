import OsSemester.Xv6.CpuOwnership
import OsSemester.Xv6.WaitProtocol
import OsSemester.Xv6.SlotHygiene
import OsSemester.Xv6.AddressSpace
import OsSemester.Xv6.ProcessPointers
import OsSemester.Xv6.JoinWakeup
import OsSemester.Xv6.JoinReaps
import OsSemester.Xv6.KillProcess
import OsSemester.Xv6.PipeSharing
import OsSemester.Xv6.PipeStream
import OsSemester.Xv6.ShareRecursion
import OsSemester.Xv6.LineEditor
import OsSemester.Xv6.GrowProc
import OsSemester.Xv6.CopyUvm
import OsSemester.Xv6.ThreadStart
import OsSemester.Xv6.CloneFailure
import OsSemester.Xv6.ExecOutcome
import OsSemester.Xv6.ExecLoad
import OsSemester.Xv6.UserWrites
import OsSemester.Xv6.Sharing
import OsSemester.Xv6.FileRefs
import OsSemester.Xv6.Identity
import OsSemester.Hw1.BraceMatching
import OsSemester.Hw1.HeapBuild
import OsSemester.Hw2.ThreadServer
import OsSemester.Hw5.TokenConservation
import OsSemester.Hw5.SpoolOrder
import OsSemester.Hw5.SortedOutput
import OsSemester.Hw5.ParallelSort
import OsSemester.Xv6.Reservation
import OsSemester.Xv6.SleepLock
import OsSemester.Xv6.BufferCache
import OsSemester.Xv6.CrashSafety
import OsSemester.Xv6.WriteBudget
import OsSemester.Xv6.UserHeap
import OsSemester.Xv6.MkfsWellFormed
import OsSemester.Xv6.ShellCommand
import OsSemester.Xv6.MkfsMount
import OsSemester.Lib.Client
import OsSemester.Xv6.Directory
import OsSemester.Xv6.DirectoryEntries
import OsSemester.Xv6.DirectoryMap
import OsSemester.Xv6.MkfsRoot
import OsSemester.Xv6.InodeCache
