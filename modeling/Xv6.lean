import Xv6.Lib.Codec
import Xv6.Lib.Wp
import Xv6.Lib.Cstring
import Xv6.Lib.Runs
import Xv6.Lib.Sim
import Xv6.Lib.Transition
import Xv6.Param
import Xv6.LogCrash
import Xv6.LogOps
import Xv6.LogSpace
import Xv6.State
import Xv6.Fs
import Xv6.File
import Xv6.Sysfile
import Xv6.Mkfs
import Xv6.Lib.Ownership
import Xv6.Lib.Linked
import Xv6.Disk
import Xv6.Owned
import Xv6.Store
import Xv6.View
import Xv6.Bmap
import Xv6.WriteSet
import Xv6.Trunc
import Xv6.Content
import Xv6.FileArray
import Xv6.MkfsImage
import Xv6.MkfsBuild
import Xv6.MkfsLimits
import Xv6.Refs
import Xv6.Lib.SlotMap
import Xv6.Dir
import Xv6.DirMap
import Xv6.Inodes
import Xv6.Path
import Xv6.Tree
import Xv6.Links
import Xv6.Unlink
import Xv6.Create
import Xv6.Boot
import Xv6.Resolve
import Xv6.NameCalls
import Xv6.Open
import Xv6.Ptable
import Xv6.Reaping
import Xv6.Killing
import Xv6.Pids
import Xv6.Lib.RingBuffer
import Xv6.Pipe
import Xv6.PipeFifo
import Xv6.PipeSleep
import Xv6.Console
import Xv6.ConsoleLines
import Xv6.UserBuf
import Xv6.Sched
import Xv6.SchedCheck
import Xv6.SchedInv
import Xv6.SchedThread
import Xv6.SchedSafety
import Xv6.SchedWakeup
import Xv6.Vm
import Xv6.Space
import Xv6.Exec
import Xv6.Record
import Xv6.SpaceOps
import Xv6.Grants
import Xv6.UserMem
import Xv6.Growproc
import Xv6.Copyuvm
import Xv6.Freevm
import Xv6.Copyout
import Xv6.ExecStack
import Xv6.ExecImage
import Xv6.ExecRun
import Xv6.ExecOutcome
import Xv6.ExecLoads
import Xv6.Xvsh
import Xv6.XvshLaws
import Xv6.Sh
import Xv6.ShGrammar
import Xv6.ShRender
import Xv6.Ide
import Xv6.IdeQueue
import Xv6.Bio
import Xv6.BioCoherence
import Xv6.Grep
import Xv6.GrepMatch
import Xv6.GrepLines
import Xv6.XvshBuf
import Xv6.XvshTokens
import Xv6.XvshCmd
import Xv6.XvshLoop
import Xv6.ShBuf
import Xv6.ShWords
import Xv6.FileWrite
import Xv6.FileRoom
import Xv6.SharedWrite
import Xv6.Memmove
import Xv6.Printint
import Xv6.Mp
import Xv6.Halt
import Xv6.Strtok
import Xv6.Balloc
import Xv6.IdeStatus
import Xv6.NameRuns
import Xv6.PageRuns
