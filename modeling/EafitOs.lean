import EafitOs.Directory.Calls
import EafitOs.Directory.Create
import EafitOs.Directory.Failing
import EafitOs.Directory.Inodes
import EafitOs.Directory.LinkLaw
import EafitOs.Directory.Lookup
import EafitOs.Directory.Names
import EafitOs.Directory.OpenFiles
import EafitOs.Directory.PathElements
import EafitOs.Directory.References
import EafitOs.Directory.Tree
import EafitOs.Directory.Unlink
import EafitOs.Disk.Buffer
import EafitOs.Disk.BufferCache
import EafitOs.Disk.Virtio
import EafitOs.Disk.VirtioProtocol
import EafitOs.FileSystem.BlockLayout
import EafitOs.FileSystem.BlockOwnership
import EafitOs.FileSystem.BlockRuns
import EafitOs.FileSystem.Blocks
import EafitOs.FileSystem.ChunkedWrite
import EafitOs.FileSystem.Contents
import EafitOs.FileSystem.FailedWrite
import EafitOs.FileSystem.InodeOps
import EafitOs.FileSystem.Mkfs
import EafitOs.FileSystem.MkfsBoot
import EafitOs.FileSystem.MkfsImage
import EafitOs.FileSystem.MkfsRead
import EafitOs.FileSystem.MkfsResult
import EafitOs.FileSystem.NoHoles
import EafitOs.FileSystem.Reading
import EafitOs.FileSystem.Reclaim
import EafitOs.FileSystem.Transaction
import EafitOs.FileSystem.Writing
import EafitOs.Files.Accounting
import EafitOs.Files.Balanced
import EafitOs.Files.Books
import EafitOs.Files.Calls
import EafitOs.Files.Inodes
import EafitOs.Files.Lifetimes
import EafitOs.Foundation.Alike
import EafitOs.Foundation.ByteLayout
import EafitOs.Foundation.Holdings
import EafitOs.Foundation.LinkedRing
import EafitOs.Foundation.Ownership
import EafitOs.Foundation.Panics
import EafitOs.Foundation.RadixTree
import EafitOs.Foundation.Resources
import EafitOs.Foundation.RingBuffer
import EafitOs.Foundation.Runs
import EafitOs.Foundation.Spans
import EafitOs.Foundation.Tally
import EafitOs.Foundation.WriteTrace
import EafitOs.Library.Memmove
import EafitOs.Library.Printint
import EafitOs.Memory.Accesses
import EafitOs.Memory.Accounts
import EafitOs.Memory.CallEffects
import EafitOs.Memory.Confined
import EafitOs.Memory.Containment
import EafitOs.Memory.CopyBytes
import EafitOs.Memory.Entries
import EafitOs.Memory.Exec
import EafitOs.Memory.ExecCall
import EafitOs.Memory.ExecCommit
import EafitOs.Memory.ExecImage
import EafitOs.Memory.ExecOutcome
import EafitOs.Memory.ExecRegions
import EafitOs.Memory.ExecStack
import EafitOs.Memory.FaultCases
import EafitOs.Memory.FileBytes
import EafitOs.Memory.Files
import EafitOs.Memory.ForkCopy
import EafitOs.Memory.Frames
import EafitOs.Memory.Growing
import EafitOs.Memory.Invariant
import EafitOs.Memory.Kernel
import EafitOs.Memory.KernelView
import EafitOs.Memory.Layout
import EafitOs.Memory.MapzeroFill
import EafitOs.Memory.MemorySyscalls
import EafitOs.Memory.PageContents
import EafitOs.Memory.PageTable
import EafitOs.Memory.Placement
import EafitOs.Memory.Process
import EafitOs.Memory.Regions
import EafitOs.Memory.Release
import EafitOs.Memory.Sv39
import EafitOs.Memory.Sv39Map
import EafitOs.Memory.TableLifetime
import EafitOs.Memory.Teardown
import EafitOs.Memory.Trap
import EafitOs.Memory.Twins
import EafitOs.Memory.Unmapping
import EafitOs.Memory.UserCopy
import EafitOs.Memory.WriteBack
import EafitOs.Process.Control
import EafitOs.Process.Family
import EafitOs.Process.History
import EafitOs.Process.Kill
import EafitOs.Process.Model
import EafitOs.Process.Pids
import EafitOs.Process.ProcessTree
import EafitOs.Process.Wakeup
import EafitOs.RedoLog.Admission
import EafitOs.RedoLog.Commit
import EafitOs.RedoLog.Concurrent
import EafitOs.RedoLog.Control
import EafitOs.RedoLog.CrashAtomic
import EafitOs.RedoLog.GroupCommit
import EafitOs.RedoLog.Isolation
import EafitOs.RedoLog.Model
import EafitOs.Sync.Console
import EafitOs.Sync.ConsoleRead
import EafitOs.Sync.Pipe
import EafitOs.Sync.SleepLock
import EafitOs.Sync.SpinLock
import EafitOs.Sync.Uart
import EafitOs.User.CString
import EafitOs.User.Eafitos
import EafitOs.User.EafitosArgs
import EafitOs.User.EafitosCalc
import EafitOs.User.EafitosLoop
import EafitOs.User.GrepLines
import EafitOs.User.GrepMatch
