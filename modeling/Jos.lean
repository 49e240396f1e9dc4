import Jos.Core.Bc
import Jos.Core.E1000
import Jos.Core.Env
import Jos.Core.Fd
import Jos.Core.Fork
import Jos.Core.Fs
import Jos.Core.Fsformat
import Jos.Core.Httpd
import Jos.Core.Malloc
import Jos.Core.Mmu
import Jos.Core.Ns
import Jos.Core.NsInput
import Jos.Core.Pipe
import Jos.Core.Pmap
import Jos.Core.Printfmt
import Jos.Core.Serv
import Jos.Core.Spawn
import Jos.Core.String
import Jos.Core.SysArch
import Jos.Core.Syscall
import Jos.Core.Upcall
import Jos.Core.UserMem
import Jos.Lib.Alias
import Jos.Lib.Bytes
import Jos.Lib.Chain
import Jos.Lib.Flow
import Jos.Lib.Loop
import Jos.Lib.Outcome
import Jos.Lib.Radix
import Jos.Lib.Refs
import Jos.Lib.Ring
import Jos.Theory.AddrSpace
import Jos.Theory.Atomic
import Jos.Theory.Authority
import Jos.Theory.Bc
import Jos.Theory.Bitmap
import Jos.Theory.Calls
import Jos.Theory.Cow
import Jos.Theory.Directory
import Jos.Theory.Durable
import Jos.Theory.EnvFree
import Jos.Theory.EnvIds
import Jos.Theory.EnvTable
import Jos.Theory.Exclusive
import Jos.Theory.FailedWrite
import Jos.Theory.FileIds
import Jos.Theory.FileIo
import Jos.Theory.Files
import Jos.Theory.Footprint
import Jos.Theory.Fork
import Jos.Theory.Format
import Jos.Theory.Frame
import Jos.Theory.FrameCalls
import Jos.Theory.HeapLeak
import Jos.Theory.HeapPrivacy
import Jos.Theory.HeapSearch
import Jos.Theory.Httpd
import Jos.Theory.Image
import Jos.Theory.Insert
import Jos.Theory.Ipc
import Jos.Theory.Isolation
import Jos.Theory.Lending
import Jos.Theory.Mailbox
import Jos.Theory.Malloc
import Jos.Theory.Marshal
import Jos.Theory.MboxPool
import Jos.Theory.Memory
import Jos.Theory.Nesting
import Jos.Theory.NsBuffers
import Jos.Theory.NsInput
import Jos.Theory.NsRequests
import Jos.Theory.Offsets
import Jos.Theory.OpenFiles
import Jos.Theory.PageInit
import Jos.Theory.PageOps
import Jos.Theory.Pages
import Jos.Theory.Paths
import Jos.Theory.Pipe
import Jos.Theory.PipeEnds
import Jos.Theory.Pointers
import Jos.Theory.Printfmt
import Jos.Theory.Privilege
import Jos.Theory.ReadBack
import Jos.Theory.Return
import Jos.Theory.RoundRobin
import Jos.Theory.Sched
import Jos.Theory.Setup
import Jos.Theory.Smp
import Jos.Theory.Spawn
import Jos.Theory.Spinlock
import Jos.Theory.Stale
import Jos.Theory.String
import Jos.Theory.Supply
import Jos.Theory.Time
import Jos.Theory.Transmit
import Jos.Theory.Truncate
import Jos.Theory.Unmapped
import Jos.Theory.Upcall
import Jos.Theory.UserCheck
import Jos.Theory.UserMem
import Jos.Theory.UserView
import Jos.Theory.Walk
import Jos.Theory.Window
