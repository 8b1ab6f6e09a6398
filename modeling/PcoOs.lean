import PcoOs.Lib.Memory
import PcoOs.Pmm.Pool
import PcoOs.Pmm.Init
import PcoOs.Pmm.Runs
import PcoOs.Pmm.Select
import PcoOs.Pmm.Usage
import PcoOs.Pmm.Order
import PcoOs.Support.Region
import PcoOs.Support.EarlyHeap
import PcoOs.Vmm.Model
import PcoOs.Vmm.Ops
import PcoOs.Vmm.Build
import PcoOs.Vmm.Mmu
import PcoOs.Vmm.Refine
import PcoOs.Vmm.Usage
import PcoOs.Vmm.Teardown
import PcoOs.Elf.Model
import PcoOs.Image.Model
import PcoOs.Image.Map
import PcoOs.Image.Window
import PcoOs.Image.Usage
import PcoOs.Kernel.Cpu
import PcoOs.Lib.Ring
import PcoOs.Sched.Model
import PcoOs.Vfs.Model
import PcoOs.Kernel.Model
import PcoOs.Syscall.Model
import PcoOs.Kernel.Run
import PcoOs.Sched.Queue
import PcoOs.Sched.Table
import PcoOs.Sched.Slots
import PcoOs.Syscall.Spec
import PcoOs.Kernel.Effect
import PcoOs.Kernel.Blocks
import PcoOs.Kernel.Ready
import PcoOs.Kernel.Boot
import PcoOs.Kernel.Reap
import PcoOs.Kernel.Context
import PcoOs.Kernel.Memory
import PcoOs.Kernel.Lifecycle
import PcoOs.Kernel.Isolation
import PcoOs.Kernel.Buffers
import PcoOs.Elf.Headers
import PcoOs.Elf.Validate
import PcoOs.Image.Extent
import PcoOs.Vfs.Initramfs
import PcoOs.Vfs.Paths
import PcoOs.Vfs.RoundTrip
import PcoOs.Vfs.Ops
import PcoOs.Vfs.Runs
import PcoOs.Lib.Program
import PcoOs.Vfs.RawInit
import PcoOs.Vfs.RawPath
import PcoOs.Vfs.RawCalls
import PcoOs.Vfs.Namespace
import PcoOs.Vfs.Files
import PcoOs.Vfs.Listing
import PcoOs.Vfs.Navigation
import PcoOs.Lib.Handles
import PcoOs.Lib.Simulation
import PcoOs.Vfs.Abstract
import PcoOs.Vfs.View
import PcoOs.Vfs.Refines
import PcoOs.Vfs.Descriptors
import PcoOs.Kernel.Descriptors
import PcoOs.Kernel.Opens
import PcoOs.Kernel.Dispatch
import PcoOs.Syscall.Exec
import PcoOs.Kernel.ExecVector
import PcoOs.Kernel.Exec
import PcoOs.Kernel.RoundRobin
import PcoOs.Kernel.Spawn
import PcoOs.Kernel.Recycle
import PcoOs.Kernel.Records
import PcoOs.Image.Stack
import PcoOs.Image.Faithful
import PcoOs.Image.Fresh
import PcoOs.Kernel.Integrity
import PcoOs.Kernel.Identity
import PcoOs.Kernel.Programs
import PcoOs.Syscall.TaskFiles
import PcoOs.Kernel.Os
import PcoOs.Kernel.OsCalls
import PcoOs.Lib.Trace
import PcoOs.Kernel.OsRefines
import PcoOs.Kernel.Processes
import PcoOs.Vfs.RawSafe
import PcoOs.Vfs.RawInitRefines
import PcoOs.Vfs.RawPathSafe
import PcoOs.Vfs.RawPathRefines
import PcoOs.Uefi.Loader
import PcoOs.Uefi.Headers
import PcoOs.Uefi.Bounds
import PcoOs.Shell.Model
import PcoOs.Shell.Paths
