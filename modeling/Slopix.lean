import Slopix.Ar.RoundTrip
import Slopix.As.Immediate
import Slopix.As.Macro
import Slopix.As.Mov
import Slopix.As.RoundTrip
import Slopix.Bio.Coherence
import Slopix.Bio.Interleaving
import Slopix.Bio.Virtio
import Slopix.Boot.Reader
import Slopix.Cc.Mismatch
import Slopix.Cc.Switch
import Slopix.Cmd.Sed
import Slopix.Fs.ByteArray
import Slopix.Ipc.PipeInterleaving
import Slopix.Kernel.Console
import Slopix.Kernel.Deadlock
import Slopix.Kernel.Dtb
import Slopix.Kernel.ForkCopy
import Slopix.Kernel.Getcwd
import Slopix.Kernel.Kprintf
import Slopix.Kernel.LoadBounds
import Slopix.Kernel.Mask
import Slopix.Kernel.Mmap
import Slopix.Kernel.PathCopy
import Slopix.Kernel.Scheduler
import Slopix.Kernel.SleepLock
import Slopix.Kernel.UserAccess
import Slopix.Ld.Definitions
import Slopix.Ld.Instruction
import Slopix.Ld.KernelLayout
import Slopix.Ld.Pieces
import Slopix.Ld.Program
import Slopix.Libc.AllocSizes
import Slopix.Libc.Environ
import Slopix.Libc.Execvp
import Slopix.Libc.Input
import Slopix.Libc.Qsort
import Slopix.Libc.Readdir
import Slopix.Libc.Strtoul
import Slopix.Libc.Time
import Slopix.Libc.Vsnprintf
import Slopix.Libc.Wait
import Slopix.Mkramfs.Initramfs
import Slopix.Mm.Allocator
import Slopix.Shell.Parse
import Slopix.Shell.Readline
