import Slopix.Fs.Dir
import Slopix.Ipc.Pipe
import Slopix.Mm.Vmm

/-!
# The kernel state

The tables of `proc.c` and `file.c` over physical memory and the file system. Pointers into a table
are indices, null pointers are `none`; a pipe is named by the frame it lives in.

`KM` are the programs of the kernel. System calls run one after the other: a call that has to wait
for another process stops with `sleep` and has not happened.
-/

namespace Slopix.Kernel

open Lib Mm Fs Ipc

/-- `NPROC`. -/
def nproc : Nat := 64

/-- `NOFILE`. -/
def nofile : Nat := 16

/-- `NFILE`. -/
def nfile : Nat := 100

/-- `KSTACK_PAGES`. -/
def kstackPages : Nat := 4

/-- The modulus of an `unsigned long`. -/
def ulongMod : Nat := 2 ^ 64

/-- The type of an open file: `FD_NONE` and so on. -/
inductive FdType where
  | none
  | pipe
  | inode
  | device
  | bdevice
deriving DecidableEq, Repr

/-- `struct file`. -/
structure File where
  type : FdType
  ref : Int
  readable : Bool
  writable : Bool
  append : Bool
  ip : Option Nat
  off : Nat
  major : Nat
  pipe : Option Nat

/-- `enum proc_state`. -/
inductive ProcState where
  | unused
  | embryo
  | runnable
  | running
  | sleeping
  | stopped
  | zombie
deriving DecidableEq, Repr

/-- `struct trap_frame`: `x0 .. x30` and the system registers. -/
structure TrapFrame where
  regs : Nat → Nat
  spEl0 : Nat
  elr : Nat
  spsr : Nat

/-- `struct proc`. `kstack` and `pagetable` are physical addresses, 0 when null. -/
structure Proc where
  state : ProcState
  pid : Nat
  pgid : Nat
  parent : Option Nat
  kstack : Nat
  pagetable : Nat
  sz : Nat
  tf : TrapFrame
  exitStatus : Int
  stopSignal : Nat
  pending : Nat
  name : List UInt8
  cwd : Option Nat
  ofile : Nat → Option Nat

/-- An image of the initial RAM file system: its bytes and its size. -/
structure Image where
  data : Bytes
  size : Nat

/-- The kernel. `pipes` holds the pipe in each frame that is used as one. -/
structure Kern where
  mm : PhysMem
  pipes : Nat → Pipe
  procs : Nat → Proc
  files : Nat → File
  fs : FileSys
  nextpid : Nat
  initramfs : List UInt8 → Option Image

/-- Programs of the kernel. -/
abbrev KM := Exec Stop Kern

namespace Kern

/-- Change one process. -/
def setProc (k : Kern) (p : Nat) (x : Proc) : Kern :=
  { k with procs := Function.update k.procs p x }

@[simp] theorem setProc_procs_self (k : Kern) (p : Nat) (x : Proc) : (k.setProc p x).procs p = x :=
  Function.update_self ..

theorem setProc_procs_of_ne (k : Kern) {p q : Nat} (x : Proc) (h : q ≠ p) :
    (k.setProc p x).procs q = k.procs q :=
  Function.update_of_ne h ..

/-- Replace one open file. -/
def setFile (k : Kern) (f : Nat) (x : File) : Kern :=
  { k with files := Function.update k.files f x }

/-- Replace the descriptor `fd` of process `p`. -/
def setOfile (k : Kern) (p fd : Nat) (f : Option Nat) : Kern :=
  k.setProc p { k.procs p with ofile := Function.update (k.procs p).ofile fd f }

/-- Change the memory. -/
def withMm (k : Kern) (m : PhysMem) : Kern := { k with mm := m }

/-- Change the file system. -/
def withFs (k : Kern) (s : FileSys) : Kern := { k with fs := s }

end Kern

/-- A file system program in the kernel. -/
def onFs {α : Type} (m : FsM α) : KM α := Exec.zoom Kern.fs Kern.withFs m

/-- A step on memory. -/
def onMm {α : Type} (f : PhysMem → α × PhysMem) : KM α :=
  Exec.step fun k => ((f k.mm).1, k.withMm (f k.mm).2)

/-- A change of memory. -/
def modifyMm (f : PhysMem → PhysMem) : KM Unit := Exec.modify fun k => k.withMm (f k.mm)

/-- Change the fields of process `p`. -/
def modifyProc (p : Nat) (f : Proc → Proc) : KM Unit :=
  Exec.modify fun k => k.setProc p (f (k.procs p))

/-- Change the fields of open file `f`. -/
def modifyFile (f : Nat) (g : File → File) : KM Unit :=
  Exec.modify fun k => k.setFile f (g (k.files f))

/-- Read a field of process `p`. -/
def getProc (p : Nat) : KM Proc := Exec.gets fun k => k.procs p

/-! ## Error numbers -/

/-- The error numbers of `errno.h` that the modelled calls return. -/
inductive Errno where
  | eperm | enoent | esrch | eintr | eio | ebadf | enomem | eacces | efault | eexist | enotdir
  | einval | enospc | enotempty
deriving DecidableEq, Repr

/-- The value of an error number. -/
def Errno.val : Errno → Int
  | .eperm => 1
  | .enoent => 2
  | .esrch => 3
  | .eintr => 4
  | .eio => 5
  | .ebadf => 9
  | .enomem => 12
  | .eacces => 13
  | .efault => 14
  | .eexist => 17
  | .enotdir => 20
  | .einval => 22
  | .enospc => 28
  | .enotempty => 39

/-- The return value of a failed call. -/
def fail (e : Errno) : KM Int := pure (-e.val)

end Slopix.Kernel
