import Slopix.Kernel.Process
import Slopix.Kernel.Rename
import Slopix.Mm.Frames

/-!
# Runs of the kernel

The start of the machine up to the first process (`pmm_init`, the queue of the disk driver,
`kernel/init.c`), and the calls that processes make from then on, one at a time and in any order. A
signal that ends a process is an `exit`; a store by user code, or by the kernel into a user buffer,
is the action `store`.
-/

namespace Slopix.Kernel

open Lib Mm Fs Ipc

/-! ## The start -/

/-- The two pages of `virtio_queue_init`. -/
def virtioQueueInit (m : PhysMem) : Option Nat × PhysMem :=
  match pmmAlloc m with
  | none => (none, m)
  | some (pa1, m1) =>
    match pmmAlloc m1 with
    | none => (none, pmmFree m1 pa1)
    | some (pa2, m2) =>
      if pa2 = pa1 + pageSize then (some pa1, m2)
      else if pa1 = pa2 + pageSize then (some pa2, m2)
      else (none, pmmFree (pmmFree m2 pa1) pa2)

/-- A process slot, an open file and an inode cache entry before their first use. -/
def emptyProc : Proc :=
  { state := .unused, pid := 0, pgid := 0, parent := none, kstack := 0, pagetable := 0, sz := 0,
    tf := ⟨fun _ => 0, 0, 0, 0⟩, exitStatus := 0, stopSignal := 0, pending := 0, name := [],
    cwd := none, ofile := fun _ => none }

/-- A file without references. -/
def emptyFile : File := { newFile with ref := 0 }

/-- An unused slot of the inode cache. -/
def emptyInode : Inode :=
  { dev := 0, inum := 0, ref := 0, valid := false, locked := false, din := ⟨0, 0, 0, 0, 0, fun _ => 0⟩ }

/-- The file system as it is mounted: nothing cached. -/
def mount (sb : Superblock) (disk : Nat → Fs.Block) : FileSys :=
  { sb := sb, disk := disk, buf := fun _ => none, icache := fun _ => emptyInode }

/-- The kernel before the first process. -/
def powerOn (m : PhysMem) (pipes : Nat → Pipe) (s : FileSys)
    (initramfs : List UInt8 → Option Image) : Kern :=
  { mm := m, pipes := pipes, procs := fun _ => emptyProc, files := fun _ => emptyFile, fs := s,
    nextpid := 1, initramfs := initramfs }

/-- The program of the first process, loaded; the calls of `kpanic` stop. -/
def initLoad (program : List UInt8) (pt : Nat) : KM (Nat × Nat) := do
  let r ← if program.take 10 = initramfsPrefix then do
      let img ← Exec.gets fun k => k.initramfs (program.drop 10)
      match img with
      | none => Exec.stop .fault
      | some img => elfLoad img pt
    else do
      let ip ← onFs (namei none program)
      match ip with
      | none => Exec.stop .fault
      | some ip => do
          onFs (ilock ip)
          let type ← Exec.gets fun k => (k.fs.icache ip).din.type
          if type ≠ tFile then Exec.stop .fault
          else do
            let r ← elfLoadFromInode ip pt
            onFs (iunlockput ip)
            pure r
  match r with
  | none => Exec.stop .fault
  | some r => pure r

/-- The descriptor `fd` of the first process becomes the console. -/
def initConsole (p fd : Nat) : KM Unit := do
  let f ← Exec.step Kern.filealloc
  match f with
  | none => pure ()
  | some f => do
      modifyFile f fun x => { x with
        type := .device, major := 1, readable := decide (fd = 0), writable := decide (fd ≠ 0) }
      Exec.modify fun k => k.setOfile p fd (some f)

/-- `init`: the first process. `program` starts with `/` or `initramfs:`. -/
def init (program : List UInt8) : KM Unit := do
  let pt ← allocPage
  match pt with
  | none => Exec.stop .fault
  | some pt => do
      let r ← initLoad program pt
      let stack ← mapStack pt
      match stack with
      | none => Exec.stop .fault
      | some _ => do
          let p ← Exec.step Kern.procAlloc
          match p with
          | none => Exec.stop .fault
          | some p => do
              modifyProc p fun x => { x with
                pagetable := pt
                sz := r.2
                tf := ⟨fun _ => 0, userStack, r.1, 0⟩
                state := .runnable }
              let root ← onFs (Exec.step fun s => s.iget 0 rootino)
              match root with
              | none => Exec.stop .fault
              | some root => do
                  onFs (ilock root)
                  onFs (iunlock root)
                  modifyProc p fun x => { x with cwd := some root }
                  initConsole p 0
                  initConsole p 1
                  initConsole p 2

/-! ## System calls -/

/-- A system call with its arguments. -/
inductive Call where
  | fork
  | exec (cmdline : Option (List UInt8))
  | exit (status : Int)
  | wait (intr : Bool)
  | waitpid (pid : Int) (options : Nat) (intr : Bool)
  | sbrk (n : Int)
  | mmap (addr len prot flags : Nat)
  | munmap (addr len : Nat)
  | openCall (path : Option (List UInt8)) (flags : OpenFlags)
  | close (fd : Nat)
  | dup (fd : Nat)
  | pipe (ok : Bool)
  | read (fd n : Nat) (ok : Bool) (dev : Int)
  | write (fd : Nat) (src : List UInt8) (ok : Bool) (dev : Int)
  | lseek (fd : Nat) (offset : Int) (whence : Nat)
  | fstat (fd : Nat) (ok : Bool)
  | ftruncate (fd : Nat) (length : Int)
  | getdents (fd count : Nat) (ok : Bool)
  | mkdir (path : Option (List UInt8))
  | mknod (path : Option (List UInt8)) (major minor : Nat)
  | link (old new : Option (List UInt8))
  | unlink (path : Option (List UInt8))
  | rename (old new : Option (List UInt8))
  | chdir (path : Option (List UInt8))
  | stat (path : Option (List UInt8)) (ok : Bool)
  | getcwd (size : Nat) (ok : Bool)

/-- `syscall` for process `p`: the value the call returns. -/
def syscall (p : Nat) : Call → KM Int
  | .fork => sysFork p
  | .exec cmdline => sysExec p cmdline
  | .exit status => do
      procCleanup p status
      pure 0
  | .wait intr => sysWait p intr
  | .waitpid pid options intr => sysWaitpid p pid options intr
  | .sbrk n => sysSbrk p n
  | .mmap addr len prot flags => sysMmap p addr len prot flags
  | .munmap addr len => sysMunmap p addr len
  | .openCall path flags => sysOpen p path flags
  | .close fd => sysClose p fd
  | .dup fd => sysDup p fd
  | .pipe ok => sysPipe p ok
  | .read fd n ok dev => do
      let r ← sysRead p fd n ok dev
      pure r.1
  | .write fd src ok dev => sysWrite p fd src ok dev
  | .lseek fd offset whence => sysLseek p fd offset whence
  | .fstat fd ok => sysFstat p fd ok
  | .ftruncate fd length => sysFtruncate p fd length
  | .getdents fd count ok => sysGetdents p fd count ok
  | .mkdir path => sysMkdir p path
  | .mknod path major minor => sysMknod p path major minor
  | .link old new => sysLink p old new
  | .unlink path => sysUnlink p path
  | .rename old new => sysRename p old new
  | .chdir path => sysChdir p path
  | .stat path ok => sysStat p path ok
  | .getcwd size ok => sysGetcwd p size ok

/-- A process that can make a call. -/
def Kern.alive (k : Kern) (p : Nat) : Prop :=
  p < nproc ∧ (k.procs p).state ≠ .unused ∧ (k.procs p).state ≠ .embryo ∧
    (k.procs p).state ≠ .zombie

instance (k : Kern) (p : Nat) : Decidable (k.alive p) :=
  inferInstanceAs (Decidable (p < nproc ∧ (k.procs p).state ≠ .unused ∧
    (k.procs p).state ≠ .embryo ∧ (k.procs p).state ≠ .zombie))

/-! ## Runs -/

/-- The states of a process that is neither new nor dead. -/
def ProcState.isLive (s : ProcState) : Bool := s != .unused && s != .embryo && s != .zombie

/-- The return value of a call is stored in `x0`. -/
def Kern.setReturn (k : Kern) (p : Nat) (r : Int) : Kern :=
  k.setProc p { k.procs p with
    tf := { (k.procs p).tf with
      regs := Function.update (k.procs p).tf.regs 0 (r % ulongMod).toNat } }

/-- What happens in a run: a system call, a change of user registers, a store to a user page, a
buffer of the disk cache that is recycled, a pass of the scheduler over a dead process, a change of
the scheduling state, of the process group or of the signals of a process. -/
inductive Action where
  | call (p : Nat) (c : Call)
  | user (p : Nat) (tf : TrapFrame)
  | store (p pa : Nat) (b : Bytes)
  | recycle (b : Nat)
  | reap (p : Nat)
  | sched (p : Nat) (state : ProcState)
  | signal (p pgid pending stopSignal : Nat)

/-- One action. A call that stops with an error has not happened. -/
inductive Step (k : Kern) : Action → Kern → Prop where
  | call {p : Nat} {c : Call} {r : Int} {k' : Kern} (halive : k.alive p)
      (hret : syscall p c k = .ok (r, k')) : Step k (.call p c) (k'.setReturn p r)
  | user {p : Nat} (halive : k.alive p) (tf : TrapFrame) :
      Step k (.user p tf) (k.setProc p { k.procs p with tf := tf })
  | store {p pa : Nat} (halive : k.alive p) (hpage : pa ∈ pages k.mm 4 (k.procs p).pagetable)
      (b : Bytes) : Step k (.store p pa b) (k.withMm (k.mm.setPage pa b))
  | recycle (b : Nat) : Step k (.recycle b) (k.withFs (k.fs.recycle b))
  | reap {p : Nat} {k' : Kern} (hp : p < nproc) (hret : schedReap p k = .ok ((), k')) :
      Step k (.reap p) k'
  | sched {p : Nat} (halive : k.alive p) {state : ProcState} (hlive : state.isLive = true) :
      Step k (.sched p state) (k.setProc p { k.procs p with state := state })
  | signal {p : Nat} (halive : k.alive p) (pgid pending stopSignal : Nat) :
      Step k (.signal p pgid pending stopSignal) (k.setProc p { k.procs p with
        pgid := pgid, pending := pending, stopSignal := stopSignal })

/-- The states of the runs from `k0` whose actions all satisfy `ok`. -/
inductive Reach (ok : Kern → Action → Prop) (k0 : Kern) : Kern → Prop where
  | start : Reach ok k0 k0
  | step {k k' : Kern} {a : Action} (h : Reach ok k0 k) (hok : ok k a) (hs : Step k a k') :
      Reach ok k0 k'

/-- What holds at the start and is kept by every action holds in every state of a run. -/
theorem Reach.invariant {ok : Kern → Action → Prop} {k0 k : Kern} {I : Kern → Prop} (h0 : I k0)
    (hstep : ∀ k a k', I k → ok k a → Step k a k' → I k') (h : Reach ok k0 k) : I k := by
  induction h with
  | start => exact h0
  | step _ hok hs ih => exact hstep _ _ _ ih hok hs

/-- What the machine starts with: the contents of RAM, the end of the kernel and the reserved region,
the disk with its superblock, the initial RAM file system and the first program. -/
structure Machine where
  page : Nat → Bytes
  start : Nat
  reservedStart : Nat
  reservedEnd : Nat
  pipes : Nat → Pipe
  sb : Superblock
  disk : Nat → Fs.Block
  initramfs : List UInt8 → Option Image
  program : List UInt8

namespace Machine

/-- The memory as `pmm_init` leaves it. -/
def memory (b : Machine) : PhysMem := pmmInit b.page b.start b.reservedStart b.reservedEnd

/-- The start of the kernel, up to the first process. -/
def boot (b : Machine) : Except Stop (Unit × Kern) :=
  init b.program (powerOn (virtioQueueInit b.memory).2 b.pipes (mount b.sb b.disk) b.initramfs)

/-- The states of the runs after the start. -/
def Reachable (b : Machine) (ok : Kern → Action → Prop) (k : Kern) : Prop :=
  ∃ k0, b.boot = .ok ((), k0) ∧ Reach ok k0 k

/-- The frames `pmm` manages. -/
def managed (b : Machine) : Multiset Nat := b.memory.free

/-- The two frames of the disk's queue. -/
def kernelFrames (b : Machine) : Multiset Nat :=
  match (virtioQueueInit b.memory).1 with
  | none => 0
  | some base => runFrames base 2

end Machine

end Slopix.Kernel
