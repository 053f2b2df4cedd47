import Slopix.Kernel.Files
import Slopix.Kernel.WaitStatus

/-!
# Processes and their memory

`proc_alloc` and `proc_cleanup` of `kernel/proc.c`, the calls of `kernel/syscall.c` that create,
replace, end and reap a process or change its memory (`fork`, `exec`, `exit`, `wait`, `waitpid`,
`sbrk`, `mmap`, `munmap`), the loader of `kernel/elf.c` and the start of the first process
(`kernel/init.c`). `p` is the index of the calling process.

An address argument of a call is replaced by what the kernel reads there; `none` stands for an
address that `vmm_copyinstr` rejects.
-/

namespace Slopix.Kernel

open Lib Mm Fs Ipc

/-- `USER_STACK`. -/
def userStack : Nat := 0x0001000000000000

/-- `(x + PAGE_SIZE - 1) & ~(PAGE_SIZE - 1)` in 64 bits. -/
def pageAlign (x : Nat) : Nat := (x + 4095) % ulongMod / 4096 * 4096

/-! ## Allocation and mapping -/

/-- A new page at `va`: allocated, set up by `init`, mapped; given back when one of these fails. The
loops of `sbrk`, `mmap`, `exec` and the loader all have this body. -/
def mapNew (pagetable va : Nat) (init : Nat → KM Bool) (write exec : Bool) : KM (Option Nat) := do
  let pa ← allocPage
  match pa with
  | none => pure none
  | some pa => do
      if ← init pa then do
        if ← onMm fun m => vmmMapPage m pagetable va pa write exec then pure (some pa)
        else do
          modifyMm fun m => pmmFree m pa
          pure none
      else do
        modifyMm fun m => pmmFree m pa
        pure none

/-- Map `n` new pages from `va` on. -/
def mapPages (pagetable : Nat) (init : Nat → Nat → KM Bool) (write exec : Bool) :
    Nat → Nat → KM Bool
  | 0, _ => pure true
  | n + 1, va => do
      let r ← mapNew pagetable va (init va) write exec
      match r with
      | none => pure false
      | some _ => mapPages pagetable init write exec n (va + 4096)

/-- Unmap `n` pages from `va` on and free those that were mapped. -/
def unmapPages (pagetable : Nat) : Nat → Nat → KM Unit
  | 0, _ => pure ()
  | n + 1, va => do
      let pa ← onMm fun m => vmmUnmapPage m pagetable va
      match pa with
      | none => pure ()
      | some pa => modifyMm fun m => pmmFree m pa
      unmapPages pagetable n (va + 4096)

/-- `sys_sbrk`; `n` is a `long`. -/
def sysSbrk (p : Nat) (n : Int) : KM Int := do
  let proc ← getProc p
  let oldSz := proc.sz
  let newSz := ((oldSz + n) % ulongMod).toNat
  if n < 0 ∧ oldSz < newSz then fail .einval
  else if 0 < n then do
    let oldEnd := pageAlign oldSz
    let newEnd := pageAlign newSz
    if ← mapPages proc.pagetable (fun _ _ => pure true) true false ((newEnd - oldEnd) / 4096) oldEnd
    then do
      modifyProc p fun x => { x with sz := newSz }
      pure oldSz
    else fail .enomem
  else do
    modifyProc p fun x => { x with sz := newSz }
    pure oldSz

/-- The mapping loop of `sys_mmap` with `n` pages left; `done` pages are mapped below `va`. On a
failure they are unmapped again. -/
def mmapLoop (pagetable : Nat) (write : Bool) : Nat → Nat → Nat → KM Bool
  | 0, _, _ => pure true
  | n + 1, done, va => do
      let zero := fun pa => do
        modifyMm fun m => m.zeroPage pa
        pure true
      let r ← mapNew pagetable va zero write false
      match r with
      | none => do
          unmapPages pagetable done (va - done * 4096)
          pure false
      | some _ => mmapLoop pagetable write n (done + 1) (va + 4096)

/-- `sys_mmap`: `MAP_ANONYMOUS` is `0x20`, `MAP_PRIVATE` `0x02`, `MAP_FIXED` `0x10`, `PROT_WRITE`
`0x2`. -/
def sysMmap (p addr len prot flags : Nat) : KM Int := do
  let proc ← getProc p
  if len = 0 then fail .einval
  else if flags &&& 0x20 = 0 ∨ flags &&& 0x02 = 0 then fail .einval
  else if flags &&& 0x10 ≠ 0 ∧ addr % 4096 ≠ 0 then fail .einval
  else do
    let len := pageAlign len
    let va := if flags &&& 0x10 ≠ 0 then addr else pageAlign proc.sz
    if userStack - 4096 < (va + len) % ulongMod ∨ (va + len) % ulongMod < va then fail .enomem
    else do
      if ← mmapLoop proc.pagetable (prot &&& 0x2 != 0) (len / 4096) 0 va then do
        if proc.sz < va + len then modifyProc p fun x => { x with sz := va + len }
        else pure ()
        pure va
      else fail .enomem

/-- `sys_munmap`. -/
def sysMunmap (p addr len : Nat) : KM Int := do
  let proc ← getProc p
  if addr % 4096 ≠ 0 then fail .einval
  else if len = 0 then fail .einval
  else do
    let fin := (addr + pageAlign len) % ulongMod
    unmapPages proc.pagetable ((fin - addr) / 4096) addr
    pure 0

/-! ## Creating and ending processes -/

/-- The fields `proc_alloc` sets once the kernel stack is there. -/
def Proc.reset (x : Proc) (kstack : Nat) : Proc :=
  { x with
    kstack := kstack, parent := none, pagetable := 0, sz := 0, pending := 0, name := [], cwd := none,
    ofile := fun _ => none }

/-- `proc_alloc`: the first unused slot, with a page table and a kernel stack. -/
def Kern.procAlloc (k : Kern) : Option Nat × Kern :=
  match (List.range nproc).find? fun p => (k.procs p).state == .unused with
  | none => (none, k)
  | some p =>
    let x := { k.procs p with pid := k.nextpid, pgid := k.nextpid }
    let k' : Kern := { k with nextpid := k.nextpid + 1 }
    match pmmAllocContiguous k.mm kstackPages with
    | none => (none, k'.setProc p { x with state := .unused })
    | some (pa, m) => (some p, (k'.withMm m).setProc p ({ x with state := .embryo }.reset pa))

/-- The copy of a descriptor in `sys_fork`. -/
def forkFd (p c fd : Nat) : KM Unit := do
  let proc ← getProc p
  match proc.ofile fd with
  | none => pure ()
  | some f => do
      let r ← Exec.step fun k => k.filedup f
      Exec.modify fun k => k.setOfile c fd r

/-- The registers of the child: those of the parent with `x0 = 0`. -/
def TrapFrame.child (tf : TrapFrame) : TrapFrame :=
  { tf with regs := Function.update tf.regs 0 0 }

/-- `child->cwd = fs_idup(current->cwd)`. -/
def Kern.forkCwd (k : Kern) (c : Nat) (cwd : Option Nat) : Kern :=
  match cwd with
  | none => k
  | some i => (k.withFs (k.fs.idup i)).setProc c { k.procs c with cwd := some i }

/-- `sys_fork`: the child gets copies of the memory, the directory and the open files. -/
def sysFork (p : Nat) : KM Int := do
  let proc ← getProc p
  let pt ← onMm fun m => vmmCopy m proc.pagetable
  match pt with
  | none => fail .enomem
  | some pt => do
      let c ← Exec.step Kern.procAlloc
      match c with
      | none => do
          modifyMm fun m => vmmFree m pt
          fail .enomem
      | some c => do
          modifyProc c fun x => { x with
            pagetable := pt, parent := some p, pgid := proc.pgid, tf := proc.tf.child }
          Exec.modify fun k => k.forkCwd c proc.cwd
          Exec.each (forkFd p c) (List.range nofile)
          modifyProc c fun x => { x with state := .runnable }
          let child ← getProc c
          pure child.pid

/-- `if (p->pagetable) { vmm_free(p->pagetable); p->pagetable = 0; }`. -/
def freeSpace (c : Nat) : KM Unit := do
  let x ← getProc c
  if x.pagetable ≠ 0 then do
    modifyMm fun m => vmmFree m x.pagetable
    modifyProc c fun x => { x with pagetable := 0 }
  else pure ()

/-- `if (p->kstack) { pmm_free_contiguous(p->kstack, KSTACK_PAGES); p->kstack = 0; }`. -/
def freeStack (c : Nat) : KM Unit := do
  let x ← getProc c
  if x.kstack ≠ 0 then do
    modifyMm fun m => pmmFreeContiguous m x.kstack kstackPages
    modifyProc c fun x => { x with kstack := 0 }
  else pure ()

/-- `encode_wait_status`: the status of a child, whose memory is freed. -/
def encodeWaitStatus (c : Nat) : KM Int := do
  let x ← getProc c
  freeSpace c
  freeStack c
  modifyProc c fun x => { x with state := .unused }
  pure (packExit (BitVec.ofNat 32 x.pid) (BitVec.ofInt 32 x.exitStatus)).toInt

/-- A process that is not `UNUSED` and whose parent is `p`. -/
def Kern.isChild (k : Kern) (p c : Nat) : Bool :=
  (k.procs c).parent == some p && (k.procs c).state != .unused

/-- The end of `sys_wait` without a zombie: no child, or wait until a signal or a child wakes it. -/
def waitMore (found intr : Bool) : KM Int :=
  if found = false then fail .esrch
  else if intr then fail .eintr
  else Exec.stop .sleep

/-- `sys_wait`; `intr` tells that a signal ends the wait. -/
def sysWait (p : Nat) (intr : Bool) : KM Int := do
  let k ← Exec.gets id
  match (List.range nproc).find? fun c => k.isChild p c && (k.procs c).state == .zombie with
  | some c => encodeWaitStatus c
  | none => waitMore ((List.range nproc).any (k.isChild p)) intr

/-- `sys_waitpid`: `WNOHANG` is bit 0 of `options`, `WUNTRACED` bit 1. The last stopped child found is
reported. -/
def sysWaitpid (p : Nat) (pid : Int) (options : Nat) (intr : Bool) : KM Int := do
  let k ← Exec.gets id
  let mine := fun c => k.isChild p c && (decide (pid ≤ 0) || decide ((k.procs c).pid = pid))
  match (List.range nproc).find? fun c => mine c && (k.procs c).state == .zombie with
  | some c => encodeWaitStatus c
  | none =>
    match ((List.range nproc).filter fun c =>
      mine c && options.testBit 1 && (k.procs c).state == .stopped).getLast? with
    | some c =>
      let sig := if (k.procs c).stopSignal ≠ 0 then (k.procs c).stopSignal else 20
      pure (packStop (BitVec.ofNat 32 (k.procs c).pid) (BitVec.ofNat 32 sig)).toInt
    | none =>
      if (List.range nproc).any mine = true ∧ options.testBit 0 = true then pure 0
      else waitMore ((List.range nproc).any mine) intr

/-- The part of `proc_cleanup` that closes one descriptor. -/
def closeFd (p fd : Nat) : KM Unit := do
  let proc ← getProc p
  match proc.ofile fd with
  | none => pure ()
  | some f => do
      fileclose f
      Exec.modify fun k => k.setOfile p fd none

/-- The part of `proc_cleanup` that drops the working directory. -/
def dropCwd (p : Nat) : KM Unit := do
  let proc ← getProc p
  match proc.cwd with
  | none => pure ()
  | some i => do
      onFs (iput i)
      modifyProc p fun x => { x with cwd := none }

/-- `proc_cleanup`: exit by `sys_exit` or by a signal. -/
def procCleanup (p : Nat) (status : Int) : KM Unit := do
  Exec.each (closeFd p) (List.range nofile)
  dropCwd p
  modifyProc p fun x => { x with
    exitStatus := status, state := if x.parent.isSome then .zombie else .unused }

/-- The loop of `proc_scheduler` that frees the memory of a process without a parent. -/
def schedReap (p : Nat) : KM Unit := do
  let x ← getProc p
  if x.state = .unused ∧ x.kstack ≠ 0 then do
    freeSpace p
    freeStack p
  else pure ()

/-! ## The loader -/

/-- A list of bytes as memory. -/
def ofList (bs : List UInt8) : Bytes := fun k => bs.getD k 0

/-- The fields of `Elf64_Phdr` the loader uses. -/
structure Phdr where
  type : Nat
  flags : Nat
  offset : Nat
  vaddr : Nat
  filesz : Nat
  memsz : Nat

/-- The program header at byte `o`. -/
def getPhdr (b : Bytes) (o : Nat) : Phdr where
  type := getLe 4 b o
  flags := getLe 4 b (o + 4)
  offset := getLe 8 b (o + 8)
  vaddr := getLe 8 b (o + 16)
  filesz := getLe 8 b (o + 32)
  memsz := getLe 8 b (o + 40)

/-- `elf_validate`: magic number, `EM_AARCH64`, `ET_EXEC`. -/
def elfValidate (ehdr : Bytes) : Bool :=
  getLe 4 ehdr 0 == 0x464C457F && getLe 2 ehdr 18 == 183 && getLe 2 ehdr 16 == 2

/-- The part of a page at `pageVa` that comes from the file: offset in the page, offset in the file
and length. -/
def Phdr.copyRange (h : Phdr) (pageVa : Nat) : Option (Nat × Nat × Nat) :=
  let fileEnd := (h.vaddr + h.filesz) % ulongMod
  let copyStart := if pageVa < h.vaddr then h.vaddr else pageVa
  let copyEnd := if fileEnd < (pageVa + 4096) % ulongMod then fileEnd else (pageVa + 4096) % ulongMod
  if copyStart < copyEnd then
    some (copyStart - pageVa, (h.offset + (copyStart - h.vaddr)) % ulongMod, copyEnd - copyStart)
  else none

/-- Set up one page of a segment; `read offset len` is the reader. -/
def loadPage (h : Phdr) (read : Nat → Nat → KM (List UInt8)) (pageVa pa : Nat) : KM Bool :=
  match h.copyRange pageVa with
  | none => pure true
  | some (pageOff, fileOff, len) => do
      let bs ← read fileOff len
      modifyMm fun m => m.setPage pa (putBytes (m.page pa) pageOff bs)
      pure (bs.length == len)

/-- The end of a segment: `(va + memsz + PAGE_SIZE - 1) & ~(PAGE_SIZE - 1)`. -/
def Phdr.vaEnd (h : Phdr) : Nat := pageAlign ((h.vaddr + h.memsz) % ulongMod)

/-- One segment of `elf_load_segments`; `PT_LOAD` is 1, `PF_W` 2 and `PF_X` 1. -/
def loadSegment (pagetable : Nat) (read : Nat → Nat → KM (List UInt8)) (h : Phdr) : KM Bool :=
  if h.type ≠ 1 then pure true
  else
    let vaStart := h.vaddr / 4096 * 4096
    mapPages pagetable (loadPage h read) (h.flags &&& 2 != 0) (h.flags &&& 1 != 0)
      ((h.vaEnd - vaStart) / 4096) vaStart

/-- `elf_load_segments`: the program break is the end of the highest segment. -/
def loadSegments (phdrs : List Phdr) (pagetable : Nat) (read : Nat → Nat → KM (List UInt8)) :
    KM (Option Nat) := do
  if ← Exec.all (loadSegment pagetable read) phdrs then
    pure (some ((phdrs.filter fun h => h.type == 1).foldl (fun x h => max x h.vaEnd) 0))
  else pure none

/-- `elf_load`: entry point and program break. -/
def elfLoad (img : Image) (pagetable : Nat) : KM (Option (Nat × Nat)) := do
  if img.size < 64 then pure none
  else if elfValidate img.data = false then pure none
  else do
    let phdrs := (List.range (getLe 2 img.data 56)).map fun j =>
      getPhdr img.data (getLe 8 img.data 32 + 56 * j)
    let brk ← loadSegments phdrs pagetable fun off len =>
      pure (getBytes img.data off len)
    pure (brk.map fun b => (getLe 8 img.data 24, b))

/-- `elf_load_from_inode`: the break and the entry point. -/
def elfLoadFromInode (ip pagetable : Nat) : KM (Option (Nat × Nat)) := do
  let hdr ← onFs (Exec.step fun s => s.readi ip 0 64)
  let ehdr := ofList hdr
  let phnum := getLe 2 ehdr 56
  if hdr.length ≠ 64 then pure none
  else if elfValidate ehdr = false then pure none
  else if 16 < phnum then pure none
  else do
    let ph ← onFs (Exec.step fun s => s.readi ip (getLe 8 ehdr 32 % Fs.uintMod) (phnum * 56))
    if ph.length ≠ phnum * 56 then pure none
    else do
      let phdrs := (List.range phnum).map fun j => getPhdr (ofList ph) (56 * j)
      let brk ← loadSegments phdrs pagetable fun off len =>
        onFs (Exec.step fun s => s.readi ip (off % Fs.uintMod) (len % Fs.uintMod))
      pure (brk.map fun b => (getLe 8 ehdr 24, b))

/-! ## Exec -/

/-- The arguments of a command line: at most `n` words. -/
def words : Nat → List UInt8 → List (List UInt8)
  | 0, _ => []
  | n + 1, cmd =>
    match cmd.dropWhile (· == 32) with
    | [] => []
    | w => w.takeWhile (· != 32) :: words n (w.dropWhile (· != 32))

/-- The text `initramfs:`. -/
def initramfsPrefix : List UInt8 := [105, 110, 105, 116, 114, 97, 109, 102, 115, 58]

/-- The strings of `argv` on the stack page, from the top down: the page, the lowest address used and
the addresses of the strings. -/
def pushStrings (page : Bytes) (argv : List (List UInt8)) : Bytes × Nat × List Nat :=
  argv.foldr (fun arg r =>
    let top := r.2.1 - (arg.length + 1)
    (putBytes r.1 (4096 - (userStack - top)) (arg ++ [0]), top, top :: r.2.2)) (page, userStack, [])

/-- The `argv` array below the strings, with its closing null: the page and the address of the
array. -/
def pushArgv (page : Bytes) (argv : List (List UInt8)) : Bytes × Nat :=
  let r := pushStrings page argv
  let base := r.2.1 / 8 * 8 - (argv.length + 1) * 8
  ((List.range (argv.length + 1)).foldl (fun b j =>
    putLe 8 b (4096 - (userStack - base) + 8 * j) (r.2.2.getD j 0)) r.1, base)

/-- The last element of a path, cut to 15 bytes: the name of the process. -/
def basename (path : List UInt8) : List UInt8 :=
  ((path.reverse.takeWhile (· != slash)).reverse).take 15

/-- The user stack of `sys_exec`: `USER_STACK_PAGES` (16) pages from the top down; the page at the
top. -/
def mapStack (pagetable : Nat) : KM (Option Nat) := do
  let top ← mapNew pagetable (userStack - 4096) (fun _ => pure true) true false
  match top with
  | none => pure none
  | some pa => do
      let ok ← Exec.all (fun i => do
        let r ← mapNew pagetable (userStack - (i + 2) * 4096) (fun _ => pure true) true false
        pure r.isSome) (List.range 15)
      pure (if ok then some pa else none)

/-- The end of `sys_exec`: the stack, then the switch to the new address space. -/
def execFinish (p newPt entry brk : Nat) (argv : List (List UInt8)) : KM Int := do
  let stack ← mapStack newPt
  match stack with
  | none => do
      modifyMm fun m => vmmFree m newPt
      fail .enomem
  | some stackPa => do
      let page ← Exec.gets fun k => k.mm.page stackPa
      let r := pushArgv page argv
      modifyMm fun m => m.setPage stackPa r.1
      let proc ← getProc p
      let oldPt := proc.pagetable
      modifyProc p fun x => { x with
        pagetable := newPt
        sz := brk
        tf := { x.tf with
          elr := entry, spEl0 := r.2 / 16 * 16, regs := Function.update x.tf.regs 1 r.2 }
        name := basename (argv.headD []) }
      modifyMm fun m => vmmFree m oldPt
      pure argv.length

/-- Load a program from the initial RAM file system into a new address space. -/
def execInitramfs (name : List UInt8) : KM (Except Errno (Nat × Nat × Nat)) := do
  let img ← Exec.gets fun k => k.initramfs name
  match img with
  | none => pure (.error .enoent)
  | some img => do
      let pt ← allocPage
      match pt with
      | none => pure (.error .enomem)
      | some pt => do
          let r ← elfLoad img pt
          match r with
          | none => do
              modifyMm fun m => vmmFree m pt
              pure (.error .enoent)
          | some (entry, brk) => pure (.ok (pt, entry, brk))

/-- Load a program from disk into a new address space. -/
def execInode (cwd : Option Nat) (path : List UInt8) : KM (Except Errno (Nat × Nat × Nat)) := do
  let ip ← onFs (namei cwd path)
  match ip with
  | none => pure (.error .enoent)
  | some ip => do
      onFs (ilock ip)
      let type ← Exec.gets fun k => (k.fs.icache ip).din.type
      if type ≠ tFile then do
        onFs (iunlockput ip)
        pure (.error .eacces)
      else do
        let pt ← allocPage
        match pt with
        | none => do
            onFs (iunlockput ip)
            pure (.error .enomem)
        | some pt => do
            let r ← elfLoadFromInode ip pt
            match r with
            | none => do
                onFs (iunlockput ip)
                modifyMm fun m => vmmFree m pt
                pure (.error .enoent)
            | some (entry, brk) => do
                onFs (iunlockput ip)
                pure (.ok (pt, entry, brk))

/-- `sys_exec`: the new image is built first, and the old one freed when nothing can fail any more. -/
def sysExec (p : Nat) (cmdline : Option (List UInt8)) : KM Int :=
  match cmdline with
  | none => fail .efault
  | some cmd =>
    match words 64 cmd with
    | [] => fail .einval
    | arg :: args => do
        let proc ← getProc p
        let r ← if arg.take 10 = initramfsPrefix then execInitramfs (arg.drop 10)
          else execInode proc.cwd arg
        match r with
        | .error e => fail e
        | .ok (pt, entry, brk) => execFinish p pt entry brk (arg :: args)

end Slopix.Kernel
