import Slopix.Lib.Flow
import Slopix.Kernel.UserMem

/-!
# The interrupt mask

What the kernel does to the interrupt mask between a system call's entry and its return to user mode:
the control flow of every function that a system call reaches, with the conditions left open, over the
five actions that touch the mask. Functions of `vmm.c`, `pmm.c`, `kprintf.c`, `rtc.c` and `psci.c` and
the plain reads and writes of the tables do not touch it and are left out.

`irq_save` and `irq_restore` bring the mask back to what it was; `enable_irq` does not ask. A process
that comes back from `proc_sched` goes on with interrupts masked, because `proc_scheduler` masks them
before it switches. An interrupt that is taken in between masks them, may switch, and `eret` brings
back the mask of the interrupted code.
-/

namespace Slopix.Kernel.Mask

open Lib Lib.Flow Lib.Flow.Code Mm

/-! ## Actions -/

/-- What touches the mask. -/
inductive Act where
  | enable
  | disable
  | save
  | restore
  | sched
deriving DecidableEq, Repr

/-- Whether interrupts are enabled, and the local `flags` of the function: whether they were enabled
at its last `irq_save`. -/
structure State where
  irq : Bool
  flags : Bool
deriving DecidableEq, Repr

/-- `enable_irq`, `disable_irq`, `irq_save`, `irq_restore` and `context_switch` to the scheduler and
back. -/
def Act.apply : Act → State → State
  | .enable, s => { s with irq := true }
  | .disable, s => { s with irq := false }
  | .save, s => { irq := false, flags := s.irq }
  | .restore, s => { s with irq := s.irq || s.flags }
  | .sched, s => { s with irq := false }

/-- A function has a `flags` of its own. -/
def meaning : Meaning Act State where
  act := Act.apply
  enter s := { s with flags := false }
  leave s t := { s with irq := t.irq }

/-- `enable_irq`: unmasks, whatever the mask was. -/
def enable : Code Act := act .enable

/-- `disable_irq`. -/
def disable : Code Act := act .disable

/-- `irq_save`. -/
def save : Code Act := act .save

/-- `irq_restore` of the flags saved last. -/
def restore : Code Act := act .restore

/-! ## `proc.c` and `sync.c` -/

/-- `proc_sched`: the switch to the scheduler and back. -/
def procSched : Code Act := act .sched

/-- `proc_wait`, with its exits on a signal before and after the switch. -/
def procWait : Code Act := block [opt ret, call procSched, opt ret, ret]

/-- `proc_wait_nointr`: it asks for no signal. -/
def procWaitNointr : Code Act := call procSched

/-- `proc_sleep`; it does not wait for zero ticks. -/
def procSleep : Code Act := block [opt ret, call procWait, ret]

/-- `proc_wait_timeout`. -/
def procWaitTimeout : Code Act := block [opt ret, call procSched, opt ret, ret]

/-- `proc_wait_timeout_nointr`. -/
def procWaitTimeoutNointr : Code Act := call procSched

/-- `sleep_lock`: interrupts are enabled for each wait, and behind the loop. -/
def sleepLock : Code Act :=
  block [disable, loop (block [enable, call procWaitNointr, disable]), enable]

/-- `sleep_unlock`; its panic does not come back. -/
def sleepUnlock : Code Act := block [disable, enable]

/-! ## `virtio.c` and `bio.c` -/

/-- `virtio_disk_rw`: the descriptors, and the wait of a process or of the boot code. -/
def virtioDiskRw : Code Act :=
  block [opt ret, loop (opt ret),
    alt (loop (block [opt ret, call procWaitTimeoutNointr])) (loop (opt ret)), ret]

/-- `virtio_disk_read` and `virtio_disk_write`. -/
def virtioDisk : Code Act := block [loop (block [call virtioDiskRw, opt ret]), ret]

/-- `disk_wait`, which gives the mask back for each sleep. -/
def diskWait : Code Act :=
  block [save, loop (block [restore, call procWaitNointr, save]), restore]

/-- `disk_done`. -/
def diskDone : Code Act := block [save, restore]

/-- `bget`: the search for the block, then the search for a free buffer. -/
def bget : Code Act :=
  block [save, loop (opt (block [restore, ret])), loop (opt (block [restore, ret])), restore, ret]

/-- `bio_release`. -/
def bioRelease : Code Act := block [save, restore]

/-- `bio_read`: a hit, or two sectors from the disk; a failure gives the buffer back. -/
def bioRead : Code Act :=
  block [call bget, opt ret,
    opt (block [call diskWait, call virtioDisk, opt (call virtioDisk), call diskDone,
      opt (block [call bioRelease, ret])]),
    ret]

/-- `bio_write`: the second sector is written when the first was. -/
def bioWrite : Code Act :=
  block [call diskWait, call virtioDisk, opt (call virtioDisk), call diskDone, ret]

/-- `disk_read` of `disk.c`. -/
def diskRead : Code Act := block [call bioRead, opt ret, call bioRelease, ret]

/-- `disk_write` of `disk.c`. -/
def diskWrite : Code Act := block [call bioRead, opt ret, call bioWrite, call bioRelease, ret]

/-! ## `fs.c` -/

/-- `fs_iget`: the search of the inode cache, which ends at a hit. -/
def fsIget : Code Act :=
  block [save, loop (opt (block [restore, ret])), opt (block [restore, ret]), restore, ret]

/-- `fs_idup`. -/
def fsIdup : Code Act := block [save, restore, ret]

/-- `fs_ilock`: the wait for the lock and the read of an inode that is not valid yet. -/
def fsIlock : Code Act :=
  block [opt ret, save, loop (block [restore, call procWaitNointr, save]), restore,
    opt (block [call bioRead, opt (call bioRelease)])]

/-- `fs_iunlock`. -/
def fsIunlock : Code Act := block [opt ret, save, restore]

/-- `fs_iupdate`; a block that cannot be read ends it. -/
def fsIupdate : Code Act := block [call bioRead, opt ret, call bioWrite, call bioRelease]

/-- `balloc`, over the blocks of the bitmap. -/
def balloc : Code Act :=
  block [
    loop (block [call bioRead, opt ret,
      loop (opt (block [call bioWrite, call bioRelease, call bioRead,
        opt (block [call bioWrite, call bioRelease]), ret])),
      call bioRelease]),
    ret]

/-- `bfree`. -/
def bfree : Code Act := block [call bioRead, opt ret, call bioWrite, call bioRelease]

/-- An address of the inode in `fs_bmap`, allocated when it is missing. -/
def bmapAddr : Code Act := opt (block [call balloc, opt ret])

/-- An entry of an index block in `fs_bmap`, allocated when it is missing. -/
def bmapEntry : Code Act :=
  block [call bioRead, opt ret,
    opt (block [call balloc, opt (block [call bioRelease, ret]), call bioWrite]),
    call bioRelease]

/-- `fs_bmap`: a direct block, a singly and a doubly indirect one, or none. -/
def fsBmap : Code Act :=
  block [opt (block [bmapAddr, ret]), opt (block [bmapAddr, bmapEntry, ret]),
    opt (block [bmapAddr, bmapEntry, bmapEntry, ret]), ret]

/-- `fs_readi`, block by block. -/
def fsReadi : Code Act :=
  block [opt ret,
    loop (block [call fsBmap, opt brk, call bioRead, opt brk, call bioRelease]),
    ret]

/-- `fs_writei`: the blocks, and the inode behind them. -/
def fsWritei : Code Act :=
  block [opt ret, opt ret,
    loop (block [call fsBmap, opt brk, call bioRead, opt brk, call bioWrite, call bioRelease]),
    call fsIupdate, ret]

/-- The loop of `fs_itrunc` over an index block. -/
def freeEntries : Code Act := block [loop (opt (call bfree)), call bioRelease]

/-- `fs_itrunc`: the direct blocks, the index block and the two levels behind it. -/
def fsItrunc : Code Act :=
  block [loop (opt (call bfree)),
    opt (block [call bioRead, opt freeEntries, call bfree]),
    opt (block [call bioRead,
      opt (block [
        loop (opt (block [call bioRead, opt freeEntries, call bfree])),
        call bioRelease]),
      call bfree]),
    call fsIupdate]

/-- `fs_itrunc_to`, which leaves a length of 0 to `fs_itrunc`. -/
def fsItruncTo : Code Act :=
  block [opt ret, opt (block [call fsItrunc, ret]),
    opt (block [call bioRead, opt (block [call bioWrite, call bioRelease])]),
    loop (opt (call bfree)),
    opt (block [call bioRead,
      opt (block [loop (opt (call bfree)), opt (call bioWrite), call bioRelease,
        opt (call bfree)])]),
    opt (block [call bioRead,
      opt (block [
        loop (opt (block [call bioRead,
          opt (block [loop (opt (call bfree)),
            alt (block [call bioRelease, call bfree]) (block [call bioWrite, call bioRelease])])])),
        call bioRelease, opt (call bfree)])]),
    call fsIupdate, ret]

/-- `fs_iput`: the last reference to an inode without links frees it, with the mask given back. -/
def fsIput : Code Act :=
  block [save,
    opt (block [restore, call fsIlock, call fsItrunc, call fsIupdate, call fsIunlock, save]),
    restore]

/-- `fs_iunlockput`. -/
def fsIunlockput : Code Act := block [call fsIunlock, call fsIput]

/-- `fs_ialloc`: the search for a free inode on the disk. -/
def fsIalloc : Code Act :=
  block [
    loop (opt (block [call bioRead,
      opt (block [call bioWrite, call bioRelease, call fsIget, ret]), call bioRelease])),
    ret]

/-- `fs_dirlookup`: the scan ends at the entry. -/
def fsDirlookup : Code Act :=
  block [opt ret, loop (block [call fsReadi, opt brk, opt (block [call fsIget, ret])]), ret]

/-- `fs_dirlink`: the name must be new, and a free entry is looked for. -/
def fsDirlink : Code Act :=
  block [opt ret, call fsDirlookup, opt (block [call fsIput, ret]),
    loop (block [call fsReadi, opt ret, opt brk]),
    call fsWritei, opt ret, ret]

/-- `fs_isdirempty`. -/
def fsIsdirempty : Code Act := block [loop (block [call fsReadi, opt brk, opt ret]), ret]

/-- `namex`, with `fs_namei` and `fs_nameiparent`. -/
def namex : Code Act :=
  block [alt (call fsIget) (call fsIdup),
    loop (block [call fsIlock, opt (block [call fsIunlockput, ret]),
      opt (block [call fsIunlock, ret]), call fsDirlookup, call fsIunlockput, opt ret]),
    opt (block [call fsIput, ret]), ret]

/-- `fs_create`: an entry that is there, or a new inode and its entry. -/
def fsCreate : Code Act :=
  block [call namex, opt ret, call fsIlock, call fsDirlookup,
    opt (block [call fsIunlockput, call fsIlock, opt ret, call fsIunlockput, ret]),
    call fsIalloc, opt (block [call fsIunlockput, ret]),
    call fsIlock, call fsIupdate,
    opt (block [call fsIupdate, call fsDirlink, opt (call fsDirlink),
      opt (block [call fsIupdate, call fsIunlockput, call fsIupdate, call fsIunlockput, ret])]),
    call fsDirlink,
    opt (block [opt (call fsIupdate), call fsIupdate, call fsIunlockput, call fsIunlockput, ret]),
    call fsIunlockput, ret]

/-! ## `pipe.c`, `uart.c`, `console.c` and `file.c` -/

/-- `filealloc`: the search for an unused file. -/
def filealloc : Code Act := block [save, loop (opt (block [restore, ret])), restore, ret]

/-- `filedup`, with its exit for a file that is not open. -/
def filedup : Code Act := block [save, opt (block [restore, ret]), restore, ret]

/-- `pipeclose`: when both ends are closed the pipe is freed. -/
def pipeclose : Code Act := block [save, opt (block [restore, ret]), restore]

/-- `piperead`: it sleeps while the pipe is empty, with the mask given back. -/
def piperead : Code Act :=
  block [save, loop (block [restore, call procWait, opt ret, save]), restore, ret]

/-- `pipewrite`: each byte may find no reader or a full pipe. -/
def pipewrite : Code Act :=
  block [save,
    loop (block [opt (block [restore, ret]), opt (block [restore, call procWait, opt ret, save])]),
    restore, ret]

/-- `uart_read`: it sleeps until a character is there. -/
def uartRead : Code Act := block [loop (loop (block [call procWait, opt ret])), ret]

/-- `uart_poll_timeout`. -/
def uartPollTimeout : Code Act := block [opt ret, opt ret, call procWaitTimeout, opt ret, ret]

/-- `devsw[].read`: `console_read` and `nullread`. -/
def devRead : Code Act := alt (block [opt ret, call uartRead, ret]) ret

/-- `fileclose`: only the last reference goes on to the pipe or the inode. -/
def fileclose : Code Act :=
  block [save, opt (block [restore, ret]), opt (block [restore, ret]), restore,
    alt (call pipeclose) (opt (call fsIput))]

/-- `filestat`. -/
def filestat : Code Act := block [opt (block [call fsIlock, call fsIunlock, ret]), ret]

/-- `fileread`: a pipe, a device, an inode or the raw disk. -/
def fileread : Code Act :=
  block [opt ret, opt (block [call piperead, ret]), opt (block [opt ret, call devRead, ret]),
    opt (block [call fsIlock, call fsReadi, call fsIunlock, ret]),
    opt (block [opt ret, loop (block [call diskRead, opt ret]), ret]), ret]

/-- `filewrite`; `console_write` and `nullwrite` do not touch the mask. -/
def filewrite : Code Act :=
  block [opt ret, opt (block [call pipewrite, ret]), opt ret,
    opt (block [call fsIlock, call fsWritei, call fsIunlock, ret]),
    opt (block [opt ret,
      loop (block [opt (block [call diskRead, opt ret]), call diskWrite, opt ret]), ret]), ret]

/-- `pipealloc`, which closes what it has got when the rest fails. -/
def pipealloc : Code Act :=
  block [call filealloc, opt (call filealloc),
    opt (block [opt (call fileclose), opt (call fileclose), ret]), ret]

/-- `proc_cleanup`. A process that has ended does not come back from its `proc_sched`. -/
def procCleanup : Code Act :=
  block [loop (opt (call fileclose)), opt (call fsIput), call procSched]

/-- `proc_check_signals`: a kill, the loop of a stop, and the pending signals. -/
def procCheckSignals : Code Act :=
  block [opt ret, opt (block [call procCleanup, ret]),
    loop (opt (block [call procSched, ret])),
    loop (opt (block [call procCleanup, ret]))]

/-! ## `syscall.c` -/

/-- `sys_exit`. -/
def sysExit : Code Act := block [call procCleanup, ret]

/-- `sys_write`, behind the checks of its arguments. -/
def sysWrite : Code Act := block [opt ret, opt ret, opt ret, call filewrite, ret]

/-- `sys_read`, behind the checks of its arguments. -/
def sysRead : Code Act := block [opt ret, opt ret, opt ret, call fileread, ret]

/-- `sys_sleep`. -/
def sysSleep : Code Act := block [call procSleep, opt ret, ret]

/-- `elf_load_from_inode`: the header, and the pages of each segment. -/
def elfLoadFromInode : Code Act :=
  block [call fsReadi, opt ret, opt ret, opt ret, call fsReadi, opt ret,
    loop (loop (block [opt ret, opt (block [call fsReadi, opt ret]), opt ret])), ret]

/-- `sys_exec`: from the initramfs or from an inode. -/
def sysExec : Code Act :=
  block [opt ret, opt ret,
    alt (block [opt ret, opt ret, opt ret])
      (block [call namex, opt ret, call fsIlock, opt (block [call fsIunlockput, ret]),
        opt (block [call fsIunlockput, ret]), call elfLoadFromInode,
        opt (block [call fsIunlockput, ret]), call fsIunlockput]),
    loop (block [opt ret, opt ret]), ret]

/-- `sys_fork`, with the copies of the directory and of the open files. -/
def sysFork : Code Act :=
  block [opt ret, opt ret, opt (call fsIdup), loop (opt (call filedup)), ret]

/-- `sys_wait`: the scan for a child that has ended, and the sleep. -/
def sysWait : Code Act := loop (block [loop (opt ret), opt ret, call procWait, opt ret])

/-- `sys_waitpid`, with the exits for a stopped child and for `WNOHANG`. -/
def sysWaitpid : Code Act :=
  loop (block [loop (opt ret), opt ret, opt ret, opt ret, call procWait, opt ret])

/-- `sys_poll`. -/
def sysPoll : Code Act := block [opt ret, opt ret, opt ret, call uartPollTimeout, opt ret, ret]

/-- `sys_sbrk`, page by page. -/
def sysSbrk : Code Act := block [opt ret, opt (loop (block [opt ret, opt ret])), ret]

/-- `sys_open`: the exits behind `namex` and behind `fs_create` differ. -/
def sysOpen : Code Act :=
  block [opt ret,
    alt (block [call namex,
        alt (block [call fsCreate, opt ret]) (block [opt (block [call fsIput, ret]), call fsIlock])])
      (block [call namex, opt ret, call fsIlock]),
    call filealloc, opt (block [call fsIunlockput, ret]), opt (call fsItrunc), call fsIunlock,
    opt (block [call fileclose, ret]), ret]

/-- `sys_close`. -/
def sysClose : Code Act := block [opt ret, opt ret, call fileclose, ret]

/-- `sys_fstat`. -/
def sysFstat : Code Act := block [opt ret, opt ret, opt ret, call filestat, ret]

/-- `sys_dup`. -/
def sysDup : Code Act := block [opt ret, opt ret, opt ret, call filedup, ret]

/-- `sys_mkdir` and `sys_mknod`. -/
def sysMkdir : Code Act := block [opt ret, call fsCreate, opt ret, call fsIunlockput, ret]

/-- The end of a failed `sys_link`. -/
def linkBad : Code Act := block [call fsIlock, call fsIupdate, call fsIunlockput, ret]

/-- `sys_link`: the old path, the parent of the new one, and the entry. -/
def sysLink : Code Act :=
  block [opt ret, opt ret, call namex, opt ret, call fsIlock, opt (block [call fsIunlockput, ret]),
    call fsIupdate, call fsIunlock, call namex, opt linkBad, call fsIlock,
    alt (block [call fsIunlockput, linkBad])
      (block [call fsDirlink, opt (block [call fsIunlockput, linkBad])]),
    call fsIunlockput, call fsIput, ret]

/-- `sys_unlink`: the parent, the entry and the inode it names. -/
def sysUnlink : Code Act :=
  block [opt ret, call namex, opt ret, call fsIlock, opt (block [call fsIunlockput, ret]),
    opt (block [call fsIunlockput, ret]), call fsDirlookup, opt (block [call fsIunlockput, ret]),
    call fsIlock,
    opt (block [call fsIsdirempty, opt (block [call fsIunlockput, call fsIunlockput, ret])]),
    call fsWritei, opt (block [call fsIunlockput, call fsIunlockput, ret]), opt (call fsIupdate),
    call fsIunlockput, call fsIupdate, call fsIunlockput, ret]

/-- `sys_chdir`: the old directory is put behind all checks. -/
def sysChdir : Code Act :=
  block [opt ret, call namex, opt ret, call fsIlock, opt (block [call fsIunlockput, ret]),
    call fsIunlock, call fsIput, ret]

/-- `sys_pipe`: both files are closed when a descriptor is missing. -/
def sysPipe : Code Act :=
  block [opt ret, call pipealloc, opt ret, opt (block [call fileclose, call fileclose, ret]),
    opt (block [call fileclose, call fileclose, ret]), ret]

/-- `sys_stat`. -/
def sysStat : Code Act :=
  block [opt ret, opt ret, call namex, opt ret, call fsIlock, call fsIunlockput, ret]

/-- `sys_getcwd`: a level of the loop locks the directory and then its parent. -/
def sysGetcwd : Code Act :=
  block [opt ret, opt ret, call fsIdup,
    loop (block [call fsIlock, call fsDirlookup, opt (block [call fsIunlockput, ret]), call fsIunlock,
      call fsIlock, loop (block [call fsReadi, opt brk, opt brk]), call fsIunlock, call fsIput,
      opt (block [call fsIput, ret])]),
    call fsIput, opt (loop (loop (opt ret))), ret]

/-- `sys_lseek`; only `SEEK_END` locks the inode. -/
def sysLseek : Code Act :=
  block [opt ret, opt ret, opt (block [call fsIlock, call fsIunlock]), opt ret, opt ret, ret]

/-- `sys_ftruncate`. -/
def sysFtruncate : Code Act :=
  block [opt ret, opt ret, opt ret, opt ret, opt ret, call fsIlock, call fsItruncTo, call fsIunlock,
    ret]

/-- `sys_getdents`, entry by entry. -/
def sysGetdents : Code Act :=
  block [opt ret, opt ret, opt ret, call fsIlock, opt (block [call fsIunlock, ret]),
    loop (block [call fsReadi, opt brk, opt brk]), call fsIunlock, ret]

/-- The end of a failed `sys_rename`. -/
def renameFail : Code Act :=
  block [call fsIlock, call fsIupdate, call fsIunlockput, call sleepUnlock, ret]

/-- `sys_rename`, behind the copies of the two strings. -/
def renameCopied : Code Act :=
  block [call sleepLock, call namex, opt (block [call sleepUnlock, ret]),
    call fsIlock, call fsIupdate, call fsIunlock, call namex, opt renameFail,
    -- the walk from the new parent to the root
    opt (block [call fsIdup,
      loop (block [opt (block [call fsIput, call fsIput, renameFail]), call fsIlock,
        call fsDirlookup, call fsIunlockput, opt (block [call fsIput, renameFail])]),
      call fsIput]),
    -- what has the new name already
    call fsIlock, call fsDirlookup,
    opt (block [call fsIlock, opt (block [call fsIunlockput, call fsIunlockput, renameFail]),
      call fsWritei, call fsIupdate, call fsIunlockput]),
    alt (block [call fsIunlockput, renameFail])
      (block [call fsDirlink, opt (block [call fsIunlockput, renameFail])]),
    opt (call fsIupdate), call fsIunlockput,
    -- the old name
    call namex, opt (block [call fsIput, call sleepUnlock, ret]), call fsIlock, call fsDirlookup,
    opt (block [opt (call fsIput), call fsIunlockput, call fsIput, call sleepUnlock, ret]),
    call fsIput, call fsWritei, opt (call fsIupdate), call fsIunlockput,
    opt (block [call fsIlock, loop (block [call fsReadi, opt brk, opt (block [call fsWritei, brk])]),
      call fsIunlock]),
    call fsIlock, call fsIupdate, call fsIunlockput, call sleepUnlock, ret]

/-- `sys_rename`; the strings are copied from the address space before anything else. -/
def sysRename (copied : Bool) : Code Act := if copied then renameCopied else ret

/-- `SYS_rename`. -/
def sysRenameNum : Nat := 24

/-- The system calls by number, but for `SYS_rename`. The ones that are left out (`getpid`,
`poweroff`, `mmap`, `munmap`, `kill`, `getprocs`, `getppid`, `setpgid`, `getpgid`, `tcsetpgrp`,
`tcgetpgrp`, `tcsetraw`, `tcgetraw`, `reboot`, `uname`, `time`) do not touch the mask. -/
def table : List (Nat × Code Act) :=
  [(0, sysWrite), (1, sysExit), (2, sysRead), (3, sysSleep), (5, sysFork), (6, sysWait), (7, sysExec),
    (8, sysPoll), (10, sysSbrk), (11, sysOpen), (12, sysClose), (13, sysFstat), (14, sysDup),
    (15, sysMkdir), (16, sysMkdir), (17, sysLink), (18, sysUnlink), (19, sysChdir), (20, sysPipe),
    (21, sysStat), (22, sysGetcwd), (23, sysLseek), (30, sysWaitpid), (37, sysFtruncate),
    (38, sysGetdents)]

/-- Both paths of a `rename` can be copied from the address space. -/
def copies (m : PhysMem) (pagetable old new : Nat) : Bool :=
  (vmmCopyinstr m pagetable old 128).isSome && (vmmCopyinstr m pagetable new 128).isSome

/-- `syscall`, with the number and the first two arguments. -/
def syscall (m : PhysMem) (pagetable num arg0 arg1 : Nat) : Code Act :=
  if num = sysRenameNum then call (sysRename (copies m pagetable arg0 arg1))
  else
    match table.find? fun e => e.1 == num with
    | some e => call e.2
    | none => skip

/-- What `sync_exception_handler_user` does for an `SVC` before it returns to the code that restores
the trap frame. -/
def svc (m : PhysMem) (pagetable num arg0 arg1 : Nat) : Code Act :=
  block [call (syscall m pagetable num arg0 arg1), call procCheckSignals, opt (call procCleanup)]

/-! ## What is masked at the end -/

/-- Every action but `enable_irq`. -/
def keeps (a : Act) : Bool := a != .enable

/-- Interrupts are masked, and were at the last `irq_save`. -/
def State.Masked (s : State) : Prop := s.irq = false ∧ s.flags = false

section

variable {m : PhysMem} {pagetable num arg0 arg1 : Nat}

theorem Act.apply_masked (a : Act) (s : State) (ha : keeps a = true) (hs : s.Masked) :
    (a.apply s).Masked := by
  obtain ⟨hirq, hflags⟩ := hs
  cases a with
  | enable => cases ha
  | disable => exact ⟨rfl, hflags⟩
  | save => exact ⟨rfl, hirq⟩
  | restore =>
    refine ⟨?_, hflags⟩
    rw [Act.apply, hirq, hflags]
    rfl
  | sched => exact ⟨rfl, hflags⟩

theorem masked_of_keeps {p : Code Act} {s t : State} {e : Exit} (hp : p.All keeps = true)
    (h : Runs meaning p s e t) (hs : s.Masked) : t.Masked := by
  refine h.invariant Act.apply_masked ?_ ?_ hp hs
  · exact fun s hs => ⟨hs.1, rfl⟩
  · exact fun s t hs ht => ⟨ht.1, hs.2⟩

theorem table_keeps : (table.all fun e => e.2.All keeps) = true := by decide +kernel

/-- No system call but `rename` enables interrupts on its own. -/
theorem syscall_keeps (h : ¬ (num = sysRenameNum ∧ copies m pagetable arg0 arg1 = true)) :
    (syscall m pagetable num arg0 arg1).All keeps = true := by
  unfold syscall
  split
  · rename_i hnum
    have hcopies : copies m pagetable arg0 arg1 = false := by
      rw [Bool.eq_false_iff]
      exact fun hc => h ⟨hnum, hc⟩
    rw [hcopies]
    rfl
  · cases hfind : table.find? fun e => e.1 == num with
    | none => rfl
    | some e => exact List.all_eq_true.1 table_keeps e (List.mem_of_find?_eq_some hfind)

theorem sleepUnlock_irq {s t : State} {e : Exit} (h : Runs meaning sleepUnlock s e t) :
    t.irq = true := by
  cases h with
  | seq hp hq =>
    cases hq with
    | act => rfl
  | leave hp he =>
    cases hp
    exact absurd rfl he

theorem returns_sleepUnlock :
    Returns meaning (.seq (call sleepUnlock) ret) fun s => s.irq = true :=
  returns_call_ret fun _ _ t h => (sleepUnlock_irq h : t.irq = true)

/-- Every return of a `rename` that has copied its strings is behind its `sleep_unlock`. -/
theorem renameCopied_returns : Returns meaning renameCopied fun s => s.irq = true := by
  unfold renameCopied renameFail
  simp only [block, opt]
  repeat' with_reducible first
    | exact returns_sleepUnlock
    | exact returns_call
    | exact returns_skip
    | exact returns_brk
    | apply returns_alt
    | apply returns_loop
    | apply returns_seq

theorem renameCopied_whole : Whole meaning renameCopied := by
  unfold renameCopied renameFail
  simp only [block, opt]
  repeat' with_reducible first
    | exact whole_call
    | exact whole_ret
    | exact whole_skip
    | exact whole_loop
    | apply whole_alt
    | apply whole_seq

theorem renameCopied_final : Final meaning renameCopied := by
  unfold renameCopied
  simp only [block]
  repeat' with_reducible first
    | exact final_ret
    | apply final_seq

/-- A `rename` that has copied its strings ends with interrupts enabled. -/
theorem renameCopied_irq {s t : State} {e : Exit} (h : Runs meaning renameCopied s e t) :
    t.irq = true := by
  cases e with
  | next => exact absurd h (renameCopied_final (s := s) (t := t))
  | brk => exact absurd h (renameCopied_whole (s := s) (t := t))
  | ret => exact renameCopied_returns h

theorem procCheckSignals_idle (s : State) : Runs meaning (call procCheckSignals) s .next s := by
  have hret : Runs meaning procCheckSignals (meaning.enter s) .ret (meaning.enter s) :=
    .leave (.left .ret) (by decide)
  have hcall := Runs.call hret
  exact hcall

/-- A path through `rename` is one through the system call, when no signal is pending behind it. -/
theorem svc_rename {t : State} {e : Exit} (hnum : num = sysRenameNum)
    (hcopies : copies m pagetable arg0 arg1 = true)
    (hrun : Runs meaning renameCopied ⟨false, false⟩ e t) :
    Runs meaning (svc m pagetable num arg0 arg1) ⟨false, false⟩ .next ⟨t.irq, false⟩ := by
  have hsys : Runs meaning (syscall m pagetable num arg0 arg1) ⟨false, false⟩ .next
      ⟨t.irq, false⟩ := by
    rw [syscall, if_pos hnum, hcopies]
    have hrename := Runs.call (M := meaning) (s := ⟨false, false⟩) hrun
    exact hrename
  have hcall := Runs.call (M := meaning) (s := ⟨false, false⟩) hsys
  exact .seq hcall (.seq (procCheckSignals_idle _) (.right .skip))

/-- The interrupt mask: a system call that enters the kernel with interrupts masked returns to the
restore of the trap frame with interrupts masked on every path, if and only if it is not a `rename`
whose two strings can be copied. -/
theorem mask_discipline (m : PhysMem) (pagetable num arg0 arg1 : Nat) :
    (∀ e t, Runs meaning (svc m pagetable num arg0 arg1) ⟨false, false⟩ e t → t.irq = false) ↔
      ¬ (num = sysRenameNum ∧ copies m pagetable arg0 arg1 = true) := by
  constructor
  · rintro h ⟨hnum, hcopies⟩
    obtain ⟨e, t, hrun⟩ := exists_runs meaning renameCopied ⟨false, false⟩
    have hmasked := h _ _ (svc_rename hnum hcopies hrun)
    cases (renameCopied_irq hrun).symm.trans hmasked
  intro h e t hrun
  have hkeeps : (svc m pagetable num arg0 arg1).All keeps = true := by
    have hrest : (block [call procCheckSignals, opt (call procCleanup)]).All keeps = true := by
      decide +kernel
    show ((syscall m pagetable num arg0 arg1).All keeps && _) = true
    rw [syscall_keeps h, Bool.true_and]
    exact hrest
  exact (masked_of_keeps hkeeps hrun ⟨rfl, rfl⟩).1

end

/-- An address space of one page at address 0, with the tables in the frames `0x1000` to `0x4000`. The
page holds the string `/a`. -/
def onePage : PhysMem where
  page pa :=
    if pa = 0x1000 then putLe 8 (fun _ => 0) 0 (makeTableDesc 0x2000)
    else if pa = 0x2000 then putLe 8 (fun _ => 0) 0 (makeTableDesc 0x3000)
    else if pa = 0x3000 then putLe 8 (fun _ => 0) 0 (makeTableDesc 0x4000)
    else if pa = 0x4000 then putLe 8 (fun _ => 0) 0 (0x5000 ||| userFlags true false)
    else if pa = 0x5000 then putBytes (fun _ => 0) 0 [47, 97]
    else fun _ => 0
  free := []

/-- `rename("/a", "/a")` returns to the restore of the trap frame with interrupts enabled. -/
theorem mask_rename_enabled : vmmCopyinstr onePage 0x1000 0 128 = some [47, 97] ∧
    ∃ e t, Runs meaning (svc onePage 0x1000 sysRenameNum 0 0) ⟨false, false⟩ e t ∧ t.irq = true := by
  have hcopy : vmmCopyinstr onePage 0x1000 0 128 = some [47, 97] := by decide +kernel
  have hsome : copies onePage 0x1000 0 0 = true := by
    rfl
  obtain ⟨e, t, hrun⟩ := exists_runs meaning renameCopied ⟨false, false⟩
  have henabled := renameCopied_irq hrun
  exact ⟨hcopy, .next, ⟨t.irq, false⟩, svc_rename rfl hsome hrun, henabled⟩

end Slopix.Kernel.Mask
