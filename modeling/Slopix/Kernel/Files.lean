import Slopix.Kernel.State

/-!
# Open files and pipes

`kernel/file.c` and the allocation of `kernel/pipe.c`: the table of open files, descriptors, and the
reads and writes that go through an open file. The bytes that a call stores in user memory are the
list it returns.
-/

namespace Slopix.Kernel

open Lib Mm Fs Ipc

/-- A file as `filealloc` returns it. -/
def newFile : File :=
  { type := .none, ref := 1, readable := false, writable := false, append := false, ip := none,
    off := 0, major := 0, pipe := none }

namespace Kern

/-- `filealloc`: the first file without a reference. -/
def filealloc (k : Kern) : Option Nat × Kern :=
  match (List.range nfile).find? fun f => (k.files f).ref == 0 with
  | some f => (some f, k.setFile f newFile)
  | none => (none, k)

/-- `filedup`. -/
def filedup (k : Kern) (f : Nat) : Option Nat × Kern :=
  if (k.files f).ref < 1 then (none, k)
  else (some f, k.setFile f { k.files f with ref := (k.files f).ref + 1 })

/-- `fdalloc`: the first free descriptor of process `p`. -/
def fdalloc (k : Kern) (p f : Nat) : Option Nat × Kern :=
  match (List.range nofile).find? fun fd => ((k.procs p).ofile fd).isNone with
  | some fd => (some fd, k.setOfile p fd (some f))
  | none => (none, k)

/-- `pipeclose`: the last end frees the page. -/
def closePipe (k : Kern) (pa : Nat) (writable : Bool) : Kern :=
  let pi := pipeclose (k.pipes pa) writable
  let k' : Kern := { k with pipes := Function.update k.pipes pa pi }
  if pi.readopen = false ∧ pi.writeopen = false then k'.withMm (pmmFree k'.mm pa) else k'

end Kern

/-- The end of `fileclose`, on the fields the file had. -/
def closeTarget (ff : File) : KM Unit :=
  match ff.type, ff.pipe, ff.ip with
  | .pipe, some pa, _ => Exec.modify fun k => k.closePipe pa ff.writable
  | .pipe, none, _ => Exec.stop .fault
  | .none, _, _ => pure ()
  | _, _, some i => onFs (iput i)
  | _, _, none => pure ()

/-- `fileclose`: the last reference closes the pipe or puts the inode. -/
def fileclose (f : Nat) : KM Unit := do
  let ff ← Exec.gets fun k => k.files f
  if ff.ref < 1 then pure ()
  else if 0 < ff.ref - 1 then modifyFile f fun x => { x with ref := x.ref - 1 }
  else do
    modifyFile f fun x => { x with ref := x.ref - 1, type := .none, ip := none, pipe := none }
    closeTarget ff

/-- Set up the two ends of a new pipe in page `pa`. -/
def Kern.initPipe (k : Kern) (pa f0 f1 : Nat) : Kern :=
  let k' : Kern := { k with pipes := Function.update k.pipes pa (pipeInit (k.pipes pa).data) }
  (k'.setFile f0 { k'.files f0 with
    type := .pipe, readable := true, writable := false, pipe := some pa }).setFile f1
    { (k'.setFile f0 { k'.files f0 with
      type := .pipe, readable := true, writable := false, pipe := some pa }).files f1 with
      type := .pipe, readable := false, writable := true, pipe := some pa }

/-- `pmm_alloc` as a program. -/
def allocPage : KM (Option Nat) :=
  onMm fun m =>
    match pmmAlloc m with
    | none => (none, m)
    | some (pa, m') => (some pa, m')

/-- `pipealloc`: two files and a page; what is missing gives back the rest. -/
def pipealloc : KM (Option (Nat × Nat)) := do
  let f0 ← Exec.step Kern.filealloc
  match f0 with
  | none => pure none
  | some f0 => do
      let f1 ← Exec.step Kern.filealloc
      match f1 with
      | none => do
          fileclose f0
          pure none
      | some f1 => do
          let pa ← allocPage
          match pa with
          | none => do
              fileclose f0
              fileclose f1
              pure none
          | some pa => do
              Exec.modify fun k => k.initPipe pa f0 f1
              pure (some (f0, f1))

/-! ## Reading and writing -/

/-- `piperead`: the bytes, once there is a byte or no writer. -/
def piperead (pa : Nat) (n : Int) : KM (List UInt8) := do
  let pi ← Exec.gets fun k => k.pipes pa
  if pi.nread = pi.nwrite ∧ pi.writeopen = true then Exec.stop .sleep
  else do
    Exec.modify fun k => { k with pipes := Function.update k.pipes pa (Ipc.readLoop n.toNat pi).2 }
    pure (Ipc.readLoop n.toNat pi).1

/-- `pipewrite`, when it does not have to wait for space. -/
def pipewrite (pa : Nat) (addr : List UInt8) : KM Int := do
  let pi ← Exec.gets fun k => k.pipes pa
  let r := Ipc.writeLoop addr pi
  match r.2.2 with
  | .full => Exec.stop .sleep
  | .closed => do
      Exec.modify fun k => { k with pipes := Function.update k.pipes pa r.2.1 }
      pure (-1)
  | .done => do
      Exec.modify fun k => { k with pipes := Function.update k.pipes pa r.2.1 }
      pure (r.1 : Nat)

/-- The loop of `fileread` on a block device: raw blocks of the disk. -/
def bdevRead : Nat → FileSys → Nat → Nat → List UInt8
  | 0, _, _, _ => []
  | fuel + 1, s, off, n =>
    if n = 0 then []
    else
      let chunk := min (1024 - off % 1024) n
      getBytes (s.bread (off / 1024)) (off % 1024) chunk ++
        bdevRead fuel s ((off + chunk) % Fs.uintMod) (n - chunk)

/-- The loop of `filewrite` on a block device. -/
def bdevWrite : Nat → FileSys → Nat → List UInt8 → FileSys
  | 0, s, _, _ => s
  | fuel + 1, s, off, src =>
    if src = [] then s
    else
      let chunk := min (1024 - off % 1024) src.length
      bdevWrite fuel
        (s.bwrite (off / 1024) (putBytes (s.bread (off / 1024)) (off % 1024) (src.take chunk)))
        ((off + chunk) % Fs.uintMod) (src.drop chunk)

/-- `bdevsw[DISK]`: the only block device. -/
def disk : Nat := 1

/-- `fileread` of a readable file; `dev` is what a character device returns. -/
def fileread (f n : Nat) (dev : Int) : KM (Int × List UInt8) := do
  let ff ← Exec.gets fun k => k.files f
  if ff.readable = false then pure (-1, [])
  else
    match ff.type, ff.pipe, ff.ip with
    | .pipe, some pa, _ => do
        let bs ← piperead pa n
        pure ((bs.length : Nat), bs)
    | .pipe, none, _ => Exec.stop .fault
    | .device, _, _ => pure (dev, [])
    | .inode, _, some i => do
        onFs (ilock i)
        let bs ← onFs (Exec.step fun s => s.readi i ff.off n)
        modifyFile f fun x => { x with off := (x.off + bs.length) % Fs.uintMod }
        onFs (iunlock i)
        pure ((bs.length : Nat), bs)
    | .inode, _, none => Exec.stop .fault
    | .bdevice, _, _ =>
      if ff.major ≠ disk then pure (-1, [])
      else do
        let bs ← Exec.gets fun k => bdevRead n k.fs ff.off n
        modifyFile f fun x => { x with off := (x.off + n) % Fs.uintMod }
        pure ((bs.length : Nat), bs)
    | .none, _, _ => pure (-1, [])

/-- `filewrite`: `dev` is what a device answers. -/
def filewrite (f : Nat) (src : List UInt8) (dev : Int) : KM Int := do
  let ff ← Exec.gets fun k => k.files f
  if ff.writable = false then pure (-1)
  else
    match ff.type, ff.pipe, ff.ip with
    | .pipe, some pa, _ => pipewrite pa src
    | .pipe, none, _ => Exec.stop .fault
    | .device, _, _ => pure dev
    | .inode, _, some i => do
        onFs (ilock i)
        let size ← Exec.gets fun k => (k.fs.icache i).din.size
        let off := if ff.append then size else ff.off
        let r ← onFs (Exec.step fun s => s.writei i src off)
        modifyFile f fun x => { x with off := (off + r.getD 0) % Fs.uintMod }
        onFs (iunlock i)
        pure (r.elim (-1) fun n => (n : Int))
    | .inode, _, none => Exec.stop .fault
    | .bdevice, _, _ =>
      if ff.major ≠ disk then pure (-1)
      else do
        Exec.modify fun k => k.withFs (bdevWrite src.length k.fs ff.off src)
        modifyFile f fun x => { x with off := (x.off + src.length) % Fs.uintMod }
        pure (src.length : Nat)
    | .none, _, _ => pure (-1)

end Slopix.Kernel
