import Slopix.Fs.Names
import Slopix.Fs.Shrink
import Slopix.Fs.Walk
import Slopix.Kernel.Boot

/-!
# File offsets

The offset of an open file is an `unsigned int`; `lseek` and `ftruncate` take a `long`. `Uses` follows
the calls on a descriptor of a regular file together with the offset that they imply as a number
without bound. As long as the offsets that are asked for fit, the kernel's offset is that number; the
other way round, `lseek` returns 2^32 and goes to the start of the file, and `ftruncate` to 2^32 cuts
everything.
-/

namespace Slopix.Kernel

open Lib Mm Fs FileSys Exec Nat

/-! ## Reading and writing a part of a file -/

section

variable {s : FileSys} {i : Nat}

theorem length_readLoop (fuel off rem : Nat) : (readLoop fuel s i off rem).1.length ≤ rem := by
  induction fuel generalizing s off rem with
  | zero => exact zero_le rem
  | succ fuel ih =>
    rw [readLoop]
    split
    · exact zero_le rem
    dsimp only
    split
    · exact zero_le rem
    rw [List.length_append, length_getBytes]
    have hrest := @ih (s.bmap i (off / 1024)).2 ((off + min (1024 - off % 1024) rem) % uintMod)
      (rem - min (1024 - off % 1024) rem)
    omega

theorem length_readi {off n : Nat} (hsize : (s.icache i).din.size ≤ maxBytes) (hn : n < 2 ^ 31) :
    (s.readi i off n).1 = [] ∨ off + (s.readi i off n).1.length ≤ (s.icache i).din.size := by
  unfold readi
  dsimp only
  by_cases hoff : (s.icache i).din.size < off
  · rw [if_pos hoff]
    exact Or.inl rfl
  right
  have hwrap : (off + n) % uintMod = off + n := by
    unfold maxBytes at hsize
    exact mod_eq_of_lt (by unfold uintMod; omega)
  rw [if_neg hoff, hwrap]
  by_cases hend : (s.icache i).din.size < off + n
  · rw [if_pos hend]
    have hlen := @length_readLoop s i ((s.icache i).din.size - off) off ((s.icache i).din.size - off)
    omega
  · rw [if_neg hend]
    have hlen := @length_readLoop s i n off n
    omega

theorem writeLoop_le (fuel off : Nat) (src : List UInt8) :
    (writeLoop fuel s i off src).1 ≤ src.length := by
  induction fuel generalizing s off src with
  | zero => exact zero_le _
  | succ fuel ih =>
    rw [writeLoop]
    split
    · exact zero_le _
    dsimp only
    split
    · exact zero_le _
    have hrest := @ih ((s.bmap i (off / 1024)).2.bwrite (s.bmap i (off / 1024)).1
      (putBytes ((s.bmap i (off / 1024)).2.bread (s.bmap i (off / 1024)).1) (off % 1024)
        (src.take (min (1024 - off % 1024) src.length)))) (off + min (1024 - off % 1024) src.length)
      (src.drop (min (1024 - off % 1024) src.length))
    rw [List.length_drop] at hrest
    omega

theorem writei_end {off r : Nat} {src : List UInt8} (hsize : (s.icache i).din.size ≤ maxBytes)
    (hn : src.length < 2 ^ 31) (h : (s.writei i src off).1 = some r) : off + r ≤ maxBytes := by
  unfold writei at h
  unfold maxBytes at hsize ⊢
  unfold uintMod at h
  split at h
  · cases h
  split at h
  · cases h
  · have hle := @writeLoop_le s i src.length off src
    have hr := Option.some.inj h
    omega

end

/-! ## Calls on a descriptor -/

/-- Descriptor `fd` of process `p` is open file `f` on the file in entry `i` of the inode cache. -/
structure OpenOn (k : Kern) (p fd f i : Nat) : Prop where
  slot : fd < nofile
  file : (k.procs p).ofile fd = some f
  type : (k.files f).type = .inode
  ip : (k.files f).ip = some i
  ref : 1 ≤ (k.fs.icache i).ref
  size : (k.fs.filled i).size ≤ maxBytes

/-- A call on the descriptor; `ok` tells whether the buffer is accepted. -/
inductive Use where
  | read (n : Nat) (ok : Bool)
  | write (src : List UInt8) (ok : Bool)
  | lseek (offset : Int) (whence : Nat)
  | ftruncate (length : Int)

/-- The system call. -/
def Use.call (fd : Nat) : Use → Call
  | .read n ok => .read fd n ok 0
  | .write src ok => .write fd src ok 0
  | .lseek offset whence => .lseek fd offset whence
  | .ftruncate length => .ftruncate fd length

/-- Where `lseek` counts from. -/
def seekBase (k : Kern) (i o whence : Nat) : Nat :=
  if whence = 0 then 0 else if whence = 1 then o else (k.fs.filled i).size

/-- Where a write starts: at the end in append mode. -/
def writeStart (k : Kern) (f i o : Nat) : Nat := if (k.files f).append then (k.fs.filled i).size else o

/-- The offset behind a call with result `r`, when it was `o` before. -/
def implied (k : Kern) (f i o : Nat) : Use → Int → Nat
  | .read _ _, r => o + r.toNat
  | .write _ ok, r => if ok = true ∧ (k.files f).writable = true then writeStart k f i o + r.toNat else o
  | .lseek _ _, r => if 0 ≤ r then r.toNat else o
  | .ftruncate _, _ => o

/-- The arguments are those of an `int` and a `long`, and an `lseek` that passes its checks asks for an
offset below 2^32. -/
def InRange (k : Kern) (i o : Nat) : Use → Prop
  | .read n _ => n < 2 ^ 31
  | .write src _ => src.length < 2 ^ 31
  | .lseek offset whence => -2 ^ 63 ≤ offset ∧ (whence ≤ 2 → 0 ≤ toLong (seekBase k i o whence + offset) →
      (seekBase k i o whence : Int) + offset < 2 ^ 32)
  | .ftruncate _ => True

/-- The calls on a descriptor from `k0` on, where the offset is `o0`, with the offset they imply. Between
them anything may happen that does not move the offset of this open file. -/
inductive Uses (p fd f i : Nat) (k0 : Kern) (o0 : Nat) : Kern → Nat → Prop where
  | start : Uses p fd f i k0 o0 k0 o0
  | use {k k' : Kern} {o : Nat} {u : Use} {r : Int} (h : Uses p fd f i k0 o0 k o)
      (hopen : OpenOn k p fd f i) (hrange : InRange k i o u)
      (hret : syscall p (u.call fd) k = .ok (r, k')) : Uses p fd f i k0 o0 k' (implied k f i o u r)
  | other {k k' : Kern} {o : Nat} (h : Uses p fd f i k0 o0 k o)
      (hoff : (k'.files f).off = (k.files f).off) : Uses p fd f i k0 o0 k' o

section

variable {k k' : Kern} {p fd f i : Nat}

/-- The descriptor leads to the file. -/
theorem OpenOn.fdFile (h : OpenOn k p fd f i) : fdFile p fd k = .ok (some f, k) := by
  have hval : (if fd < nofile then (k.procs p).ofile fd else none) = some f := by
    rw [if_pos h.slot, h.file]
  exact congrArg (fun r => Except.ok (r, k)) hval

variable {k1 : Kern}

/-- The lock brings the inode into the cache. -/
theorem OpenOn.lock (h : OpenOn k p fd f i) (hrun : onFs (ilock i) k = .ok ((), k1)) :
    k1 = k.withFs (k.fs.setInode i { k.fs.icache i with
      locked := true, valid := true, din := k.fs.filled i }) := by
  obtain ⟨s1, hlock, rfl⟩ := zoom_inv hrun
  rw [(ilock_fills hlock h.ref).2]

theorem modifyFile_inv {g : File → File} (h : modifyFile f g k = .ok ((), k1)) :
    k1.files f = g (k.files f) ∧ k1.fs = k.fs := by
  cases h
  exact ⟨Function.update_self .., rfl⟩

theorem onFs_iunlock_inv (h : onFs (Fs.iunlock i) k = .ok ((), k1)) :
    k1.files = k.files ∧ k1.fs = k.fs.iunlock i := by
  cases h
  exact ⟨rfl, rfl⟩

theorem iunlock_din (s : FileSys) (i : Nat) : ((s.iunlock i).icache i).din = (s.icache i).din := by
  unfold FileSys.iunlock
  split
  · rfl
  · unfold setLocked
    rw [setInode_icache_self]

/-- The state between `fs_ilock` and `fs_iunlock`. -/
def lockedFs (k : Kern) (i : Nat) : FileSys :=
  k.fs.setInode i { k.fs.icache i with locked := true, valid := true, din := k.fs.filled i }

theorem lockedFs_din (k : Kern) (i : Nat) : ((lockedFs k i).icache i).din = k.fs.filled i := by
  unfold lockedFs
  rw [setInode_icache_self]

/-- `sys_read`: an error, or `fs_readi` from the offset of the open file. -/
theorem OpenOn.read (h : OpenOn k p fd f i) {n : Nat} {ok : Bool} {dev : Int} {r : Int × List UInt8}
    (hret : sysRead p fd n ok dev k = .ok (r, k')) :
    (r.1 < 0 ∧ k' = k) ∨
      r = (((((lockedFs k i).readi i (k.files f).off n).1.length : Nat) : Int),
        ((lockedFs k i).readi i (k.files f).off n).1) ∧
      (k'.files f).off = ((k.files f).off + ((lockedFs k i).readi i (k.files f).off n).1.length) % uintMod := by
  unfold sysRead at hret
  rw [bind_ok h.fdFile] at hret
  dsimp only at hret
  by_cases hok : ok = false
  · rw [if_pos hok] at hret
    cases hret
    exact Or.inl ⟨by decide, rfl⟩
  rw [if_neg hok] at hret
  unfold fileread at hret
  rw [bind_ok (b := k.files f) (t := k) rfl] at hret
  by_cases hread : (k.files f).readable = false
  · rw [if_pos hread] at hret
    cases hret
    exact Or.inl ⟨by decide, rfl⟩
  rw [if_neg hread, h.type, h.ip] at hret
  obtain ⟨⟨⟩, k1, hlock, hret⟩ := bind_inv hret
  obtain rfl := h.lock hlock
  obtain ⟨bs, k2, hbs, hret⟩ := bind_inv hret
  cases hbs
  obtain ⟨⟨⟩, k3, hoff, hret⟩ := bind_inv hret
  obtain ⟨⟨⟩, k4, hunlock, hret⟩ := bind_inv hret
  cases hret
  right
  refine ⟨rfl, ?_⟩
  rw [(onFs_iunlock_inv hunlock).1, (modifyFile_inv hoff).1]
  rfl

/-- What a write does: it is refused, or it writes at its start and moves the offset by its result. -/
theorem OpenOn.write (h : OpenOn k p fd f i) {src : List UInt8} {ok : Bool} {dev r : Int}
    (hret : sysWrite p fd src ok dev k = .ok (r, k')) :
    (r < 0 ∧ k' = k ∧ ¬ (ok = true ∧ (k.files f).writable = true)) ∨
      (ok = true ∧ (k.files f).writable = true) ∧
      r = (((lockedFs k i).writei i src (writeStart k f i (k.files f).off)).1.elim (-1) fun n => (n : Int)) ∧
      (k'.files f).off = (writeStart k f i (k.files f).off +
        ((lockedFs k i).writei i src (writeStart k f i (k.files f).off)).1.getD 0) % uintMod ∧
      k'.fs = ((lockedFs k i).writei i src (writeStart k f i (k.files f).off)).2.iunlock i := by
  unfold sysWrite at hret
  rw [bind_ok h.fdFile] at hret
  dsimp only at hret
  by_cases hok : ok = false
  · rw [if_pos hok] at hret
    cases hret
    exact Or.inl ⟨by decide, rfl, fun hboth => by rw [hok] at hboth; cases hboth.1⟩
  rw [if_neg hok] at hret
  unfold filewrite at hret
  rw [bind_ok (b := k.files f) (t := k) rfl] at hret
  by_cases hwrite : (k.files f).writable = false
  · rw [if_pos hwrite] at hret
    cases hret
    exact Or.inl ⟨by decide, rfl, fun hboth => by rw [hwrite] at hboth; cases hboth.2⟩
  rw [if_neg hwrite, h.type, h.ip] at hret
  obtain ⟨⟨⟩, k1, hlock, hret⟩ := bind_inv hret
  obtain rfl := h.lock hlock
  rw [bind_ok (b := (k.fs.filled i).size) (congrArg (fun d => Except.ok (d.size, _))
    (lockedFs_din k i))] at hret
  obtain ⟨w, k2, hw, hret⟩ := bind_inv hret
  cases hw
  obtain ⟨⟨⟩, k3, hoff, hret⟩ := bind_inv hret
  obtain ⟨⟨⟩, k4, hunlock, hret⟩ := bind_inv hret
  cases hret
  right
  refine ⟨⟨by simpa using hok, by simpa using hwrite⟩, rfl, ?_, ?_⟩
  · rw [(onFs_iunlock_inv hunlock).1, (modifyFile_inv hoff).1]
    rfl
  · rw [(onFs_iunlock_inv hunlock).2, (modifyFile_inv hoff).2]
    rfl

/-- What `lseek` does: an error, or the sum as a `long`, whose low 32 bits are stored. -/
theorem OpenOn.lseek (h : OpenOn k p fd f i) {offset : Int} {whence : Nat} {r : Int}
    (hret : sysLseek p fd offset whence k = .ok (r, k')) :
    (r < 0 ∧ (k'.files f).off = (k.files f).off) ∨
      whence ≤ 2 ∧ r = toLong (seekBase k i (k.files f).off whence + offset) ∧ 0 ≤ r ∧
        (k'.files f).off = r.toNat % uintMod := by
  unfold sysLseek at hret
  rw [bind_ok h.fdFile] at hret
  dsimp only at hret
  rw [bind_ok (b := k.files f) (t := k) rfl, if_neg (by rw [h.type]; exact fun hn => hn.1 rfl)] at hret
  by_cases hwhence : 2 < whence
  · rw [if_pos hwhence] at hret
    cases hret
    exact Or.inl ⟨by decide, rfl⟩
  rw [if_neg hwhence] at hret
  have hend : ∀ (base : Nat) (k1 : Kern), base = seekBase k i (k.files f).off whence →
      k1.files = k.files →
      (if toLong ((base : Int) + offset) < 0 then fail .einval
        else do
          modifyFile f fun x => { x with off := (toLong ((base : Int) + offset)).toNat % Fs.uintMod }
          pure (toLong ((base : Int) + offset)) : KM Int) k1 = .ok (r, k') →
      (r < 0 ∧ (k'.files f).off = (k.files f).off) ∨
        whence ≤ 2 ∧ r = toLong (seekBase k i (k.files f).off whence + offset) ∧ 0 ≤ r ∧
          (k'.files f).off = r.toNat % uintMod := by
    intro base k1 hbase hfiles hrun
    rw [← hbase]
    by_cases hneg : toLong ((base : Int) + offset) < 0
    · rw [if_pos hneg] at hrun
      cases hrun
      exact Or.inl ⟨by decide, by rw [hfiles]⟩
    rw [if_neg hneg] at hrun
    obtain ⟨⟨⟩, k2, hoff, hrun⟩ := bind_inv hrun
    cases hrun
    exact Or.inr ⟨by omega, rfl, by omega, by rw [(modifyFile_inv hoff).1]⟩
  unfold seekBase at hend ⊢
  by_cases h0 : whence = 0
  · rw [if_pos h0] at hret hend ⊢
    exact hend 0 k rfl rfl hret
  rw [if_neg h0] at hret hend ⊢
  by_cases h1 : whence = 1
  · rw [if_pos h1] at hret hend ⊢
    exact hend (k.files f).off k rfl rfl hret
  rw [if_neg h1, h.ip] at hret
  rw [if_neg h1] at hend ⊢
  obtain ⟨⟨⟩, k1, hlock, hret⟩ := bind_inv hret
  obtain rfl := h.lock hlock
  rw [bind_ok (b := (k.fs.filled i).size) (congrArg (fun d => Except.ok (d.size, _))
    (lockedFs_din k i))] at hret
  obtain ⟨⟨⟩, k2, hunlock, hret⟩ := bind_inv hret
  exact hend _ k2 rfl (onFs_iunlock_inv hunlock).1 hret

/-- `sys_ftruncate`: an error, or `fs_itrunc_to` with the length cut to an `unsigned int`. -/
theorem OpenOn.ftruncate (h : OpenOn k p fd f i) {length r : Int}
    (hret : sysFtruncate p fd length k = .ok (r, k')) :
    (r < 0 ∧ k' = k) ∨
      (r = 0 ∧ 0 ≤ length ∧ k'.files = k.files ∧
        k'.fs = ((lockedFs k i).itruncTo i (length.toNat % uintMod)).iunlock i) := by
  unfold sysFtruncate at hret
  rw [bind_ok h.fdFile] at hret
  dsimp only at hret
  rw [bind_ok (b := k.files f) (t := k) rfl, h.type, h.ip] at hret
  dsimp only at hret
  by_cases hwrite : (k.files f).writable = false
  · rw [if_pos hwrite] at hret
    cases hret
    exact Or.inl ⟨by decide, rfl⟩
  rw [if_neg hwrite] at hret
  by_cases hneg : length < 0
  · rw [if_pos hneg] at hret
    cases hret
    exact Or.inl ⟨by decide, rfl⟩
  rw [if_neg hneg] at hret
  obtain ⟨⟨⟩, k1, hlock, hret⟩ := bind_inv hret
  obtain rfl := h.lock hlock
  obtain ⟨⟨⟩, k2, hcut, hret⟩ := bind_inv hret
  cases hcut
  obtain ⟨⟨⟩, k3, hunlock, hret⟩ := bind_inv hret
  cases hret
  obtain ⟨hfiles, hfs⟩ := onFs_iunlock_inv hunlock
  exact Or.inr ⟨rfl, by omega, hfiles, hfs⟩

/-- One call moves the offset as its result implies. -/
theorem OpenOn.step (h : OpenOn k p fd f i) {o : Nat} {u : Use} {r : Int} (hrange : InRange k i o u)
    (hret : syscall p (u.call fd) k = .ok (r, k')) (hoff : (k.files f).off = o) (hlt : o < uintMod) :
    (k'.files f).off = implied k f i o u r ∧ implied k f i o u r < uintMod := by
  have hmax : maxBytes < uintMod := by decide
  have hsize := h.size
  rw [← lockedFs_din] at hsize
  cases u with
  | read n ok =>
    obtain ⟨x, k1, hread, hret⟩ := bind_inv hret
    cases hret
    rcases h.read hread with ⟨hneg, rfl⟩ | ⟨rfl, hnew⟩
    · rw [implied, Int.toNat_of_nonpos (Int.le_of_lt hneg), add_zero]
      exact ⟨hoff, hlt⟩
    rw [hoff] at hnew
    rw [implied, Int.toNat_natCast, hoff]
    have hend : o + ((lockedFs k i).readi i o n).1.length < uintMod := by
      rcases @length_readi (lockedFs k i) i o n hsize hrange with hnil | hle
      · rw [hnil]
        exact hlt
      · omega
    rw [mod_eq_of_lt hend] at hnew
    exact ⟨hnew, hend⟩
  | write src ok =>
    rw [implied]
    rcases h.write hret with ⟨hneg, rfl, hnot⟩ | ⟨hdone, hr, hnew, -⟩
    · rw [if_neg hnot]
      exact ⟨hoff, hlt⟩
    rw [hoff] at hr hnew
    rw [if_pos hdone]
    have hstart : writeStart k f i o < uintMod := by
      have hfile := h.size
      unfold writeStart
      split <;> omega
    cases hw : ((lockedFs k i).writei i src (writeStart k f i o)).1 with
    | none =>
      rw [hw] at hr hnew
      have hneg : r.toNat = 0 := by
        rw [hr]
        rfl
      rw [hneg, add_zero]
      exact ⟨hnew.trans (mod_eq_of_lt hstart), hstart⟩
    | some w =>
      rw [hw] at hr hnew
      have hend := writei_end hsize hrange hw
      have hpos : r.toNat = w := by
        rw [hr]
        rfl
      rw [hpos]
      exact ⟨hnew.trans (mod_eq_of_lt (by show writeStart k f i o + w < uintMod; omega)), by omega⟩
  | lseek offset whence =>
    rw [implied]
    rcases h.lseek hret with ⟨hneg, hnew⟩ | ⟨hwhence, hr, hpos, hnew⟩
    · rw [if_neg (by omega)]
      exact ⟨hnew.trans hoff, hlt⟩
    rw [if_pos hpos]
    obtain ⟨hlow, hchecked⟩ := hrange
    rw [hoff] at hr
    have hhigh := hchecked hwhence (hr ▸ hpos)
    have hsum : toLong (seekBase k i o whence + offset) = seekBase k i o whence + offset := by
      unfold toLong ulongMod
      exact Int.bmod_eq_of_le (by omega) (by omega)
    have hend : r.toNat < uintMod := by
      unfold uintMod
      omega
    exact ⟨hnew.trans (mod_eq_of_lt hend), hend⟩
  | ftruncate length =>
    rcases h.ftruncate hret with ⟨-, rfl⟩ | ⟨-, -, hfiles, -⟩
    · exact ⟨hoff, hlt⟩
    · rw [hfiles]
      exact ⟨hoff, hlt⟩

/-- In every state of a run the offset is the implied one. -/
theorem Uses.off {k0 : Kern} {o0 o : Nat} (h : Uses p fd f i k0 o0 k o) (h₀ : (k0.files f).off = o0)
    (hlt : o0 < uintMod) : (k.files f).off = o ∧ o < uintMod := by
  induction h with
  | start => exact ⟨h₀, hlt⟩
  | use _ hopen hrange hret ih => exact hopen.step hrange hret ih.1 ih.2
  | other _ hoff ih => exact ⟨hoff.trans ih.1, ih.2⟩

end

/-! ## What the next call does -/

section

variable {k k' : Kern} {p fd f i o : Nat}

theorem OpenOn.read_bytes (h : OpenOn k p fd f i) (hoff : (k.files f).off = o)
    (hsolid : NoHoles k.fs.bread (k.fs.filled i)) {n : Nat} {dev r : Int} {bs : List UInt8} (hn : n < 2 ^ 31)
    (hr : 0 ≤ r) (hret : sysRead p fd n true dev k = .ok ((r, bs), k')) :
    bs = ((fileBytes k.fs.bread (k.fs.filled i)).drop o).take n := by
  rcases h.read hret with ⟨hneg, -⟩ | ⟨hbs, -⟩
  · exact absurd hneg (by show ¬ r < 0; omega)
  rw [hoff] at hbs
  obtain ⟨-, rfl⟩ := Prod.mk.inj hbs
  have hdin := lockedFs_din k i
  by_cases hle : o ≤ (k.fs.filled i).size
  · have hsize := h.size
    have hread := @readi_inside (lockedFs k i) i o n (by rw [hdin]; exact hsolid) (by rw [hdin]; exact hsize)
      (by rw [hdin]; exact hle) (by unfold maxBytes at hsize; unfold uintMod; omega)
    rw [hread, hdin, drop_fileBytes hle]
    rfl
  · unfold readi
    rw [hdin, if_pos (by omega), List.drop_eq_nil_of_le (by rw [length_fileBytes]; omega),
      List.take_nil]

/-- The file loses no byte below `n` on disk. -/
def KeepsBytes (k k' : Kern) (i n : Nat) : Prop :=
  n ≤ (k'.fs.onDisk i).size ∧
    ∀ b < n, byteAt k'.fs.disk (k'.fs.onDisk i) b = byteAt k.fs.disk (k.fs.onDisk i) b

/-- `sys_ftruncate` keeps the bytes below the new length when the length is below 2^32, or what is left
of it does not cut the file. -/
theorem OpenOn.keepsBytes (h : OpenOn k p fd f i) (hintact : Intact k.fs i)
    (hsync : k.fs.onDisk i = (k.fs.icache i).din) (hvalid : (k.fs.icache i).valid = true) {length : Int}
    (hlen : length < 2 ^ 32 ∨ (k.fs.filled i).size ≤ length.toNat % 2 ^ 32)
    (hret : sysFtruncate p fd length k = .ok (0, k')) :
    KeepsBytes k k' i (min (k.fs.filled i).size length.toNat) := by
  rcases h.ftruncate hret with ⟨hneg, -⟩ | ⟨-, hpos, -, hfs⟩
  · omega
  have hfilled : k.fs.filled i = (k.fs.icache i).din := if_pos hvalid
  have hlocked : (lockedFs k i).icache i = { k.fs.icache i with locked := true } := by
    unfold lockedFs
    rw [setInode_icache_self, hfilled, ← hvalid]
  have hold : Intact (lockedFs k i) i := Intact.congr hintact rfl rfl rfl (by rw [hlocked]) (by rw [hlocked])
  have hdisk : ∀ t : FileSys, (t.iunlock i).disk = t.disk ∧ (t.iunlock i).onDisk i = t.onDisk i := by
    intro t
    unfold FileSys.iunlock
    split
    · exact ⟨rfl, rfl⟩
    refine ⟨rfl, ?_⟩
    unfold onDisk setLocked
    rw [setInode_icache_self]
    rfl
  unfold KeepsBytes
  rw [hfs, (hdisk _).1, (hdisk _).2, hsync, hfilled]
  rw [hfilled] at hlen
  generalize hn : length.toNat % uintMod = n
  have hdin : ((lockedFs k i).icache i).din = (k.fs.icache i).din := by rw [hlocked]
  by_cases hcut : (k.fs.icache i).din.size ≤ n
  · -- nothing is cut
    have hsame : (lockedFs k i).itruncTo i n = lockedFs k i := by
      unfold itruncTo
      rw [hdin, if_pos hcut]
    have honDisk : (lockedFs k i).onDisk i = (k.fs.icache i).din := by
      rw [← hsync]
      unfold onDisk
      rw [hlocked]
      rfl
    rw [hsame, honDisk]
    exact ⟨min_le_left .., fun _ _ => rfl⟩
  have hnlen : n = length.toNat := by
    rw [← hn]
    unfold uintMod at hn ⊢
    omega
  by_cases h0 : n = 0
  · rw [← hnlen, h0, Nat.min_zero]
    exact ⟨zero_le _, fun b hb => absurd hb (not_lt_zero b)⟩
  have hlt : n < ((lockedFs k i).icache i).din.size := by
    rw [hdin]
    omega
  obtain ⟨s1, A, hzero, hcutDisk⟩ := hold.placed.itruncTo_cut (pos_of_ne_zero h0) hlt
  have hlt1 : n < (s1.icache i).din.size := by
    rw [hzero.icache]
    exact hlt
  rw [← hnlen]
  refine ⟨?_, fun b hb => ?_⟩
  · rw [hcutDisk.inode]
    exact min_le_right ..
  have hb' : b < n := by omega
  rw [hcutDisk.byteAt_eq hzero.placed (pos_of_ne_zero h0) hlt1 hb', hzero.icache, hzero.bytes b hb', hdin]
  rfl

end

/-- In every state of a run in which each `lseek` that passes its checks asks for an offset below 2^32, the
offset of the open file is the one the calls imply. The next read returns the bytes from there on, the next write goes there
(or to the end, in append mode), and the next `ftruncate` keeps what is below the new length, unless
the length is 2^32 or more and what is left of it cuts the file. -/
theorem offsets_exact {k0 k : Kern} {p fd f i o0 o : Nat} (hrun : Uses p fd f i k0 o0 k o)
    (h₀ : (k0.files f).off = o0) (hlt : o0 < 2 ^ 32) (hopen : OpenOn k p fd f i) :
    (k.files f).off = o ∧
    (∀ n dev r bs k', n < 2 ^ 31 → NoHoles k.fs.bread (k.fs.filled i) → 0 ≤ r →
      sysRead p fd n true dev k = .ok ((r, bs), k') →
        bs = ((fileBytes k.fs.bread (k.fs.filled i)).drop o).take n) ∧
    (∀ src dev r k', (k.files f).writable = true → sysWrite p fd src true dev k = .ok (r, k') →
      r = (((lockedFs k i).writei i src (writeStart k f i o)).1.elim (-1) fun n => (n : Int)) ∧
        k'.fs = ((lockedFs k i).writei i src (writeStart k f i o)).2.iunlock i) ∧
    (∀ length k', Intact k.fs i → k.fs.onDisk i = (k.fs.icache i).din → (k.fs.icache i).valid = true →
      (length < 2 ^ 32 ∨ (k.fs.filled i).size ≤ length.toNat % 2 ^ 32) →
      sysFtruncate p fd length k = .ok (0, k') →
        KeepsBytes k k' i (min (k.fs.filled i).size length.toNat)) := by
  obtain ⟨hoff, -⟩ := hrun.off h₀ hlt
  refine ⟨hoff, fun n dev r bs k' hn hsolid hr hret => ?_, fun src dev r k' hwrite hret => ?_,
    fun length k' hintact hsync hvalid hlen hret => ?_⟩
  · exact hopen.read_bytes hoff hsolid hn hr hret
  · rcases hopen.write hret with ⟨-, -, hnot⟩ | ⟨-, hr, -, hfs⟩
    · exact absurd ⟨rfl, hwrite⟩ hnot
    · rw [hoff] at hr hfs
      exact ⟨hr, hfs⟩
  · exact hopen.keepsBytes hintact hsync hvalid hlen hret

/-! ## A file of 524 blocks -/

/-- Descriptor 3 of process 0 is a file of 536576 bytes. -/
def offsetKern : Kern :=
  { mm := smallMachine.memory, pipes := smallMachine.pipes,
    procs := fun _ => { emptyProc with ofile := fun fd => if fd = 3 then some 0 else none },
    files := fun _ => { newFile with type := .inode, readable := true, writable := true, ip := some 0 },
    fs := { twoInner.iupdate 0 with icache := fun _ => { twoInner.icache 0 with locked := false } },
    nextpid := 1, initramfs := fun _ => none }

theorem offsetKern_filled : offsetKern.fs.filled 0 = twoInnerDin := rfl

theorem offsetKern_open : OpenOn offsetKern 0 3 0 0 where
  slot := by decide
  file := rfl
  type := rfl
  ip := rfl
  ref := by decide
  size := by
    rw [offsetKern_filled, twoInner_size]
    decide

theorem offsetKern_seek (offset : Int) (h : 0 ≤ toLong (0 + offset)) :
    sysLseek 0 3 offset 0 offsetKern = .ok (toLong (0 + offset), offsetKern.setFile 0
      { offsetKern.files 0 with off := (toLong (0 + offset)).toNat % uintMod }) := by
  show (if toLong (0 + offset) < 0 then fail .einval
    else do
      modifyFile 0 fun x => { x with off := (toLong (0 + offset)).toNat % Fs.uintMod }
      pure (toLong (0 + offset)) : KM Int) offsetKern = _
  rw [if_neg (by omega)]
  rfl

theorem offsetKern_solid : NoHoles offsetKern.fs.bread twoInnerDin := by
  have hread : offsetKern.fs.bread = (twoInner.iupdate 0).disk := by
    funext c
    show (Function.update (fun _ => none) _ none c : Option Fs.Block).getD _ = _
    rw [Function.update_eq_self_iff.2 rfl]
    rfl
  rw [hread]
  exact twoInner_intact.iupdate.solid

/-- The offset goes to 1000, and the file is then cut by one byte. -/
theorem offsets_exact_seek : ∃ k k' : Kern, sysLseek 0 3 1000 0 offsetKern = .ok (1000, k) ∧
    (k.files 0).off = 1000 ∧
    (∀ bs k1, sysRead 0 3 2000 true 0 k = .ok ((2000, bs), k1) →
      bs = ((fileBytes k.fs.bread twoInnerDin).drop 1000).take 2000) ∧
    (∀ r k1, sysWrite 0 3 [1] true 0 k = .ok (r, k1) →
      r = ((lockedFs k 0).writei 0 [1] 1000).1.elim (-1) fun n => (n : Int)) ∧
    sysFtruncate 0 3 536575 k = .ok (0, k') ∧ KeepsBytes k k' 0 536575 := by
  have hseek := offsetKern_seek 1000 (by decide)
  have hopen : OpenOn (offsetKern.setFile 0 { offsetKern.files 0 with
      off := (toLong (0 + 1000)).toNat % uintMod }) 0 3 0 0 :=
    { slot := by decide, file := rfl, type := rfl, ip := rfl, ref := by decide, size := offsetKern_open.size }
  have hrun : Uses 0 3 0 0 offsetKern 0 _ 1000 := Uses.use (u := .lseek 1000 0) Uses.start offsetKern_open
    ⟨by decide, fun _ _ => by decide⟩ hseek
  obtain ⟨hoff, hread, hwrite, hcut⟩ := offsets_exact hrun rfl (by decide) hopen
  refine ⟨_, _, hseek, hoff, fun bs k1 hret => ?_, fun r k1 hret => ?_, rfl, ?_⟩
  · exact hread 2000 0 2000 bs k1 (by decide) offsetKern_solid (by decide) hret
  · exact (hwrite [1] 0 r k1 rfl hret).1
  have hkeep := hcut 536575 _ (Intact.congr twoInner_intact.iupdate rfl rfl rfl rfl rfl)
    (iupdate_disk twoInner twoInner_fits).1 rfl (Or.inl (by decide)) rfl
  rw [show (offsetKern.setFile 0 _).fs.filled 0 = twoInnerDin from rfl, twoInner_size] at hkeep
  exact hkeep

/-- Seeking to 2^32 goes to the start of the file, and truncation to 2^32 cuts all of it. -/
theorem offsets_wrap : OpenOn offsetKern 0 3 0 0 ∧ (offsetKern.fs.filled 0).size = 536576 ∧
    (∃ k, sysLseek 0 3 (2 ^ 32) 0 offsetKern = .ok (2 ^ 32, k) ∧ (k.files 0).off = 0) ∧
    ∃ k, sysFtruncate 0 3 (2 ^ 32) offsetKern = .ok (0, k) ∧ (k.fs.icache 0).din.size = 0 := by
  have hcut : ∀ length : Int, ¬ length < 0 → ∃ k, sysFtruncate 0 3 length offsetKern = .ok (0, k) := by
    intro length hpos
    show ∃ k, (if length < 0 then fail .einval else _ : KM Int) offsetKern = .ok (0, k)
    rw [if_neg hpos]
    exact ⟨_, rfl⟩
  obtain ⟨k, hret⟩ := hcut (2 ^ 32) (by decide)
  refine ⟨offsetKern_open, twoInner_size, ⟨_, offsetKern_seek (2 ^ 32) (by decide), rfl⟩, k, hret, ?_⟩
  rcases offsetKern_open.ftruncate hret with ⟨hneg, -⟩ | ⟨-, -, -, hfs⟩
  · exact absurd hneg (by decide)
  · rw [hfs, iunlock_din, show (2 ^ 32 : Int).toNat % uintMod = 0 by decide, itruncTo_zero_size]

end Slopix.Kernel
