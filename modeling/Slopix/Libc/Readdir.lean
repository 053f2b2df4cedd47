import Slopix.Kernel.Getdents

/-!
# Reading a directory

`readdir` of `libc/dirent.c` over the calls of `sys_getdents`. A stream keeps the buffer of the last
call and the position in it; when the position reaches the end the next call refills the buffer. What is
still to come of a stream is what is left in its buffer and then what the directory holds from the
offset of the descriptor on.
-/

namespace Slopix.Libc

open Lib Fs Kernel

/-- `DIR`, with the offset of its descriptor and the file system behind it. -/
structure DirStream where
  buf : Bytes
  pos : Nat
  stop : Nat
  off : Nat
  fs : FileSys

/-- `opendir`: nothing is buffered. -/
def opendir (buf : Bytes) (s : FileSys) : DirStream := ⟨buf, 0, 0, 0, s⟩

/-- `getdents(dirp->fd, dirp->buf, sizeof(dirp->buf))` when the buffer is used up. -/
def refill (i : Nat) (st : DirStream) : DirStream :=
  if st.stop ≤ st.pos then
    let r := getdents i 1024 st.fs st.off st.buf
    if r.1.1 = 0 then { st with buf := r.1.2.2, off := r.1.2.1, fs := r.2 }
    else ⟨r.1.2.2, 0, r.1.1, r.1.2.1, r.2⟩
  else st

/-- `readdir` on directory `i`; `NAME_MAX` is 255. -/
def readdir (i : Nat) (st : DirStream) : Option (Nat × Name) × DirStream :=
  let t := refill i st
  let len := getLe 2 t.buf (t.pos + 16)
  if t.stop ≤ t.pos ∨ len = 0 then (none, t)
  else
    (some (getLe 8 t.buf t.pos, (getBytes t.buf (t.pos + 18) 255).takeWhile (· != 0)),
      { t with pos := t.pos + len })

/-- What repeated calls return until the end of the directory. -/
inductive Reads (i : Nat) : DirStream → List (Nat × Name) → Prop
  | done {st : DirStream} (h : (readdir i st).1 = none) : Reads i st []
  | more {st : DirStream} {x : Nat × Name} {l : List (Nat × Name)} (h : (readdir i st).1 = some x)
      (rest : Reads i (readdir i st).2 l) : Reads i st (x :: l)

/-- The live entries of a directory. -/
def entries (s : FileSys) (i : Nat) : List (Nat × Name) := liveEntries (dirents s.bread (s.icache i).din)

theorem entries_eq (s : FileSys) (i : Nat) : entries s i = entriesFrom s i 0 := by
  unfold entries entriesFrom slots dirents
  rw [Nat.sub_zero, List.range_eq_range']

/-- What a stream has still to return: the records in its buffer, then the entries from slot `j` on. -/
structure Pending (s : FileSys) (i : Nat) (st : DirStream) (front : List (Nat × Name)) (j : Nat) : Prop where
  fs : st.fs = s
  off : st.off = 64 * j
  le : j ≤ (s.icache i).din.size / 64
  records : Records st.buf st.stop st.pos front
  name : ∀ x ∈ front, (0 : UInt8) ∉ x.2 ∧ x.2.length ≤ 62

section

variable {s : FileSys} {i j : Nat} {st : DirStream} {front : List (Nat × Name)}

theorem liveEntries_name {l : List (List UInt8)} {x : Nat × Name} (hx : x ∈ liveEntries l) :
    (0 : UInt8) ∉ x.2 ∧ x.2.length ≤ 62 := by
  obtain ⟨de, -, rfl⟩ := List.mem_map.1 hx
  exact ⟨zero_notMem_direntName de, length_direntName de⟩

theorem Pending.opendir (buf : Bytes) : Pending s i (Libc.opendir buf s) [] 0 :=
  ⟨rfl, rfl, Nat.zero_le _, rfl, by simp⟩

/-- After the refill the buffer holds the next record, or there is none. -/
theorem Pending.refill (h : Pending s i st front j) (hno : NoHoles s.bread (s.icache i).din)
    (hsize : (s.icache i).din.size ≤ maxBytes) :
    (front ++ entriesFrom s i j = [] ∧ (refill i st).stop ≤ (refill i st).pos) ∨
      ∃ x front' j', Pending s i (Libc.refill i st) (x :: front') j' ∧
        front ++ entriesFrom s i j = x :: front' ++ entriesFrom s i j' := by
  obtain ⟨rfl, hoff, hj, hrec, hname⟩ := h
  unfold Libc.refill
  cases front with
  | cons x front =>
    have hle := hrec.2.le
    have hpos := (reclen_bounds x.2).1
    rw [if_neg (by omega)]
    exact Or.inr ⟨x, front, j, ⟨rfl, hoff, hj, hrec, hname⟩, rfl⟩
  | nil =>
    obtain ⟨j', n, b', hrun, hf⟩ := @getdents_spec _ i 1024 j hno hsize hj st.buf
    rw [if_pos (Nat.le_of_eq hrec.symm), hoff, hrun, List.nil_append]
    by_cases hn : n = 0
    · subst hn
      refine Or.inl ⟨hf.finished fun x hx => ?_, Nat.le_of_eq hrec.symm⟩
      have hlen := (reclen_bounds x.2).2
      have hshort := (liveEntries_name hx).2
      omega
    rw [if_neg hn]
    have hrecords := hf.records
    cases hl : liveEntries (slots st.fs i j j') with
    | nil =>
      rw [hl] at hrecords
      exact absurd hrecords.symm hn
    | cons x front =>
      refine Or.inr ⟨x, front, j', ⟨rfl, rfl, hf.le, ?_, fun y hy => ?_⟩, ?_⟩
      · rw [← hl]
        exact hf.records
      · rw [← hl] at hy
        exact liveEntries_name hy
      · rw [← hl]
        exact entriesFrom_split hf.ge hf.le

/-- A call returns the first entry that is still to come, or the end. -/
theorem Pending.readdir (h : Pending s i st front j) (hno : NoHoles s.bread (s.icache i).din)
    (hsize : (s.icache i).din.size ≤ maxBytes) :
    (front ++ entriesFrom s i j = [] ∧ (readdir i st).1 = none) ∨
      ∃ x front' j', (readdir i st).1 = some x ∧ Pending s i (Libc.readdir i st).2 front' j' ∧
        front ++ entriesFrom s i j = x :: (front' ++ entriesFrom s i j') := by
  unfold Libc.readdir
  rcases h.refill hno hsize with ⟨hnil, hempty⟩ | ⟨x, front', j', hnext, hsplit⟩
  · rw [if_pos (Or.inl hempty)]
    exact Or.inl ⟨hnil, rfl⟩
  have hrec := hnext.records
  have hle := hrec.2.le
  have hpos := (reclen_bounds x.2).1
  obtain ⟨hzero, hshort⟩ := hnext.name x List.mem_cons_self
  dsimp only
  rw [hrec.1.len, if_neg (by omega), hrec.1.ino, hrec.1.string hzero (by omega)]
  refine Or.inr ⟨x, front', j', rfl, ?_, hsplit⟩
  exact ⟨hnext.fs, hnext.off, hnext.le, hrec.2, fun y hy => hnext.name y (List.mem_cons_of_mem x hy)⟩

/-- The calls return what is still to come, and nothing else. -/
theorem Pending.reads (h : Pending s i st front j) (hno : NoHoles s.bread (s.icache i).din)
    (hsize : (s.icache i).din.size ≤ maxBytes) (l : List (Nat × Name)) :
    Reads i st l ↔ l = front ++ entriesFrom s i j := by
  constructor
  · intro hl
    induction hl generalizing front j with
    | done hnone =>
      rcases h.readdir hno hsize with ⟨hnil, -⟩ | ⟨x, _, _, hsome, -, -⟩
      · exact hnil.symm
      · rw [hnone] at hsome
        cases hsome
    | more hsome rest ih =>
      rcases h.readdir hno hsize with ⟨-, hnone⟩ | ⟨x, front', j', hsome', hnext, hsplit⟩
      · rw [hnone] at hsome
        cases hsome
      · rw [hsome'] at hsome
        cases hsome
        rw [hsplit, ih hnext]
  rintro rfl
  obtain ⟨m, hm⟩ : ∃ m, m = (front ++ entriesFrom s i j).length := ⟨_, rfl⟩
  induction m generalizing st front j with
  | zero =>
    rcases h.readdir hno hsize with ⟨hnil, hnone⟩ | ⟨x, front', j', -, -, hsplit⟩
    · rw [hnil]
      exact .done hnone
    · rw [hsplit] at hm
      cases hm
  | succ m ih =>
    rcases h.readdir hno hsize with ⟨hnil, hnone⟩ | ⟨x, front', j', hsome, hnext, hsplit⟩
    · rw [hnil]
      exact .done hnone
    · rw [hsplit] at hm ⊢
      exact .more hsome (ih hnext (by simpa using hm))

end

/-- Repeated calls of `sys_getdents` return the live entries of a directory, in slot order and each once,
whatever the size of the buffer, as long as a record fits; and `readdir` returns the same entries and
then the end. -/
theorem directory_listed {s : FileSys} {i : Nat} (hno : NoHoles s.bread (s.icache i).din)
    (hsize : (s.icache i).din.size ≤ maxBytes) :
    (∀ count, (∀ x ∈ entries s i, reclen x.2 ≤ count) → (∃ bufs, Listing i count s 0 bufs) ∧
      ∀ bufs, Listing i count s 0 bufs → ∃ parts, bufs.mapM (fun x => parse x.2 x.1) = some parts ∧
        parts.flatten = entries s i) ∧
      ∀ buf l, Reads i (opendir buf s) l ↔ l = entries s i := by
  rw [entries_eq]
  refine ⟨fun count hcount => ⟨?_, fun bufs hbufs => ?_⟩, fun buf l => ?_⟩
  · exact exists_listing (j := 0) hno hsize (Nat.zero_le _)
  · exact listing_spec hbufs hno hsize rfl (Nat.zero_le _) hcount
  · exact (Pending.opendir buf).reads hno hsize l

/-- A directory of three slots, the second of them free. -/
def threeSlots : FileSys where
  sb := ⟨0, 0, 0, 0⟩
  disk _ := fun k => (dirent 1 dot ++ emptyDirent ++ dirent 7 [97, 98]).getD k 0
  buf _ := none
  icache _ := ⟨0, 1, 1, true, true, ⟨tDir, 0, 0, 1, 192, fun _ => 5⟩⟩

/-- Two entries with an empty slot between them. -/
theorem directory_listed_threeSlots :
    Reads 0 (opendir (fun _ => 0) threeSlots) [(1, dot), (7, [97, 98])] := by
  have hno : NoHoles threeSlots.bread (threeSlots.icache 0).din := by
    intro bn hbn
    have hsize : (threeSlots.icache 0).din.size = 192 := rfl
    obtain rfl : bn = 0 := by omega
    decide
  exact ((directory_listed hno (by decide)).2 _ _).2 (by decide)

end Slopix.Libc
