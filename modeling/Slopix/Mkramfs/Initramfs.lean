import Mathlib.Data.List.Nodup
import Slopix.Lib.Record

/-!
# The initial RAM file system

`mkramfs` packs files into one image, and `initramfs_find` of `kernel/initramfs.c` looks names up in it. An
entry is two lengths, the name and the data, both padded to four bytes. The lengths are 32-bit numbers on both
sides, and rounding them up wraps for the last three.
-/

namespace Slopix.Mkramfs

open Lib List Option

/-- `uint32_t` counts modulo this. -/
def uint32Mod : Nat := 2 ^ 32

/-- `INITRAMFS_MAGIC`. -/
def initramfsMagic : Nat := 0x4D415253

/-- `align4`, on both sides: `(n + 3) & ~3` of a 32-bit number. -/
def align4 (n : Nat) : Nat := (n + 3) % uint32Mod / 4 * 4

/-! ## Packing -/

/-- A file that `mkramfs` can open: its path on the host and its bytes. -/
structure HostFile where
  path : List UInt8
  data : List UInt8

/-- The part of a path behind its last slash. -/
def baseName (path : List UInt8) : List UInt8 := (path.reverse.takeWhile (· != 47)).reverse

/-- The number of characters in front of the last dot, or of all when there is none. -/
def stemLength (name : List UInt8) : Nat :=
  if 46 ∈ name then name.length - ((name.reverse.takeWhile (· != 46)).length + 1) else name.length

/-- The name of a file in the image: its base name without the last extension. -/
def HostFile.stripped (f : HostFile) : List UInt8 := (baseName f.path).take (stemLength (baseName f.path))

/-- `write_padding`: nothing when the rounded length has wrapped. -/
def padding (len : Nat) : List UInt8 := List.replicate (align4 len - len) 0

/-- What `mkramfs` writes for one file. Both lengths are cut to 32 bits. -/
def packFile (f : HostFile) : List UInt8 :=
  let nameLen := stemLength (baseName f.path) % uint32Mod
  let dataLen := f.data.length % uint32Mod
  leBytes 4 nameLen ++ (leBytes 4 dataLen ++ ((baseName f.path).take nameLen ++ (padding nameLen ++
    (f.data.take dataLen ++ padding dataLen))))

/-- The image that `mkramfs` writes. -/
def mkramfs (files : List HostFile) : List UInt8 :=
  leBytes 4 initramfsMagic ++ (leBytes 4 (files.length % uint32Mod) ++ files.flatMap packFile)

/-! ## Looking up a name -/

/-- `struct initramfs_entry`: offsets in the image for the pointers. -/
structure InitramfsEntry where
  name : Nat
  data : Nat
  size : Nat

/-- A 32-bit number of the image; nothing behind its end. -/
def word (img : List UInt8) (o : Nat) : Option Nat :=
  if o + 4 ≤ img.length then some (getLe 4 (fileBytesOf img) o) else none

/-- Whether `strncmp` returns 0 for a string and the bytes of the image from `o` on. -/
def strncmpZero (img : List UInt8) : List UInt8 → Nat → Nat → Option Bool
  | _, _, 0 => some true
  | [], o, _ + 1 => img[o]?.map (· == 0)
  | a :: s, o, n + 1 => do
      let c ← img[o]?
      if a = c then strncmpZero img s (o + 1) n else some false

/-- The test of an entry: its name has the length and the bytes of `name`. -/
def sameName (img name : List UInt8) (nameLen fileName : Nat) : Option Bool :=
  if nameLen = name.length % uint32Mod then strncmpZero img name fileName (name.length % uint32Mod)
  else some false

/-- The loop of `initramfs_find`. The outer `none` is a read behind the image, the inner one a failed
search. -/
def findLoop (img name : List UInt8) : Nat → Nat → Option (Option InitramfsEntry)
  | 0, _ => some none
  | n + 1, ptr => do
      let nameLen ← word img ptr
      let hit ← sameName img name nameLen (ptr + 8)
      let dataLen ← word img (ptr + 4)
      let fileData := ptr + 8 + align4 nameLen
      if hit then some (some { name := ptr + 8, data := fileData, size := dataLen })
      else findLoop img name n (fileData + align4 dataLen)

/-- `initramfs_find` in an image. -/
def initramfsFind (img name : List UInt8) : Option (Option InitramfsEntry) :=
  if img = [] then some none
  else do
    let magic ← word img 0
    if magic ≠ initramfsMagic then some none
    else do
      let count ← word img 4
      findLoop img name count 8

/-! ## Reading what was written -/

section

variable {img rest s t : List UInt8} {o n v : Nat}

theorem word_of_remains (h : Remains img o (leBytes 4 v ++ rest)) (hv : v < uint32Mod) : word img o = some v := by
  obtain ⟨pre, rfl, rfl⟩ := h
  have hlen : pre.length + 4 ≤ (pre ++ (leBytes 4 v ++ rest)).length := by
    simp only [length_append, length_leBytes]
    omega
  have hnum := getLe_append (n := 4) pre (leBytes 4 v ++ rest) 0
  rw [getLe_leBytes rest (by unfold uint32Mod at hv; omega), add_zero] at hnum
  unfold word
  rw [if_pos hlen, hnum]

theorem strncmpZero_eq (h : Remains img o (t ++ rest)) (hlen : s.length = t.length) :
    strncmpZero img s o s.length = some (decide (s = t)) := by
  induction s generalizing o t with
  | nil =>
    obtain rfl : t = [] := length_eq_zero_iff.1 hlen.symm
    rfl
  | cons a s ih =>
    cases t with
    | nil => cases hlen
    | cons c t =>
      have hc : img[o]? = some c := by
        obtain ⟨pre, rfl, rfl⟩ := h
        rw [List.getElem?_append_right (Nat.le_refl _), Nat.sub_self]
        rfl
      have hcons : Remains img o ([c] ++ (t ++ rest)) := h
      have hnext : Remains img (o + 1) (t ++ rest) := hcons.skip (o + 1) rfl
      rw [length_cons, strncmpZero, hc, bind_eq_bind, bind_some]
      by_cases ha : a = c
      · rw [if_pos ha, ih hnext (Nat.succ.inj hlen), ha]
        simp
      · rw [if_neg ha]
        simp [ha]

theorem length_padding (h : n ≤ uint32Mod - 4) : n + (padding n).length = align4 n := by
  unfold padding align4 uint32Mod at *
  rw [length_replicate]
  omega

end

section

variable {img rest name : List UInt8} {f : HostFile} {ptr n : Nat}

theorem stemLength_le (name : List UInt8) : stemLength name ≤ name.length := by
  unfold stemLength
  split
  · omega
  · exact le_refl _

theorem HostFile.length_stripped (f : HostFile) : f.stripped.length = stemLength (baseName f.path) := by
  unfold HostFile.stripped
  rw [length_take, min_eq_left (stemLength_le _)]

theorem packFile_eq (hname : f.stripped.length < uint32Mod) (hdata : f.data.length < uint32Mod) :
    packFile f = leBytes 4 f.stripped.length ++ (leBytes 4 f.data.length ++ (f.stripped ++
      (padding f.stripped.length ++ (f.data ++ padding f.data.length)))) := by
  rw [HostFile.length_stripped] at hname
  unfold packFile
  simp only [Nat.mod_eq_of_lt hname, Nat.mod_eq_of_lt hdata, take_length, HostFile.length_stripped]
  rfl

/-- The file `f` as an entry describes it. -/
structure Describes (img : List UInt8) (e : InitramfsEntry) (f : HostFile) : Prop where
  name : StandsAt img e.name f.stripped
  data : StandsAt img e.data f.data
  size : e.size = f.data.length

theorem findLoop_succ (h : Remains img ptr (packFile f ++ rest)) (hname : f.stripped.length ≤ uint32Mod - 4)
    (hdata : f.data.length < uint32Mod) (hsearch : name.length < uint32Mod) (n : Nat) :
    ∃ e, Describes img e f ∧ findLoop img name (n + 1) ptr = if f.stripped = name then some (some e)
      else findLoop img name n (ptr + 8 + align4 f.stripped.length + align4 f.data.length) := by
  have hlt : f.stripped.length < uint32Mod := by
    omega
  rw [packFile_eq hlt hdata] at h
  simp only [append_assoc] at h
  have hnameLen := word_of_remains h hlt
  have h1 := h.skip (ptr + 4) (by rw [length_leBytes])
  have hdataLen := word_of_remains h1 hdata
  have h2 := h1.skip (ptr + 8) (by rw [length_leBytes])
  have h3 := (h2.skip _ rfl).skip (ptr + 8 + align4 f.stripped.length) (by
    rw [add_assoc, length_padding hname])
  refine ⟨{ name := ptr + 8, data := ptr + 8 + align4 f.stripped.length, size := f.data.length },
    ⟨h2.part, h3.part, rfl⟩, ?_⟩
  have hhit : sameName img name f.stripped.length (ptr + 8) = some (decide (f.stripped = name)) := by
    unfold sameName
    rw [Nat.mod_eq_of_lt hsearch]
    by_cases hlen : f.stripped.length = name.length
    · rw [if_pos hlen, strncmpZero_eq h2 hlen.symm]
      simp only [eq_comm]
    · rw [if_neg hlen]
      have hne : f.stripped ≠ name := fun e => hlen (congrArg List.length e)
      simp [hne]
  rw [findLoop]
  simp only [hnameLen, hhit, hdataLen, bind_eq_bind, bind_some, decide_eq_true_eq]

end

/-! ## The whole image -/

/-- The lists of files that `mkramfs` packs without cutting or wrapping a length; rounding up the length of the
last file does no harm. -/
structure Packable (files : List HostFile) : Prop where
  name : ∀ f ∈ files, f.stripped.length ≤ uint32Mod - 4
  data : ∀ f ∈ files, f.data.length < uint32Mod
  inner : ∀ f ∈ files.dropLast, f.data.length ≤ uint32Mod - 4

/-- Looking up `name` in the packed image finds the file of that name, or nothing when there is none, and does
not read behind the image. -/
def Right (files : List HostFile) (name : List UInt8) : Prop :=
  (∀ f ∈ files, f.stripped = name → ∃ e, initramfsFind (mkramfs files) name = some (some e) ∧
    Describes (mkramfs files) e f) ∧
  ((∀ f ∈ files, f.stripped ≠ name) → initramfsFind (mkramfs files) name = some none)

section

variable {img name : List UInt8} {files : List HostFile} {f : HostFile} {ptr n : Nat}

theorem Packable.tail (h : Packable (f :: files)) : Packable files where
  name g hg := h.name g (mem_cons_of_mem f hg)
  data g hg := h.data g (mem_cons_of_mem f hg)
  inner g hg := by
    cases files with
    | nil => cases hg
    | cons f' files => exact h.inner g (mem_cons_of_mem f hg)

theorem Packable.name_lt (h : Packable files) (hf : f ∈ files) : f.stripped.length < uint32Mod := by
  have hname := h.name f hf
  unfold uint32Mod at *
  omega

theorem findLoop_files (h : Packable files) (hrem : Remains img ptr (files.flatMap packFile))
    (hsearch : name.length < uint32Mod) :
    (∃ f ∈ files, f.stripped = name ∧ ∃ e, findLoop img name files.length ptr = some (some e) ∧
      Describes img e f) ∨
    (∀ f ∈ files, f.stripped ≠ name) ∧ findLoop img name files.length ptr = some none := by
  induction files generalizing ptr with
  | nil => exact Or.inr ⟨fun f hf => absurd hf not_mem_nil, rfl⟩
  | cons f files ih =>
    obtain ⟨e, hdescribes, hstep⟩ := findLoop_succ hrem (h.name f mem_cons_self)
      (h.data f mem_cons_self) hsearch files.length
    rw [length_cons, hstep]
    by_cases hhit : f.stripped = name
    · rw [if_pos hhit]
      exact Or.inl ⟨f, mem_cons_self, hhit, e, rfl, hdescribes⟩
    rw [if_neg hhit]
    have hrest : (∃ g ∈ files, g.stripped = name ∧ ∃ e, findLoop img name files.length
        (ptr + 8 + align4 f.stripped.length + align4 f.data.length) = some (some e) ∧ Describes img e g) ∨
        (∀ g ∈ files, g.stripped ≠ name) ∧ findLoop img name files.length
          (ptr + 8 + align4 f.stripped.length + align4 f.data.length) = some none := by
      cases files with
      | nil => exact Or.inr ⟨fun g hg => absurd hg not_mem_nil, rfl⟩
      | cons f' files =>
        -- there are more entries, and the padding of this one leads to them
        have hinner : f.data.length ≤ uint32Mod - 4 := h.inner f mem_cons_self
        refine ih h.tail (hrem.skip _ ?_)
        rw [packFile_eq (h.name_lt mem_cons_self) (h.data f mem_cons_self)]
        simp only [length_append, length_leBytes]
        rw [← length_padding (h.name f mem_cons_self), ← length_padding hinner]
        ring
    rcases hrest with ⟨g, hg, hname, e, hfind, hdesc⟩ | ⟨hnone, hfind⟩
    · exact Or.inl ⟨g, mem_cons_of_mem f hg, hname, e, hfind, hdesc⟩
    refine Or.inr ⟨fun g hg => ?_, hfind⟩
    rcases mem_cons.1 hg with rfl | hg
    · exact hhit
    · exact hnone g hg

/-- The search goes over the entries from the first one on. -/
theorem initramfsFind_mkramfs (hcount : files.length < uint32Mod) (name : List UInt8) :
    initramfsFind (mkramfs files) name = findLoop (mkramfs files) name files.length 8 ∧
      Remains (mkramfs files) 8 (files.flatMap packFile) := by
  have h := Remains.start (mkramfs files)
  unfold mkramfs at h
  rw [Nat.mod_eq_of_lt hcount] at h
  have h1 := h.skip 4 (by rw [length_leBytes])
  have hmagic := word_of_remains h (by decide)
  have hnum := word_of_remains h1 hcount
  have himg : mkramfs files = leBytes 4 initramfsMagic ++ (leBytes 4 files.length ++ files.flatMap packFile) := by
    unfold mkramfs
    rw [Nat.mod_eq_of_lt hcount]
  rw [himg]
  refine ⟨?_, h1.skip 8 (by rw [length_leBytes])⟩
  have hne : leBytes 4 initramfsMagic ++ (leBytes 4 files.length ++ files.flatMap packFile) ≠ [] := by
    simp [leBytes]
  unfold initramfsFind
  rw [if_neg hne, hmagic, bind_eq_bind, bind_some, if_neg (not_not.2 rfl), hnum, bind_some]

theorem findLoop_size {e : InitramfsEntry} (h : findLoop img name n ptr = some (some e)) :
    e.size < uint32Mod := by
  induction n generalizing ptr with
  | zero => cases h
  | succ n ih =>
    rw [findLoop] at h
    simp only [bind_eq_bind, bind_eq_some_iff] at h
    obtain ⟨nameLen, -, hit, -, dataLen, hdata, h⟩ := h
    split at h
    · cases h
      unfold word at hdata
      split at hdata
      · cases hdata
        exact getLe_lt 4 _ _
      · cases hdata
    · exact ih h

theorem Packable.right (h : Packable files) (hcount : files.length < uint32Mod)
    (hdistinct : (files.map HostFile.stripped).Nodup) (hsearch : name.length < uint32Mod) : Right files name := by
  obtain ⟨hfind, hrem⟩ := initramfsFind_mkramfs hcount name
  unfold Right
  rw [hfind]
  rcases findLoop_files h hrem hsearch with ⟨f, hf, hsame, e, hhit, hdesc⟩ | ⟨hnone, hmiss⟩
  · refine ⟨fun g hg hname => ?_, fun hno => absurd hsame (hno f hf)⟩
    have hfg : f = g := inj_on_of_nodup_map hdistinct hf hg (hsame.trans hname.symm)
    exact ⟨e, hhit, hfg ▸ hdesc⟩
  · exact ⟨fun g hg hname => absurd hname (hnone g hg), fun _ => hmiss⟩

theorem Right.data_lt (h : Right files f.stripped) (hcount : files.length < uint32Mod) (hf : f ∈ files) :
    f.data.length < uint32Mod := by
  obtain ⟨e, hfind, hdesc⟩ := h.1 f hf rfl
  rw [(initramfsFind_mkramfs hcount _).1] at hfind
  rw [← hdesc.size]
  exact findLoop_size hfind

theorem count_lt (hargc : files.length + 2 < 2 ^ 31) : files.length < uint32Mod := by
  unfold uint32Mod
  omega

/-- Packing and looking up agree as long as no length is cut or wraps. A file whose length is cut is never found
as it was. -/
theorem initramfs_round_trip (files : List HostFile) (hargc : files.length + 2 < 2 ^ 31)
    (hdistinct : (files.map HostFile.stripped).Nodup) :
    (Packable files → ∀ name, name.length < uint32Mod → Right files name) ∧
      ∀ f ∈ files, Right files f.stripped → f.data.length < uint32Mod :=
  ⟨fun hpack _ hsearch => hpack.right (count_lt hargc) hdistinct hsearch,
    fun _ hf hright => hright.data_lt (count_lt hargc) hf⟩

/-- `init.elf` with three bytes behind `a/x.bin` with one. -/
theorem initramfs_round_trip_small :
    Right [{ path := [97, 47, 120, 46, 98, 105, 110], data := [7] },
      { path := [105, 110, 105, 116, 46, 101, 108, 102], data := [1, 2, 3] }] [105, 110, 105, 116] := by
  refine (initramfs_round_trip _ (by decide) (by decide)).1 ⟨?_, ?_, ?_⟩ _ (by decide)
  all_goals
    decide

/-- A file of 4 GiB is packed with length 0. -/
theorem initramfs_cuts_size :
    ¬ Right [{ path := [97], data := List.replicate uint32Mod 0 }] [97] := by
  intro h
  have hlt := Right.data_lt (f := { path := [97], data := List.replicate uint32Mod 0 }) h (by decide)
    mem_cons_self
  rw [length_replicate] at hlt
  exact Nat.lt_irrefl _ hlt

end

end Slopix.Mkramfs
