import Slopix.Kernel.LoadSegments
import Slopix.Kernel.Offsets

/-!
# What the loaders read

`elf_load` of `kernel/elf.c` with the size of the image as a bound on every read, and
`elf_load_from_inode` with buffers that hold something before `fs_readi` fills them. The first never
compares an offset with the size; the second checks what `fs_readi` returns, but passes 64-bit offsets as
`unsigned int`.
-/

namespace Slopix.Kernel

open Lib Mm Fs Ipc List FileSys Exec

/-! ## Bounded reads -/

/-- A read of `len` bytes at `off`; one that leaves the image is a fault. -/
def Image.read (img : Image) (off len : Nat) : KM (List UInt8) :=
  if off + len ≤ img.size then pure (getBytes img.data off len) else Exec.stop .fault

/-- A number of `n` bytes. -/
def Image.readLe (img : Image) (n off : Nat) : KM Nat := do
  let bs ← img.read off n
  pure (getLe n (ofList bs) 0)

/-- The program header at byte `o`, as far as `elf_load_segments` looks at it: of a header that is not
`PT_LOAD` it reads the type only, and never the fields at 24 and 48. -/
def Image.readPhdr (img : Image) (o : Nat) : KM Phdr := do
  let type ← img.readLe 4 o
  if type ≠ 1 then
    pure { type := type, flags := 0, offset := 0, vaddr := 0, filesz := 0, memsz := 0 }
  else do
    let vaddr ← img.readLe 8 (o + 16)
    let filesz ← img.readLe 8 (o + 32)
    let memsz ← img.readLe 8 (o + 40)
    let offset ← img.readLe 8 (o + 8)
    let flags ← img.readLe 4 (o + 4)
    pure { type := type, flags := flags, offset := offset, vaddr := vaddr, filesz := filesz, memsz := memsz }

/-- Where header `j` of an image is. -/
def Image.phdrOff (img : Image) (j : Nat) : Nat := getLe 8 img.data 32 + 56 * j

/-- Header `j` of an image. -/
def Image.phdr (img : Image) (j : Nat) : Phdr := getPhdr img.data (img.phdrOff j)

/-- The number of headers of an image. -/
def Image.phnum (img : Image) : Nat := getLe 2 img.data 56

/-- `elf_load` with bounded reads. -/
def elfLoadBounded (img : Image) (pagetable : Nat) : KM (Option (Nat × Nat)) := do
  if img.size < 64 then pure none
  else if elfValidate img.data = false then pure none
  else do
    let ok ← Exec.all (fun j => do
      let h ← img.readPhdr (img.phdrOff j)
      loadSegment pagetable img.read h) (List.range img.phnum)
    if ok then
      pure (some (getLe 8 img.data 24, (((List.range img.phnum).map img.phdr).filter fun h =>
        h.type == 1).foldl (fun x h => max x h.vaEnd) 0))
    else pure none

/-- The loader copies `len` bytes from byte `off` of the file into some page of the segment. -/
def Phdr.Copies (h : Phdr) (off len : Nat) : Prop :=
  ∃ j < (h.vaEnd - h.vaddr / 4096 * 4096) / 4096, ∃ pageOff,
    h.copyRange (h.vaddr / 4096 * 4096 + 4096 * j) = some (pageOff, off, len)

/-- The program header table and everything it makes the loader copy lie in the image. -/
def Image.InRange (img : Image) : Prop :=
  64 ≤ img.size → elfValidate img.data = true → ∀ j < img.phnum, img.phdrOff j + 4 ≤ img.size ∧
    ((img.phdr j).type = 1 → img.phdrOff j + 48 ≤ img.size ∧
      ∀ off len, (img.phdr j).Copies off len → off + len ≤ img.size)

section

variable {img : Image} {k k' : Kern} {pt o n : Nat}

theorem getLe_shift {b b' : Bytes} {o o' : Nat} (h : ∀ k < n, b' (o' + k) = b (o + k)) :
    getLe n b' o' = getLe n b o := by
  induction n generalizing o o' with
  | zero => rfl
  | succ n ih =>
    have hhead := h 0 (Nat.succ_pos n)
    have htail : getLe n b' (o' + 1) = getLe n b (o + 1) := by
      apply ih
      intro k hk
      have hnext := h (k + 1) (Nat.succ_lt_succ hk)
      rwa [add_comm k 1, ← add_assoc, ← add_assoc] at hnext
    rw [getLe, getLe, htail, show b' o' = b o from hhead]

theorem readLe_ok (h : o + n ≤ img.size) (k : Kern) : img.readLe n o k = .ok (getLe n img.data o, k) := by
  have hbytes : getLe n (ofList (getBytes img.data o n)) 0 = getLe n img.data o := by
    apply getLe_shift
    intro i hi
    simp [ofList, getBytes, hi]
  unfold Image.readLe Image.read
  rw [if_pos h, ← hbytes]
  rfl

theorem readLe_inv {v : Nat} (h : img.readLe n o k = .ok (v, k')) : o + n ≤ img.size := by
  by_contra hout
  unfold Image.readLe Image.read at h
  rw [if_neg hout] at h
  cases h

theorem readPhdr_ok (htype : o + 4 ≤ img.size) (hload : getLe 4 img.data o = 1 → o + 48 ≤ img.size) (k : Kern) :
    ∃ h, img.readPhdr o k = .ok (h, k) ∧ (h.type = 1 → h = getPhdr img.data o) ∧
      h.type = (getPhdr img.data o).type := by
  unfold Image.readPhdr
  rw [bind_ok (readLe_ok htype k)]
  by_cases hone : getLe 4 img.data o = 1
  · have hsize := hload hone
    rw [if_neg (not_not_intro hone), bind_ok (readLe_ok (by omega) k),
      bind_ok (readLe_ok (by omega) k), bind_ok (readLe_ok (by omega) k),
      bind_ok (readLe_ok (by omega) k), bind_ok (readLe_ok (by omega) k)]
    exact ⟨_, rfl, fun _ => rfl, rfl⟩
  · rw [if_pos hone]
    exact ⟨_, rfl, fun h => absurd h hone, rfl⟩

theorem readPhdr_inv {h : Phdr} (hrun : img.readPhdr o k = .ok (h, k')) : o + 4 ≤ img.size ∧
    (getLe 4 img.data o = 1 → o + 48 ≤ img.size) := by
  obtain ⟨type, k1, htype, hrest⟩ := bind_inv hrun
  have hsize := readLe_inv htype
  rw [readLe_ok hsize] at htype
  obtain ⟨rfl, rfl⟩ := Prod.mk.inj (Except.ok.inj htype)
  refine ⟨hsize, fun hone => ?_⟩
  rw [if_neg (not_not_intro hone)] at hrest
  obtain ⟨_, _, -, hrest⟩ := bind_inv hrest
  obtain ⟨_, _, -, hrest⟩ := bind_inv hrest
  obtain ⟨_, _, hlast, -⟩ := bind_inv hrest
  have hsize' := readLe_inv hlast
  omega

theorem loadSegment_bounded {h : Phdr} (hcopies : h.type = 1 → ∀ off len, h.Copies off len → off + len ≤ img.size) :
    loadSegment pt img.read h k = loadSegment pt (fun off len => pure (getBytes img.data off len)) h k := by
  unfold loadSegment
  by_cases htype : h.type ≠ 1
  · rw [if_pos htype, if_pos htype]
  rw [if_neg htype, if_neg htype]
  -- page by page the two readers agree
  have hpages : ∀ n va, (∀ j < n, ∀ pageOff off len, h.copyRange (va + 4096 * j) = some (pageOff, off, len) →
      off + len ≤ img.size) →
      mapPages pt (loadPage h img.read) (h.flags &&& 2 != 0) (h.flags &&& 1 != 0) n va =
        mapPages pt (loadPage h fun off len => pure (getBytes img.data off len)) (h.flags &&& 2 != 0)
          (h.flags &&& 1 != 0) n va := by
    intro n
    induction n with
    | zero =>
      intro va _
      rw [mapPages, mapPages]
    | succ n ih =>
      intro va hin
      have hinit : loadPage h img.read va =
          loadPage h (fun off len => pure (getBytes img.data off len)) va := by
        funext pa
        unfold loadPage
        rcases hcopy : h.copyRange va with _ | ⟨pageOff, off, len⟩
        · rfl
        have hsize := hin 0 (Nat.succ_pos n) pageOff off len (by rwa [mul_zero, add_zero])
        dsimp only
        unfold Image.read
        rw [if_pos hsize]
      have hnext := ih (va + 4096) fun j hj pageOff off len hcopy =>
        hin (j + 1) (Nat.succ_lt_succ hj) pageOff off len
          (by rwa [show va + 4096 * (j + 1) = va + 4096 + 4096 * j by omega])
      rw [mapPages, mapPages, hinit, hnext]
  rw [hpages _ _ fun j hj pageOff off len hcopy =>
    hcopies (not_not.1 htype) off len ⟨j, hj, pageOff, hcopy⟩]

theorem loadHeader_bounded {j : Nat} (htype : img.phdrOff j + 4 ≤ img.size)
    (hload : (img.phdr j).type = 1 → img.phdrOff j + 48 ≤ img.size ∧
      ∀ off len, (img.phdr j).Copies off len → off + len ≤ img.size) (k : Kern) :
    (do
      let h ← img.readPhdr (img.phdrOff j)
      loadSegment pt img.read h) k =
      loadSegment pt (fun off len => pure (getBytes img.data off len)) (img.phdr j) k := by
  obtain ⟨h, hrun, hsame, htypes⟩ := readPhdr_ok htype (fun hone => (hload hone).1) k
  rw [bind_ok hrun]
  by_cases hone : h.type = 1
  · rw [hsame hone]
    exact loadSegment_bounded fun hone => (hload hone).2
  · have hone' : (img.phdr j).type ≠ 1 := fun e => hone (htypes.trans e)
    unfold loadSegment
    rw [if_pos hone, if_pos hone']

theorem all_congr {α β : Type} {f : α → KM Bool} {g : β → KM Bool} {l : List α} {φ : α → β}
    (h : ∀ a ∈ l, ∀ k, f a k = g (φ a) k) (k : Kern) : all f l k = all g (l.map φ) k := by
  induction l generalizing k with
  | nil => rfl
  | cons a l ih =>
    have hrest : all f l = all g (l.map φ) :=
      funext fun k => ih (fun b hb => h b (mem_cons_of_mem a hb)) k
    have hhead : f a = g (φ a) := funext (h a mem_cons_self)
    rw [map_cons, Exec.all, Exec.all, hhead, hrest]

/-- An image in range is loaded without a read outside it. -/
theorem elfLoadBounded_eq (h : img.InRange) : elfLoadBounded img pt k = elfLoad img pt k := by
  unfold elfLoadBounded elfLoad
  by_cases hsize : img.size < 64
  · rw [if_pos hsize, if_pos hsize]
  rw [if_neg hsize, if_neg hsize]
  by_cases hvalid : elfValidate img.data = false
  · rw [if_pos hvalid, if_pos hvalid]
  rw [if_neg hvalid, if_neg hvalid]
  have hin := h (not_lt.1 hsize) ((Bool.not_eq_false _).mp hvalid)
  have hloop := all_congr (l := range img.phnum) (φ := img.phdr)
    (f := fun j => do
      let h ← img.readPhdr (img.phdrOff j)
      loadSegment pt img.read h)
    (g := loadSegment pt fun off len => pure (getBytes img.data off len))
    (fun j hj => loadHeader_bounded (hin j (mem_range.1 hj)).1 (hin j (mem_range.1 hj)).2) k
  have hphdrs : (range (getLe 2 img.data 56)).map
      (fun j => getPhdr img.data (getLe 8 img.data 32 + 56 * j)) = (range img.phnum).map img.phdr := rfl
  rw [hphdrs]
  unfold loadSegments
  cases hrun : all (loadSegment pt fun off len => pure (getBytes img.data off len))
      ((range img.phnum).map img.phdr) k with
  | error e => rw [bind_error (hloop.trans hrun), bind_error (bind_error hrun)]
  | ok r =>
    obtain ⟨ok, k'⟩ := r
    rw [bind_ok (hloop.trans hrun), bind_bind, bind_ok hrun]
    cases ok
    · rfl
    · rfl

end

/-! ## Loads that succeed -/

section

variable {I : FileSys → Prop} {img : Image} {k k' : Kern} {root : Nat}

theorem mapNew_asks {init : Nat → KM Bool} {va : Nat} {write exec : Bool} {Q : Prop}
    (hinit : ∀ pa (k : Kern), I k.fs → Holds (init pa k) (fun r k' => I k'.fs ∧ (r = true → Q)) fun _ => True)
    (hI : I k.fs) : Holds (mapNew root va init write exec k) (fun r k' => I k'.fs ∧ (r ≠ none → Q))
      fun _ => True := by
  have hal : Holds (allocPage k) (fun _ k' => I k'.fs) fun _ => True := holds_step hI
  refine hal.bind fun res k1 hI1 => ?_
  cases res with
  | none => exact holds_pure ⟨hI1, fun hr => absurd rfl hr⟩
  | some pa =>
    refine (hinit pa k1 hI1).bind fun r k2 ⟨hI2, hQ⟩ => ?_
    refine holds_ite (fun hr => ?_) fun _ => holds_modify_bind (holds_pure ⟨hI2, fun hr => absurd rfl hr⟩)
    have hmap : Holds (onMm (fun m => vmmMapPage m root va pa write exec) k2) (fun _ k' => I k'.fs)
        fun _ => True := holds_step hI2
    refine hmap.bind fun ok k3 hI3 => ?_
    refine holds_ite (fun _ => holds_pure ⟨hI3, fun _ => hQ hr⟩) fun _ => ?_
    exact holds_modify_bind (holds_pure ⟨hI3, fun hr => absurd rfl hr⟩)

theorem mapPages_asks {init : Nat → Nat → KM Bool} {write exec : Bool} {Q : Nat → Prop}
    (hinit : ∀ va pa k, I k.fs → Holds (init va pa k) (fun r k' => I k'.fs ∧ (r = true → Q va)) fun _ => True)
    (n va : Nat) (hI : I k.fs) : Holds (mapPages root init write exec n va k)
      (fun r k' => I k'.fs ∧ (r = true → ∀ j < n, Q (va + 4096 * j))) fun _ => True := by
  induction n generalizing va k with
  | zero => exact holds_pure ⟨hI, fun _ j hj => absurd hj (Nat.not_lt_zero j)⟩
  | succ n ih =>
    refine (mapNew_asks (hinit va) hI).bind fun r k1 hfirst => ?_
    obtain ⟨hI1, hQ⟩ := hfirst
    cases r with
    | none => exact holds_pure ⟨hI1, fun hr => by cases hr⟩
    | some pa =>
      refine (ih (va + 4096) hI1).imp fun r k2 hloop => ?_
      obtain ⟨hI2, hrest⟩ := hloop
      refine ⟨hI2, fun hr j hj => ?_⟩
      cases j with
      | zero => exact hQ (Option.some_ne_none pa)
      | succ j =>
        rw [show va + 4096 * (j + 1) = va + 4096 + 4096 * j by omega]
        exact hrest hr j (Nat.lt_of_succ_lt_succ hj)

theorem loadSegment_asks (root : Nat) {read : Nat → Nat → KM (List UInt8)} {Q : Nat → Nat → Prop}
    (hread : ∀ off len k, 0 < len → len ≤ 4096 → I k.fs →
      Holds (read off len k) (fun bs k' => I k'.fs ∧ (bs.length = len → Q off len)) fun _ => True)
    (h : Phdr) (hI : I k.fs) : Holds (loadSegment root read h k)
      (fun r k' => I k'.fs ∧ (r = true → h.type = 1 → ∀ off len, h.Copies off len → Q off len))
      fun _ => True := by
  refine holds_ite (fun htype => holds_pure ⟨hI, fun _ hone => absurd hone htype⟩) fun _ => ?_
  have hinit : ∀ va pa k, I k.fs → Holds (loadPage h read va pa k) (fun r k' => I k'.fs ∧ (r = true →
      ∀ pageOff off len, h.copyRange va = some (pageOff, off, len) → Q off len)) fun _ => True := by
    intro va pa k hI
    unfold loadPage
    rcases hcopy : h.copyRange va with _ | ⟨pageOff, off, len⟩
    · exact holds_pure ⟨hI, fun _ _ _ _ e => by cases e⟩
    refine (hread off len k (Phdr.copyRange_len hcopy).1 (Phdr.copyRange_len hcopy).2 hI).bind
      fun bs k' ⟨hI', hQ⟩ => holds_modify_bind (holds_pure ⟨hI', fun hlen _ _ _ e => ?_⟩)
    cases e
    exact hQ (by simpa using hlen)
  refine (mapPages_asks hinit _ _ hI).imp fun r k' ⟨hI', hpages⟩ => ⟨hI', fun hr _ off len hcopies => ?_⟩
  obtain ⟨j, hj, pageOff, hcopy⟩ := hcopies
  exact hpages hr j hj pageOff off len hcopy

theorem all_asks {α : Type} {f : α → KM Bool} {l : List α} {Q : α → Prop}
    (hf : ∀ a ∈ l, ∀ k, I k.fs → Holds (f a k) (fun r k' => I k'.fs ∧ (r = true → Q a)) fun _ => True)
    (hI : I k.fs) : Holds (all f l k) (fun r k' => I k'.fs ∧ (r = true → ∀ a ∈ l, Q a)) fun _ => True := by
  induction l generalizing k with
  | nil => exact holds_pure ⟨hI, fun _ a ha => by cases ha⟩
  | cons b l ih =>
    refine (hf b mem_cons_self k hI).bind fun r k1 hfirst => ?_
    obtain ⟨hI1, hQ⟩ := hfirst
    refine holds_ite (fun hr => ?_) fun _ => holds_pure ⟨hI1, fun hr => by cases hr⟩
    refine (ih (fun a ha => hf a (mem_cons_of_mem b ha)) hI1).imp fun r' k2 hloop => ?_
    obtain ⟨hI2, hrest⟩ := hloop
    refine ⟨hI2, fun hr' a ha => ?_⟩
    rcases mem_cons.1 ha with rfl | ha
    · exact hQ hr
    · exact hrest hr' a ha

theorem inRange_of_loaded {r : Nat × Nat} (h : elfLoadBounded img root k = .ok (some r, k')) : img.InRange := by
  intro hsize hvalid
  unfold elfLoadBounded at h
  rw [if_neg (not_lt.2 hsize), if_neg (by rw [hvalid]; decide)] at h
  obtain ⟨ok, k1, hloop, h⟩ := bind_inv h
  cases ok with
  | false => cases h
  | true =>
    have hread : ∀ off len (k : Kern), 0 < len → len ≤ 4096 → True → Holds (img.read off len k)
        (fun bs _ => True ∧ (bs.length = len → off + len ≤ img.size)) fun _ => True := by
      intro off len k _ _ _
      exact holds_ite (fun hin => holds_pure ⟨trivial, fun _ => hin⟩) fun _ => holds_stop trivial
    have hpass : ∀ j ∈ range img.phnum, ∀ k : Kern, True → Holds ((do
        let h ← img.readPhdr (img.phdrOff j)
        loadSegment root img.read h) k) (fun r _ => True ∧ (r = true → img.phdrOff j + 4 ≤ img.size ∧
          ((img.phdr j).type = 1 → img.phdrOff j + 48 ≤ img.size ∧
            ∀ off len, (img.phdr j).Copies off len → off + len ≤ img.size))) fun _ => True := by
      intro j _ k _
      refine ⟨fun r k' hrun => ⟨trivial, fun hr => ?_⟩, fun _ _ => trivial⟩
      obtain ⟨hdr, k2, hphdr, hsegment⟩ := bind_inv hrun
      obtain ⟨htype, hload⟩ := readPhdr_inv hphdr
      refine ⟨htype, fun hone => ⟨hload hone, ?_⟩⟩
      obtain ⟨hdr', hphdr', hsame, htypes⟩ := readPhdr_ok htype hload k
      obtain ⟨rfl, rfl⟩ := Prod.mk.inj (Except.ok.inj (hphdr'.symm.trans hphdr))
      rw [hsame (htypes.trans hone)] at hsegment
      exact ((loadSegment_asks (I := fun _ => True) _ hread _ trivial).ok _ _ hsegment).2 hr hone
    have hall := ((all_asks (I := fun _ => True) hpass trivial).ok _ _ hloop).2 rfl
    exact fun j hj => hall j (mem_range.2 hj)

end

/-! ## Loading from disk -/

/-- `elf_load_from_inode` with the buffers for the ELF header and the program headers holding `junk` before
`fs_readi` fills them. -/
def elfLoadFromInodeOver (junk : Bytes) (ip pagetable : Nat) : KM (Option (Nat × Nat)) := do
  let hdr ← onFs (Exec.step fun s => s.readi ip 0 64)
  let ehdr := putBytes junk 0 hdr
  let phnum := getLe 2 ehdr 56
  if hdr.length ≠ 64 then pure none
  else if elfValidate ehdr = false then pure none
  else if 16 < phnum then pure none
  else do
    let ph ← onFs (Exec.step fun s => s.readi ip (getLe 8 ehdr 32 % Fs.uintMod) (phnum * 56))
    if ph.length ≠ phnum * 56 then pure none
    else do
      let phdrs := (List.range phnum).map fun j => getPhdr (putBytes junk 0 ph) (56 * j)
      let brk ← loadSegments phdrs pagetable fun off len =>
        onFs (Exec.step fun s => s.readi ip (off % Fs.uintMod) (len % Fs.uintMod))
      pure (brk.map fun b => (getLe 8 ehdr 24, b))

section

variable {junk : Bytes} {bs : List UInt8} {n o : Nat}

theorem getLe_putBytes (h : o + n ≤ bs.length) : getLe n (putBytes junk 0 bs) o = getLe n (ofList bs) o := by
  apply getLe_congr
  intro i _ hi
  unfold putBytes ofList
  rw [if_pos (by omega), Nat.sub_zero]

theorem getPhdr_putBytes (h : o + 56 ≤ bs.length) : getPhdr (putBytes junk 0 bs) o = getPhdr (ofList bs) o := by
  unfold getPhdr
  simp only [Phdr.mk.injEq]
  refine ⟨?_, ?_, ?_, ?_, ?_, ?_⟩ <;> exact getLe_putBytes (by omega)

/-- The loader uses no byte that `fs_readi` has not returned. -/
theorem elfLoadFromInodeOver_eq (junk : Bytes) (ip pt : Nat) :
    elfLoadFromInodeOver junk ip pt = elfLoadFromInode ip pt := by
  unfold elfLoadFromInodeOver elfLoadFromInode
  congr 1
  funext hdr
  by_cases hlen : hdr.length ≠ 64
  · rw [if_pos hlen, if_pos hlen]
  have hvalid : elfValidate (putBytes junk 0 hdr) = elfValidate (ofList hdr) := by
    unfold elfValidate
    rw [getLe_putBytes (by omega), getLe_putBytes (by omega), getLe_putBytes (by omega)]
  rw [if_neg hlen, if_neg hlen, hvalid, getLe_putBytes (by omega), getLe_putBytes (by omega),
    getLe_putBytes (by omega)]
  by_cases hbad : elfValidate (ofList hdr) = false
  · rw [if_pos hbad, if_pos hbad]
  rw [if_neg hbad, if_neg hbad]
  by_cases hmany : 16 < getLe 2 (ofList hdr) 56
  · rw [if_pos hmany, if_pos hmany]
  rw [if_neg hmany, if_neg hmany]
  congr 1
  funext ph
  by_cases hph : ph.length ≠ getLe 2 (ofList hdr) 56 * 56
  · rw [if_pos hph, if_pos hph]
  have hphdrs : (range (getLe 2 (ofList hdr) 56)).map
      (fun j => getPhdr (putBytes junk 0 ph) (56 * j)) =
      (range (getLe 2 (ofList hdr) 56)).map fun j => getPhdr (ofList ph) (56 * j) := by
    apply map_congr_left
    intro j hj
    have hlt := mem_range.1 hj
    exact getPhdr_putBytes (by omega)
  rw [if_neg hph, if_neg hph, hphdrs]

end

section

variable {s : FileSys} {i off n : Nat}

/-- The sizes of the cached inodes are as before. -/
def SameSizes (s s' : FileSys) : Prop := ∀ i, (s'.icache i).din.size = (s.icache i).din.size

theorem SameSizes.trans {s' s'' : FileSys} (h : SameSizes s s') (h' : SameSizes s' s'') : SameSizes s s'' :=
  fun i => (h' i).trans (h i)

theorem sameSizes_balloc : SameSizes s s.balloc.2 := by
  intro i
  unfold balloc
  split <;> rfl

theorem sameSizes_bmapAddr (i k : Nat) : SameSizes s (s.bmapAddr i k).2 := by
  unfold bmapAddr
  dsimp only
  split
  · exact fun _ => rfl
  split
  · exact sameSizes_balloc
  refine sameSizes_balloc.trans fun j => ?_
  by_cases hj : j = i
  · subst hj
    unfold setDin setInode
    dsimp only
    rw [Function.update_self]
  · unfold setDin setInode
    dsimp only
    rw [Function.update_of_ne hj]

theorem sameSizes_bmapEntry (b j : Nat) : SameSizes s (s.bmapEntry b j).2 := by
  unfold bmapEntry
  dsimp only
  split
  · exact fun _ => rfl
  · split
    · exact sameSizes_balloc
    · exact fun i => sameSizes_balloc i

theorem sameSizes_bmap (i bn : Nat) : SameSizes s (s.bmap i bn).2 := by
  unfold bmap
  dsimp only
  split
  · exact sameSizes_bmapAddr i bn
  split
  · split
    · exact sameSizes_bmapAddr i 11
    · exact (sameSizes_bmapAddr i 11).trans (sameSizes_bmapEntry _ _)
  split
  · split
    · exact sameSizes_bmapAddr i 12
    · split
      · exact (sameSizes_bmapAddr i 12).trans (sameSizes_bmapEntry _ _)
      · exact ((sameSizes_bmapAddr i 12).trans (sameSizes_bmapEntry _ _)).trans (sameSizes_bmapEntry _ _)
  · exact fun _ => rfl

theorem sameSizes_readLoop (fuel i off rem : Nat) : SameSizes s (readLoop fuel s i off rem).2 := by
  induction fuel generalizing s off rem with
  | zero => exact fun _ => rfl
  | succ fuel ih =>
    rw [FileSys.readLoop]
    split
    · exact fun _ => rfl
    dsimp only
    split
    · exact sameSizes_bmap i _
    · exact (sameSizes_bmap i _).trans (ih _ _)

theorem sameSizes_readi (i off n : Nat) : SameSizes s (s.readi i off n).2 := by
  unfold readi
  dsimp only
  split
  · exact fun _ => rfl
  · exact sameSizes_readLoop _ i off _

theorem readLoop_behind {fuel rem : Nat} (hoff : 65803 ≤ off / 1024) :
    (readLoop fuel s i off rem).1 = [] := by
  have hbmap : s.bmap i (off / 1024) = (0, s) := by
    unfold bmap
    rw [if_neg (by omega), if_neg (by omega), if_neg (by omega)]
  cases fuel with
  | zero => rfl
  | succ fuel =>
    rw [FileSys.readLoop]
    split
    · rfl
    · rw [hbmap]
      rfl

/-- A read that returns all it was asked for is one inside the file. -/
theorem readi_full (hn : n ≤ 4096) (hpos : 0 < n)
    (h : (s.readi i off n).1.length = n) : off + n ≤ (s.icache i).din.size := by
  unfold readi at h
  dsimp only at h
  by_cases hend : (s.icache i).din.size < off
  · rw [if_pos hend] at h
    exact absurd h.symm (ne_of_gt hpos)
  rw [if_neg hend] at h
  by_cases hwrap : off + n < Fs.uintMod
  · rw [Nat.mod_eq_of_lt hwrap] at h
    by_contra hout
    rw [if_pos (not_le.1 hout)] at h
    have hle := @length_readLoop s i ((s.icache i).din.size - off) off ((s.icache i).din.size - off)
    omega
  · -- the sum wraps only far behind the last block a file can have
    rw [readLoop_behind (by unfold Fs.uintMod at hwrap; omega)] at h
    exact absurd h.symm (ne_of_gt hpos)

end

/-! ## The table of a file -/

/-- The number of program headers of the file. -/
def inodePhnum (s : FileSys) (ip : Nat) : Nat := getLe 2 (ofList (s.readi ip 0 64).1) 56

/-- Where its header says the table is. -/
def inodePhoff (s : FileSys) (ip : Nat) : Nat := getLe 8 (ofList (s.readi ip 0 64).1) 32

/-- Program header `j`, as `elf_load_from_inode` reads it. -/
def inodePhdr (s : FileSys) (ip j : Nat) : Phdr :=
  getPhdr (ofList ((s.readi ip 0 64).2.readi ip (inodePhoff s ip % Fs.uintMod) (inodePhnum s ip * 56)).1) (56 * j)

/-- `P` holds of the offset and the length of the table and of everything that the headers make the loader
copy. -/
structure InodeOffsets (s : FileSys) (ip : Nat) (P : Nat → Nat → Prop) : Prop where
  table : 0 < inodePhnum s ip → P (inodePhoff s ip) (inodePhnum s ip * 56)
  segment : ∀ j < inodePhnum s ip, (inodePhdr s ip j).type = 1 →
    ∀ off len, (inodePhdr s ip j).Copies off len → P off len

section

variable {k k' : Kern} {ip pt : Nat} {r : Nat × Nat}

theorem readi_runs (k : Kern) (ip off n : Nat) : Holds ((onFs (step fun s => s.readi ip off n) : KM _) k)
    (fun bs k' => bs = (k.fs.readi ip off n).1 ∧ k'.fs = (k.fs.readi ip off n).2) fun _ => True :=
  holds_ok ⟨rfl, rfl⟩

/-- The reads of a load that succeeds, at the offsets that `fs_readi` sees. -/
theorem inodeOffsets_of_loaded (k : Kern) (ip pt : Nat) : Holds (elfLoadFromInode ip pt k)
    (fun r _ => r.isSome = true →
      InodeOffsets k.fs ip fun off len => off % Fs.uintMod + len ≤ (k.fs.icache ip).din.size) fun _ => True := by
  have hkeep : ∀ (s : FileSys) off n, (s.icache ip).din.size = (k.fs.icache ip).din.size →
      ((s.readi ip off n).2.icache ip).din.size = (k.fs.icache ip).din.size := fun s off n hs =>
    (sameSizes_readi ip off n ip).trans hs
  have hnone : ∀ k', Holds ((pure none : KM (Option (Nat × Nat))) k') (fun r _ => r.isSome = true →
      InodeOffsets k.fs ip fun off len => off % Fs.uintMod + len ≤ (k.fs.icache ip).din.size) fun _ => True :=
    fun k' => holds_pure fun hr => by cases hr
  refine (readi_runs k ip 0 64).bind fun hdr k1 ⟨hhdr, hk1⟩ => ?_
  have hnum : getLe 2 (ofList hdr) 56 = inodePhnum k.fs ip := by rw [hhdr, inodePhnum]
  have hoff : getLe 8 (ofList hdr) 32 = inodePhoff k.fs ip := by rw [hhdr, inodePhoff]
  have hphdr : ∀ j, inodePhdr k.fs ip j = getPhdr (ofList ((k.fs.readi ip 0 64).2.readi ip
      (inodePhoff k.fs ip % Fs.uintMod) (inodePhnum k.fs ip * 56)).1) (56 * j) := fun _ => by rw [inodePhdr]
  rw [hnum, hoff]
  generalize hO : inodePhoff k.fs ip % Fs.uintMod = O at hphdr
  generalize hN : inodePhnum k.fs ip = N at hphdr
  refine holds_ite (fun _ => hnone k1) fun _ => holds_ite (fun _ => hnone k1) fun _ =>
    holds_ite (fun _ => hnone k1) fun hmany => ?_
  refine (readi_runs k1 ip O (N * 56)).bind fun ph k2 ⟨hph, hk2⟩ => ?_
  refine holds_ite (fun _ => hnone k2) fun htable => ?_
  rw [hph] at htable
  have hphdrs : (fun j => getPhdr (ofList ph) (56 * j)) = inodePhdr k.fs ip := by
    funext j
    rw [hph, hk1, hphdr]
  rw [hphdrs]
  -- the size stays what it is from read to read
  have hread : ∀ off len (k2 : Kern), 0 < len → len ≤ 4096 →
      (k2.fs.icache ip).din.size = (k.fs.icache ip).din.size →
      Holds ((onFs (step fun s => s.readi ip (off % Fs.uintMod) (len % Fs.uintMod)) : KM _) k2)
        (fun bs k3 => (k3.fs.icache ip).din.size = (k.fs.icache ip).din.size ∧
          (bs.length = len → off % Fs.uintMod + len ≤ (k.fs.icache ip).din.size)) fun _ => True := by
    intro off len k2 hpos hle hsize
    have hmod : len % Fs.uintMod = len := Nat.mod_eq_of_lt (by unfold Fs.uintMod; omega)
    rw [hmod]
    refine (readi_runs k2 ip _ _).imp fun bs k3 ⟨hbs, hk3⟩ => ⟨?_, fun hfull => ?_⟩
    · rw [hk3]
      exact hkeep _ _ _ hsize
    · rw [hbs] at hfull
      exact hsize ▸ readi_full hle hpos hfull
  have hsize1 : (k1.fs.icache ip).din.size = (k.fs.icache ip).din.size := by
    rw [hk1]
    exact hkeep _ _ _ rfl
  have hsize2 : (k2.fs.icache ip).din.size = (k.fs.icache ip).din.size := by
    rw [hk2]
    exact hkeep _ _ _ hsize1
  have htab : 0 < N → O + N * 56 ≤ (k.fs.icache ip).din.size := by
    intro hpos
    have hin : O + N * 56 ≤ (k1.fs.icache ip).din.size :=
      readi_full (by omega) (by omega) (not_not.1 htable)
    rwa [hsize1] at hin
  have hall := all_asks (I := fun s => (s.icache ip).din.size = (k.fs.icache ip).din.size)
    (l := (range N).map (inodePhdr k.fs ip))
    (fun hdr _ k2 hsize => loadSegment_asks
      (I := fun s => (s.icache ip).din.size = (k.fs.icache ip).din.size) pt hread hdr hsize) hsize2
  have hload : Holds (loadSegments ((range N).map (inodePhdr k.fs ip)) pt (fun off len =>
      onFs (step fun s => s.readi ip (off % Fs.uintMod) (len % Fs.uintMod))) k2)
      (fun brk _ => brk.isSome = true → ∀ hdr ∈ (range N).map (inodePhdr k.fs ip), hdr.type = 1 →
        ∀ off len, hdr.Copies off len → off % Fs.uintMod + len ≤ (k.fs.icache ip).din.size) fun _ => True := by
    refine hall.bind fun ok k3 ⟨_, hasks⟩ => ?_
    exact holds_ite (fun hok => holds_pure fun _ => hasks hok) fun _ => holds_pure fun hr => by cases hr
  refine hload.bind fun brk k3 hbrk => holds_pure fun hr => ?_
  have hsegments := hbrk (by simpa using hr)
  refine ⟨fun hpos => ?_, fun j hj hone off len hcopies => ?_⟩
  · rw [hN] at hpos
    rw [hO, hN]
    exact htab hpos
  · rw [hN] at hj
    exact hsegments _ (mem_map_of_mem (mem_range.2 hj)) hone off len hcopies

/-- A load from disk that succeeds had all its offsets in the file exactly when none of them was cut. -/
theorem inodeOffsets_iff (hsize : (k.fs.icache ip).din.size < Fs.uintMod)
    (h : elfLoadFromInode ip pt k = .ok (some r, k')) :
    InodeOffsets k.fs ip (fun off len => off + len ≤ (k.fs.icache ip).din.size) ↔
      InodeOffsets k.fs ip fun off _ => off < Fs.uintMod := by
  have hread := (inodeOffsets_of_loaded k ip pt).ok _ _ h rfl
  constructor
  · rintro ⟨htable, hsegment⟩
    refine ⟨fun hpos => ?_, fun j hj hone off len hcopies => ?_⟩
    · exact lt_of_le_of_lt (Nat.le_of_add_right_le (htable hpos)) hsize
    · exact lt_of_le_of_lt (Nat.le_of_add_right_le (hsegment j hj hone off len hcopies)) hsize
  rintro ⟨htable, hsegment⟩
  refine ⟨fun hpos => ?_, fun j hj hone off len hcopies => ?_⟩
  · have hin := hread.table hpos
    rwa [Nat.mod_eq_of_lt (htable hpos)] at hin
  · have hin := hread.segment j hj hone off len hcopies
    rwa [Nat.mod_eq_of_lt (hsegment j hj hone off len hcopies)] at hin

end

/-! ## Both loaders -/

/-- What the two loaders read. `elf_load` reads inside an image that is in range, and a load that succeeds
has read inside only if the image is. `elf_load_from_inode` uses no byte that `fs_readi` has not returned, and
a load that succeeds had all its offsets in the file exactly when they fit into an `unsigned int`. -/
theorem elf_load_reads (img : Image) (pt ip : Nat) :
    (img.InRange → ∀ k, elfLoadBounded img pt k = elfLoad img pt k) ∧
    (∀ k r k', elfLoad img pt k = .ok (some r, k') →
      (elfLoadBounded img pt k = elfLoad img pt k ↔ img.InRange)) ∧
    (∀ junk, elfLoadFromInodeOver junk ip pt = elfLoadFromInode ip pt) ∧
    ∀ k r k', (k.fs.icache ip).din.size < Fs.uintMod → elfLoadFromInode ip pt k = .ok (some r, k') →
      (InodeOffsets k.fs ip (fun off len => off + len ≤ (k.fs.icache ip).din.size) ↔
        InodeOffsets k.fs ip fun off _ => off < Fs.uintMod) := by
  refine ⟨fun h k => elfLoadBounded_eq h, fun k r k' hrun => ⟨fun hsame => ?_, fun h => elfLoadBounded_eq h⟩,
    fun junk => elfLoadFromInodeOver_eq junk ip pt, fun k r k' hsize hrun => inodeOffsets_iff hsize hrun⟩
  rw [hrun] at hsame
  exact inRange_of_loaded hsame

/-- An ELF header with one program header at byte 64. -/
def smallElf : List UInt8 :=
  [0x7f, 0x45, 0x4c, 0x46] ++ List.replicate 12 0 ++ [2, 0, 183, 0] ++ List.replicate 12 0 ++ [64] ++
    List.replicate 23 0 ++ [1] ++ List.replicate 7 0

/-- A program with two bytes to load. -/
def twoByteProgram : Image where
  data := ofList (smallElf ++ [1, 0, 0, 0, 5, 0, 0, 0] ++ [120, 0, 0, 0, 0, 0, 0, 0] ++ [0, 16, 0, 0, 0, 0, 0, 0] ++
    List.replicate 8 0 ++ [2, 0, 0, 0, 0, 0, 0, 0] ++ [2, 0, 0, 0, 0, 0, 0, 0] ++ List.replicate 8 0 ++ [7, 8])
  size := 122

/-- An image that ends with the ELF header. -/
def cutProgram : Image where
  data := ofList smallElf
  size := 64

/-- The two-byte program is loaded without a read outside it. -/
theorem elf_load_reads_small : twoByteProgram.InRange ∧
    elfLoadBounded twoByteProgram ramBase heapKern = elfLoad twoByteProgram ramBase heapKern := by
  have hnum : twoByteProgram.phnum = 1 := by decide +kernel
  have hrange : twoByteProgram.InRange := by
    intro _ _ j hj
    obtain rfl : j = 0 := by omega
    refine ⟨by decide +kernel, fun _ => ⟨by decide +kernel, ?_⟩⟩
    rintro off len ⟨i, hi, pageOff, hcopy⟩
    have hone : ((twoByteProgram.phdr 0).vaEnd - (twoByteProgram.phdr 0).vaddr / 4096 * 4096) / 4096 = 1 := by
      decide +kernel
    obtain rfl : i = 0 := by omega
    have hrange : (twoByteProgram.phdr 0).copyRange ((twoByteProgram.phdr 0).vaddr / 4096 * 4096 + 4096 * 0) =
        some (0, 120, 2) := by decide +kernel
    rw [hrange] at hcopy
    cases hcopy
    exact Nat.le_refl 122
  exact ⟨hrange, (elf_load_reads twoByteProgram ramBase 0).1 hrange heapKern⟩

/-- The program header of the cut image is behind its end. The loader reads it, finds zeros there and
succeeds. -/
theorem elf_load_reads_outside : (∃ k, elfLoad cutProgram ramBase heapKern = .ok (some (0, 0), k)) ∧
    elfLoadBounded cutProgram ramBase heapKern = .error .fault := by
  refine ⟨⟨heapKern, ?_⟩, ?_⟩
  · rfl
  · rfl

end Slopix.Kernel
