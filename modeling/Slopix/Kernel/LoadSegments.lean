import Slopix.Fs.Write
import Slopix.Kernel.LoadImage
import Slopix.Kernel.Sbrk
import Slopix.Kernel.UserAccess

/-!
# What the loader leaves in an address space

`elf_load_segments` of `kernel/elf.c` on page tables. Whatever happens, what was mapped stays and no frame
is lost, so `vmm_free` gives all of them back. After a success every page of every segment is there; whether
it holds what the program header says depends on sums of 64-bit fields that nobody checks.
-/

namespace Slopix.Kernel

open Lib Mm Fs Ipc List

/-! ## Address spaces that grow -/

/-- What was mapped stays, with the same bytes, and no frame is lost. -/
structure Extends (m m' : PhysMem) (root : Nat) : Prop where
  sep : Sep m' 4 root
  entry : ∀ va e, userEntry m root va = some e → userEntry m' root va = some e
  page : ∀ x ∈ pages m 4 root, m'.page x = m.page x
  total : (m'.free : Multiset Nat) + frames m' 4 root = m.free + frames m 4 root

/-- A page with contents that satisfy `P` is mapped at `va`. -/
def PageAt (m : PhysMem) (root va : Nat) (write exec : Bool) (P : Bytes → Prop) : Prop :=
  ∃ pa, IsFrame pa ∧ userEntry m root va = some (makePageDescUser pa write exec) ∧ P (m.page pa)

section

variable {m m' m'' m1 : PhysMem} {root va pa : Nat} {write exec : Bool} {P : Bytes → Prop} {b : Bytes}

theorem Extends.refl (h : Sep m 4 root) : Extends m m root :=
  ⟨h, fun _ _ he => he, fun _ _ => rfl, rfl⟩

theorem Extends.trans (h : Extends m m' root) (h' : Extends m' m'' root) : Extends m m'' root where
  sep := h'.sep
  entry va e he := h'.entry va e (h.entry va e he)
  page x hx := by
    obtain ⟨va, e, he, hpte⟩ := mem_pages_iff.1 hx
    rw [h'.page x (mem_pages_iff.2 ⟨va, e, h.entry va e he, hpte⟩), h.page x hx]
  total := h'.total.trans h.total

theorem PageAt.extends (h : PageAt m root va write exec P) (hext : Extends m m' root) :
    PageAt m' root va write exec P := by
  obtain ⟨pa, hpa, hentry, hP⟩ := h
  have hmem := userEntry_mem hentry
  rw [pteAddr_pageDesc hpa] at hmem
  exact ⟨pa, hpa, hext.entry va _ hentry, by rwa [hext.page pa hmem]⟩

theorem extends_of_undone (h : Sep m 4 root) (hundo : Undone m m' root) : Extends m m' root where
  sep := hundo.sep
  entry va e he := by rwa [hundo.entry]
  page x hx := hundo.page x (h.page_apart hx).1 (h.page_apart hx).2
  total := by rw [hundo.free, hundo.frames]

theorem extends_of_mapped (h : Sep m 4 root) (hmap : Mapped m m' root va pa write exec)
    (htotal : (m'.free : Multiset Nat) + frames m' 4 root = m.free + frames m 4 root) :
    Extends m m' root where
  sep := hmap.sep
  entry va' e he := by
    rw [hmap.entry, if_neg]
    · exact he
    · intro hpage
      rw [userEntry_pageNo hpage, hmap.unmapped] at he
      cases he
  page x hx := hmap.page x (h.page_apart hx).1 (h.page_apart hx).2
  total := htotal

theorem pageAt_of_mapped (hmap : Mapped m m' root va pa write exec) (hpa : IsFrame pa) (hP : P (m'.page pa)) :
    PageAt m' root va write exec P :=
  ⟨pa, hpa, by rw [hmap.entry, if_pos rfl], hP⟩

/-- Mapping an allocated frame moves it into the address space. -/
theorem total_of_alloc (h : Sep m 4 root) (hal : pmmAlloc m = some (pa, m1))
    (hmap : (vmmMapPage (m1.setPage pa b) root va pa write exec).1 = true) :
    ((vmmMapPage (m1.setPage pa b) root va pa write exec).2.free : Multiset Nat) +
      frames (vmmMapPage (m1.setPage pa b) root va pa write exec).2 4 root =
        m.free + frames m 4 root := by
  obtain ⟨hheld, -, hfree, hset⟩ := h.setUp hal b
  have htotal := (vmmMapPage_spec hheld.sep hheld.isFrame va write exec).1
  have hframes := (frames_congr fun x hx => hset x (h.used_tables hx)).1
  have hsame : (m1.setPage pa b).free = m1.free := rfl
  rw [if_pos hmap, hframes, hsame] at htotal
  rw [htotal, hfree]
  abel

end

/-! ## One page -/

/-- A way to fill new pages keeps `I` of the file system and, when it succeeds, leaves contents with `P`. -/
def Fills (I : FileSys → Prop) (init : Nat → KM Bool) (P : Bytes → Prop) : Prop :=
  ∀ pa k, I k.fs → k.mm.page pa = (fun _ => 0) → Holds (init pa k)
    (fun r k' => I k'.fs ∧ ∃ b, k'.mm = k.mm.setPage pa b ∧ (r = true → P b)) fun _ => True

section

variable {I : FileSys → Prop} {k : Kern} {root : Nat} {write exec : Bool}

/-- One page of a segment: mapped, filled, or refused. -/
theorem mapNew_fills {init : Nat → KM Bool} {P : Bytes → Prop} (va : Nat) (h : Sep k.mm 4 root)
    (hI : I k.fs) (hinit : Fills I init P) :
    Holds (mapNew root va init write exec k) (fun r k' => I k'.fs ∧ Extends k.mm k'.mm root ∧
      (r ≠ none → ∃ pa, IsFrame pa ∧ Mapped k.mm k'.mm root va pa write exec ∧ P (k'.mm.page pa)))
      fun _ => True := by
  unfold mapNew
  cases hal : pmmAlloc k.mm with
  | none =>
    have hrun : allocPage k = .ok (none, k.withMm k.mm) := by
      unfold allocPage onMm Exec.step
      dsimp only
      rw [hal]
    rw [Exec.bind_ok hrun]
    exact holds_pure ⟨hI, Extends.refl h, fun hr => absurd rfl hr⟩
  | some res =>
    obtain ⟨pa, m1⟩ := res
    have hrun : allocPage k = .ok (some pa, k.withMm m1) := by
      unfold allocPage onMm Exec.step
      dsimp only
      rw [hal]
    rw [Exec.bind_ok hrun]
    refine (hinit pa (k.withMm m1) hI (pmmAlloc_spec hal).2.1).bind fun r k' ⟨hI', b, hmm, hP⟩ => ?_
    have hheld := (h.setUp hal b).1
    have hmm' : k'.mm = m1.setPage pa b := hmm
    cases r with
    | false =>
      refine holds_pure ⟨hI', ?_, fun hr => absurd rfl hr⟩
      show Extends k.mm (pmmFree k'.mm pa) root
      rw [hmm']
      exact extends_of_undone h (Undone.of_alloc h hal (Undone.refl hheld.sep))
    | true =>
      have hmaps := @Loose.map _ _ va _ write exec hheld
      have hundo := @Loose.undone _ _ va _ write exec hheld
      have htotal := @total_of_alloc _ _ _ va _ write exec b h hal
      apply holds_step_bind
      rw [hmm']
      cases hmap : (vmmMapPage (m1.setPage pa b) root va pa write exec).1 with
      | false =>
        refine holds_modify_bind (holds_pure ⟨hI', ?_, fun hr => absurd rfl hr⟩)
        exact extends_of_undone h (Undone.of_alloc h hal (hundo hmap))
      | true =>
        obtain ⟨hmapped, hbytes⟩ := Mapped.of_alloc h hal (hmaps hmap)
        refine holds_pure ⟨hI', extends_of_mapped h hmapped (htotal hmap), fun _ =>
          ⟨pa, hheld.isFrame, hmapped, ?_⟩⟩
        show P ((vmmMapPage (m1.setPage pa b) root va pa write exec).2.page pa)
        rw [hbytes]
        exact hP rfl

theorem mapPages_fills {init : Nat → Nat → KM Bool} {P : Nat → Bytes → Prop} (n va : Nat)
    (h : Sep k.mm 4 root) (hI : I k.fs) (hinit : ∀ va, Fills I (init va) (P va)) :
    Holds (mapPages root init write exec n va k) (fun r k' => I k'.fs ∧ Extends k.mm k'.mm root ∧
      (r = true → ∀ j < n, PageAt k'.mm root (va + 4096 * j) write exec (P (va + 4096 * j))))
      fun _ => True := by
  induction n generalizing va k with
  | zero => exact holds_pure ⟨hI, Extends.refl h, fun _ _ hj => absurd hj (Nat.not_lt_zero _)⟩
  | succ n ih =>
    refine (mapNew_fills va h hI (hinit va)).bind fun r k1 hfirst => ?_
    obtain ⟨hI1, hext1, hpage⟩ := hfirst
    cases r with
    | none => exact holds_pure ⟨hI1, hext1, fun hr => by cases hr⟩
    | some pa =>
      refine (ih (va + 4096) hext1.sep hI1).imp fun r k2 hloop => ?_
      obtain ⟨hI2, hext2, hpages⟩ := hloop
      refine ⟨hI2, hext1.trans hext2, fun hr j hj => ?_⟩
      cases j with
      | zero =>
        obtain ⟨pa', hpa', hmap, hbytes⟩ := hpage (Option.some_ne_none pa)
        exact (pageAt_of_mapped hmap hpa' hbytes).extends hext2
      | succ j =>
        have hnext := hpages hr j (Nat.lt_of_succ_lt_succ hj)
        rwa [show va + 4096 + 4096 * j = va + 4096 * (j + 1) by omega] at hnext

end

/-! ## Segments -/

/-- A reader of the file `data`. Asked for at most a page it keeps `I` of the file system, and when it has as
many bytes as it was asked for, those that lie in the file are the bytes of the file. -/
structure Reader (data : List UInt8) (I : FileSys → Prop) (read : Nat → Nat → FsM (List UInt8)) : Prop where
  keeps : ∀ off len s bs s', len ≤ 4096 → I s → read off len s = .ok (bs, s') → I s'
  bytes : ∀ off len s bs s', len ≤ 4096 → I s → read off len s = .ok (bs, s') → bs.length = len →
    ∀ i < len, off + i < data.length → bs[i]? = data[off + i]?

/-- The contents that a page of a segment can have after a load. -/
structure Phdr.Loaded (h : Phdr) (data : List UInt8) (pageVa : Nat) (page : Bytes) : Prop where
  empty : h.copyRange pageVa = none → page = fun _ => 0
  copied : ∀ pageOff fileOff len, h.copyRange pageVa = some (pageOff, fileOff, len) →
    ∃ bs : List UInt8, bs.length = len ∧
      (∀ i < len, fileOff + i < data.length → bs[i]? = data[fileOff + i]?) ∧
      page = putBytes (fun _ => 0) pageOff bs

/-- Every page of the segment is in the address space. -/
def Phdr.Placed (h : Phdr) (data : List UInt8) (m : PhysMem) (root : Nat) : Prop :=
  ∀ j < (h.vaEnd - h.vaddr / 4096 * 4096) / 4096, PageAt m root (h.vaddr / 4096 * 4096 + 4096 * j)
    (h.flags &&& 2 != 0) (h.flags &&& 1 != 0) (h.Loaded data (h.vaddr / 4096 * 4096 + 4096 * j))

section

variable {data : List UInt8} {I : FileSys → Prop} {read : Nat → Nat → FsM (List UInt8)} {k : Kern} {root : Nat}

theorem Phdr.copyRange_len {h : Phdr} {q pageOff fileOff len : Nat}
    (hcopy : h.copyRange q = some (pageOff, fileOff, len)) : 0 < len ∧ len ≤ 4096 := by
  unfold Phdr.copyRange at hcopy
  generalize (h.vaddr + h.filesz) % ulongMod = e at hcopy
  have hle := Nat.mod_le (q + 4096) ulongMod
  generalize (q + 4096) % ulongMod = f at hcopy hle
  dsimp only at hcopy
  generalize hstart : (if q < h.vaddr then h.vaddr else q) = start at hcopy
  generalize hstop : (if e < f then e else f) = stop at hcopy
  have hq : q ≤ start := by
    rw [← hstart]
    split <;> omega
  have hf : stop ≤ f := by
    rw [← hstop]
    split <;> omega
  by_cases hlt : start < stop
  · rw [if_pos hlt] at hcopy
    cases hcopy
    omega
  · rw [if_neg hlt] at hcopy
    cases hcopy

theorem loadPage_fills (hread : Reader data I read) (h : Phdr) (pageVa : Nat) :
    Fills I (loadPage h (fun off len => onFs (read off len)) pageVa) (h.Loaded data pageVa) := by
  intro pa k hI hzero
  unfold loadPage
  rcases hcopy : h.copyRange pageVa with _ | ⟨pageOff, fileOff, len⟩
  · refine holds_pure ⟨hI, fun _ => 0, ?_, fun _ => ⟨fun _ => rfl, fun _ _ _ hsome => ?_⟩⟩
    · unfold PhysMem.setPage
      rw [← hzero, Function.update_eq_self]
    · rw [hcopy] at hsome
      cases hsome
  have hle := (Phdr.copyRange_len hcopy).2
  have hrun : Holds (onFs (read fileOff len) k) (fun bs k' => I k'.fs ∧ k'.mm = k.mm ∧ (bs.length = len →
      ∀ i < len, fileOff + i < data.length → bs[i]? = data[fileOff + i]?)) fun _ => True :=
    holds_zoom ⟨fun bs s' hr => ⟨hread.keeps _ _ _ _ _ hle hI hr, rfl, hread.bytes _ _ _ _ _ hle hI hr⟩,
      fun _ _ => trivial⟩
  refine hrun.bind fun bs k' ⟨hI', hmm, hbytes⟩ => holds_modify_bind (holds_pure ?_)
  refine ⟨hI', putBytes (k.mm.page pa) pageOff bs, ?_, fun hlen => ?_⟩
  · show k'.mm.setPage pa (putBytes (k'.mm.page pa) pageOff bs) = _
    rw [hmm]
  have hlen' : bs.length = len := by simpa using hlen
  refine ⟨fun hnone => ?_, fun _ _ _ hsome => ?_⟩
  · rw [hcopy] at hnone
    cases hnone
  · rw [hcopy] at hsome
    cases hsome
    exact ⟨bs, hlen', hbytes hlen', by rw [hzero]⟩

theorem loadSegment_fills (hread : Reader data I read) (h : Phdr) (hsep : Sep k.mm 4 root) (hI : I k.fs) :
    Holds (loadSegment root (fun off len => onFs (read off len)) h k)
      (fun r k' => I k'.fs ∧ Extends k.mm k'.mm root ∧
        (r = true → h.type = 1 → h.Placed data k'.mm root)) fun _ => True := by
  refine holds_ite (fun htype => holds_pure ⟨hI, Extends.refl hsep, fun _ h1 => absurd h1 htype⟩) fun _ => ?_
  exact (mapPages_fills _ _ hsep hI fun va => loadPage_fills hread h va).imp
    fun r k' ⟨hI', hext, hpages⟩ => ⟨hI', hext, fun hr _ => hpages hr⟩

theorem loadAll_fills (hread : Reader data I read) (phdrs : List Phdr) (hsep : Sep k.mm 4 root) (hI : I k.fs) :
    Holds (Exec.all (loadSegment root fun off len => onFs (read off len)) phdrs k)
      (fun r k' => Extends k.mm k'.mm root ∧
        (r = true → ∀ h ∈ phdrs, h.type = 1 → h.Placed data k'.mm root)) fun _ => True := by
  induction phdrs generalizing k with
  | nil => exact holds_pure ⟨Extends.refl hsep, fun _ h hh => by cases hh⟩
  | cons h phdrs ih =>
    refine (loadSegment_fills hread h hsep hI).bind fun r k1 ⟨hI1, hext1, hplaced⟩ => ?_
    cases r with
    | false => exact holds_pure ⟨hext1, fun hr => by cases hr⟩
    | true =>
      refine (ih hext1.sep hI1).imp fun r k2 ⟨hext2, hrest⟩ => ⟨hext1.trans hext2, fun hr x hx htype => ?_⟩
      rcases mem_cons.1 hx with rfl | hx
      · exact fun j hj => (hplaced rfl htype j hj).extends hext2
      · exact hrest hr x hx htype

end

/-! ## The two readers -/

theorem reader_buf (data : List UInt8) :
    Reader data (fun _ => True) fun off len => pure (getBytes (ofList data) off len) := by
  refine ⟨fun _ _ _ _ _ _ _ _ => trivial, fun off len s bs s' _ _ hr _ i hi hin => ?_⟩
  obtain ⟨rfl, -⟩ := Prod.mk.inj (Except.ok.inj hr)
  rw [getBytes, getElem?_map, getElem?_range hi, Option.map_some, getElem?_eq_getElem hin]
  unfold ofList
  rw [getD_eq_getElem _ _ hin]

/-! ## What the program headers ask for -/

/-- The byte at `a` of a segment is that of the file, or 0 behind the part that is in the file. -/
def Phdr.ByteRight (h : Phdr) (data : List UInt8) (a : Nat) (page : Bytes) : Prop :=
  if a - h.vaddr < h.filesz then data[h.offset + (a - h.vaddr)]? = some (page (a % 4096))
  else page (a % 4096) = 0

/-- Every byte of a segment is mapped for the user, with the permissions and the value it should have. -/
def Phdr.Right (h : Phdr) (data : List UInt8) (m : PhysMem) (root : Nat) : Prop :=
  ∀ a, h.vaddr ≤ a → a < h.vaddr + h.memsz → a < userStack ∧
    PageAt m root a (h.flags &&& 2 != 0) (h.flags &&& 1 != 0) (h.ByteRight data a)

/-- The end of a segment, rounded up to a page. -/
def Phdr.limit (h : Phdr) : Nat := (h.vaddr + h.memsz + 4095) / 4096 * 4096

/-- The fields are 64-bit numbers. -/
structure Phdr.Word (h : Phdr) : Prop where
  offset : h.offset < ulongMod
  vaddr : h.vaddr < ulongMod
  filesz : h.filesz < ulongMod
  memsz : h.memsz < ulongMod

/-- A segment of user addresses whose bytes are in the file. When the end of the part in the file wraps the
loader copies nothing, which is right only for zeros. -/
structure Phdr.Fits (h : Phdr) (data : List UInt8) : Prop where
  memory : h.memsz = 0 ∧ h.vaddr ≤ ulongMod - 4096 ∨ h.vaddr + h.memsz ≤ userStack
  file : ∀ i < h.memsz, i < h.filesz → h.offset + i < data.length ∧
    (h.vaddr + h.filesz < ulongMod ∨ data[h.offset + i]? = some 0)

section

variable {h : Phdr} {data : List UInt8} {m : PhysMem} {root a : Nat} {page : Bytes}

theorem Phdr.copyRange_eq (h : Phdr) {q : Nat} (hq : q + 4096 < ulongMod) :
    h.copyRange q = if max h.vaddr q < min ((h.vaddr + h.filesz) % ulongMod) (q + 4096) then
      some (max h.vaddr q - q, (h.offset + (max h.vaddr q - h.vaddr)) % ulongMod,
        min ((h.vaddr + h.filesz) % ulongMod) (q + 4096) - max h.vaddr q) else none := by
  have hstart : (if q < h.vaddr then h.vaddr else q) = max h.vaddr q := by
    split <;> omega
  have hstop : ∀ e, (if e < q + 4096 then e else q + 4096) = min e (q + 4096) := by
    intro e
    split <;> omega
  unfold Phdr.copyRange
  rw [Nat.mod_eq_of_lt hq]
  dsimp only
  rw [hstart, hstop]

/-- What a loaded page holds at an address of the segment. -/
theorem Phdr.Loaded.byteRight_iff (hw : h.Word) (hdata : data.length ≤ ulongMod)
    (hmem : h.vaddr + h.memsz ≤ userStack) (hge : h.vaddr ≤ a) (hlt : a < h.vaddr + h.memsz)
    (hload : h.Loaded data (a / 4096 * 4096) page) :
    h.ByteRight data a page ↔ (a - h.vaddr < h.filesz → h.offset + (a - h.vaddr) < data.length ∧
      (h.vaddr + h.filesz < ulongMod ∨ data[h.offset + (a - h.vaddr)]? = some 0)) := by
  have hq : a / 4096 * 4096 + 4096 < ulongMod := by
    unfold userStack at hmem
    unfold ulongMod
    omega
  obtain ⟨hempty, hcopied⟩ := hload
  rw [h.copyRange_eq hq] at hempty hcopied
  unfold Phdr.ByteRight
  by_cases hwrap : h.vaddr + h.filesz < ulongMod
  · rw [Nat.mod_eq_of_lt hwrap] at hempty hcopied
    generalize hstart : max h.vaddr (a / 4096 * 4096) = start at hempty hcopied
    generalize hstop : min (h.vaddr + h.filesz) (a / 4096 * 4096 + 4096) = stop at hempty hcopied
    by_cases hin : a - h.vaddr < h.filesz
    · obtain ⟨bs, hlen, hbytes, rfl⟩ := hcopied _ _ _ (if_pos (by omega))
      have hpage : putBytes (fun _ => 0) (start - a / 4096 * 4096) bs (a % 4096) = bs.getD (a - start) 0 := by
        unfold putBytes
        rw [if_pos (by omega)]
        congr 1
        omega
      rw [if_pos hin, hpage]
      constructor
      · intro hbyte
        exact fun _ => ⟨(List.getElem?_eq_some_iff.1 hbyte).1, Or.inl hwrap⟩
      intro hfile
      have hlt := (hfile hin).1
      have hoff : (h.offset + (start - h.vaddr)) % ulongMod = h.offset + (start - h.vaddr) :=
        Nat.mod_eq_of_lt (by omega)
      have hpos : h.offset + (start - h.vaddr) + (a - start) = h.offset + (a - h.vaddr) := by omega
      have hbyte := hbytes (a - start) (by omega)
      rw [hoff, hpos] at hbyte
      rw [getD_eq_getElem?_getD, hbyte hlt, getElem?_eq_getElem hlt, Option.getD_some]
    rw [if_neg hin]
    refine iff_of_true ?_ fun hfile => absurd hfile hin
    by_cases hcopy : start < stop
    · obtain ⟨bs, hlen, -, rfl⟩ := hcopied _ _ _ (if_pos hcopy)
      unfold putBytes
      rw [if_neg (by omega)]
    · rw [hempty (if_neg hcopy)]
  -- the end of the part in the file is below the segment: nothing is copied
  have hend : (h.vaddr + h.filesz) % ulongMod < h.vaddr := by
    have hfilesz := hw.filesz
    rw [Nat.mod_eq_sub_mod (not_lt.1 hwrap), Nat.mod_eq_of_lt (by omega)]
    omega
  have hin : a - h.vaddr < h.filesz := by omega
  have hcopy : ¬ max h.vaddr (a / 4096 * 4096) <
      min ((h.vaddr + h.filesz) % ulongMod) (a / 4096 * 4096 + 4096) := by
    omega
  rw [hempty (if_neg hcopy), if_pos hin]
  constructor
  · intro hbyte
    exact fun _ => ⟨(List.getElem?_eq_some_iff.1 hbyte).1, Or.inr hbyte⟩
  · intro hfile
    exact (hfile hin).2.resolve_left hwrap

theorem Phdr.vaEnd_eq_limit (hend : h.vaddr + h.memsz ≤ ulongMod - 4096) : h.vaEnd = h.limit := by
  unfold Phdr.vaEnd Phdr.limit pageAlign
  unfold ulongMod at *
  omega

theorem Phdr.vaEnd_lt (h : Phdr) : h.vaEnd < ulongMod :=
  lt_of_le_of_lt (Nat.div_mul_le_self _ _) (Nat.mod_lt _ (by decide))

theorem user_lt (hmem : h.vaddr + h.memsz ≤ userStack) : h.vaddr + h.memsz ≤ ulongMod - 4096 := by
  unfold userStack at hmem
  unfold ulongMod
  omega

theorem Phdr.Placed.pageAt (hp : h.Placed data m root) (hmem : h.vaddr + h.memsz ≤ userStack)
    (hge : h.vaddr ≤ a) (hlt : a < h.vaddr + h.memsz) :
    PageAt m root a (h.flags &&& 2 != 0) (h.flags &&& 1 != 0) (h.Loaded data (a / 4096 * 4096)) := by
  have hend := Phdr.vaEnd_eq_limit (user_lt hmem)
  have hpos : h.vaddr / 4096 * 4096 + 4096 * (a / 4096 - h.vaddr / 4096) = a / 4096 * 4096 := by omega
  have hcount : a / 4096 - h.vaddr / 4096 < (h.vaEnd - h.vaddr / 4096 * 4096) / 4096 := by
    rw [hend]
    unfold Phdr.limit
    omega
  have hpage := hp (a / 4096 - h.vaddr / 4096) hcount
  rw [hpos] at hpage
  obtain ⟨pa, hpa, hentry, hloaded⟩ := hpage
  refine ⟨pa, hpa, ?_, hloaded⟩
  rw [← hentry]
  apply userEntry_pageNo
  unfold pageNo
  omega

/-- Two facts about a page are about the same bytes. -/
theorem PageAt.and {write exec write' exec' : Bool} {P Q : Bytes → Prop} (hP : PageAt m root a write exec P)
    (hQ : PageAt m root a write' exec' Q) : ∃ page, P page ∧ Q page := by
  obtain ⟨pa, hpa, hentry, hp⟩ := hP
  obtain ⟨pa', hpa', hentry', hq⟩ := hQ
  rw [hentry] at hentry'
  have hsame := congrArg pteAddr (Option.some.inj hentry')
  rw [pteAddr_pageDesc hpa, pteAddr_pageDesc hpa'] at hsame
  exact ⟨m.page pa, hp, by rwa [hsame]⟩

/-- A segment whose pages are there is right exactly when it fits. -/
theorem Phdr.Placed.right_iff (hp : h.Placed data m root) (hw : h.Word) (hdata : data.length ≤ ulongMod) :
    h.Right data m root ∧ h.vaddr + h.memsz ≤ ulongMod - 4096 ↔ h.Fits data := by
  constructor
  · rintro ⟨hright, hend⟩
    have hmem : h.memsz = 0 ∧ h.vaddr ≤ ulongMod - 4096 ∨ h.vaddr + h.memsz ≤ userStack := by
      rcases Nat.eq_zero_or_pos h.memsz with hzero | hpos
      · exact Or.inl ⟨hzero, by omega⟩
      · have hlast := (hright (h.vaddr + h.memsz - 1) (by omega) (by omega)).1
        exact Or.inr (by omega)
    refine ⟨hmem, fun i hi hfile => ?_⟩
    have huser : h.vaddr + h.memsz ≤ userStack := hmem.resolve_left fun hzero => by omega
    have hge : h.vaddr ≤ h.vaddr + i := Nat.le_add_right _ _
    have hlt : h.vaddr + i < h.vaddr + h.memsz := Nat.add_lt_add_left hi _
    obtain ⟨page, hbyte, hloaded⟩ := (hright _ hge hlt).2.and (hp.pageAt huser hge hlt)
    have hfits := (hloaded.byteRight_iff hw hdata huser hge hlt).1 hbyte
    rw [Nat.add_sub_cancel_left] at hfits
    exact hfits hfile
  rintro ⟨hmem, hfile⟩
  rcases hmem with ⟨hzero, hend⟩ | huser
  · refine ⟨fun a hge hlt => ?_, by omega⟩
    omega
  refine ⟨fun a hge hlt => ⟨by omega, ?_⟩, user_lt huser⟩
  obtain ⟨pa, hpa, hentry, hloaded⟩ := hp.pageAt huser hge hlt
  refine ⟨pa, hpa, hentry, (hloaded.byteRight_iff hw hdata huser hge hlt).2 fun hin => ?_⟩
  exact hfile (a - h.vaddr) (by omega) hin

end

/-! ## The whole table -/

/-- The segments are in the address space as the program headers say, and the break is the highest end. -/
structure SegmentsRight (phdrs : List Phdr) (data : List UInt8) (m : PhysMem) (root brk : Nat) : Prop where
  segment : ∀ h ∈ phdrs, h.type = 1 → h.Right data m root
  brk : brk = (phdrs.filter fun h => h.type == 1).foldl (fun x h => max x h.limit) 0

section

variable {data : List UInt8} {I : FileSys → Prop} {read : Nat → Nat → FsM (List UInt8)} {k : Kern}
  {root : Nat} {phdrs : List Phdr}

/-- The break is the highest end exactly when no end wraps. -/
theorem brk_iff (l : List Phdr) : l.foldl (fun x h => max x h.vaEnd) 0 =
    l.foldl (fun x h => max x h.limit) 0 ↔ ∀ h ∈ l, h.vaddr + h.memsz ≤ ulongMod - 4096 := by
  constructor
  · intro hbrk h hh
    by_contra hwrap
    have hlimit : ulongMod ≤ h.limit := by
      unfold Phdr.limit
      unfold ulongMod at *
      omega
    have hlt := foldl_max_lt (f := Phdr.vaEnd) (B := ulongMod) (x := 0) (l := l) (by decide)
      fun h _ => h.vaEnd_lt
    rw [hbrk] at hlt
    exact absurd ((hlimit.trans ((le_foldl_max Phdr.limit l 0).2 h hh)).trans_lt hlt) (lt_irrefl _)
  intro hend
  apply foldl_ext
  intro x h hh
  rw [Phdr.vaEnd_eq_limit (hend h hh)]

/-- What `elf_load_segments` has done, whatever it returns. -/
theorem loadSegments_fills (hread : Reader data I read) (hsep : Sep k.mm 4 root) (hI : I k.fs) :
    Holds (loadSegments phdrs root (fun off len => onFs (read off len)) k)
      (fun r k' => Extends k.mm k'.mm root ∧ ∀ brk, r = some brk →
        (∀ h ∈ phdrs, h.type = 1 → h.Placed data k'.mm root) ∧
          brk = (phdrs.filter fun h => h.type == 1).foldl (fun x h => max x h.vaEnd) 0) fun _ => True := by
  refine (loadAll_fills hread phdrs hsep hI).bind fun r k' ⟨hext, hplaced⟩ => ?_
  cases r with
  | false => exact holds_pure ⟨hext, fun _ hr => by cases hr⟩
  | true => exact holds_pure ⟨hext, fun _ hr => ⟨hplaced rfl, (Option.some.inj hr).symm⟩⟩

/-- A load that succeeds is right exactly when all segments fit. -/
theorem segmentsRight_iff {brk : Nat} {k' : Kern} (hread : Reader data I read)
    (hdata : data.length ≤ ulongMod) (hw : ∀ h ∈ phdrs, h.Word) (hsep : Sep k.mm 4 root) (hI : I k.fs)
    (hrun : loadSegments phdrs root (fun off len => onFs (read off len)) k = .ok (some brk, k')) :
    SegmentsRight phdrs data k'.mm root brk ↔ ∀ h ∈ phdrs, h.type = 1 → h.Fits data := by
  obtain ⟨-, hdone⟩ := (loadSegments_fills hread hsep hI).ok _ _ hrun
  obtain ⟨hplaced, hbrk⟩ := hdone brk rfl
  have hends := brk_iff (phdrs.filter fun h => h.type == 1)
  rw [← hbrk] at hends
  have hfilter : ∀ h, h ∈ phdrs.filter (fun h => h.type == 1) ↔ h ∈ phdrs ∧ h.type = 1 := fun h => by
    rw [mem_filter, beq_iff_eq]
  constructor
  · rintro ⟨hsegment, hbrk'⟩ h hh htype
    exact ((hplaced h hh htype).right_iff (hw h hh) hdata).1
      ⟨hsegment h hh htype, hends.1 hbrk' h ((hfilter h).2 ⟨hh, htype⟩)⟩
  intro hfits
  have hright := fun h hh htype =>
    ((hplaced h hh htype).right_iff (hw h hh) hdata).2 (hfits h hh htype)
  exact ⟨fun h hh htype => (hright h hh htype).1,
    hends.2 fun h hh => (hright h ((hfilter h).1 hh).1 ((hfilter h).1 hh).2).2⟩

/-- The loader on every program header table and for every reader: a load that succeeds has put the segments
where the program headers say exactly when all of them fit, and after one that fails `vmm_free` gives back
every frame. -/
theorem load_segments_exact (hread : Reader data I read) (hdata : data.length ≤ ulongMod)
    (hw : ∀ h ∈ phdrs, h.Word) (hsep : Sep k.mm 4 root) (hI : I k.fs) :
    (∀ brk k', loadSegments phdrs root (fun off len => onFs (read off len)) k = .ok (some brk, k') →
      (SegmentsRight phdrs data k'.mm root brk ↔ ∀ h ∈ phdrs, h.type = 1 → h.Fits data)) ∧
    ∀ k', loadSegments phdrs root (fun off len => onFs (read off len)) k = .ok (none, k') →
      ((vmmFree k'.mm root).free : Multiset Nat) = extent k.mm 4 root := by
  refine ⟨fun brk k' hrun => segmentsRight_iff hread hdata hw hsep hI hrun, fun k' hrun => ?_⟩
  obtain ⟨hext, -⟩ := (loadSegments_fills hread hsep hI).ok _ _ hrun
  rw [(vmmFree_spec hext.sep).1, extent_eq, hext.total, ← extent_eq]

end

/-! ## The loader makes the image -/

/-- The user pages of the page tables are the pages of `sp`, with the same bytes. -/
structure Shows (m : PhysMem) (root : Nat) (sp : AddressSpace) : Prop where
  sep : Sep m 4 root
  unmapped : ∀ q < userStack, q % 4096 = 0 → sp q = none → userEntry m root q = none
  mapped : ∀ q < userStack, q % 4096 = 0 → ∀ page, sp q = some page →
    ∃ write exec, PageAt m root q write exec (· = page)

section

variable {m m' : PhysMem} {root va pa : Nat} {write exec : Bool} {sp : AddressSpace} {page : Bytes}
  {h : Phdr} {k : Kern} {data : List UInt8}

/-- A page that could be mapped was not in the image. -/
theorem Shows.new (hshow : Shows m root sp) (hmap : Mapped m m' root va pa write exec) (hva : va < userStack)
    (halign : va % 4096 = 0) : sp va = none := by
  cases hsp : sp va with
  | none => rfl
  | some page =>
    obtain ⟨write, exec, pa, -, hentry, -⟩ := hshow.mapped va hva halign page hsp
    rw [hmap.unmapped] at hentry
    cases hentry

/-- Mapping a page puts its bytes into the image, and leaves the other pages. -/
theorem Shows.map (hshow : Shows m root sp) (hext : Extends m m' root) (hpa : IsFrame pa)
    (hmap : Mapped m m' root va pa write exec) (hpage : m'.page pa = page) (hva : va < userStack)
    (halign : va % 4096 = 0) : Shows m' root (Function.update sp va (some page)) := by
  refine ⟨hext.sep, fun q hq hqa hsp => ?_, fun q hq hqa page' hsp => ?_⟩
  · have hne : q ≠ va := by
      rintro rfl
      rw [Function.update_self] at hsp
      cases hsp
    rw [Function.update_of_ne hne] at hsp
    rw [hmap.entry, if_neg]
    · exact hshow.unmapped q hq hqa hsp
    · unfold pageNo
      unfold userStack at hva hq
      omega
  by_cases hne : q = va
  · subst hne
    rw [Function.update_self] at hsp
    exact ⟨write, exec, pageAt_of_mapped hmap hpa (hpage.trans (Option.some.inj hsp))⟩
  · rw [Function.update_of_ne hne] at hsp
    obtain ⟨write', exec', hat⟩ := hshow.mapped q hq hqa page' hsp
    exact ⟨write', exec', hat.extends hext⟩

/-- The reader of an image in memory fills a page with what belongs there. -/
theorem loadPage_image (h : Phdr) (img : Image) (pageVa : Nat) :
    Fills (fun _ => True) (loadPage h (fun off len => pure (getBytes img.data off len)) pageVa)
      (· = h.pageContents img.data pageVa) := by
  intro pa k _ hzero
  unfold loadPage Phdr.pageContents
  rcases h.copyRange pageVa with _ | ⟨pageOff, fileOff, len⟩
  · refine holds_pure ⟨trivial, fun _ => 0, ?_, fun _ => rfl⟩
    unfold PhysMem.setPage
    rw [← hzero, Function.update_eq_self]
  · refine holds_pure_bind (holds_modify_bind (holds_pure ⟨trivial, _, rfl, fun _ => ?_⟩))
    rw [hzero]

theorem mapPages_image (img : Image) (n : Nat) (hshow : Shows k.mm root sp) (halign : va % 4096 = 0)
    (huser : ∀ j < n, va + 4096 * j < userStack) :
    Holds (mapPages root (loadPage h fun off len => pure (getBytes img.data off len)) write exec n va k)
      (fun r k' => r = true → ∃ sp', imagePages h img.data n va sp = some sp' ∧ Shows k'.mm root sp')
      fun _ => True := by
  induction n generalizing va k sp with
  | zero => exact holds_pure fun _ => ⟨sp, rfl, hshow⟩
  | succ n ih =>
    refine (mapNew_fills va hshow.sep trivial (loadPage_image h img va)).bind fun r k1 hfirst => ?_
    obtain ⟨-, hext, hpage⟩ := hfirst
    cases r with
    | none => exact holds_pure fun hr => by cases hr
    | some pa =>
      obtain ⟨pa, hpa, hmap, hbytes⟩ := hpage (Option.some_ne_none pa)
      have hva : va < userStack := huser 0 (Nat.succ_pos n)
      -- a page that is there already stops both
      have hnew := hshow.new hmap hva halign
      refine (ih (hshow.map hext hpa hmap hbytes hva halign) (by omega) fun j hj => ?_).imp
        fun r k2 hrest hr => ?_
      · have hnext := huser (j + 1) (Nat.succ_lt_succ hj)
        omega
      · rw [imagePages, hnew]
        exact hrest hr

theorem loadSegment_image (img : Image) (hshow : Shows k.mm root sp) (hend : h.type = 1 → h.vaEnd ≤ userStack) :
    Holds (loadSegment root (fun off len => pure (getBytes img.data off len)) h k)
      (fun r k' => r = true → ∃ sp', imageSegment img.data sp h = some sp' ∧ Shows k'.mm root sp')
      fun _ => True := by
  unfold loadSegment imageSegment
  by_cases htype : h.type = 1
  · rw [if_neg (not_not.2 htype), if_neg (not_not.2 htype)]
    have hle := hend htype
    exact mapPages_image img _ hshow (Nat.mul_mod_left _ _) fun j hj => by omega
  · rw [if_pos htype, if_pos htype]
    exact holds_pure fun _ => ⟨sp, rfl, hshow⟩

theorem loadAll_image (img : Image) (phdrs : List Phdr) (hshow : Shows k.mm root sp)
    (hend : ∀ h ∈ phdrs, h.type = 1 → h.vaEnd ≤ userStack) :
    Holds (Exec.all (loadSegment root fun off len => pure (getBytes img.data off len)) phdrs k)
      (fun r k' => r = true → ∃ sp', phdrs.foldlM (imageSegment img.data) sp = some sp' ∧
        Shows k'.mm root sp') fun _ => True := by
  induction phdrs generalizing k sp with
  | nil => exact holds_pure fun _ => ⟨sp, rfl, hshow⟩
  | cons h phdrs ih =>
    refine (loadSegment_image img hshow (hend h mem_cons_self)).bind fun r k1 hfirst => ?_
    cases r with
    | false => exact holds_pure fun hr => by cases hr
    | true =>
      obtain ⟨sp1, hsegment, hshow1⟩ := hfirst rfl
      refine (ih hshow1 fun h' hh' => hend h' (mem_cons_of_mem h hh')).imp fun r k2 hrest hr => ?_
      rw [foldlM_cons, hsegment]
      exact hrest hr

/-- What user code reads is what the image holds. -/
theorem Shows.userByte (hshow : Shows m root sp) (va : Nat) : userByte m root va = sp.byte va := by
  unfold Kernel.userByte AddressSpace.byte
  by_cases hva : userStack ≤ va
  · rw [if_pos hva, validatePage, if_pos hva]
    rfl
  rw [if_neg hva]
  have hlt : va / 4096 * 4096 < userStack := by omega
  have hentry : userEntry m root va = userEntry m root (va / 4096 * 4096) :=
    userEntry_pageNo (pageNo_congr (by omega))
  -- the image and the tables agree on the page the address is in
  cases hsp : sp (va / 4096 * 4096) with
  | none =>
    have hnone := hshow.unmapped _ hlt (Nat.mul_mod_left _ _) hsp
    cases hval : validatePage m root va with
    | none => rfl
    | some pa =>
      obtain ⟨-, e, he, -⟩ := validatePage_eq_some.1 hval
      rw [hentry, hnone] at he
      cases he
  | some page =>
    obtain ⟨write, exec, pa, hpa, he, hpage⟩ := hshow.mapped _ hlt (Nat.mul_mod_left _ _) page hsp
    have hval : validatePage m root va = some pa := validatePage_eq_some.2
      ⟨not_le.1 hva, _, hentry.trans he, pteUser_pageDesc hpa, pteAddr_pageDesc hpa _ _⟩
    rw [hval, Option.map_some, Option.map_some, hpage]

/-- An `elf_load` that succeeds in an address space without user pages leaves the image of the file. -/
theorem elfLoad_image (hsep : Sep k.mm 4 root) (hempty : ∀ q < userStack, userEntry k.mm root q = none)
    (hend : ∀ j < getLe 2 (ofList data) 56,
      (getPhdr (ofList data) (getLe 8 (ofList data) 32 + 56 * j)).type = 1 →
        (getPhdr (ofList data) (getLe 8 (ofList data) 32 + 56 * j)).vaEnd ≤ userStack) :
    Holds (elfLoad ⟨ofList data, data.length⟩ root k)
      (fun r k' => ∀ entry brk, r = some (entry, brk) →
        ∃ sp, elfImage data = some (entry, sp) ∧ ∀ va, userByte k'.mm root va = sp.byte va)
      fun _ => True := by
  unfold elfLoad elfImage
  refine holds_ite (fun _ => holds_pure fun _ _ hr => by cases hr) fun hlen => ?_
  refine holds_ite (fun _ => holds_pure fun _ _ hr => by cases hr) fun hvalid => ?_
  have hshow : Shows k.mm root fun _ => none :=
    ⟨hsep, fun q hq _ _ => hempty q hq, fun _ _ _ _ hsome => by cases hsome⟩
  have hload := loadAll_image ⟨ofList data, data.length⟩
    ((List.range (getLe 2 (ofList data) 56)).map fun j =>
      getPhdr (ofList data) (getLe 8 (ofList data) 32 + 56 * j)) hshow fun h hh => by
    obtain ⟨j, hj, rfl⟩ := mem_map.1 hh
    exact hend j (mem_range.1 hj)
  dsimp only
  unfold loadSegments
  rw [if_neg hlen, if_neg hvalid, Exec.bind_bind]
  refine hload.bind fun r k' hdone => ?_
  cases r with
  | false => exact holds_pure fun _ _ hr => by cases hr
  | true =>
    obtain ⟨sp, himage, hshow'⟩ := hdone rfl
    refine holds_pure fun entry brk hr => ⟨sp, ?_, hshow'.userByte⟩
    have hentry : getLe 8 (ofList data) 24 = entry := congrArg Prod.fst (Option.some.inj hr)
    rw [himage, Option.map_some, hentry]

end

/-! ## Two program headers -/

/-- Two bytes of a file and two zeros behind them, at an address inside a page. -/
def smallSegment : Phdr := { type := 1, flags := 6, offset := 1, vaddr := 0x1002, filesz := 2, memsz := 4 }

/-- A segment that ends where the addresses do. -/
def wrappingSegment : Phdr :=
  { type := 1, flags := 6, offset := 1, vaddr := 0x1000, filesz := 2, memsz := ulongMod - 0x1000 }

/-- Load one segment of the file 7, 8, 9 into an empty address space. -/
def loadSmall (h : Phdr) : Except Fs.Stop (Option Nat × Kern) :=
  loadSegments [h] ramBase (fun off len => onFs (pure (getBytes (ofList [7, 8, 9]) off len))) heapKern

/-- The break that the load returns. -/
def loadedBreak (r : Except Fs.Stop (Option Nat × Kern)) : Option Nat :=
  match r with
  | .ok (brk, _) => brk
  | .error _ => none

theorem loadSmall_eq {h : Phdr} {brk : Nat} (hbrk : loadedBreak (loadSmall h) = some brk) :
    ∃ k', loadSmall h = .ok (some brk, k') := by
  cases hrun : loadSmall h with
  | error e =>
    rw [hrun] at hbrk
    cases hbrk
  | ok r =>
    rw [hrun] at hbrk
    exact ⟨r.2, congrArg Except.ok (Prod.ext hbrk rfl)⟩

/-- A load that succeeds and is right. -/
theorem load_segments_exact_small : ∃ k', loadSmall smallSegment = .ok (some 0x2000, k') ∧
    SegmentsRight [smallSegment] [7, 8, 9] k'.mm ramBase 0x2000 := by
  obtain ⟨k', hrun⟩ := @loadSmall_eq smallSegment 0x2000 (by decide +kernel)
  have hword : ∀ h ∈ [smallSegment], h.Word := by
    intro h hh
    rw [mem_singleton.1 hh]
    constructor <;> decide
  obtain ⟨hright, -⟩ := @load_segments_exact _ _ _ heapKern _ [smallSegment] (reader_buf [7, 8, 9])
    (by decide) hword heapKern_sep trivial
  refine ⟨k', hrun, (hright _ k' hrun).2 fun h hh _ => ?_⟩
  rw [mem_singleton.1 hh]
  refine ⟨Or.inr (by decide), fun i hi hin => ⟨?_, Or.inl (by decide)⟩⟩
  have hlt : i < 2 := hin
  show 1 + i < 3
  omega

/-- The end of the segment wraps to 0: the load succeeds and maps nothing. -/
theorem load_wrapping_segment : ∃ k', loadSmall wrappingSegment = .ok (some 0, k') ∧
    ¬ SegmentsRight [wrappingSegment] [7, 8, 9] k'.mm ramBase 0 := by
  obtain ⟨k', hrun⟩ := @loadSmall_eq wrappingSegment 0 (by decide +kernel)
  refine ⟨k', hrun, fun hright => ?_⟩
  have hword : ∀ h ∈ [wrappingSegment], h.Word := by
    intro h hh
    rw [mem_singleton.1 hh]
    constructor <;> decide
  have hfits := (segmentsRight_iff (reader_buf [7, 8, 9]) (by decide) hword heapKern_sep trivial hrun).1 hright
    wrappingSegment mem_cons_self rfl
  rcases hfits.memory with ⟨hzero, -⟩ | huser
  · exact absurd hzero (by decide)
  · exact absurd huser (by decide)

end Slopix.Kernel
