import Slopix.Kernel.Run
import Slopix.Mm.Room

/-!
# A start that succeeds

A machine with enough memory whose first program is in the initial RAM file system and needs no page
of its own starts: `init` finds its frames one after the other behind the kernel, maps the stack and
returns, whatever is on the disk.
-/

namespace Slopix.Kernel

open Lib Mm Fs Ipc List Function Exec

/-! ## The first tables -/

section

variable {m : PhysMem} {n t i : Nat}

theorem walkAlloc_fresh (hinvalid : pteValid (m.pte t i) = false) (hfree : m.free = upperFrames n)
    (hn : n < frameCount) (ht : t ≠ frame n) :
    ∃ m', m'.free = upperFrames (n + 1) ∧ m'.page (frame n) = (fun _ => 0) ∧
      m'.pte t i = makeTableDesc (frame n) ∧ (∀ x, x ≠ t → x ≠ frame n → m'.page x = m.page x) ∧
      (∀ j, j ≠ i → m'.pte t j = m.pte t j) ∧ ∀ is t' m'', walkAlloc is (frame n) m' = (some t', m'') →
        walkAlloc (i :: is) t m = (some t', m'') := by
  obtain ⟨m1, hal, hfree1, hzero, hpage⟩ := pmmAlloc_upper hfree hn
  refine ⟨m1.setPte t i (makeTableDesc (frame n)), hfree1, ?_, ?_, fun x hx hx' => ?_, fun j hj => ?_,
    fun is t' m'' hrest => ?_⟩
  · rw [setPte_page_of_ne ht.symm, hzero]
  · exact pte_setPte_self (makeTableDesc_lt (isFrame_frame hn))
  · rw [setPte_page_of_ne hx, hpage x hx']
  · rw [pte_setPte_of_ne hj, pte_congr (hpage t ht)]
  · rw [walkAlloc, hinvalid, if_neg (by simp), hal]
    dsimp only
    rw [hrest]

/-- The tables above the user stack, whose `j` highest pages are mapped. -/
structure StackTables (m : PhysMem) (n j pt a b c : Nat) : Prop where
  free : m.free = upperFrames n
  notFree : ∀ k, n ≤ k → frame k ≠ pt ∧ frame k ≠ a ∧ frame k ≠ b ∧ frame k ≠ c
  distinct : pt ≠ c ∧ a ≠ c ∧ b ≠ c
  frames : IsFrame a ∧ IsFrame b ∧ IsFrame c
  root : m.pte pt 511 = makeTableDesc a
  first : m.pte pt 0 = 0
  mid : m.pte a 511 = makeTableDesc b
  low : m.pte b 511 = makeTableDesc c
  below : ∀ i, i + j < 512 → m.pte c i = 0

theorem StackTables.walk {j pt a b c : Nat} (h : StackTables m n j pt a b c) :
    walkAlloc [511, 511, 511] pt m = (some c, m) := by
  obtain ⟨ha, hb, hc⟩ := h.frames
  rw [walkAlloc, h.root, pteValid_tableDesc ha, if_pos rfl, pteAddr_tableDesc ha, walkAlloc, h.mid,
    pteValid_tableDesc hb, if_pos rfl, pteAddr_tableDesc hb, walkAlloc, h.low, pteValid_tableDesc hc,
    if_pos rfl, pteAddr_tableDesc hc, walkAlloc]

theorem StackTables.alloc {j pt a b c : Nat} {m' : PhysMem} (h : StackTables m n j pt a b c)
    (hfree : m'.free = upperFrames (n + 1)) (hpage : ∀ x, x ≠ frame n → m'.page x = m.page x) :
    StackTables m' (n + 1) j pt a b c where
  free := hfree
  notFree k hk := h.notFree k (by omega)
  distinct := h.distinct
  frames := h.frames
  root := by rw [pte_congr (hpage _ (h.notFree n (le_refl n)).1.symm), h.root]
  first := by rw [pte_congr (hpage _ (h.notFree n (le_refl n)).1.symm), h.first]
  mid := by rw [pte_congr (hpage _ (h.notFree n (le_refl n)).2.1.symm), h.mid]
  low := by rw [pte_congr (hpage _ (h.notFree n (le_refl n)).2.2.1.symm), h.low]
  below i hi := by rw [pte_congr (hpage _ (h.notFree n (le_refl n)).2.2.2.symm), h.below i hi]

theorem StackTables.map {j pt a b c : Nat} (h : StackTables m n j pt a b c) (hj : j < 512) (v : Nat) :
    StackTables (m.setPte c (511 - j) v) n (j + 1) pt a b c where
  free := h.free
  notFree := h.notFree
  distinct := h.distinct
  frames := h.frames
  root := by rw [pte_congr (setPte_page_of_ne h.distinct.1), h.root]
  first := by rw [pte_congr (setPte_page_of_ne h.distinct.1), h.first]
  mid := by rw [pte_congr (setPte_page_of_ne h.distinct.2.1), h.mid]
  low := by rw [pte_congr (setPte_page_of_ne h.distinct.2.2), h.low]
  below i hi := by rw [pte_setPte_of_ne (by omega), h.below i (by omega)]

theorem tableIndices_stack {j : Nat} (hj : j < 512) :
    tableIndices (userStack - (j + 1) * 4096) = [511, 511, 511] ∧
      l3Index (userStack - (j + 1) * 4096) = 511 - j := by
  unfold tableIndices l3Index userStack
  refine ⟨?_, by omega⟩
  rw [cons.injEq, cons.injEq, cons.injEq]
  refine ⟨by omega, by omega, by omega, rfl⟩

/-- The tables of the first page of the stack, in an empty address space. -/
theorem walkAlloc_first {t : Nat} (hzero : m.page t = fun _ => 0) (hfree : m.free = upperFrames n)
    (hn : n + 3 ≤ frameCount) (hpt : ∀ k, n ≤ k → t ≠ frame k) :
    ∃ m', walkAlloc [511, 511, 511] t m = (some (frame (n + 2)), m') ∧
      StackTables m' (n + 3) 0 t (frame n) (frame (n + 1)) (frame (n + 2)) := by
  have hne : ∀ {k l}, k ≠ l → frame k ≠ frame l := fun hkl e => hkl (frame_inj e)
  obtain ⟨m1, hfree1, hzero1, hroot, -, hother, hrun1⟩ := walkAlloc_fresh (i := 511)
    (by rw [pte_of_zero hzero]; rfl) hfree (by omega) (hpt n (le_refl n))
  obtain ⟨m2, hfree2, hzero2, hmid, hpage2, -, hrun2⟩ := walkAlloc_fresh (i := 511)
    (by rw [pte_of_zero hzero1]; rfl) hfree1 (by omega) (hne (Nat.lt_succ_self n).ne)
  obtain ⟨m3, hfree3, hzero3, hlow, hpage3, -, hrun3⟩ := walkAlloc_fresh (i := 511)
    (by rw [pte_of_zero hzero2]; rfl) hfree2 (by omega) (hne (Nat.lt_succ_self (n + 1)).ne)
  refine ⟨m3, hrun1 _ _ _ (hrun2 _ _ _ (hrun3 _ _ _ rfl)), ?_⟩
  constructor
  · exact hfree3
  · intro k hk
    exact ⟨(hpt k (by omega)).symm, hne (by omega), hne (by omega), hne (by omega)⟩
  · exact ⟨hpt _ (by omega), hne (by omega), hne (by omega)⟩
  · exact ⟨isFrame_frame (by omega), isFrame_frame (by omega), isFrame_frame (by omega)⟩
  · rw [pte_congr (hpage3 t (hpt _ (by omega)) (hpt _ (by omega))),
      pte_congr (hpage2 t (hpt _ (by omega)) (hpt _ (by omega))), hroot]
  · rw [pte_congr (hpage3 t (hpt _ (by omega)) (hpt _ (by omega))),
      pte_congr (hpage2 t (hpt _ (by omega)) (hpt _ (by omega))), hother 0 (by decide), pte_of_zero hzero]
  · rw [pte_congr (hpage3 _ (hne (by omega)) (hne (by omega))), hmid]
  · exact hlow
  · exact fun i _ => pte_of_zero hzero3 i

end

/-! ## The stack -/

section

variable {k : Kern} {n j pt a b c : Nat}

theorem allocPage_upper (hfree : k.mm.free = upperFrames n) (hn : n < frameCount) :
    ∃ m, allocPage k = .ok (some (frame n), k.withMm m) ∧ m.free = upperFrames (n + 1) ∧
      m.page (frame n) = (fun _ => 0) ∧ ∀ x, x ≠ frame n → m.page x = k.mm.page x := by
  obtain ⟨m, hal, hrest⟩ := pmmAlloc_upper hfree hn
  refine ⟨m, ?_, hrest⟩
  unfold allocPage onMm step
  beta_reduce
  rw [hal]

theorem mapNew_run {va pa : Nat} {m m' : PhysMem} {init : Nat → KM Bool} {write exec : Bool}
    (hal : allocPage k = .ok (some pa, k.withMm m))
    (hinit : init pa (k.withMm m) = .ok (true, k.withMm m))
    (hmap : vmmMapPage m pt va pa write exec = (true, m')) :
    mapNew pt va init write exec k = .ok (some pa, k.withMm m') := by
  have hon : (onMm fun m => vmmMapPage m pt va pa write exec) (k.withMm m) =
      .ok (true, k.withMm m') := by
    show Except.ok ((vmmMapPage m pt va pa write exec).1,
      (k.withMm m).withMm (vmmMapPage m pt va pa write exec).2) = _
    rw [hmap]
    rfl
  unfold mapNew
  rw [bind_ok hal]
  dsimp only
  rw [bind_ok hinit, if_pos rfl, bind_ok hon, if_pos rfl]
  rfl

theorem mapNew_first (hzero : k.mm.page pt = fun _ => 0) (hfree : k.mm.free = upperFrames n)
    (hn : n + 4 ≤ frameCount) (hpt : ∀ l, n ≤ l → pt ≠ frame l) :
    ∃ m, mapNew pt (userStack - 4096) (fun _ => pure true) true false k =
        .ok (some (frame n), k.withMm m) ∧
      StackTables m (n + 4) 1 pt (frame (n + 1)) (frame (n + 2)) (frame (n + 3)) := by
  obtain ⟨m, hal, hfree', -, hpage⟩ := allocPage_upper hfree (by omega)
  obtain ⟨m', hwalk, htables⟩ := walkAlloc_first (m := m) (t := pt) (n := n + 1)
    (by rw [hpage pt (hpt n (le_refl n)), hzero]) hfree' (by omega)
    fun l hl => hpt l (by omega)
  obtain ⟨hidx, hl3⟩ := tableIndices_stack (j := 0) (by decide)
  refine ⟨_, mapNew_run hal rfl ?_, htables.map (by decide) (makePageDescUser (frame n) true false)⟩
  unfold vmmMapPage
  rw [hidx, hwalk, hl3]
  dsimp only
  rw [htables.below _ (by omega), pteValid_zero, if_neg (by simp)]

theorem mapNew_stack (h : StackTables k.mm n j pt a b c) (hj : j < 512) (hn : n < frameCount) :
    ∃ m, mapNew pt (userStack - (j + 1) * 4096) (fun _ => pure true) true false k =
        .ok (some (frame n), k.withMm m) ∧ StackTables m (n + 1) (j + 1) pt a b c := by
  obtain ⟨m, hal, hfree, -, hpage⟩ := allocPage_upper h.free hn
  have htables := h.alloc hfree hpage
  obtain ⟨hidx, hl3⟩ := tableIndices_stack hj
  refine ⟨_, mapNew_run hal rfl ?_, htables.map hj (makePageDescUser (frame n) true false)⟩
  unfold vmmMapPage
  rw [hidx, htables.walk, hl3]
  dsimp only
  rw [htables.below _ (by omega), pteValid_zero, if_neg (by simp)]

theorem mapStack_rest (l : List Nat) (hl : ∃ d, l = range' j d) (hj : j + l.length < 511)
    (h : StackTables k.mm n (j + 1) pt a b c) (hn : n + l.length ≤ frameCount) :
    ∃ m, Exec.all (fun i => do
        let r ← mapNew pt (userStack - (i + 2) * 4096) (fun _ => pure true) true false
        pure r.isSome) l k = .ok (true, k.withMm m) ∧
      StackTables m (n + l.length) (j + 1 + l.length) pt a b c := by
  induction l generalizing k n j with
  | nil => exact ⟨k.mm, rfl, h⟩
  | cons i l ih =>
    obtain ⟨d, hd⟩ := hl
    obtain ⟨d, rfl⟩ : ∃ d', d = d' + 1 := by
      cases d with
      | zero => cases hd
      | succ d => exact ⟨d, rfl⟩
    rw [range'_succ, cons.injEq] at hd
    obtain ⟨rfl, hd⟩ := hd
    rw [length_cons] at hj hn
    obtain ⟨m, hrun, htables⟩ := mapNew_stack h (by omega) (by omega)
    obtain ⟨m', hrun', htables'⟩ := ih (k := k.withMm m) ⟨d, hd⟩ (by omega) htables (by omega)
    refine ⟨m', ?_, ?_⟩
    · rw [Exec.all]
      have hbody : (do
          let r ← mapNew pt (userStack - (i + 2) * 4096) (fun _ => pure true) true false
          pure r.isSome : KM Bool) k = .ok (true, k.withMm m) := by
        rw [Exec.bind_ok hrun]
        rfl
      rw [Exec.bind_ok hbody, if_pos rfl, hrun']
      rfl
    rw [length_cons]
    have hn' : n + 1 + l.length = n + (l.length + 1) := by omega
    have hj' : i + 1 + 1 + l.length = i + 1 + (l.length + 1) := by omega
    rw [← hn', ← hj']
    exact htables'

theorem mapStack_run (hzero : k.mm.page pt = fun _ => 0) (hfree : k.mm.free = upperFrames n)
    (hn : n + 19 ≤ frameCount) (hpt : ∀ l, n ≤ l → pt ≠ frame l) :
    ∃ m, mapStack pt k = .ok (some (frame n), k.withMm m) ∧ m.free = upperFrames (n + 19) ∧ m.pte pt 0 = 0 := by
  obtain ⟨m, hrun, htables⟩ := mapNew_first hzero hfree (by omega) hpt
  obtain ⟨m', hrun', htables'⟩ := mapStack_rest (k := k.withMm m) (j := 0) (range 15)
    ⟨15, range_eq_range'⟩ (by decide) htables (by rw [length_range]; omega)
  refine ⟨m', ?_, ?_, htables'.first⟩
  · unfold mapStack
    rw [bind_ok hrun]
    dsimp only
    rw [bind_ok hrun', if_pos rfl]
    rfl
  · rw [htables'.free, length_range]

end

/-! ## The start -/

theorem filter_upperFrames {n s : Nat} (h : n ≤ s) :
    (upperFrames n).filter (fun pa => decide (frame s ≤ pa)) = upperFrames s := by
  obtain ⟨d, rfl⟩ := Nat.exists_eq_add_of_le h
  induction d generalizing n with
  | zero =>
    rw [add_zero, filter_eq_self]
    intro x hx
    obtain ⟨j, hj, -, rfl⟩ := mem_upperFrames.1 hx
    unfold frame pageSize
    exact decide_eq_true (by omega)
  | succ d ih =>
    have hnext := ih (n := n + 1) (by omega)
    rw [add_assoc n 1 d, add_comm 1 d] at hnext
    by_cases hn : n < frameCount
    · rw [upperFrames_cons hn, filter_cons_of_neg, hnext]
      unfold frame pageSize
      simp
    have hempty : ∀ j, frameCount ≤ j → upperFrames j = [] := by
      intro j hj
      unfold upperFrames
      rw [Nat.sub_eq_zero_of_le hj]
      rfl
    rw [hempty n (by omega), hempty _ (by omega)]
    rfl

/-- A machine whose kernel takes the first `s` frames and whose first program is in the initial RAM
file system, with nothing to load, with its entry point and program break. -/
structure Machine.Bare (b : Machine) (s entry brk : Nat) : Prop where
  start : b.start = frame s
  room : s + 26 ≤ frameCount
  reserved : b.reservedStart = 0
  program : ∃ name img, b.program = initramfsPrefix ++ name ∧ b.initramfs name = some img ∧
    ∀ pt k, elfLoad img pt k = .ok (some (entry, brk), k)

/-- The file system with the root directory as the only inode in the cache. -/
def rootFs (sb : Superblock) (disk : Nat → Fs.Block) : FileSys :=
  ((((mount sb disk).iget 0 rootino).2.setLocked 0 true).load 0).iunlock 0

/-- What `initConsole` puts in the table of files. -/
def consoleFile (fd : Nat) : File :=
  { newFile with type := .device, major := 1, readable := decide (fd = 0), writable := decide (fd ≠ 0) }

/-- The open files of the first process, and its descriptors. -/
def consoleFiles : Nat → File :=
  update (update (update (fun _ => emptyFile) 0 (consoleFile 0)) 1 (consoleFile 1)) 2 (consoleFile 2)

@[inherit_doc consoleFiles]
def consoleFds : Nat → Option Nat := update (update (update (fun _ => none) 0 (some 0)) 1 (some 1)) 2 (some 2)

/-- The kernel after its start. -/
structure Machine.Started (b : Machine) (s brk : Nat) (k : Kern) : Prop where
  spare : Spare k.mm (s + 26)
  free : k.mm.free = upperFrames (s + 26)
  lower : k.mm.pte (k.procs 0).pagetable 0 = 0
  fs : k.fs = rootFs b.sb b.disk
  initramfs : k.initramfs = b.initramfs
  state : (k.procs 0).state = .runnable
  pid : (k.procs 0).pid = 1
  parent : (k.procs 0).parent = none
  sz : (k.procs 0).sz = brk
  cwd : (k.procs 0).cwd = some 0
  ofile : (k.procs 0).ofile = consoleFds
  others : ∀ q, q ≠ 0 → k.procs q = emptyProc
  nextpid : k.nextpid = 2
  consoles : k.files = consoleFiles

/-- No open file is a pipe or an inode. -/
theorem Machine.Started.files {b : Machine} {s brk : Nat} {k : Kern} (h : b.Started s brk k) (f : Nat) :
    (k.files f).ip = none ∧ (k.files f).type ≠ .pipe := by
  rw [h.consoles]
  unfold consoleFiles
  simp only [update_apply]
  split_ifs <;> exact ⟨rfl, fun e => by cases e⟩

section

variable {b : Machine} {k : Kern} {s entry brk : Nat}

theorem memory_free (h : b.Bare s entry brk) : b.memory.free = upperFrames s := by
  have husable : usable b.start b.reservedStart b.reservedEnd = fun pa => decide (frame s ≤ pa) := by
    funext pa
    unfold usable
    rw [h.start, h.reserved]
    simp
  unfold Machine.memory pmmInit
  rw [husable, ← upperFrames_zero, filter_upperFrames (Nat.zero_le s)]

/-- The queue of the disk driver takes the first two frames. -/
theorem virtioQueueInit_upper {m : PhysMem} {n : Nat} (hfree : m.free = upperFrames n)
    (hn : n + 2 ≤ frameCount) :
    (virtioQueueInit m).1 = some (frame n) ∧ (virtioQueueInit m).2.free = upperFrames (n + 2) := by
  obtain ⟨m1, hal1, hfree1, -⟩ := pmmAlloc_upper hfree (by omega)
  obtain ⟨m2, hal2, hfree2, -⟩ := pmmAlloc_upper hfree1 (by omega)
  have hnext : frame (n + 1) = frame n + pageSize := by
    unfold frame
    rw [Nat.succ_mul, add_assoc]
  unfold virtioQueueInit
  rw [hal1]
  dsimp only
  rw [hal2]
  dsimp only
  rw [if_pos hnext]
  exact ⟨rfl, hfree2⟩

theorem initConsole_run (p fd : Nat) {f : Nat} (hfind : (range nfile).find? (fun f => (k.files f).ref == 0) = some f) :
    initConsole p fd k = .ok ((), { k with
      files := update k.files f (consoleFile fd)
      procs := update k.procs p { k.procs p with ofile := update (k.procs p).ofile fd (some f) } }) := by
  unfold initConsole
  rw [bind_ok (b := k.filealloc.1) (t := k.filealloc.2) rfl]
  unfold Kern.filealloc
  rw [hfind]
  dsimp only
  rw [modifyFile, bind_ok rfl]
  simp only [Kern.setFile, update_self, update_idem]
  rfl

/-- The three descriptors of the console, in a table without files. -/
theorem initConsoles_run (hfiles : k.files = fun _ => emptyFile) (hofile : (k.procs 0).ofile = fun _ => none) :
    (do
        initConsole 0 0
        initConsole 0 1
        initConsole 0 2 : KM Unit) k =
      .ok ((), { k with
        files := consoleFiles, procs := update k.procs 0 { k.procs 0 with ofile := consoleFds } }) := by
  rw [bind_ok (initConsole_run 0 0 (f := 0) (by rw [hfiles]; decide)), hfiles,
    bind_ok (initConsole_run 0 1 (f := 1) rfl), initConsole_run 0 2 (f := 2) rfl]
  simp only [update_self, update_idem, hofile]
  rfl

theorem mount_iget (sb : Superblock) (disk : Nat → Fs.Block) :
    ((mount sb disk).iget 0 rootino).1 = some 0 ∧
      ((mount sb disk).iget 0 rootino).2 = (mount sb disk).setInode 0 { emptyInode with
        inum := rootino, ref := 1 } := by
  have hnone : ((mount sb disk).findInode fun ip =>
      decide (0 < ip.ref) && ip.dev == 0 && ip.inum == rootino) = none := by
    unfold FileSys.findInode
    rw [find?_eq_none]
    intro i _
    exact Bool.false_ne_true
  unfold FileSys.iget
  rw [hnone]
  exact ⟨rfl, rfl⟩

/-- The lock of the root directory, taken to read the inode. -/
theorem ilock_root (sb : Superblock) (disk : Nat → Fs.Block) :
    ilock 0 ((mount sb disk).iget 0 rootino).2 =
      .ok ((), (((mount sb disk).iget 0 rootino).2.setLocked 0 true).load 0) := by
  rw [(mount_iget sb disk).2]
  rfl

/-- The first process gets its slot and its kernel stack. -/
theorem procAlloc_start {n : Nat} (hunused : (k.procs 0).state = .unused)
    (h : k.mm.free = upperFrames n) (hn : n + 4 ≤ frameCount) :
    ∃ pa m, k.procAlloc = (some 0, { k with
        mm := m, nextpid := k.nextpid + 1, procs := update k.procs 0 ({ k.procs 0 with
          state := .embryo, pid := k.nextpid, pgid := k.nextpid }.reset pa) }) ∧
      m.free = upperFrames (n + 4) ∧ ∀ x ∉ k.mm.free, m.page x = k.mm.page x := by
  obtain ⟨pa, m, hal, hfree⟩ := allocContiguous_upper h (k := kstackPages) (by decide) hn
  obtain ⟨hsplit, hpage⟩ := pmmAllocContiguous_spec hal
  have hfind : (range nproc).find? (fun p => (k.procs p).state == .unused) = some 0 := by
    show (range' 0 64).find? _ = _
    rw [range'_succ, find?_cons_of_pos]
    rw [hunused]
    rfl
  refine ⟨pa, m, ?_, hfree, fun x hx => hpage x fun hmem => hx ?_⟩
  swap
  · rw [← Multiset.mem_coe, hsplit]
    exact Multiset.mem_add.2 (.inl hmem)
  unfold Kern.procAlloc
  rw [hfind]
  rw [hal]
  rfl

theorem initLoad_run {program name : List UInt8} {img : Image}
    (hprogram : program = initramfsPrefix ++ name) (himg : k.initramfs name = some img)
    (hload : ∀ pt k, elfLoad img pt k = .ok (some (entry, brk), k)) (pt : Nat) :
    initLoad program pt k = .ok ((entry, brk), k) := by
  have htake : program.take 10 = initramfsPrefix := by
    rw [hprogram, take_left' (by decide)]
  have hget : (gets fun k => k.initramfs (program.drop 10) : KM _) k = .ok (some img, k) := by
    rw [hprogram, drop_left' (by decide)]
    exact congrArg (fun x => Except.ok (x, k)) himg
  unfold initLoad
  rw [if_pos htake, bind_ok hget]
  dsimp only
  rw [bind_ok (hload pt k)]
  rfl

theorem openRoot_run (hfs : k.fs = mount b.sb b.disk) :
    onFs (step fun s => s.iget 0 rootino) k =
        .ok (some 0, k.withFs ((mount b.sb b.disk).iget 0 rootino).2) ∧
      onFs (ilock 0) (k.withFs ((mount b.sb b.disk).iget 0 rootino).2) =
        .ok ((), k.withFs ((((mount b.sb b.disk).iget 0 rootino).2.setLocked 0 true).load 0)) := by
  constructor
  · unfold onFs zoom step
    rw [hfs]
    rw [← (mount_iget b.sb b.disk).1]
  · unfold onFs zoom
    rfl

theorem unlockRoot_run (k : Kern) (sb : Superblock) (disk : Nat → Fs.Block) :
    onFs (iunlock 0) (k.withFs ((((mount sb disk).iget 0 rootino).2.setLocked 0 true).load 0)) =
      .ok ((), k.withFs (rootFs sb disk)) := rfl

/-- A machine with nothing but the first program starts. -/
theorem boot_bare (h : b.Bare s entry brk) : ∃ k, b.boot = .ok ((), k) ∧ b.Started s brk k := by
  obtain ⟨name, img, hprogram, himg, hload⟩ := h.program
  have hroom := h.room
  obtain ⟨-, hfree⟩ := virtioQueueInit_upper (memory_free h) (by omega)
  generalize hk0 : powerOn (virtioQueueInit b.memory).2 b.pipes (mount b.sb b.disk) b.initramfs = k0
  obtain ⟨m1, hal, hfree1, hzero, -⟩ := allocPage_upper (k := k0) (n := s + 2)
    (by rw [← hk0]; exact hfree) (by omega)
  obtain ⟨m2, hstack, hfree2, hlower⟩ := mapStack_run (k := k0.withMm m1) (n := s + 3) hzero hfree1
    (by omega) fun l hl e => absurd (frame_inj e) (by omega)
  obtain ⟨pa, m3, hproc, hfree3, hpage3⟩ := procAlloc_start (k := (k0.withMm m1).withMm m2) (n := s + 22)
    (by rw [← hk0]; rfl) hfree2 (by omega)
  have hinit := initLoad_run (k := k0.withMm m1) hprogram (by rw [← hk0]; exact himg) hload
    (frame (s + 2))
  unfold Machine.boot init
  rw [hk0, bind_ok hal]
  dsimp only
  rw [bind_ok hinit, bind_ok hstack]
  dsimp only
  rw [bind_ok (b := some 0) (congrArg Except.ok hproc)]
  dsimp only
  rw [modifyProc, bind_ok rfl]
  beta_reduce
  generalize hk2 : Kern.setProc _ 0 _ = k2
  have hfs : k2.fs = mount b.sb b.disk := by
    rw [← hk2, ← hk0]
    rfl
  obtain ⟨hroot, hlock⟩ := openRoot_run hfs
  rw [bind_ok hroot]
  dsimp only
  rw [bind_ok hlock, bind_ok (unlockRoot_run k2 b.sb b.disk), modifyProc, bind_ok rfl]
  have hrun3 := initConsoles_run (k := (k2.withFs (rootFs b.sb b.disk)).setProc 0
    { (k2.withFs (rootFs b.sb b.disk)).procs 0 with cwd := some 0 }) (by rw [← hk2, ← hk0]; rfl) (by rw [← hk2, ← hk0]; rfl)
  refine ⟨_, hrun3, ?_⟩
  have hroot : frame (s + 2) ∉ upperFrames (s + 22) := fun hmem => by
    obtain ⟨j, hj, -, he⟩ := mem_upperFrames.1 hmem
    exact absurd (frame_inj he) (by omega)
  constructor
  · rw [← hk2]
    exact ⟨[], hfree3⟩
  · rw [← hk2]
    exact hfree3
  · rw [← hk2]
    show m3.pte (frame (s + 2)) 0 = 0
    rw [pte_congr (hpage3 _ (by show _ ∉ m2.free; rw [hfree2]; exact hroot))]
    exact hlower
  · rfl
  · rw [← hk2, ← hk0]
    rfl
  · rw [← hk2]
    rfl
  · rw [← hk2, ← hk0]
    rfl
  · rw [← hk2]
    rfl
  · rw [← hk2]
    rfl
  · rfl
  · rfl
  · intro q hq
    rw [← hk2, ← hk0]
    simp only [Kern.setProc, Kern.withFs, Kern.withMm, powerOn, update_of_ne hq]
  · rw [← hk2, ← hk0]
    rfl
  · rfl

end

/-! ## A small machine -/

/-- An executable with one empty segment at address 4096, where its program break is. -/
def smallImage : Image where
  data := putLe 8 (putLe 4 (putLe 2 (putLe 8 (putLe 8 (putLe 2 (putLe 2 (putLe 4 (fun _ => 0) 0 0x464C457F)
    16 2) 18 183) 24 4096) 32 64) 56 1) 64 1) 80 4096
  size := 120

/-- A disk with nothing but the root directory, in block 4; the inodes are in block 2 and the bitmap
is block 3. -/
def smallDisk (b : Nat) : Fs.Block :=
  if b = 2 then putDinode (fun _ => 0) 64 ⟨tDir, 0, 0, 1, 128, fun k => if k = 0 then 4 else 0⟩
  else if b = 3 then putLe 1 (fun _ => 0) 0 31
  else if b = 4 then putBytes (fun _ => 0) 0 (dirent 1 dot ++ dirent 1 dotdot)
  else fun _ => 0

/-- A machine with this disk and this program; the kernel takes the first 256 frames. -/
def smallMachine : Machine where
  page := fun _ _ => 0
  start := frame 256
  reservedStart := 0
  reservedEnd := 0
  pipes := fun _ => ⟨fun _ => 0, 0, 0, false, false⟩
  sb := ⟨64, 16, 2, 3⟩
  disk := smallDisk
  initramfs := fun name => if name = [47] then some smallImage else none
  program := initramfsPrefix ++ [47]

theorem smallImage_loads (pt : Nat) (k : Kern) :
    elfLoad smallImage pt k = .ok (some (4096, 4096), k) := by
  have hphnum : getLe 2 smallImage.data 56 = 1 := by decide +kernel
  have hphoff : getLe 8 smallImage.data 32 = 64 := by decide +kernel
  have hentry : getLe 8 smallImage.data 24 = 4096 := by decide +kernel
  have hphdr : getPhdr smallImage.data 64 = ⟨1, 0, 0, 4096, 0, 0⟩ := by
    rw [getPhdr, Phdr.mk.injEq]
    decide +kernel
  unfold elfLoad
  rw [if_neg (by decide), if_neg (by decide +kernel), hphnum, hphoff, hentry]
  dsimp only [range, range.loop, map]
  rw [mul_zero, add_zero, hphdr]
  rfl

theorem smallMachine_bare : smallMachine.Bare 256 4096 4096 where
  start := rfl
  room := by decide
  reserved := rfl
  program := ⟨[47], smallImage, rfl, rfl, smallImage_loads⟩

end Slopix.Kernel
