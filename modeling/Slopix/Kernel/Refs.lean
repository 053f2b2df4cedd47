import Slopix.Kernel.Conservation
import Slopix.Kernel.Locks

/-!
# Reference counts of open files and inodes

`Filed k D C L` describes the tables of open files and inodes in the middle of a call: `D` are the
references to open files (one element for each descriptor that points at a file, and for each file
the call holds itself), `C` the references to inodes other than those of open files (working
directories and what the call holds), and `L` the locked inodes. Between calls `D` are the
descriptors, `C` the working directories and nothing is locked: `Counted`.
-/

namespace Slopix.Kernel

open Lib Mm Fs Ipc Function Multiset

/-- The open files that the descriptors of a process point at. -/
def Proc.fds (x : Proc) : Multiset Nat := ∑ fd ∈ Finset.range nofile, found (x.ofile fd)

namespace Kern

/-- The descriptors of all processes. -/
def fds (k : Kern) : Multiset Nat := ∑ p ∈ Finset.range nproc, (k.procs p).fds

/-- The working directories of all processes. -/
def cwds (k : Kern) : Multiset Nat := ∑ p ∈ Finset.range nproc, found (k.procs p).cwd

/-- The inodes that open files refer to. -/
def fileInodes (k : Kern) : Multiset Nat := ∑ f ∈ Finset.range nfile, found (k.files f).ip

end Kern

/-- Open files with references `D`, inodes with further references `C`, locks `L`. -/
structure Filed (k : Kern) (D C : Multiset Nat) (L : Finset Nat) : Prop where
  ref : ∀ f, (k.files f).ref = (D.count f : Int)
  bound : ∀ f ∈ D, f < nfile
  kind : ∀ f i, (k.files f).ip = some i → (k.files f).type ≠ .none ∧ (k.files f).type ≠ .pipe
  idle : ∀ f, f ∉ D → (k.files f).ip = none
  cache : Cached k.fs (k.fileInodes + C) L

/-- A process without descriptors and working directory. -/
def Proc.Idle (x : Proc) : Prop := (∀ fd < nofile, x.ofile fd = none) ∧ x.cwd = none

/-- A process that has started and not ended. -/
def Proc.Used (x : Proc) : Prop := x.state ≠ .unused ∧ x.state ≠ .zombie

/-- Any other slot holds no file. -/
def Proc.IdleWhenDead (x : Proc) : Prop := x.Used ∨ x.Idle

/-- Between two calls. -/
structure Counted (k : Kern) : Prop where
  filed : Filed k k.fds k.cwds ∅
  idle : ∀ p, (k.procs p).IdleWhenDead

/-- The fields of a process that refer to files, and its state. -/
def Proc.links (x : Proc) : (Nat → Option Nat) × Option Nat × ProcState := (x.ofile, x.cwd, x.state)

/-- A change that concerns no reference. -/
structure SameLinks (k k' : Kern) : Prop where
  files : k'.files = k.files
  links : ∀ p, (k'.procs p).links = (k.procs p).links
  tags : SameTags k.fs k'.fs

section

variable {k k' : Kern} {D C : Multiset Nat} {L : Finset Nat} {f i p : Nat}

theorem SameLinks.refl (k : Kern) : SameLinks k k := ⟨rfl, fun _ => rfl, SameTags.refl k.fs⟩

theorem SameLinks.trans {k'' : Kern} (h : SameLinks k k') (h' : SameLinks k' k'') : SameLinks k k'' :=
  ⟨h'.files.trans h.files, fun p => (h'.links p).trans (h.links p), h.tags.trans h'.tags⟩

theorem SameLinks.ofile (h : SameLinks k k') (p : Nat) : (k'.procs p).ofile = (k.procs p).ofile :=
  congrArg Prod.fst (h.links p)

theorem SameLinks.cwd (h : SameLinks k k') (p : Nat) : (k'.procs p).cwd = (k.procs p).cwd :=
  congrArg (fun l => l.2.1) (h.links p)

theorem SameLinks.state (h : SameLinks k k') (p : Nat) : (k'.procs p).state = (k.procs p).state :=
  congrArg (fun l => l.2.2) (h.links p)

theorem SameLinks.fds (h : SameLinks k k') : k'.fds = k.fds := by
  apply Finset.sum_congr rfl
  intro p _
  unfold Proc.fds
  rw [h.ofile p]

theorem SameLinks.cwds (h : SameLinks k k') : k'.cwds = k.cwds := by
  apply Finset.sum_congr rfl
  intro p _
  rw [h.cwd p]

theorem Proc.IdleWhenDead.congr {x y : Proc} (h : x.IdleWhenDead) (hl : y.links = x.links) :
    y.IdleWhenDead := by
  injection hl with hofile hl
  injection hl with hcwd hstate
  unfold Proc.IdleWhenDead Proc.Used Proc.Idle
  rw [hofile, hcwd, hstate]
  exact h

theorem idleWhenDead_of_used {x : Proc} (h : x.Used) : x.IdleWhenDead := Or.inl h

theorem alive_used (h : k.alive p) : p < nproc ∧ (k.procs p).Used := ⟨h.1, h.2.1, h.2.2.2⟩

theorem Filed.congr_cache {l : Kern} {C' : Multiset Nat} {L' : Finset Nat} (h : Filed k D C L)
    (hfiles : l.files = k.files) (hcache : Cached l.fs (k.fileInodes + C') L') :
    Filed l D C' L' := by
  have hinodes : l.fileInodes = k.fileInodes := by
    unfold Kern.fileInodes
    rw [hfiles]
  constructor
  · rw [hfiles]
    exact h.ref
  · exact h.bound
  · rw [hfiles]
    exact h.kind
  · rw [hfiles]
    exact h.idle
  · rw [hinodes]
    exact hcache

theorem Filed.congr (h : Filed k D C L) (hs : SameLinks k k') : Filed k' D C L :=
  h.congr_cache hs.files (h.cache.congr hs.tags)

theorem Counted.congr (h : Counted k) (hs : SameLinks k k') : Counted k' := by
  constructor
  · rw [hs.fds, hs.cwds]
    exact h.filed.congr hs
  · exact fun p => (h.idle p).congr (hs.links p)

theorem Filed.of_eq {D' C' : Multiset Nat} (h : Filed k D C L) (hD : D = D') (hC : C = C') :
    Filed k D' C' L := hD ▸ hC ▸ h

theorem Filed.ref_pos (h : Filed k D C L) (hf : f ∈ D) : 1 ≤ (k.files f).ref := by
  rw [h.ref f]
  have hpos := count_pos.2 hf
  omega

/-! ## Descriptors and working directories -/

/-- An open descriptor is one of the references to its file. -/
theorem mem_fds (hp : p < nproc) {fd : Nat} (hfd : fd < nofile)
    (hf : (k.procs p).ofile fd = some f) : f ∈ k.fds := by
  apply mem_of_le (le_sum_range (f := fun p => (k.procs p).fds) hp)
  apply mem_of_le (le_sum_range (f := fun fd => found ((k.procs p).ofile fd)) hfd)
  rw [hf]
  exact mem_singleton_self f

theorem mem_cwds (hp : p < nproc) (hi : (k.procs p).cwd = some i) : i ∈ k.cwds := by
  apply mem_of_le (le_sum_range (f := fun p => found (k.procs p).cwd) hp)
  rw [hi]
  exact mem_singleton_self i

/-- The references of one process change. -/
theorem fds_setProc (hp : p < nproc) (x : Proc) :
    (k.setProc p x).fds + (k.procs p).fds = k.fds + x.fds := by
  have h := sum_range_change (f := fun q => ((k.setProc p x).procs q).fds)
    (g := fun q => (k.procs q).fds) hp (by
      intro q _ hq
      unfold Kern.setProc
      simp only [update_of_ne hq])
  simp only [Kern.setProc, update_self] at h
  exact h

/-- The directory of one process changes. -/
theorem cwds_setProc (hp : p < nproc) (x : Proc) :
    (k.setProc p x).cwds + found (k.procs p).cwd = k.cwds + found x.cwd := by
  have h := sum_range_change (f := fun q => found ((k.setProc p x).procs q).cwd)
    (g := fun q => found (k.procs q).cwd) hp (by
      intro q _ hq
      unfold Kern.setProc
      simp only [update_of_ne hq])
  simp only [Kern.setProc, update_self] at h
  exact h

theorem fds_setOfile (hp : p < nproc) {fd : Nat} (hfd : fd < nofile) (v : Option Nat) :
    (k.setOfile p fd v).fds + found ((k.procs p).ofile fd) = k.fds + found v := by
  have hone : ({ k.procs p with ofile := update (k.procs p).ofile fd v } : Proc).fds +
      found ((k.procs p).ofile fd) = (k.procs p).fds + found v := by
    have h := sum_range_change (f := fun fd' => found (update (k.procs p).ofile fd v fd'))
      (g := fun fd' => found ((k.procs p).ofile fd')) hfd (by
        intro fd' _ hne
        simp only [update_of_ne hne])
    simp only [update_self] at h
    exact h
  have hall := fds_setProc (k := k) hp
    { k.procs p with ofile := update (k.procs p).ofile fd v }
  apply add_right_cancel (b := (k.procs p).fds)
  calc
    (k.setOfile p fd v).fds + found ((k.procs p).ofile fd) + (k.procs p).fds
        = (k.setOfile p fd v).fds + (k.procs p).fds + found ((k.procs p).ofile fd) := by abel
    _ = k.fds + ({ k.procs p with ofile := update (k.procs p).ofile fd v } : Proc).fds +
          found ((k.procs p).ofile fd) := by rw [← hall]; rfl
    _ = k.fds + found v + (k.procs p).fds := by rw [add_assoc, hone]; abel

theorem cwds_setOfile (hp : p < nproc) (fd : Nat) (v : Option Nat) : (k.setOfile p fd v).cwds = k.cwds :=
  add_right_cancel (cwds_setProc hp
    { k.procs p with ofile := update (k.procs p).ofile fd v })

theorem fds_idle {x : Proc} (h : x.Idle) : x.fds = 0 := by
  apply Finset.sum_eq_zero
  intro fd hfd
  rw [h.1 fd (Finset.mem_range.1 hfd)]
  rfl

/-! ## The file table -/

theorem fileInodes_setFile (hf : f < nfile) (x : File) :
    (k.setFile f x).fileInodes + found (k.files f).ip = k.fileInodes + found x.ip := by
  have h := sum_range_change (f := fun g => found ((k.setFile f x).files g).ip)
    (g := fun g => found (k.files g).ip) hf (by
      intro g _ hg
      unfold Kern.setFile
      simp only [update_of_ne hg])
  simp only [Kern.setFile, update_self] at h
  exact h

theorem fileInodes_congr (h : ∀ f, (k'.files f).ip = (k.files f).ip) : k'.fileInodes = k.fileInodes := by
  apply Finset.sum_congr rfl
  intro f _
  rw [h f]

theorem setFile_self {x : File} : (k.setFile f x).files f = x := update_self ..

theorem setFile_ne {x : File} {g : Nat} (hg : g ≠ f) : (k.setFile f x).files g = k.files g :=
  update_of_ne hg ..

/-- A file changes its count and other fields, but neither its kind nor its inode. -/
theorem Filed.setRef {D' : Multiset Nat} {x : File} (h : Filed k D C L)
    (hip : x.ip = (k.files f).ip) (htype : x.type = (k.files f).type)
    (href : x.ref = (D'.count f : Int)) (hcount : ∀ g, g ≠ f → D'.count g = D.count g)
    (hbound : f ∈ D' → f < nfile) (hidle : f ∉ D' → x.ip = none) :
    Filed (k.setFile f x) D' C L := by
  have hsame : ∀ g, ((k.setFile f x).files g).ip = (k.files g).ip ∧
      ((k.setFile f x).files g).type = (k.files g).type := by
    intro g
    by_cases hg : g = f
    · rw [hg, setFile_self]
      exact ⟨hip, htype⟩
    · rw [setFile_ne hg]
      exact ⟨rfl, rfl⟩
  have hmem : ∀ g, g ≠ f → (g ∈ D' ↔ g ∈ D) := by
    intro g hg
    rw [← count_pos, ← count_pos, hcount g hg]
  refine ⟨fun g => ?_, fun g hg => ?_, fun g j => ?_, fun g hg => ?_, ?_⟩
  · by_cases hg : g = f
    · rw [hg, setFile_self, href]
    · rw [setFile_ne hg, h.ref g, hcount g hg]
  · by_cases hgf : g = f
    · subst hgf
      exact hbound hg
    · exact h.bound g ((hmem g hgf).1 hg)
  · rw [(hsame g).1, (hsame g).2]
    exact h.kind g j
  · by_cases hgf : g = f
    · subst hgf
      rw [setFile_self]
      exact hidle hg
    · rw [setFile_ne hgf]
      exact h.idle g fun hmem' => hg ((hmem g hgf).2 hmem')
  · rw [fileInodes_congr fun g => (hsame g).1]
    exact h.cache

/-- Fields of an open file that no reference depends on. -/
theorem Filed.setFile_quiet {x : File} (h : Filed k D C L) (hip : x.ip = (k.files f).ip)
    (htype : x.type = (k.files f).type) (href : x.ref = (k.files f).ref) :
    Filed (k.setFile f x) D C L := by
  apply h.setRef hip htype
  · rw [href, h.ref f]
  · exact fun _ _ => rfl
  · exact h.bound f
  · intro hf
    rw [hip]
    exact h.idle f hf

/-- An open file without an inode becomes another one without an inode. -/
theorem Filed.setFile_plain {x : File} (h : Filed k D C L) (hold : (k.files f).ip = none)
    (hip : x.ip = none) (href : x.ref = (k.files f).ref) : Filed (k.setFile f x) D C L := by
  have hsame : ∀ g, ((k.setFile f x).files g).ip = (k.files g).ip := by
    intro g
    by_cases hg : g = f
    · rw [hg, setFile_self, hip, hold]
    · rw [setFile_ne hg]
  refine ⟨fun g => ?_, h.bound, fun g j hj => ?_, fun g hg => ?_, ?_⟩
  · by_cases hg : g = f
    · rw [hg, setFile_self, href, h.ref f]
    · rw [setFile_ne hg, h.ref g]
  · by_cases hg : g = f
    · rw [hg, setFile_self, hip] at hj
      cases hj
    · rw [setFile_ne hg] at hj ⊢
      exact h.kind g j hj
  · rw [hsame g]
    exact h.idle g hg
  · rw [fileInodes_congr hsame]
    exact h.cache

theorem Filed.setFile_inode {x : File} (h : Filed k D (i ::ₘ C) L) (hf : f ∈ D)
    (hold : (k.files f).ip = none) (hip : x.ip = some i) (href : x.ref = (k.files f).ref)
    (htype : x.type ≠ .none ∧ x.type ≠ .pipe) : Filed (k.setFile f x) D C L := by
  have hinodes := fileInodes_setFile (k := k) (h.bound f hf) x
  rw [hold, hip] at hinodes
  refine ⟨fun g => ?_, h.bound, fun g j hj => ?_, fun g hg => ?_, ?_⟩
  · by_cases hg : g = f
    · rw [hg, setFile_self, href, h.ref f]
    · rw [setFile_ne hg, h.ref g]
  · by_cases hg : g = f
    · rw [hg, setFile_self]
      exact htype
    · rw [setFile_ne hg] at hj ⊢
      exact h.kind g j hj
  · have hgf : g ≠ f := fun e => hg (e ▸ hf)
    rw [setFile_ne hgf]
    exact h.idle g hg
  apply h.cache.of_eq
  have hsum : (k.setFile f x).fileInodes = k.fileInodes + {i} := by
    rw [← add_zero (k.setFile f x).fileInodes]
    exact hinodes
  rw [hsum, ← singleton_add, add_assoc]

/-- A file that is closed gives its inode back to the call. -/
theorem Filed.setFile_closed {x : File} (h : Filed k (f ::ₘ D) C L) (hlast : (k.files f).ref = 1)
    (hip : x.ip = none) (href : x.ref = 0) :
    Filed (k.setFile f x) D (found (k.files f).ip + C) L := by
  have hinodes := fileInodes_setFile (k := k) (h.bound f (mem_cons_self f D)) x
  rw [hip] at hinodes
  have hcount : D.count f = 0 := by
    have href' := h.ref f
    rw [hlast, count_cons_self] at href'
    omega
  refine ⟨fun g => ?_, fun g hg => h.bound g (mem_cons_of_mem hg), fun g j hj => ?_,
    fun g hg => ?_, ?_⟩
  · by_cases hg : g = f
    · rw [hg, setFile_self, href, hcount]
      rfl
    · rw [setFile_ne hg, h.ref g, count_cons_of_ne hg]
  · by_cases hg : g = f
    · rw [hg, setFile_self, hip] at hj
      cases hj
    · rw [setFile_ne hg] at hj ⊢
      exact h.kind g j hj
  · by_cases hgf : g = f
    · rw [hgf, setFile_self, hip]
    · rw [setFile_ne hgf]
      exact h.idle g fun hmem => (mem_cons.1 hmem).elim hgf hg
  apply h.cache.of_eq
  have hsum : (k.setFile f x).fileInodes + found (k.files f).ip = k.fileInodes := by
    rw [hinodes]
    exact add_zero _
  rw [← hsum, add_assoc]

/-- A new file has one reference. -/
theorem Filed.filealloc (h : Filed k D C L) (hal : k.filealloc = (some f, k')) :
    Filed k' (f ::ₘ D) C L ∧ k'.files f = newFile ∧ k'.procs = k.procs := by
  obtain ⟨hlt, hfree, rfl⟩ := filealloc_spec hal
  have hnot : f ∉ D := by
    intro hmem
    have hpos := h.ref_pos hmem
    omega
  have hcount : D.count f = 0 := count_eq_zero_of_notMem hnot
  have hsame : ∀ g, ((k.setFile f newFile).files g).ip = (k.files g).ip := by
    intro g
    by_cases hg : g = f
    · rw [hg, setFile_self, h.idle f hnot]
      rfl
    · rw [setFile_ne hg]
  refine ⟨⟨fun g => ?_, fun g hg => ?_, fun g j hj => ?_, fun g hg => ?_, ?_⟩, setFile_self, rfl⟩
  · by_cases hg : g = f
    · rw [hg, setFile_self, count_cons_self, hcount]
      rfl
    · rw [setFile_ne hg, h.ref g, count_cons_of_ne hg]
  · rcases mem_cons.1 hg with rfl | hg
    · exact hlt
    · exact h.bound g hg
  · by_cases hg : g = f
    · rw [hg, setFile_self] at hj
      cases hj
    · rw [setFile_ne hg] at hj ⊢
      exact h.kind g j hj
  · rw [hsame g]
    exact h.idle g fun hmem => hg (mem_cons_of_mem hmem)
  · rw [fileInodes_congr hsame]
    exact h.cache

theorem Filed.filealloc_none (h : Filed k D C L) (hal : k.filealloc = (none, k')) :
    Filed k' D C L ∧ k'.procs = k.procs := by
  unfold Kern.filealloc at hal
  split at hal
  · cases hal
  · injection hal with _ hk
    subst hk
    exact ⟨h, rfl⟩

/-- One reference more. -/
theorem Filed.filedup (h : Filed k D C L) (hf : f ∈ D) :
    (k.filedup f).1 = some f ∧ Filed (k.filedup f).2 (f ::ₘ D) C L ∧
      (k.filedup f).2.procs = k.procs := by
  have hpos := h.ref_pos hf
  unfold Kern.filedup
  rw [if_neg (by omega)]
  refine ⟨rfl, ?_, rfl⟩
  apply h.setRef
  · rfl
  · rfl
  · rw [count_cons_self]
    rw [h.ref f]
    rfl
  · exact fun g hg => count_cons_of_ne hg D
  · exact fun _ => h.bound f hf
  · exact fun hnot => absurd (mem_cons_self f D) hnot

end

end Slopix.Kernel
