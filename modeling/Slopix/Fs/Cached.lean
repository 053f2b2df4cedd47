import Mathlib.Algebra.Order.Group.Multiset
import Mathlib.Data.Finset.Basic
import Mathlib.Tactic.Abel
import Slopix.Fs.Tags

/-!
# References and locks of the inode cache

`Cached s B L` describes the inode cache of a state in which the references to inodes are `B` (a
multiset: one element for each reference that somebody holds) and the inodes in `L` are locked. Each
operation of `fs.c` is specified by what it adds to and takes from `B` and `L`. `Stops S` is what
may be said about a run that never ends: when the hypothesis `S` holds it is no deadlock.
-/

namespace Slopix.Fs

open Lib Multiset Function

/-- The inode cache with references `B` and locks `L`. -/
structure Cached (s : FileSys) (B : Multiset Nat) (L : Finset Nat) : Prop where
  ref : ∀ i, (s.icache i).ref = (B.count i : Int)
  locked : ∀ i, (s.icache i).locked = true ↔ i ∈ L
  held : ∀ i ∈ L, i ∈ B
  bound : ∀ i ∈ B, i < ninode
  unique : ∀ i ∈ B, ∀ j ∈ B, (s.icache i).dev = (s.icache j).dev →
    (s.icache i).inum = (s.icache j).inum → i = j

/-- Why a run may stop. -/
def Stops (S : Prop) (e : Stop) : Prop := S → ∀ i, e ≠ .deadlock i

/-- The reference that a lookup returned. -/
def found : Option Nat → Multiset Nat
  | some i => {i}
  | none => 0

section

variable {s s' : FileSys} {B : Multiset Nat} {L : Finset Nat} {i : Nat} {S : Prop}

theorem stops_fault : Stops S .fault := fun _ _ e => by cases e

theorem stops_loop : Stops S .loop := fun _ _ e => by cases e

/-- Only the tags of the inode cache matter. -/
theorem Cached.congr (h : Cached s B L) (ht : SameTags s s') : Cached s' B L := by
  have hdev : ∀ i, (s'.icache i).dev = (s.icache i).dev := fun i => congrArg Prod.fst (ht i)
  have hinum : ∀ i, (s'.icache i).inum = (s.icache i).inum :=
    fun i => congrArg (fun t => t.2.1) (ht i)
  have href : ∀ i, (s'.icache i).ref = (s.icache i).ref := fun i => congrArg (fun t => t.2.2.1) (ht i)
  have hlock : ∀ i, (s'.icache i).locked = (s.icache i).locked :=
    fun i => congrArg (fun t => t.2.2.2) (ht i)
  refine ⟨fun i => ?_, fun i => ?_, h.held, h.bound, fun i hi j hj => ?_⟩
  · rw [href, h.ref]
  · rw [hlock, h.locked]
  · rw [hdev, hdev, hinum, hinum]
    exact h.unique i hi j hj

theorem Cached.of_eq {B' : Multiset Nat} (h : Cached s B L) (hB : B = B') : Cached s B' L := hB ▸ h

theorem Cached.ref_pos (h : Cached s B L) : 0 < (s.icache i).ref ↔ i ∈ B := by
  rw [h.ref i, Int.natCast_pos, count_pos]

/-- One entry of the cache changes its references and its lock. -/
theorem Cached.put {B' : Multiset Nat} {L' : Finset Nat} {x : Inode} (h : Cached s B L)
    (hdev : x.dev = (s.icache i).dev) (hinum : x.inum = (s.icache i).inum) (href : x.ref = (B'.count i : Int))
    (hlocked : x.locked = true ↔ i ∈ L') (hcount : ∀ j, j ≠ i → B'.count j = B.count j)
    (hset : ∀ j, j ≠ i → (j ∈ L' ↔ j ∈ L)) (hheld : ∀ j ∈ L', j ∈ B') (hB : ∀ j ∈ B', j ∈ B) :
    Cached (s.setInode i x) B' L' := by
  have hother : ∀ j, j ≠ i → (s.setInode i x).icache j = s.icache j := fun j hj => update_of_ne hj ..
  have hself : (s.setInode i x).icache i = x := update_self ..
  have hnames : ∀ j, ((s.setInode i x).icache j).dev = (s.icache j).dev ∧
      ((s.setInode i x).icache j).inum = (s.icache j).inum := by
    intro j
    by_cases hj : j = i
    · rw [hj, hself]
      exact ⟨hdev, hinum⟩
    · rw [hother j hj]
      exact ⟨rfl, rfl⟩
  refine ⟨fun j => ?_, fun j => ?_, hheld, fun j hj => h.bound j (hB j hj), fun j hj j' hj' => ?_⟩
  · by_cases hj : j = i
    · rw [hj, hself, href]
    · rw [hother j hj, h.ref j, hcount j hj]
  · by_cases hj : j = i
    · rw [hj, hself, hlocked]
    · rw [hother j hj, h.locked j, hset j hj]
  · rw [(hnames j).1, (hnames j').1, (hnames j).2, (hnames j').2]
    exact h.unique j (hB j hj) j' (hB j' hj')

/-- One more reference. -/
theorem Cached.idup (h : Cached s B L) (hi : i ∈ B) : Cached (s.idup i) (i ::ₘ B) L := by
  refine h.put rfl rfl ?_ (h.locked i) (fun j hj => count_cons_of_ne hj _) (fun _ _ => Iff.rfl)
    (fun j hj => mem_cons_of_mem (h.held j hj)) fun j hj => ?_
  · rw [count_cons_self]
    show (s.icache i).ref + 1 = _
    rw [h.ref i]
    rfl
  · rcases mem_cons.1 hj with rfl | hj
    · exact hi
    · exact hj

theorem findInode_spec {f : Inode → Bool} (h : s.findInode f = some i) :
    i < ninode ∧ f (s.icache i) = true :=
  ⟨List.mem_range.1 (List.mem_of_find?_eq_some h),
    List.find?_some (p := fun i => f (s.icache i)) h⟩

/-- `fs_iget`: one more reference, to the one entry of the inode. -/
theorem Cached.iget (h : Cached s B L) (dev inum : Nat) :
    Cached (s.iget dev inum).2 (found (s.iget dev inum).1 + B) L := by
  unfold FileSys.iget
  split
  · -- the inode is in the cache
    rename_i i hfind
    have hprop := (findInode_spec hfind).2
    simp only [Bool.and_eq_true, decide_eq_true_eq, beq_iff_eq] at hprop
    exact h.idup (h.ref_pos.1 hprop.1.1)
  rename_i hnone
  split
  · -- a free entry is taken
    rename_i i hfind
    obtain ⟨hlt, hfree⟩ := findInode_spec hfind
    rw [beq_iff_eq] at hfree
    have hnot : i ∉ B := by
      intro hi
      have hpos := h.ref_pos.2 hi
      omega
    have habsent : ∀ j ∈ B, (s.icache j).dev = dev → (s.icache j).inum ≠ inum := by
      intro j hj hdev hinum
      have hall := List.find?_eq_none.1 hnone j (List.mem_range.2 (h.bound j hj))
      apply hall
      simp only [Bool.and_eq_true, decide_eq_true_eq, beq_iff_eq]
      exact ⟨⟨h.ref_pos.2 hj, hdev⟩, hinum⟩
    have hother : ∀ j, j ≠ i → (s.setInode i { s.icache i with
        dev := dev, inum := inum, ref := 1, valid := false, locked := false }).icache j =
        s.icache j := fun j hj => update_of_ne hj ..
    have hself : (s.setInode i { s.icache i with
        dev := dev, inum := inum, ref := 1, valid := false, locked := false }).icache i =
        { s.icache i with
          dev := dev, inum := inum, ref := 1, valid := false, locked := false } :=
      update_self ..
    generalize hs' : s.setInode i { s.icache i with
      dev := dev, inum := inum, ref := 1, valid := false, locked := false } = s'
      at hother hself ⊢
    show Cached s' ({i} + B) L
    rw [singleton_add]
    have hneq : ∀ j ∈ B, j ≠ i := fun j hj => ne_of_mem_of_not_mem hj hnot
    refine ⟨fun j => ?_, fun j => ?_, fun j hj => mem_cons_of_mem (h.held j hj),
      fun j hj => ?_, fun j hj j' hj' hdev hinum => ?_⟩
    · by_cases hj : j = i
      · rw [hj, hself, count_cons_self, count_eq_zero_of_notMem hnot]
        rfl
      · rw [hother j hj, h.ref j, count_cons_of_ne hj]
    · by_cases hj : j = i
      · rw [hj, hself]
        exact ⟨fun e => (by cases e), fun hi => absurd (h.held i hi) hnot⟩
      · rw [hother j hj]
        exact h.locked j
    · rcases mem_cons.1 hj with rfl | hj
      · exact hlt
      · exact h.bound j hj
    rcases mem_cons.1 hj with rfl | hj <;> rcases mem_cons.1 hj' with e | hj'
    · exact e.symm
    · rw [hself, hother j' (hneq j' hj')] at hdev hinum
      exact absurd hinum.symm (habsent j' hj' hdev.symm)
    · rw [e, hself, hother j (hneq j hj)] at hdev hinum
      exact absurd hinum (habsent j hj hdev)
    · rw [hother j (hneq j hj), hother j' (hneq j' hj')] at hdev hinum
      exact h.unique j hj j' hj' hdev hinum
  · show Cached s (0 + B) L
    rw [zero_add]
    exact h

/-- The set of locked inodes follows the flag. -/
theorem Cached.setLocked (h : Cached s B L) (hi : i ∈ B) (v : Bool) :
    Cached (s.setLocked i v) B (if v then insert i L else L.erase i) := by
  refine h.put rfl rfl (h.ref i) ?_ (fun _ _ => rfl) (fun j hj => ?_) (fun j hj => ?_) fun _ hj => hj
  · cases v <;> simp
  · cases v <;> simp [hj]
  · cases v with
    | true =>
      rcases Finset.mem_insert.1 hj with rfl | hj
      · exact hi
      · exact h.held j hj
    | false => exact h.held j (Finset.mem_of_mem_erase hj)

/-- A lock returns with the inode locked; it waits for ever when the caller has it already. -/
theorem ilock_spec (h : Cached s B L) (hi : i ∈ B) (hsafe : S → i ∉ L) :
    Holds (ilock i s) (fun _ s' => Cached s' B (insert i L) ∧ i ∉ L) (Stops S) := by
  apply holds_gets_bind
  refine holds_ite (fun href => ?_) fun _ => holds_ite (fun hlock => ?_) fun hlock => ?_
  · have hpos := h.ref_pos.2 hi
    omega
  · apply holds_stop
    intro hs j
    exact absurd ((h.locked i).1 hlock) (hsafe hs)
  · apply holds_modify
    refine ⟨(h.setLocked hi true).congr (sameTags_load i), fun hmem => hlock ((h.locked i).2 hmem)⟩

theorem Cached.iunlock (h : Cached s B L) (hi : i ∈ B) : Cached (s.iunlock i) B (L.erase i) := by
  unfold FileSys.iunlock
  split
  · rename_i hcase
    have hnot : i ∉ L := by
      rcases hcase with hlock | href
      · intro hmem
        rw [(h.locked i).2 hmem] at hlock
        cases hlock
      · have hpos := h.ref_pos.2 hi
        omega
    rw [Finset.erase_eq_of_notMem hnot]
    exact h
  · exact h.setLocked hi false

/-- One reference less. -/
theorem Cached.dropRef (h : Cached s (i ::ₘ B) L) (hL : i ∈ L → i ∈ B) : Cached (s.dropRef i) B L := by
  refine h.put rfl rfl ?_ (h.locked i) (fun j hj => (count_cons_of_ne hj _).symm) (fun _ _ => Iff.rfl)
    (fun j hj => ?_) fun j hj => mem_cons_of_mem hj
  · have href := h.ref i
    rw [count_cons_self] at href
    show (s.icache i).ref - 1 = _
    omega
  · rcases mem_cons.1 (h.held j hj) with rfl | hmem
    · exact hL hj
    · exact hmem

/-- `fs_iput`: the inode that is freed has no other reference, so it is not locked. -/
theorem iput_spec (h : Cached s (i ::ₘ B) L) (hL : i ∈ L → i ∈ B) :
    Holds (iput i s) (fun _ s' => Cached s' B L) (Stops S) := by
  apply holds_gets_bind
  refine holds_ite (fun hlast => ?_) fun _ => holds_modify (h.dropRef hL)
  have hnot : i ∉ L := by
    intro hmem
    have href := h.ref i
    rw [count_cons_self, hlast.1] at href
    have hpos := count_pos.2 (hL hmem)
    omega
  refine (ilock_spec h (mem_cons_self i B) fun _ => hnot).bind fun _ s1 ⟨h1, _⟩ => ?_
  apply holds_modify_bind
  apply holds_modify_bind
  apply holds_modify
  have h2 := (h1.congr (sameTags_freeInode i)).iunlock (mem_cons_self i B)
  rw [Finset.erase_insert hnot] at h2
  exact h2.dropRef hL

/-- Unlock and put. -/
theorem iunlockput_spec (h : Cached s (i ::ₘ B) L) :
    Holds (iunlockput i s) (fun _ s' => Cached s' B (L.erase i)) (Stops S) := by
  apply holds_modify_bind
  exact iput_spec (h.iunlock (mem_cons_self i B))
    fun hmem => absurd hmem (Finset.notMem_erase i L)

/-- The entry found comes with a reference of its own. -/
theorem Cached.dirlookup (h : Cached s B L) (dp : Nat) (name : Name) :
    Cached (s.dirlookup dp name).2 (found (s.dirlookup dp name).1.1 + B) L := by
  have hscan := sameTags_scanDir (s := s) (FileSys.isEntry name) dp 0
  unfold FileSys.dirlookup
  split
  · show Cached s (0 + B) L
    rw [zero_add]
    exact h
  rcases hres : s.scanDir (FileSys.isEntry name) dp 0 with ⟨scan, s'⟩
  rw [hres] at hscan
  have hsame := h.congr hscan
  cases scan with
  | hit de off => exact hsame.iget _ _
  | finish off =>
    show Cached s' (0 + B) L
    rw [zero_add]
    exact hsame
  | short =>
    show Cached s' (0 + B) L
    rw [zero_add]
    exact hsame

theorem dirlink_spec (dp : Nat) (name : Name) (inum : Nat) (h : Cached s B L) :
    Holds (dirlink dp name inum s) (fun _ s' => Cached s' B L) (Stops S) := by
  apply holds_gets_bind
  refine holds_ite (fun _ => holds_pure h) fun _ => ?_
  apply holds_step_bind
  have hlook := h.dirlookup dp name
  rcases hres : s.dirlookup dp name with ⟨⟨_ | ip, off⟩, s1⟩ <;> rw [hres] at hlook
  · have h1 : Cached s1 B L := hlook.of_eq (zero_add B)
    apply holds_step_bind
    have h2 := h1.congr (sameTags_scanDir (fun de => direntInum de == 0) dp 0)
    rcases hscan : s1.scanDir (fun de => direntInum de == 0) dp 0 with ⟨scan, s2⟩
    rw [hscan] at h2
    cases scan with
    | hit de off' => exact holds_step_bind (holds_pure (h2.congr (sameTags_writei dp _ off')))
    | finish off' => exact holds_step_bind (holds_pure (h2.congr (sameTags_writei dp _ off')))
    | short => exact holds_pure h2
  · have h1 : Cached s1 (ip ::ₘ B) L := hlook
    exact (iput_spec h1 (h.held ip)).bind fun _ _ h2 => holds_pure h2

/-! ## Path names -/

/-- The reference of a path walk. -/
def foundAt : Option (Nat × Name) → Multiset Nat
  | some (i, _) => {i}
  | none => 0

/-- The walk holds one reference at a time, and no lock between two elements. -/
theorem namexLoop_spec (nameiparent : Bool) (elems : List Name) (h : Cached s (i ::ₘ B) ∅) :
    Holds (namexLoop nameiparent i elems s) (fun r s' => Cached s' (foundAt r + B) ∅) (Stops S) := by
  induction elems generalizing s i with
  | nil =>
    refine holds_ite (fun _ => ?_) fun _ => holds_pure h
    refine (iput_spec h fun hmem => absurd hmem (Finset.notMem_empty i)).bind fun _ s1 h1 => ?_
    exact holds_pure (h1.of_eq (zero_add B).symm)
  | cons name rest ih =>
    refine (ilock_spec h (mem_cons_self i B) fun _ => Finset.notMem_empty i).bind
      fun _ s1 ⟨h1, hnot⟩ => ?_
    have hunlock : (insert i (∅ : Finset Nat)).erase i = ∅ := Finset.erase_insert hnot
    apply holds_gets_bind
    refine holds_ite (fun _ => ?_) fun _ => holds_ite (fun _ => ?_) fun _ => ?_
    · refine (iunlockput_spec h1).bind fun _ s2 h2 => ?_
      rw [hunlock] at h2
      exact holds_pure (h2.of_eq (zero_add B).symm)
    · apply holds_modify_bind
      apply holds_pure
      have h2 := h1.iunlock (mem_cons_self i B)
      rw [hunlock] at h2
      exact h2
    apply holds_step_bind
    have hlook := h1.dirlookup i name
    have hput : Cached (s1.dirlookup i name).2
        (i ::ₘ (found (s1.dirlookup i name).1.1 + B)) (insert i ∅) :=
      hlook.of_eq (add_cons ..)
    refine (iunlockput_spec hput).bind fun _ s2 h2 => ?_
    rw [hunlock] at h2
    cases hres : (s1.dirlookup i name).1.1 with
    | none =>
      rw [hres] at h2
      exact holds_pure h2
    | some next =>
      rw [hres] at h2
      exact ih h2

/-- `namex`, started at the root or at a referenced working directory. -/
theorem namex_spec {cwd : Option Nat} (path : List UInt8) (nameiparent : Bool) (h : Cached s B ∅)
    (hcwd : ∀ i, cwd = some i → i ∈ B) :
    Holds (namex cwd path nameiparent s) (fun r s' => Cached s' (foundAt r + B) ∅) (Stops S) := by
  unfold namex
  generalize pathElems path.length path = elems
  -- the walk, whichever way its first inode was found
  have hwalk : ∀ walk : Option Nat → FsM (Option (Nat × Name)),
      (walk none = Exec.stop .fault ∨
        walk none = if nameiparent then Exec.stop .fault else pure none) →
      (∀ ip, walk (some ip) = namexLoop nameiparent ip elems) →
      ∀ start s1, Cached s1 (found start + B) ∅ →
        Holds (walk start s1) (fun r s' => Cached s' (foundAt r + B) ∅) (Stops S) := by
    intro walk hnone hsome start s1 h1
    cases start with
    | none =>
      rcases hnone with hnone | hnone
      · rw [hnone]
        exact holds_stop stops_fault
      · rw [hnone]
        exact holds_ite (fun _ => holds_stop stops_fault) fun _ => holds_pure h1
    | some ip =>
      rw [hsome]
      exact namexLoop_spec nameiparent _ h1
  refine holds_ite (fun _ => ?_) fun _ => ?_
  · refine Holds.bind (holds_step (h.iget 0 rootino)) (hwalk _ ?_ fun _ => rfl)
    cases elems with
    | nil => exact Or.inr rfl
    | cons name rest => exact Or.inl rfl
  cases cwd with
  | none => exact holds_stop_bind stops_fault
  | some i =>
    apply holds_modify_bind
    apply holds_pure_bind
    exact namexLoop_spec nameiparent _ (h.idup (hcwd i rfl))

theorem namei_spec {cwd : Option Nat} (path : List UInt8) (h : Cached s B ∅)
    (hcwd : ∀ i, cwd = some i → i ∈ B) :
    Holds (namei cwd path s) (fun r s' => Cached s' (found r + B) ∅) (Stops S) := by
  refine (namex_spec path false h hcwd).bind fun r s1 h1 => holds_pure ?_
  match r with
  | none => exact h1
  | some (i, _) => exact h1

theorem nameiparent_spec {cwd : Option Nat} (path : List UInt8) (h : Cached s B ∅)
    (hcwd : ∀ i, cwd = some i → i ∈ B) :
    Holds (nameiparent cwd path s) (fun r s' => Cached s' (foundAt r + B) ∅) (Stops S) :=
  namex_spec path true h hcwd

/-! ## Creating a file -/

theorem Cached.ialloc (h : Cached s B L) (dev type : Nat) :
    Cached (s.ialloc dev type).2 (found (s.ialloc dev type).1 + B) L := by
  unfold FileSys.ialloc
  split
  · exact h.of_eq (zero_add B).symm
  · exact (h.congr (sameTags_bwrite _ _)).iget _ _

theorem createDots_spec (dp ip : Nat) (h : Cached s B L) :
    Holds (createDots dp ip s) (fun _ s' => Cached s' B L) (Stops S) := by
  apply holds_gets_bind
  refine (dirlink_spec ip dot _ h).bind fun ok s1 h1 => holds_ite (fun _ => ?_) fun _ => holds_pure h1
  apply holds_gets_bind
  exact dirlink_spec ip dotdot _ h1

variable {dp ip : Nat}

theorem dropBoth_spec {α : Type} (r : α) (hne : ip ≠ dp) (h : Cached s (ip ::ₘ dp ::ₘ B) {ip, dp}) :
    Holds ((do iunlockput ip; iunlockput dp; pure r : FsM α) s)
      (fun a s' => a = r ∧ Cached s' B ∅) (Stops S) := by
  refine (iunlockput_spec h).bind fun _ s1 h1 => ?_
  have hfirst : ({ip, dp} : Finset Nat).erase ip = {dp} :=
    Finset.erase_insert (by rw [Finset.mem_singleton]; exact hne)
  rw [hfirst] at h1
  refine (iunlockput_spec h1).bind fun _ s2 h2 => holds_pure ⟨rfl, ?_⟩
  rw [Finset.erase_singleton] at h2
  exact h2

/-- A locked inode with its reference, as `fs_create` returns it. -/
def Created (B : Multiset Nat) (r : Option Nat) (s : FileSys) : Prop :=
  Cached s (found r + B) (found r).toFinset

theorem created_none (h : Cached s B ∅) : Created B none s := h.of_eq (zero_add B).symm

/-- The end of `fs_create`: the new inode is returned locked. -/
theorem createLink_spec (name : Name) (type : Nat) (hne : ip ≠ dp)
    (h : Cached s (ip ::ₘ dp ::ₘ B) {ip, dp}) :
    Holds (createLink dp ip name type s) (Created B) (Stops S) := by
  apply holds_gets_bind
  refine (dirlink_spec dp name _ h).bind fun ok s1 h1 => holds_ite (fun _ => ?_) fun _ => ?_
  · refine (iunlockput_spec (h1.of_eq (cons_swap ..))).bind fun _ s2 h2 => holds_pure ?_
    have herase : ({ip, dp} : Finset Nat).erase dp = {ip} := by
      rw [Finset.pair_comm]
      exact Finset.erase_insert (by rw [Finset.mem_singleton]; exact hne.symm)
    rw [herase] at h2
    exact h2
  have hdrop : ∀ s2, Cached s2 (ip ::ₘ dp ::ₘ B) {ip, dp} →
      Holds ((do
        Exec.modify fun s => s.zeroNlink ip
        iunlockput ip
        iunlockput dp
        pure none : FsM (Option Nat)) s2) (Created B) (Stops S) := by
    intro s2 h2
    apply holds_modify_bind
    refine (dropBoth_spec none hne (h2.congr (sameTags_zeroNlink ip))).imp fun r s3 ⟨hr, h3⟩ => ?_
    rw [hr]
    exact created_none h3
  refine holds_ite (fun _ => ?_) fun _ => hdrop s1 h1
  apply holds_modify_bind
  exact hdrop _ (h1.congr (sameTags_decNlink dp))

/-- `fs_create` of a free name. The new inode is not the directory itself. -/
theorem createNew_spec (name : Name) (type major minor : Nat) (h : Cached s (dp ::ₘ B) {dp})
    (hsafe : S → (s.ialloc (s.icache dp).dev type).1 ≠ some dp) :
    Holds (createNew dp name type major minor s) (Created B) (Stops S) := by
  apply holds_gets_bind
  apply holds_step_bind
  have halloc := h.ialloc (s.icache dp).dev type
  rcases hres : s.ialloc (s.icache dp).dev type with ⟨_ | ip, s1⟩ <;> rw [hres] at halloc hsafe
  · have h1 : Cached s1 (dp ::ₘ B) {dp} := halloc.of_eq (zero_add _)
    refine (iunlockput_spec h1).bind fun _ s2 h2 => holds_pure ?_
    rw [Finset.erase_singleton] at h2
    exact created_none h2
  have h1 : Cached s1 (ip ::ₘ dp ::ₘ B) {dp} := halloc
  have hnot : S → ip ∉ ({dp} : Finset Nat) := fun hs hmem =>
    hsafe hs (by rw [Finset.mem_singleton.1 hmem])
  refine (ilock_spec h1 (mem_cons_self ip _) hnot).bind fun _ s2 ⟨h2, hmem⟩ => ?_
  have hne : ip ≠ dp := fun e => hmem (Finset.mem_singleton.2 e)
  apply holds_modify_bind
  have h3 := h2.congr (sameTags_initInode ip major minor)
  refine holds_ite (fun _ => ?_) fun _ => createLink_spec name type hne h3
  apply holds_modify_bind
  have h4 := h3.congr (sameTags_incNlink dp)
  refine (createDots_spec dp ip h4).bind fun ok s5 h5 => ?_
  refine holds_ite (fun _ => createLink_spec name type hne h5) fun _ => ?_
  apply holds_modify_bind
  refine (iunlockput_spec (h5.congr (sameTags_zeroNlink ip))).bind fun _ s6 h6 => ?_
  rw [Finset.erase_insert hmem] at h6
  apply holds_modify_bind
  refine (iunlockput_spec (h6.congr (sameTags_decNlink dp))).bind fun _ s7 h7 => holds_pure ?_
  rw [Finset.erase_singleton] at h7
  exact created_none h7

/-- `fs_create` of `path` does not lock its directory twice: when the name is free in the locked
directory, the inode that `fs_ialloc` takes is not the directory's own. -/
def CreateSafe (cwd : Option Nat) (path : List UInt8) (type : Nat) (s : FileSys) : Prop :=
  ∀ dp name s1 s2, nameiparent cwd path s = .ok (some (dp, name), s1) → ilock dp s1 = .ok ((), s2) →
    (s2.dirlookup dp name).1.1 = none →
      ((s2.dirlookup dp name).2.ialloc ((s2.dirlookup dp name).2.icache dp).dev type).1 ≠ some dp

theorem create_spec {cwd : Option Nat} (path : List UInt8) (type major minor : Nat)
    (h : Cached s B ∅) (hcwd : ∀ i, cwd = some i → i ∈ B)
    (hsafe : S → CreateSafe cwd path type s) :
    Holds (create cwd path type major minor s) (Created B) (Stops S) := by
  refine (nameiparent_spec path h hcwd).bind_run fun parent s1 hrun h1 => ?_
  match parent with
  | none => exact holds_pure (created_none (h1.of_eq (zero_add B)))
  | some (dp, name) =>
    have h1' : Cached s1 (dp ::ₘ B) ∅ := h1
    refine (ilock_spec h1' (mem_cons_self dp B) fun _ => Finset.notMem_empty dp).bind_run
      fun _ s2 hlock ⟨h2, _⟩ => ?_
    have hlook := h2.dirlookup dp name
    have halloc : S → (s2.dirlookup dp name).1.1 = none →
        ((s2.dirlookup dp name).2.ialloc ((s2.dirlookup dp name).2.icache dp).dev type).1 ≠
          some dp := fun hs => hsafe hs dp name s1 s2 hrun hlock
    apply holds_step_bind
    rcases hres : s2.dirlookup dp name with ⟨⟨_ | ip, off⟩, s3⟩ <;> rw [hres] at hlook halloc
    · exact createNew_spec name type major minor (hlook.of_eq (zero_add _)) fun hs => halloc hs rfl
    have h3 : Cached s3 (dp ::ₘ ip ::ₘ B) {dp} := hlook.of_eq (cons_swap ip dp B)
    refine (iunlockput_spec h3).bind fun _ s4 h4 => ?_
    rw [Finset.erase_singleton] at h4
    refine (ilock_spec h4 (mem_cons_self ip B) fun _ => Finset.notMem_empty ip).bind
      fun _ s5 ⟨h5, _⟩ => ?_
    rw [insert_empty_eq] at h5
    apply holds_gets_bind
    refine holds_ite (fun _ => holds_pure h5) fun _ => ?_
    refine (iunlockput_spec h5).bind fun _ s6 h6 => holds_pure ?_
    rw [Finset.erase_singleton] at h6
    exact created_none h6

end

end Slopix.Fs
