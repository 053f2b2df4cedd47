import Slopix.Fs.Chain
import Slopix.Kernel.RefRuns

/-!
# Paths of a running kernel

Between two calls the inode cache is referenced by open files and working directories only, so it has
free entries for every walk. `fs_namei` and `fs_nameiparent` agree, and a path may be walked in two
parts.
-/

namespace Slopix.Kernel

open Lib Mm Fs Multiset

section

variable {k : Kern}

theorem card_found (o : Option Nat) : (found o).card ≤ 1 := by
  cases o with
  | none => exact Nat.zero_le 1
  | some i => exact Nat.le_refl 1

theorem card_sum_found (n : Nat) (f : Nat → Option Nat) :
    (∑ j ∈ Finset.range n, found (f j)).card ≤ n := by
  induction n with
  | zero => simp
  | succ n ih =>
    rw [Finset.sum_range_succ, card_add]
    have hlast := card_found (f n)
    omega

/-- The references between two calls: one for each open file and each working directory. -/
def Kern.inodeRefs (k : Kern) : Multiset Nat := k.fileInodes + k.cwds

/-- The table of open files and the processes together cannot fill the inode cache. -/
theorem room_inodeRefs (k : Kern) : Room k.inodeRefs 36 := by
  have hfiles := card_sum_found nfile fun f => (k.files f).ip
  have hcwds := card_sum_found nproc fun p => (k.procs p).cwd
  have hle := toFinset_card_le k.inodeRefs
  have hcard : k.inodeRefs.card = k.fileInodes.card + k.cwds.card := card_add _ _
  unfold Room
  unfold Kern.fileInodes Kern.cwds at hcard
  unfold nfile at hfiles hcard
  unfold nproc at hcwds hcard
  unfold ninode
  omega

/-- The disk holds a directory tree, and the inode cache holds inodes in use as the disk has them. -/
structure OnTree (k : Kern) : Prop where
  tree : Tree k.fs.sb k.fs.bread
  dev : ∀ i ∈ k.inodeRefs, (k.fs.icache i).dev = 0
  used : ∀ i ∈ k.inodeRefs, k.fs.sb.InUse k.fs.bread (k.fs.icache i).inum
  din : ∀ i ∈ k.inodeRefs, (k.fs.icache i).valid = true →
    (k.fs.icache i).din = k.fs.sb.inode k.fs.bread (k.fs.icache i).inum

theorem OnTree.coherent (h : OnTree k) (hc : Counted k) :
    Coherent k.fs.sb k.fs.bread k.fs k.inodeRefs ∅ :=
  ⟨hc.filed.cache, rfl, rfl, h.dev, h.used, h.din⟩

theorem mount_coherent (sb : Superblock) (disk : Nat → Fs.Block) :
    Coherent sb disk (mount sb disk) 0 ∅ :=
  ⟨cached_mount sb disk, rfl, rfl, fun i hi => absurd hi (notMem_zero i),
    fun i hi => absurd hi (notMem_zero i), fun i hi => absurd hi (notMem_zero i)⟩

/-- A kernel whose only reference to an inode is entry `i` of the inode cache. -/
theorem onTree_single {sb : Superblock} {rd : Nat → Fs.Block} {i : Nat} (htree : Tree sb rd)
    (h : Coherent sb rd k.fs (i ::ₘ 0) ∅) (hfiles : ∀ f, (k.files f).ip = none)
    (hcwds : ∀ p c, (k.procs p).cwd = some c → c = i) : OnTree k := by
  have hrefs : ∀ j ∈ k.inodeRefs, j ∈ i ::ₘ (0 : Multiset Nat) := by
    intro j hj
    rcases mem_add.1 hj with hfile | hcwd
    · obtain ⟨f, -, hf⟩ := mem_sum.1 hfile
      rw [hfiles f] at hf
      exact absurd hf (notMem_zero j)
    obtain ⟨p, -, hp⟩ := mem_sum.1 hcwd
    cases hc : (k.procs p).cwd with
    | none =>
      rw [hc] at hp
      exact absurd hp (notMem_zero j)
    | some c =>
      rw [hc] at hp
      rw [mem_singleton.1 hp, hcwds p c hc]
      exact mem_cons_self i 0
  refine ⟨?_, fun j hj => h.dev j (hrefs j hj), fun j hj => ?_, fun j hj hv => ?_⟩
  · rw [h.super, h.image]
    exact htree
  · rw [h.super, h.image]
    exact h.used j (hrefs j hj)
  · rw [h.super, h.image]
    exact h.din j (hrefs j hj) hv

/-- The root directory is in the inode cache of a started machine. -/
theorem rootFs_coherent {sb : Superblock} {disk : Nat → Fs.Block} (hroot : sb.InUse disk rootino) :
    Coherent sb disk (rootFs sb disk) (0 ::ₘ 0) ∅ ∧ ((rootFs sb disk).icache 0).inum = rootino := by
  obtain ⟨i, hi, h1, hnum, -⟩ := (mount_coherent sb disk).iget (by decide) hroot
  obtain rfl : i = 0 := Option.some.inj (hi.symm.trans (mount_iget sb disk).1)
  have hmem : 0 ∈ (0 ::ₘ 0 : Multiset Nat) := mem_cons_self 0 0
  obtain ⟨s2, hlock, h2, -, hinum2⟩ := h1.ilock hmem (Finset.notMem_empty 0)
  rw [ilock_root] at hlock
  obtain ⟨-, rfl⟩ := Prod.mk.inj (Except.ok.inj hlock)
  obtain ⟨h3, hsame3⟩ := h2.iunlock hmem
  exact ⟨h3, (hsame3 0).1.trans ((hinum2 0).trans hnum)⟩

end

/-- In every state between two calls: a path with a name leads to an inode exactly when its parent is
a directory that has the last name; and a path in two parts leads where the second part leads from
the end of the first one. -/
theorem path_walk_consistent {b : Machine} {k : Kern} (h : b.Reachable (fun _ _ => True) k)
    (htree : OnTree k) :
    (∀ cwd path, (∃ x ∈ path, x ≠ slash) → ∀ i s',
      namei cwd path k.fs = .ok (some i, s') ↔
        ∃ d name s1, nameiparent cwd path k.fs = .ok (some (d, name), s1) ∧
          (s1.icache d).din.type = tDir ∧ lookupLast (some (d, name)) s1 = .ok (some i, s')) ∧
    ∀ p c, p < nproc → (k.procs p).cwd = some c → ∀ first rest, first ≠ [] → rest.head? ≠ some slash →
      ∃ r s1 t s2, namei (some c) first k.fs = .ok (r, s1) ∧
        namei (some c) (first ++ slash :: rest) k.fs = .ok (t, s2) ∧
        match r with
        | none => t = none
        | some d => ∃ u s3, namei (some d) rest s1 = .ok (u, s3) ∧
            t.map (fun i => ((s2.icache i).dev, (s2.icache i).inum)) =
              u.map fun i => ((s3.icache i).dev, (s3.icache i).inum) := by
  constructor
  · rintro cwd path ⟨x, hx, hne⟩ i s'
    exact namei_iff (fun hnil => hne (pathNames_eq_nil.1 hnil x hx)) cwd k.fs s' i
  intro p c hp hc first rest hfirst hrest
  have hmem : c ∈ k.inodeRefs := mem_add.2 (Or.inr (mem_cwds hp hc))
  exact namei_join htree.tree (htree.coherent (counted_reachable h))
    ((room_inodeRefs k).mono (by decide)) hmem hfirst hrest

/-! ## A kernel with a root directory -/

theorem smallDisk_tree : Tree smallMachine.sb smallDisk := by
  have htype : ∀ n < 16, (smallMachine.sb.inode smallDisk n).type ≠ 0 → n = 1 := by decide +kernel
  have hsize : (smallMachine.sb.inode smallDisk 1).size = 128 := by decide +kernel
  have hlink : (smallMachine.sb.inode smallDisk 1).nlink ≠ 0 := by decide +kernel
  have hused : smallMachine.sb.InUse smallDisk 1 := ⟨by decide, by decide +kernel⟩
  have hblock : 0 ∉ blockPath smallDisk (smallMachine.sb.inode smallDisk 1) 0 := by decide +kernel
  have hentry : ∀ de ∈ dirents smallDisk (smallMachine.sb.inode smallDisk 1), direntInum de = 1 := by
    decide +kernel
  have hone : ∀ inum, smallMachine.sb.InUse smallDisk inum → inum = 1 :=
    fun inum hin => htype inum hin.1 hin.2
  refine ⟨hused, hlink, fun inum hin _ bn hbn => ?_, fun inum hin _ => ?_, fun inum hin _ name next hl => ?_⟩
  · rw [hone inum hin] at hbn ⊢
    obtain rfl : bn = 0 := by omega
    exact hblock
  · rw [hone inum hin, hsize]
    decide
  rw [hone inum hin] at hl
  obtain ⟨de, hde, rfl⟩ := Option.map_eq_some_iff.1 hl
  rw [hentry de (List.mem_of_find?_eq_some hde)]
  exact ⟨hused, hlink⟩

theorem started_onTree {b : Machine} {k : Kern} {s brk : Nat} (htree : Tree b.sb b.disk)
    (hstart : b.Started s brk k) : OnTree k := by
  refine onTree_single htree (hstart.fs ▸ (rootFs_coherent htree.root).1) (fun f => (hstart.files f).1) ?_
  intro p c hc
  by_cases hp : p = 0
  · rw [hp, hstart.cwd] at hc
    exact (Option.some.inj hc).symm
  · rw [hstart.others p hp] at hc
    cases hc

theorem rootFs_onTree {k : Kern} (hstart : smallMachine.Started 256 4096 k) : OnTree k :=
  started_onTree smallDisk_tree hstart

/-- The small machine with the directories of a chain on its disk. -/
def chainMachine (names : List Name) : Machine := { smallMachine with sb := chainSb, disk := chainDisk names }

theorem chainMachine_bare (names : List Name) : (chainMachine names).Bare 256 4096 4096 where
  start := rfl
  room := by decide
  reserved := rfl
  program := smallMachine_bare.program

/-- On the machine with the directory `a` and the file `a/b` the path `a/b` leads to the file, through its parent and
in two parts. -/
theorem path_walk_consistent_chain : ∃ k i s', (chainMachine [[97], [98]]).Reachable (fun _ _ => True) k ∧
    namei (some 0) [97, slash, 98] k.fs = .ok (some i, s') ∧ (s'.icache i).inum = 3 ∧
    (∃ d name s1, nameiparent (some 0) [97, slash, 98] k.fs = .ok (some (d, name), s1) ∧
      (s1.icache d).din.type = tDir ∧ lookupLast (some (d, name)) s1 = .ok (some i, s')) ∧
    ∃ d s1 u s3, namei (some 0) [97] k.fs = .ok (some d, s1) ∧ namei (some d) [98] s1 = .ok (some u, s3) ∧
      (s3.icache u).inum = 3 := by
  obtain ⟨k, hboot, hstart⟩ := boot_bare (chainMachine_bare [[97], [98]])
  have hnames : ∀ name ∈ ([[97], [98]] : List Name), name.length ≤ 62 ∧ 0 ∉ name := by decide
  have hdirs : Tree chainSb (chainDisk [[97], [98]]) := chain_tree (by decide) hnames
  have hreach : (chainMachine [[97], [98]]).Reachable (fun _ _ => True) k := ⟨k, hboot, .start⟩
  have htree := started_onTree hdirs hstart
  obtain ⟨hlast, hjoin⟩ := path_walk_consistent hreach htree
  have hcoh := htree.coherent (counted_reachable hreach)
  have hsb : k.fs.sb = chainSb := congrArg FileSys.sb hstart.fs
  have hread : k.fs.bread = chainDisk [[97], [98]] := congrArg FileSys.bread hstart.fs
  have hcwd : ∀ i, some 0 = some i → i ∈ k.inodeRefs := fun i hi =>
    mem_add.2 (Or.inr (mem_cwds (by decide) (hstart.cwd.trans hi)))
  have hnumber : startNumber k.fs (some 0) [97, slash, 98] = some 1 := by
    rw [hstart.fs]
    exact congrArg some (rootFs_coherent hdirs.root).2
  obtain ⟨r, s', hrun, -, hres, -⟩ := namei_resolve htree.tree hcoh ((room_inodeRefs k).mono (by decide)) hcwd hnumber
  have hpath : resolve (chainDisk [[97], [98]]) chainSb.inodestart 1 (pathNames [97, slash, 98]) = some 3 :=
    (chain_resolve (by decide) hnames _ (Nat.zero_le _)).trans (by decide)
  rw [hread, hsb, hpath] at hres
  obtain ⟨i, rfl, hnum⟩ := Option.map_eq_some_iff.1 hres
  obtain ⟨r, s1, t, s2, hfirst, hboth, hmatch⟩ := hjoin 0 0 (by decide) hstart.cwd [97] [98] (by decide) (by decide)
  obtain ⟨rfl, rfl⟩ : t = some i ∧ s2 = s' := by
    have hsame := hboth.symm.trans hrun
    exact Prod.mk.inj (Except.ok.inj hsame)
  refine ⟨k, i, s2, hreach, hrun, hnum, (hlast _ _ ⟨97, by decide, by decide⟩ _ _).1 hrun, ?_⟩
  cases r with
  | none => cases hmatch
  | some d =>
    obtain ⟨u, s3, hrest, hend⟩ := hmatch
    obtain ⟨v, rfl, hv⟩ := Option.map_eq_some_iff.1 hend.symm
    exact ⟨d, s1, v, s3, hfirst, hrest, (congrArg Prod.snd hv).trans hnum⟩

end Slopix.Kernel
