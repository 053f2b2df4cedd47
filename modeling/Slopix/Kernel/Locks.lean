import Slopix.Fs.Cached
import Slopix.Kernel.Rename

/-!
# References and locks in the calls on paths

The file system part of `open`, `link`, `unlink`, `rename` and `getcwd`: each of them starts and ends
with no inode locked, and gives back every reference it took. The places where a call may lock an
inode twice are named: `UnlinkSafe`, `RenameSafe` and, for the calls that create a file, `CreateSafe`.
-/

namespace Slopix.Kernel

open Lib Fs Multiset

/-- `sys_unlink` does not lock the directory twice: the entry it looks up in the locked directory is
not the directory itself. -/
def UnlinkSafe (cwd : Option Nat) (path : List UInt8) (s : FileSys) : Prop :=
  ∀ dp name s1 s2, nameiparent cwd path s = .ok (some (dp, name), s1) → ilock dp s1 = .ok ((), s2) →
    name ≠ dot → name ≠ dotdot → (s2.dirlookup dp name).1.1 ≠ some dp

/-- `sys_rename` does not lock the new parent twice: the entry it replaces is not the parent itself. -/
def RenameSafe (cwd : Option Nat) (old new : List UInt8) (s : FileSys) : Prop :=
  ∀ ip isDir newDp newname s1 s2,
    renameParents cwd old new s = .ok (.ok (ip, isDir, newDp, newname), s1) →
      ilock newDp s1 = .ok ((), s2) → (s2.dirlookup newDp newname).1.1 ≠ some newDp

section

variable {s : FileSys} {B : Multiset Nat} {S : Prop} {i : Nat} {cwd : Option Nat}

theorem ilock_first (h : Cached s (i ::ₘ B) ∅) :
    Holds (ilock i s) (fun _ s' => Cached s' (i ::ₘ B) {i}) (Stops S) := by
  refine (ilock_spec h (mem_cons_self i B) fun _ => Finset.notMem_empty i).imp
    fun _ s' ⟨h', _⟩ => ?_
  exact h'

theorem iunlock_last (h : Cached s (i ::ₘ B) {i}) : Cached (s.iunlock i) (i ::ₘ B) ∅ := by
  have h' := h.iunlock (mem_cons_self i B)
  rw [Finset.erase_singleton] at h'
  exact h'

theorem iunlockput_last (h : Cached s (i ::ₘ B) {i}) :
    Holds (iunlockput i s) (fun _ s' => Cached s' B ∅) (Stops S) := by
  refine (iunlockput_spec h).imp fun _ s' h' => ?_
  rw [Finset.erase_singleton] at h'
  exact h'

theorem iput_last (h : Cached s (i ::ₘ B) ∅) :
    Holds (iput i s) (fun _ s' => Cached s' B ∅) (Stops S) :=
  iput_spec h fun hmem => absurd hmem (Finset.notMem_empty i)

/-- The error path of `link` and `rename`: the link is taken back and the inode dropped. -/
theorem takeBack_spec {α : Type} (r : α) (h : Cached s (i ::ₘ B) ∅) :
    Holds ((do
      ilock i
      Exec.modify fun s => s.decNlink i
      iunlockput i
      pure r : FsM α) s) (fun _ s' => Cached s' B ∅) (Stops S) := by
  refine (ilock_first h).bind fun _ s1 h1 => ?_
  apply holds_modify_bind
  exact (iunlockput_last (h1.congr (sameTags_decNlink i))).bind fun _ _ h2 => holds_pure h2

theorem linkBad_spec (h : Cached s (i ::ₘ B) ∅) :
    Holds (linkBad i s) (fun _ s' => Cached s' B ∅) (Stops S) := takeBack_spec _ h

theorem renameFail_spec (h : Cached s (i ::ₘ B) ∅) :
    Holds (renameFail i s) (fun _ s' => Cached s' B ∅) (Stops S) := takeBack_spec _ h

/-- The inode of `open`, locked, or an error that holds nothing. -/
theorem openInode_spec (path : List UInt8) (flags : OpenFlags) (h : Cached s B ∅)
    (hcwd : ∀ i, cwd = some i → i ∈ B)
    (hsafe : S → ∀ s1, namei cwd path s = .ok (none, s1) → flags.creat = true →
      CreateSafe cwd path tFile s1) :
    Holds (openInode cwd path flags s) (fun r s' => match r with
      | .ok ip => Cached s' (ip ::ₘ B) {ip}
      | .error _ => Cached s' B ∅) (Stops S) := by
  refine (namei_spec path h hcwd).bind_run fun ip s1 hrun h1 => ?_
  cases ip with
  | none =>
    have h1' : Cached s1 B ∅ := h1.of_eq (zero_add B)
    refine holds_ite (fun hcreat => ?_) fun _ => holds_pure h1'
    refine (create_spec path tFile 0 0 h1' hcwd fun hs => hsafe hs s1 hrun hcreat).bind
      fun r s2 h2 => ?_
    cases r with
    | none => exact holds_pure (h2.of_eq (zero_add B))
    | some ip => exact holds_pure h2
  | some ip =>
    have h1' : Cached s1 (ip ::ₘ B) ∅ := h1
    refine holds_ite (fun _ => ?_) fun _ => ?_
    · exact (iput_last h1').bind fun _ _ h2 => holds_pure h2
    · exact (ilock_first h1').bind fun _ _ h2 => holds_pure h2

theorem link_spec (old new : List UInt8) (h : Cached s B ∅) (hcwd : ∀ i, cwd = some i → i ∈ B) :
    Holds (link cwd old new s) (fun _ s' => Cached s' B ∅) (Stops S) := by
  refine (namei_spec old h hcwd).bind fun ip s1 h1 => ?_
  cases ip with
  | none => exact holds_pure (h1.of_eq (zero_add B))
  | some ip =>
    refine (ilock_first h1).bind fun _ s2 h2 => ?_
    apply holds_gets_bind
    refine holds_ite (fun _ => ?_) fun _ => ?_
    · exact (iunlockput_last h2).bind fun _ _ h3 => holds_pure h3
    apply holds_modify_bind
    apply holds_modify_bind
    have h3 := iunlock_last (h2.congr (sameTags_incNlink ip))
    refine (nameiparent_spec new h3 fun i e => mem_cons_of_mem (hcwd i e)).bind
      fun parent s4 h4 => ?_
    match parent with
    | none => exact linkBad_spec (h4.of_eq (zero_add _))
    | some (dp, name) =>
      refine (ilock_first h4).bind fun _ s5 h5 => ?_
      apply holds_gets_bind
      -- whatever `fs_dirlink` returns, the directory is dropped next
      have hend : ∀ (ok : Bool) s6, Cached s6 (dp ::ₘ ip ::ₘ B) {dp} →
          Holds ((do
            iunlockput dp
            if ok then do
              iput ip
              pure 0
            else linkBad ip : FsM Int) s6) (fun _ s' => Cached s' B ∅) (Stops S) := by
        intro ok s6 h6
        refine (iunlockput_last h6).bind fun _ s7 h7 => ?_
        refine holds_ite (fun _ => ?_) fun _ => linkBad_spec h7
        exact (iput_last h7).bind fun _ _ h8 => holds_pure h8
      refine holds_ite (fun _ => ?_) fun _ => ?_
      · exact holds_pure_bind (hend false s5 h5)
      · exact (dirlink_spec dp name _ h5).bind fun ok s6 h6 => hend ok s6 h6

theorem unlinkEntry_spec {dp ip : Nat} (off : Nat) (hne : ip ≠ dp)
    (h : Cached s (ip ::ₘ dp ::ₘ B) {ip, dp}) :
    Holds (unlinkEntry dp ip off s) (fun _ s' => Cached s' B ∅) (Stops S) := by
  apply holds_step_bind
  have h1 := h.congr (sameTags_writei dp emptyDirent off)
  refine holds_ite (fun _ => (dropBoth_spec _ hne h1).imp fun _ _ h' => h'.2) fun _ => ?_
  apply holds_gets_bind
  have hend : ∀ s2, Cached s2 (ip ::ₘ dp ::ₘ B) {ip, dp} →
      Holds ((do
        iunlockput dp
        Exec.modify fun s => s.decNlink ip
        iunlockput ip
        pure 0 : FsM Int) s2) (fun _ s' => Cached s' B ∅) (Stops S) := by
    intro s2 h2
    refine (iunlockput_spec (h2.of_eq (cons_swap ip dp B))).bind fun _ s3 h3 => ?_
    have hlast : ({ip, dp} : Finset Nat).erase dp = {ip} := by
      rw [Finset.pair_comm]
      exact Finset.erase_insert (by rw [Finset.mem_singleton]; exact hne.symm)
    rw [hlast] at h3
    apply holds_modify_bind
    exact (iunlockput_last (h3.congr (sameTags_decNlink ip))).bind fun _ _ h4 => holds_pure h4
  refine holds_ite (fun _ => ?_) fun _ => hend _ h1
  exact holds_modify_bind (hend _ (h1.congr (sameTags_decNlink dp)))

theorem unlink_spec (path : List UInt8) (h : Cached s B ∅) (hcwd : ∀ i, cwd = some i → i ∈ B)
    (hsafe : S → UnlinkSafe cwd path s) :
    Holds (unlink cwd path s) (fun _ s' => Cached s' B ∅) (Stops S) := by
  refine (nameiparent_spec path h hcwd).bind_run fun parent s1 hrun h1 => ?_
  match parent with
  | none => exact holds_pure (h1.of_eq (zero_add B))
  | some (dp, name) =>
    refine (ilock_first h1).bind_run fun _ s2 hlock h2 => ?_
    refine holds_ite (fun _ => ?_) fun hname => ?_
    · exact (iunlockput_last h2).bind fun _ _ h3 => holds_pure h3
    apply holds_step_bind
    have hlook := h2.dirlookup dp name
    have hself : S → (s2.dirlookup dp name).1.1 ≠ some dp := fun hs =>
      hsafe hs dp name s1 s2 hrun hlock (fun e => hname (Or.inl e)) fun e => hname (Or.inr e)
    rcases hres : s2.dirlookup dp name with ⟨⟨_ | ip, off⟩, s3⟩ <;> rw [hres] at hlook hself
    · exact (iunlockput_last (hlook.of_eq (zero_add _))).bind fun _ _ h4 => holds_pure h4
    have h3 : Cached s3 (ip ::ₘ dp ::ₘ B) {dp} := hlook
    have hnot : S → ip ∉ ({dp} : Finset Nat) := fun hs hmem =>
      hself hs (by rw [Finset.mem_singleton.1 hmem])
    refine (ilock_spec h3 (mem_cons_self ip _) hnot).bind fun _ s4 ⟨h4, hmem⟩ => ?_
    have hne : ip ≠ dp := fun e => hmem (Finset.mem_singleton.2 e)
    apply holds_gets_bind
    have hend : ∀ (empty : Bool) s5, Cached s5 (ip ::ₘ dp ::ₘ B) {ip, dp} →
        Holds ((if empty then unlinkEntry dp ip off
          else do
            iunlockput ip
            iunlockput dp
            pure (-Errno.enotempty.val) : FsM Int) s5)
          (fun _ s' => Cached s' B ∅) (Stops S) := by
      intro empty s5 h5
      refine holds_ite (fun _ => unlinkEntry_spec off hne h5) fun _ => ?_
      exact (dropBoth_spec _ hne h5).imp fun _ _ h' => h'.2
    refine holds_ite (fun _ => ?_) fun _ => holds_pure_bind (hend true s4 h4)
    exact holds_step_bind (hend _ _ (h4.congr (sameTags_isdirempty ip)))

/-! ## Rename -/

theorem cycleLoop_spec (target n : Nat) (h : Cached s (i ::ₘ B) ∅) :
    Holds (cycleLoop target n i s) (fun _ s' => Cached s' B ∅) (Stops S) := by
  induction n generalizing s i with
  | zero => exact holds_stop stops_loop
  | succ n ih =>
    apply holds_gets_bind
    refine holds_ite (fun _ => ?_) fun _ => holds_ite (fun _ => ?_) fun _ => ?_
    · exact (iput_last h).bind fun _ _ h1 => holds_pure h1
    · exact (iput_last h).bind fun _ _ h1 => holds_pure h1
    refine (ilock_first h).bind fun _ s1 h1 => ?_
    apply holds_step_bind
    have hlook := h1.dirlookup i dotdot
    have hput : Cached (s1.dirlookup i dotdot).2
        (i ::ₘ (found (s1.dirlookup i dotdot).1.1 + B)) {i} := hlook.of_eq (add_cons ..)
    refine (iunlockput_last hput).bind fun _ s2 h2 => ?_
    cases hres : (s1.dirlookup i dotdot).1.1 with
    | none =>
      rw [hres] at h2
      exact holds_pure (h2.of_eq (zero_add B))
    | some parent =>
      rw [hres] at h2
      exact ih h2

theorem renameCycle_spec (ip : Nat) (h : Cached s (i ::ₘ B) ∅) :
    Holds (renameCycle i ip s) (fun _ s' => Cached s' (i ::ₘ B) ∅) (Stops S) := by
  apply holds_modify_bind
  apply holds_gets_bind
  exact cycleLoop_spec _ _ (h.idup (mem_cons_self i B))

/-- The replaced entry: the new parent stays locked, or both inodes are dropped. -/
theorem renameReplace_spec (newname : Name) (h : Cached s (i ::ₘ B) {i})
    (hsafe : S → (s.dirlookup i newname).1.1 ≠ some i) :
    Holds (renameReplace i newname s)
      (fun ok s' => if ok then Cached s' (i ::ₘ B) {i} else Cached s' B ∅) (Stops S) := by
  apply holds_step_bind
  have hlook := h.dirlookup i newname
  rcases hres : s.dirlookup i newname with ⟨⟨_ | e, off⟩, s1⟩ <;> rw [hres] at hlook hsafe
  · exact holds_pure (hlook.of_eq (zero_add _))
  have h1 : Cached s1 (e ::ₘ i ::ₘ B) {i} := hlook
  have hnot : S → e ∉ ({i} : Finset Nat) := fun hs hmem =>
    hsafe hs (by rw [Finset.mem_singleton.1 hmem])
  refine (ilock_spec h1 (mem_cons_self e _) hnot).bind fun _ s2 ⟨h2, hmem⟩ => ?_
  have hne : e ≠ i := fun he => hmem (Finset.mem_singleton.2 he)
  apply holds_gets_bind
  refine holds_ite (fun _ => ?_) fun _ => ?_
  · refine (dropBoth_spec false hne h2).imp fun r s3 ⟨hr, h3⟩ => ?_
    rw [hr]
    exact h3
  apply holds_step_bind
  apply holds_modify_bind
  have h3 := (h2.congr (sameTags_writei i emptyDirent off)).congr (sameTags_decNlink e)
  refine (iunlockput_spec h3).bind fun _ s4 h4 => holds_pure ?_
  rw [Finset.erase_insert hmem] at h4
  exact h4

theorem sameTags_setDotdot (ip inum : Nat) : SameTags s (FileSys.setDotdot s ip inum) := by
  have hscan := sameTags_scanDir (s := s) (fun de => direntName de == dotdot) ip 0
  unfold FileSys.setDotdot
  rcases hres : s.scanDir (fun de => direntName de == dotdot) ip 0 with ⟨scan, s1⟩
  rw [hres] at hscan
  cases scan with
  | hit de off => exact hscan.trans (sameTags_writei ip _ off)
  | finish off => exact hscan
  | short => exact hscan

theorem renameFinish_spec (isDir : Bool) (newParentInum : Nat) (h : Cached s (i ::ₘ B) ∅) :
    Holds (renameFinish i isDir newParentInum s) (fun _ s' => Cached s' B ∅) (Stops S) := by
  refine holds_ite (fun _ => ?_) fun _ => takeBack_spec 0 h
  refine (ilock_first h).bind fun _ s1 h1 => ?_
  apply holds_modify_bind
  apply holds_modify_bind
  exact takeBack_spec 0 (iunlock_last (h1.congr (sameTags_setDotdot i newParentInum)))

theorem renameOld_spec (old : List UInt8) (isDir : Bool) (newParentInum : Nat)
    (h : Cached s (i ::ₘ B) ∅) (hcwd : ∀ i, cwd = some i → i ∈ B) :
    Holds (renameOld cwd old i isDir newParentInum s) (fun _ s' => Cached s' B ∅) (Stops S) := by
  refine (nameiparent_spec old h fun j e => mem_cons_of_mem (hcwd j e)).bind
    fun parent s1 h1 => ?_
  match parent with
  | none => exact (iput_last (h1.of_eq (zero_add _))).bind fun _ _ h2 => holds_pure h2
  | some (oldDp, oldname) =>
    refine (ilock_first h1).bind fun _ s2 h2 => ?_
    -- an entry that is not the old one any more: both inodes are dropped
    have hgone : ∀ s3, Cached s3 (oldDp ::ₘ i ::ₘ B) {oldDp} →
        Holds ((do
          iunlockput oldDp
          iput i
          pure (-Errno.enoent.val) : FsM Int) s3) (fun _ s' => Cached s' B ∅) (Stops S) := by
      intro s3 h3
      refine (iunlockput_last h3).bind fun _ s4 h4 => ?_
      exact (iput_last h4).bind fun _ _ h5 => holds_pure h5
    apply holds_step_bind
    have hlook := h2.dirlookup oldDp oldname
    rcases hres : s2.dirlookup oldDp oldname with ⟨⟨_ | check, off⟩, s3⟩ <;> rw [hres] at hlook
    · exact hgone s3 (hlook.of_eq (zero_add _))
    apply holds_gets_bind
    refine (iput_spec hlook (h2.held check)).bind fun _ s4 h4 => ?_
    refine holds_ite (fun _ => hgone s4 h4) fun _ => ?_
    apply holds_step_bind
    have h5 := h4.congr (sameTags_writei oldDp emptyDirent off)
    have hend : ∀ s6, Cached s6 (oldDp ::ₘ i ::ₘ B) {oldDp} →
        Holds ((do
          iunlockput oldDp
          renameFinish i isDir newParentInum : FsM Int) s6)
          (fun _ s' => Cached s' B ∅) (Stops S) := by
      intro s6 h6
      exact (iunlockput_last h6).bind fun _ s7 h7 => renameFinish_spec isDir newParentInum h7
    refine holds_ite (fun _ => ?_) fun _ => hend _ h5
    exact holds_modify_bind (hend _ (h5.congr (sameTags_decNlink oldDp)))

theorem renameParents_spec (old new : List UInt8) (h : Cached s B ∅)
    (hcwd : ∀ i, cwd = some i → i ∈ B) :
    Holds (renameParents cwd old new s) (fun r s' => match r with
      | .error _ => Cached s' B ∅
      | .ok (ip, _, newDp, _) => Cached s' (newDp ::ₘ ip ::ₘ B) ∅) (Stops S) := by
  refine (namei_spec old h hcwd).bind fun ip s1 h1 => ?_
  cases ip with
  | none => exact holds_pure (h1.of_eq (zero_add B))
  | some ip =>
    refine (ilock_first h1).bind fun _ s2 h2 => ?_
    apply holds_gets_bind
    apply holds_modify_bind
    apply holds_modify_bind
    have h3 := iunlock_last (h2.congr (sameTags_incNlink ip))
    refine (nameiparent_spec new h3 fun j e => mem_cons_of_mem (hcwd j e)).bind
      fun parent s4 h4 => ?_
    match parent with
    | none =>
      exact (renameFail_spec (h4.of_eq (zero_add _))).bind fun _ _ h5 => holds_pure h5
    | some (newDp, newname) =>
      have hend : ∀ (ok : Bool) s5, Cached s5 (newDp ::ₘ ip ::ₘ B) ∅ →
          Holds ((if ok then pure (.ok (ip, decide ((s2.icache ip).din.type = tDir), newDp, newname))
            else do
              iput newDp
              let e ← renameFail ip
              pure (.error e) : FsM (Except Int (Nat × Bool × Nat × Name))) s5)
            (fun r s' => match r with
              | .error _ => Cached s' B ∅
              | .ok (ip, _, newDp, _) => Cached s' (newDp ::ₘ ip ::ₘ B) ∅) (Stops S) := by
        intro ok s5 h5
        refine holds_ite (fun _ => holds_pure h5) fun _ => ?_
        refine (iput_last h5).bind fun _ s6 h6 => ?_
        exact (renameFail_spec h6).bind fun _ _ h7 => holds_pure h7
      refine holds_ite (fun _ => ?_) fun _ => holds_pure_bind (hend true s4 h4)
      exact (renameCycle_spec ip h4).bind fun ok s5 h5 => hend ok s5 h5

theorem renameMove_spec {ip newDp : Nat} (old : List UInt8) (isDir : Bool) (newname : Name)
    (h : Cached s (newDp ::ₘ ip ::ₘ B) ∅) (hcwd : ∀ i, cwd = some i → i ∈ B)
    (hsafe : S → ∀ s1, ilock newDp s = .ok ((), s1) →
      (s1.dirlookup newDp newname).1.1 ≠ some newDp) :
    Holds (renameMove cwd old ip isDir newDp newname s) (fun _ s' => Cached s' B ∅) (Stops S) := by
  apply holds_gets_bind
  refine (ilock_first h).bind_run fun _ s1 hlock h1 => ?_
  refine (renameReplace_spec newname h1 fun hs => hsafe hs s1 hlock).bind fun ok s2 h2 => ?_
  refine holds_ite (fun hok => ?_) fun hok => ?_
  · rw [hok, if_pos rfl] at h2
    apply holds_gets_bind
    have hend : ∀ (ok : Bool) s3, Cached s3 (newDp ::ₘ ip ::ₘ B) {newDp} →
        Holds ((if ok then do
            if isDir then Exec.modify fun s => s.incNlink newDp
            else pure ()
            iunlockput newDp
            renameOld cwd old ip isDir (s.icache newDp).inum
          else do
            iunlockput newDp
            renameFail ip : FsM Int) s3) (fun _ s' => Cached s' B ∅) (Stops S) := by
      intro ok s3 h3
      have hold : ∀ s4, Cached s4 (newDp ::ₘ ip ::ₘ B) {newDp} →
          Holds ((do
            iunlockput newDp
            renameOld cwd old ip isDir (s.icache newDp).inum : FsM Int) s4)
            (fun _ s' => Cached s' B ∅) (Stops S) := by
        intro s4 h4
        exact (iunlockput_last h4).bind fun _ s5 h5 => renameOld_spec old isDir _ h5 hcwd
      refine holds_ite (fun _ => holds_ite (fun _ => ?_) fun _ => hold _ h3) fun _ => ?_
      · exact holds_modify_bind (hold _ (h3.congr (sameTags_incNlink newDp)))
      · exact (iunlockput_last h3).bind fun _ s4 h4 => renameFail_spec h4
    refine holds_ite (fun _ => holds_pure_bind (hend false s2 h2)) fun _ => ?_
    exact (dirlink_spec newDp newname _ h2).bind fun ok s3 h3 => hend ok s3 h3
  · rw [if_neg hok] at h2
    exact renameFail_spec h2

theorem rename_spec (old new : List UInt8) (h : Cached s B ∅) (hcwd : ∀ i, cwd = some i → i ∈ B)
    (hsafe : S → RenameSafe cwd old new s) :
    Holds (rename cwd old new s) (fun _ s' => Cached s' B ∅) (Stops S) := by
  refine (renameParents_spec old new h hcwd).bind_run fun r s1 hrun h1 => ?_
  match r with
  | .error e => exact holds_pure h1
  | .ok (ip, isDir, newDp, newname) =>
    exact renameMove_spec old isDir newname h1 hcwd fun hs s2 hlock =>
      hsafe hs ip isDir newDp newname s1 s2 hrun hlock

/-! ## The working directory as a path -/

theorem getcwdLoop_spec (n : Nat) (names : List Name) (h : Cached s (i ::ₘ B) ∅) :
    Holds (getcwdLoop n i names s) (fun _ s' => Cached s' B ∅) (Stops S) := by
  induction n generalizing s i names with
  | zero =>
    exact (iput_last h).bind fun _ _ h1 => holds_pure h1
  | succ n ih =>
    apply holds_gets_bind
    refine holds_ite (fun _ => ?_) fun _ => ?_
    · exact (iput_last h).bind fun _ _ h1 => holds_pure h1
    refine (ilock_first h).bind fun _ s1 h1 => ?_
    apply holds_step_bind
    have hlook := h1.dirlookup i dotdot
    rcases hres : s1.dirlookup i dotdot with ⟨⟨_ | parent, off⟩, s2⟩ <;> rw [hres] at hlook
    · exact (iunlockput_last (hlook.of_eq (zero_add _))).bind fun _ _ h2 => holds_pure h2
    apply holds_modify_bind
    have h2 : Cached s2 (i ::ₘ parent ::ₘ B) {i} := hlook.of_eq (cons_swap ..)
    have h3 := (iunlock_last h2).of_eq (cons_swap i parent B)
    refine (ilock_first h3).bind fun _ s4 h4 => ?_
    apply holds_step_bind
    apply holds_modify_bind
    generalize hscan : s4.scanDir (isNameOf (s.icache i).inum) parent 0 = scan
    have h5 := h4.congr (sameTags_scanDir (isNameOf (s.icache i).inum) parent 0)
    rw [hscan] at h5
    have h6 := (iunlock_last h5).of_eq (cons_swap parent i B)
    refine (iput_last h6).bind fun _ s7 h7 => ?_
    cases scan.1 with
    | hit de off' => exact ih _ h7
    | finish off' => exact (iput_last h7).bind fun _ _ h8 => holds_pure h8
    | short => exact (iput_last h7).bind fun _ _ h8 => holds_pure h8

end

end Slopix.Kernel
