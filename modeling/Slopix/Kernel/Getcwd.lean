import Slopix.Fs.Stair
import Slopix.Kernel.Paths

/-!
# The path of the working directory

`getcwdStore` is `sys_getcwd` with the bytes that it stores, in their order: byte `j` goes to `buf[j]`.
The walk upwards finds the names that lead from the root to the working directory, but no more than
16 of them. Below that depth the path is right; beyond it the call succeeds with the path of the last
16 names, which leads elsewhere.
-/

namespace Slopix.Kernel

open Lib Mm Fs Multiset Option Exec

/-! ## The bytes -/

/-- The inner loop of `sys_getcwd`: the bytes of one name; `false` when the buffer is too small. -/
def cwdName (size : Nat) : Name → List UInt8 → Bool × List UInt8
  | [], out => (true, out)
  | c :: name, out => if size ≤ out.length + 1 then (false, out) else cwdName size name (out ++ [c])

/-- The outer loop of `sys_getcwd`. The slash is stored unchecked. -/
def cwdNames (size : Nat) : List Name → List UInt8 → Bool × List UInt8
  | [], out => (true, out)
  | name :: names, out =>
    let r := cwdName size name (out ++ [slash])
    if r.1 then cwdNames size names r.2 else r

/-- The end of `sys_getcwd`: the length of the path, if it fits, and the bytes stored. -/
def cwdStore (size : Nat) (names : List Name) : Option Nat × List UInt8 :=
  let r := if names = [] then (true, [slash]) else cwdNames size names []
  if r.1 then (some r.2.length, r.2 ++ [0]) else (none, r.2)

/-- `sys_getcwd`, with the bytes stored in the buffer. -/
def getcwdStore (p size : Nat) (ok : Bool) : KM (Int × List UInt8) := do
  if size < 2 then pure (-Errno.einval.val, [])
  else if ok = false then pure (-Errno.efault.val, [])
  else do
    let proc ← getProc p
    match proc.cwd with
    | none => Exec.stop .fault
    | some i => do
        onFs (Exec.modify fun s => s.idup i)
        let r ← onFs (getcwdLoop 16 i [])
        match r with
        | none => pure (-Errno.eio.val, [])
        | some names =>
          match cwdStore size names with
          | (none, out) => pure (-Errno.einval.val, out)
          | (some n, out) => pure ((n : Int), out)

section

variable {size : Nat} {name : Name} {names : List Name} {out : List UInt8}

theorem cwdName_ok (h : (cwdName size name out).1 = true) : (cwdName size name out).2 = out ++ name := by
  induction name generalizing out with
  | nil => exact (List.append_nil out).symm
  | cons c name ih =>
    rw [cwdName] at h ⊢
    by_cases hfull : size ≤ out.length + 1
    · rw [if_pos hfull] at h
      cases h
    · rw [if_neg hfull] at h ⊢
      rw [ih h, List.append_assoc, List.singleton_append]

theorem cwdName_lt (h : out.length < size) : (cwdName size name out).2.length < size := by
  induction name generalizing out with
  | nil => exact h
  | cons c name ih =>
    rw [cwdName]
    by_cases hfull : size ≤ out.length + 1
    · rw [if_pos hfull]
      exact h
    rw [if_neg hfull]
    apply ih
    rw [List.length_append, List.length_singleton]
    omega

theorem cwdName_fits (h : name ≠ [] ∨ out.length < size) :
    (cwdName size name out).1 = true ↔ out.length + name.length < size := by
  induction name generalizing out with
  | nil =>
    rcases h with hne | hlt
    · exact absurd rfl hne
    · exact ⟨fun _ => hlt, fun _ => rfl⟩
  | cons c name ih =>
    rw [cwdName]
    by_cases hfull : size ≤ out.length + 1
    · rw [if_pos hfull, List.length_cons]
      exact ⟨fun hf => absurd hf Bool.false_ne_true, fun hlt => by omega⟩
    · have hlen : (out ++ [c]).length = out.length + 1 := by simp
      rw [if_neg hfull, ih (Or.inr (by omega)), hlen, List.length_cons, add_right_comm, add_assoc]

/-- A name behind a slash. The slash may take the last byte of the buffer; the check of the first character
then stops the loop. -/
theorem cwdName_slash (hne : name ≠ []) (h : out.length < size) :
    (cwdName size name (out ++ [slash])).2.length ≤ size ∧
      ((cwdName size name (out ++ [slash])).1 = true →
        (cwdName size name (out ++ [slash])).2.length < size) := by
  have hlen : (out ++ [slash]).length = out.length + 1 := by simp
  by_cases hlast : out.length + 1 < size
  · have hlt := @cwdName_lt size name (out ++ [slash]) (hlen ▸ hlast)
    exact ⟨le_of_lt hlt, fun _ => hlt⟩
  cases name with
  | nil => exact absurd rfl hne
  | cons c name =>
    rw [cwdName, if_pos (by omega)]
    refine ⟨?_, fun hf => absurd hf Bool.false_ne_true⟩
    show (out ++ [slash]).length ≤ size
    omega

/-- The names are stored one behind the other, inside the buffer. -/
theorem cwdNames_spec (hne : ∀ x ∈ names, x ≠ []) (h : out.length < size) :
    (cwdNames size names out).2.length ≤ size ∧
      ((cwdNames size names out).1 = true ↔ out.length + (names.flatMap (slash :: ·)).length < size) ∧
      ((cwdNames size names out).1 = true →
        (cwdNames size names out).2 = out ++ names.flatMap (slash :: ·)) := by
  induction names generalizing out with
  | nil => exact ⟨le_of_lt h, ⟨fun _ => h, fun _ => rfl⟩, fun _ => (List.append_nil out).symm⟩
  | cons name names ih =>
    have hname := hne name List.mem_cons_self
    have hlen : (out ++ [slash]).length = out.length + 1 := by simp
    have hfits := @cwdName_fits size name (out ++ [slash]) (Or.inl hname)
    obtain ⟨hle, hlt⟩ := cwdName_slash hname h
    rw [cwdNames, List.flatMap_cons]
    by_cases hok : (cwdName size name (out ++ [slash])).1 = true
    · obtain ⟨hle', hfits', hstored⟩ := ih (fun x hx => hne x (List.mem_cons_of_mem name hx)) (hlt hok)
      have hout := cwdName_ok hok
      rw [if_pos hok]
      refine ⟨hle', hfits'.trans ?_, fun hrest => ?_⟩
      · rw [hout]
        simp only [List.length_append, List.length_cons, List.length_nil]
        constructor <;> intro hlen <;> omega
      · rw [hstored hrest, hout]
        simp
    rw [if_neg hok]
    refine ⟨hle, ⟨fun hf => absurd hf hok, fun hlen => ?_⟩, fun hf => absurd hf hok⟩
    rw [List.length_append, List.length_cons] at hlen
    exact absurd (hfits.2 (by omega)) hok

/-- The end of the call stores the path and a zero, when there is room for both. -/
theorem cwdStore_spec (hne : ∀ x ∈ names, x ≠ []) (h : 2 ≤ size) :
    (cwdStore size names).2.length ≤ size ∧
      ((rootPath names).length < size →
        cwdStore size names = (some (rootPath names).length, rootPath names ++ [0])) ∧
      (size ≤ (rootPath names).length → (cwdStore size names).1 = none) := by
  unfold cwdStore rootPath
  by_cases hnil : names = []
  · rw [if_pos hnil, if_pos hnil, if_pos rfl]
    exact ⟨h, fun _ => rfl, fun hle => absurd (le_trans h hle) (by decide)⟩
  obtain ⟨hle, hfits, hstored⟩ := @cwdNames_spec size names [] hne (by rw [List.length_nil]; omega)
  rw [List.length_nil, zero_add] at hfits
  rw [if_neg hnil, if_neg hnil]
  by_cases hok : (cwdNames size names []).1 = true
  · rw [if_pos hok, hstored hok, List.nil_append]
    have hlt := hfits.1 hok
    refine ⟨?_, fun _ => rfl, fun hge => by omega⟩
    rw [List.length_append, List.length_singleton]
    exact hlt
  · rw [if_neg hok]
    exact ⟨hle, fun hlt => absurd (hfits.2 hlt) hok, fun _ => rfl⟩

/-- What the outer loop stores has the length that `sys_getcwd` counts. -/
theorem cwdNames_length :
    (if (cwdNames size names out).1 = true then some (cwdNames size names out).2.length else none) =
      names.foldl (fun pos name =>
        pos.bind fun pos =>
          if name = [] then some (pos + 1)
          else if size ≤ pos + name.length + 1 then none else some (pos + 1 + name.length))
        (some out.length) := by
  induction names generalizing out with
  | nil => rfl
  | cons name names ih =>
    have hlen : (out ++ [slash]).length = out.length + 1 := by simp
    rw [cwdNames, List.foldl_cons, bind_some]
    by_cases hname : name = []
    · subst hname
      rw [if_pos rfl, ← hlen, ← ih]
      rfl
    have hfits := @cwdName_fits size name (out ++ [slash]) (Or.inl hname)
    rw [if_neg hname]
    by_cases hok : (cwdName size name (out ++ [slash])).1 = true
    · have hlt := hfits.1 hok
      have hout : (cwdName size name (out ++ [slash])).2.length = out.length + 1 + name.length := by
        rw [cwdName_ok hok, List.length_append, hlen]
      rw [if_pos hok, ih, hout, if_neg (by omega)]
    · have hge := mt hfits.2 hok
      rw [if_neg hok, if_neg hok, if_pos (by omega)]
      exact (List.foldl_fixed' (fun _ => rfl) names).symm

/-- The bytes stored when the path fits are as many as `sys_getcwd` counts. -/
theorem cwdStore_length (size : Nat) (names : List Name) :
    (cwdStore size names).1 = cwdLength size names := by
  unfold cwdStore cwdLength
  by_cases hnil : names = []
  · rw [if_pos hnil, if_pos hnil]
    rfl
  rw [if_neg hnil, if_neg hnil]
  refine Eq.trans ?_ (@cwdNames_length size names [])
  dsimp only
  by_cases hok : (cwdNames size names []).1 = true
  · rw [if_pos hok, if_pos hok]
  · rw [if_neg hok, if_neg hok]

/-- Without the bytes it is the call of the machine's runs. -/
theorem getcwdStore_result (p size : Nat) (ok : Bool) :
    (do
      let r ← getcwdStore p size ok
      pure r.1) = sysGetcwd p size ok := by
  funext k
  unfold getcwdStore sysGetcwd
  by_cases hsmall : size < 2
  · rw [if_pos hsmall, if_pos hsmall]
    rfl
  rw [if_neg hsmall, if_neg hsmall]
  by_cases hbuf : ok = false
  · rw [if_pos hbuf, if_pos hbuf]
    rfl
  rw [if_neg hbuf, if_neg hbuf, LawfulMonad.bind_assoc, bind_ok (b := k.procs p) (t := k) rfl, bind_ok (b := k.procs p) (t := k) rfl]
  cases (k.procs p).cwd with
  | none => rfl
  | some i =>
    dsimp only
    rw [LawfulMonad.bind_assoc, bind_ok (b := ()) (t := k.withFs (k.fs.idup i)) rfl,
      bind_ok (b := ()) (t := k.withFs (k.fs.idup i)) rfl, LawfulMonad.bind_assoc]
    refine congrFun (congrArg (_ >>= ·) ?_) _
    funext r
    cases r with
    | none => rfl
    | some names =>
      dsimp only
      rw [← cwdStore_length]
      rcases cwdStore size names with ⟨_ | n, out⟩
      · rfl
      · rfl

end

/-! ## The walk upwards -/

section

variable {sb : Superblock} {rd : Nat → Fs.Block} {s : FileSys} {B : Multiset Nat} {i : Nat}
  {names init : List Name} {name : Name}

theorem find_isNameOf (hh : Hierarchy sb rd) {inum parent : Nat} (hinit : Leads sb rd init parent)
    (hord : Ordinary name) (hlook : lookup rd (sb.inode rd parent) name = some inum)
    (hone : ∀ name', Ordinary name' → lookup rd (sb.inode rd parent) name' = some inum → name' = name) :
    ∃ de, (dirents rd (sb.inode rd parent)).find? (isNameOf inum) = some de ∧ direntName de = name := by
  have hne := lookup_ne_zero hlook
  obtain ⟨de0, hde0, hnum⟩ := map_eq_some_iff.1 hlook
  have hentry := List.find?_some hde0
  have hname : direntName de0 = name := by simpa using (Bool.and_eq_true_iff.1 hentry).2
  have htest : isNameOf inum de0 = true := by
    unfold isNameOf
    rw [hnum, hname]
    simpa using (show name ≠ dot ∧ name ≠ dotdot from hord)
  cases hfind : (dirents rd (sb.inode rd parent)).find? (isNameOf inum) with
  | none => exact absurd htest (List.find?_eq_none.1 hfind de0 (List.mem_of_find?_eq_some hde0))
  | some de =>
    have hde := List.find?_some hfind
    unfold isNameOf at hde
    simp only [Bool.and_eq_true, beq_iff_eq, bne_iff_ne] at hde
    obtain ⟨⟨hdenum, hdot⟩, hdotdot⟩ := hde
    obtain ⟨-, -, hl⟩ := hh.name parent (hinit.used hh.toTree).1 hinit.dir de
      (List.mem_of_find?_eq_some hfind) (by rw [hdenum]; exact hne)
    rw [hdenum] at hl
    exact ⟨de, rfl, hone _ ⟨hdot, hdotdot⟩ hl⟩

theorem getcwdLoop_end (h : Coherent sb rd s (i ::ₘ B) ∅) (hlink : (sb.inode rd (s.icache i).inum).nlink ≠ 0)
    (rest : List Name) :
    ∃ s', (do iput i; pure (some rest) : FsM (Option (List Name))) s = .ok (some rest, s') ∧
      Coherent sb rd s' B ∅ ∧ SameNumbers B s s' := by
  obtain ⟨s', hput, h', hinum⟩ := h.iput (fun hmem => absurd hmem (Finset.notMem_empty i)) (Or.inr hlink)
  exact ⟨s', bind_ok hput, h', fun j _ => hinum j⟩

/-- The loop finds the last `n` of the names that lead to the directory. -/
theorem getcwdLoop_leads (hh : Hierarchy sb rd) (n : Nat) (rest : List Name)
    (h : Coherent sb rd s (i ::ₘ B) ∅) (hroom : Room B 2) (hlead : Leads sb rd names (s.icache i).inum) :
    ∃ s', getcwdLoop n i rest s = .ok (some (names.drop (names.length - n) ++ rest), s') ∧
      Coherent sb rd s' B ∅ ∧ SameNumbers B s s' := by
  induction n generalizing s i names rest with
  | zero =>
    rw [getcwdLoop, Nat.sub_zero, List.drop_length]
    exact getcwdLoop_end h (hlead.used hh.toTree).2 rest
  | succ n ih =>
    rw [getcwdLoop, bind_ok (b := (s.icache i).inum) rfl]
    rcases names.eq_nil_or_concat' with rfl | ⟨init, name, rfl⟩
    · rw [if_pos (leads_nil hlead), List.drop_nil]
      exact getcwdLoop_end h (hlead.used hh.toTree).2 rest
    obtain ⟨parent, hinit, hlook, hne, hup, hone⟩ := hlead.above hh
    have hord : Ordinary name :=
      hlead.ordinary name (List.mem_append_right _ (List.mem_singleton_self name))
    obtain ⟨hpused, hplink⟩ := hinit.used hh.toTree
    have hi : i ∈ i ::ₘ B := mem_cons_self i B
    have hunlock : ∀ j : Nat, (insert j (∅ : Finset Nat)).erase j = ∅ := fun j =>
      Finset.erase_insert (Finset.notMem_empty j)
    -- `..` leads to the parent
    obtain ⟨s1, hlock, h1, hdin, hinum1⟩ := h.ilock hi (Finset.notMem_empty i)
    have hdir : (s1.icache i).din.type = tDir := by rw [hdin]; exact hlead.dir
    have hused := (hlead.used hh.toTree).1
    have hparent := dirlookup_eq (s := s1) (i := i) dotdot
      (by rw [hdin, h1.image]; exact hh.whole _ hused hlead.dir)
      (by rw [hdin]; exact hh.size _ hused hlead.dir) hdir
    rw [hdin, h1.image, hup, h1.dev i hi] at hparent
    obtain ⟨j, hj, h2, hnum, hsame2, -⟩ := h1.iget (hroom.cons i).lt hpused
    rw [if_neg hne, bind_ok hlock,
      bind_ok (b := (s1.dirlookup i dotdot).1) (t := (s1.dirlookup i dotdot).2) rfl, hparent.1,
      hparent.2, hj]
    dsimp only
    -- the parent is another entry of the cache
    generalize (s1.iget 0 parent).2 = s2 at h2 hnum hsame2
    obtain ⟨h3, hsame3⟩ := h2.iunlock (mem_cons_of_mem hi)
    rw [hunlock] at h3
    rw [bind_ok (b := ()) (t := s2.iunlock i) rfl]
    obtain ⟨s4, hlock4, h4, hdin4, hinum4⟩ := h3.ilock (mem_cons_self j _) (Finset.notMem_empty j)
    rw [(hsame3 j).1, hnum] at hdin4
    -- the scan finds the name
    obtain ⟨hstate, hfound⟩ := scanDir_eq (s := s4) (i := j) (isNameOf (s.icache i).inum)
      (by rw [hdin4, h4.image]; exact hh.whole _ hpused hinit.dir)
      (by rw [hdin4]; exact hh.size _ hpused hinit.dir)
    obtain ⟨de, hde, hname⟩ := find_isNameOf hh hinit hord hlook hone
    rw [hdin4, h4.image, hde] at hfound
    rw [bind_ok hlock4, bind_ok (b := (s4.scanDir (isNameOf (s.icache i).inum) j 0).1)
      (t := (s4.scanDir (isNameOf (s.icache i).inum) j 0).2) rfl, hstate]
    obtain ⟨h5, hsame5⟩ := h4.iunlock (mem_cons_self j _)
    rw [hunlock, cons_swap] at h5
    rw [bind_ok (b := ()) (t := s4.iunlock j) rfl]
    generalize s4.iunlock j = s5 at h5 hsame5
    have hback : ∀ x ∈ i ::ₘ B, (s5.icache x).inum = (s.icache x).inum := fun x hx => by
      rw [(hsame5 x).1, hinum4 x, (hsame3 x).1, hsame2 x hx, hinum1 x]
    obtain ⟨s6, hput, h6, hinum6⟩ := h5.iput (fun hmem => absurd hmem (Finset.notMem_empty i))
      (Or.inr (by rw [hback i hi]; exact (hlead.used hh.toTree).2))
    have hjnum : (s6.icache j).inum = parent := by
      rw [hinum6 j, (hsame5 j).1, hinum4 j, (hsame3 j).1, hnum]
    rw [bind_ok hput]
    cases hscan : (s4.scanDir (isNameOf (s.icache i).inum) j 0).1 with
    | hit de' off =>
      rw [hscan] at hfound
      obtain rfl : de' = de := some.inj hfound
      obtain ⟨s7, hrun, h7, hsame7⟩ := ih (name :: rest) h6 (by rw [hjnum]; exact hinit)
      dsimp only
      rw [hname, hrun, List.length_append, List.length_singleton, Nat.add_sub_add_right,
        List.drop_append_of_le_length (Nat.sub_le _ _), List.append_assoc, List.singleton_append]
      exact ⟨s7, rfl, h7, fun x hx => by
        rw [hsame7 x hx, hinum6 x, hback x (mem_cons_of_mem hx)]⟩
    | finish off =>
      rw [hscan] at hfound
      cases hfound
    | short =>
      rw [hscan] at hfound
      cases hfound

end

/-! ## The call -/

/-- The last names of a directory, as many as `sys_getcwd` collects. -/
def lastNames (names : List Name) : List Name := names.drop (names.length - 16)

/-- The buffer holds a path and a zero behind it, `r` is the length of the path, and `fs_namei` of the path
yields the inode in entry `c` of the inode cache. -/
def StoresPath (size c : Nat) (k' : Kern) (r : Int) (out : List UInt8) : Prop :=
  ∃ path, out = path ++ [0] ∧ r = path.length ∧ path.length < size ∧ path.head? = some slash ∧ 0 ∉ path ∧
    ∃ i s', namei (some c) path k'.fs = .ok (some i, s') ∧
      ((s'.icache i).dev, (s'.icache i).inum) = ((k'.fs.icache c).dev, (k'.fs.icache c).inum)

section

variable {sb : Superblock} {rd : Nat → Fs.Block} {k : Kern} {B : Multiset Nat} {p c size : Nat}
  {names : List Name}

theorem getcwdStore_run (hh : Hierarchy sb rd) (h : Coherent sb rd k.fs B ∅) (hroom : Room B 2) (hc : c ∈ B)
    (hcwd : (k.procs p).cwd = some c) (hlead : Leads sb rd names (k.fs.icache c).inum) (hsize : 2 ≤ size) :
    ∃ s', Coherent sb rd s' B ∅ ∧ SameNumbers B k.fs s' ∧
      getcwdStore p size true k = .ok
        (((cwdStore size (lastNames names)).1.elim (-Errno.einval.val) fun n => (n : Int),
          (cwdStore size (lastNames names)).2), k.withFs s') := by
  obtain ⟨h1, hsame⟩ := h.idup hc
  obtain ⟨s', hrun, h', hnum⟩ := getcwdLoop_leads hh 16 [] h1 hroom (by rw [(hsame c).1]; exact hlead)
  rw [List.append_nil] at hrun
  refine ⟨s', h', fun j hj => (hnum j hj).trans (hsame j).1, ?_⟩
  have hdup : onFs (modify fun s => s.idup c) k = .ok ((), k.withFs (k.fs.idup c)) := rfl
  have hloop : onFs (getcwdLoop 16 c []) (k.withFs (k.fs.idup c)) =
      .ok (some (lastNames names), k.withFs s') := zoom_ok (t := k.withFs (k.fs.idup c)) hrun
  unfold getcwdStore
  rw [if_neg (by omega), if_neg (Ne.symm Bool.false_ne_true), bind_ok (b := k.procs p) (t := k) rfl, hcwd]
  dsimp only
  rw [bind_ok hdup, bind_ok hloop]
  dsimp only
  rcases cwdStore size (lastNames names) with ⟨_ | n, out⟩
  · rfl
  · rfl

/-- The path of the last names leads to the directory exactly when they are all its names. -/
theorem namei_lastNames {s : FileSys} (hh : Hierarchy sb rd) (h : Coherent sb rd s B ∅) (hroom : Room B 2)
    (hc : c ∈ B) (hlead : Leads sb rd names (s.icache c).inum) :
    (∃ i s', namei (some c) (rootPath (lastNames names)) s = .ok (some i, s') ∧
      ((s'.icache i).dev, (s'.icache i).inum) = ((s.icache c).dev, (s.icache c).inum)) ↔
      names.length ≤ 16 := by
  have hmem : ∀ x ∈ lastNames names, x ∈ names := fun x hx => List.mem_of_mem_drop hx
  have hplain : ∀ x ∈ lastNames names, x ≠ [] ∧ slash ∉ x ∧ x.length ≤ 62 ∧ 0 ∉ x := fun x hx =>
    hlead.plain hh x (hmem x hx)
  obtain ⟨r, s', hrun, h', hres, -⟩ := namei_resolve hh.toTree h hroom
    (fun i e => some.inj e ▸ hc) (if_pos (rootPath_head (lastNames names)))
  rw [pathNames_rootPath hplain] at hres
  constructor
  · rintro ⟨i, s1, hrun1, hsame⟩
    obtain ⟨rfl, rfl⟩ := Prod.mk.inj (Except.ok.inj (hrun.symm.trans hrun1))
    rw [map_some, (Prod.mk.inj hsame).2] at hres
    -- the last names lead there too, so they are all
    have hagain : Leads sb rd (lastNames names) (s.icache c).inum :=
      ⟨fun x hx => hlead.ordinary x (hmem x hx), hres.symm, hlead.dir⟩
    have hlen := congrArg List.length (hagain.unique hh hlead)
    unfold lastNames at hlen
    rw [List.length_drop] at hlen
    omega
  intro hle
  have hall : lastNames names = names := by
    unfold lastNames
    rw [Nat.sub_eq_zero_of_le hle, List.drop_zero]
  rw [hall] at hrun hres ⊢
  rw [hlead.walk] at hres
  cases r with
  | none => cases hres
  | some i =>
    have hi : i ∈ found (some i) + B := mem_add.2 (Or.inl (mem_singleton_self i))
    have hinum : (s'.icache i).inum = (s.icache c).inum := some.inj hres
    exact ⟨i, s', hrun, by rw [h'.dev i hi, h.dev c hc, hinum]⟩

/-- The call on a coherent cache. -/
theorem getcwdStore_path (hh : Hierarchy sb rd) (h : Coherent sb rd k.fs B ∅) (hroom : Room B 2) (hc : c ∈ B)
    (hcwd : (k.procs p).cwd = some c) (hlead : Leads sb rd names (k.fs.icache c).inum) (size : Nat)
    (ok : Bool) :
    ∃ r out k', getcwdStore p size ok k = .ok ((r, out), k') ∧ out.length ≤ size ∧
      ((0 ≤ r → StoresPath size c k' r out) ↔
        names.length ≤ 16 ∨ ok = false ∨ size ≤ (rootPath (lastNames names)).length) := by
  have hpos : 1 ≤ (rootPath (lastNames names)).length := by
    have hhead := rootPath_head (lastNames names)
    cases hpath : rootPath (lastNames names) with
    | nil =>
      rw [hpath] at hhead
      cases hhead
    | cons x path => exact Nat.succ_le_succ (Nat.zero_le _)
  by_cases hsmall : size < 2
  · refine ⟨-Errno.einval.val, [], k, ?_, Nat.zero_le size, fun _ => Or.inr (Or.inr (by omega)),
      fun _ hr => absurd hr (by decide)⟩
    unfold getcwdStore
    rw [if_pos hsmall]
    rfl
  cases ok with
  | false =>
    refine ⟨-Errno.efault.val, [], k, ?_, Nat.zero_le size, fun _ => Or.inr (Or.inl rfl),
      fun _ hr => absurd hr (by decide)⟩
    unfold getcwdStore
    rw [if_neg hsmall, if_pos rfl]
    rfl
  | true =>
    have hne : ∀ x ∈ lastNames names, x ≠ [] := fun x hx => (hlead.plain hh x (List.mem_of_mem_drop hx)).1
    obtain ⟨hle, hfits, hfull⟩ := cwdStore_spec hne (by omega : 2 ≤ size)
    obtain ⟨s', h', hnum, hrun⟩ := getcwdStore_run hh h hroom hc hcwd hlead (by omega : 2 ≤ size)
    have hlead' : Leads sb rd names (s'.icache c).inum := by rw [hnum c hc]; exact hlead
    have hnamei := namei_lastNames hh h' hroom hc hlead'
    refine ⟨_, _, _, hrun, hle, ?_⟩
    by_cases hroomy : size ≤ (rootPath (lastNames names)).length
    · rw [hfull hroomy]
      exact ⟨fun _ => Or.inr (Or.inr hroomy), fun _ hr => absurd hr (by decide)⟩
    rw [hfits (by omega)]
    constructor
    · intro hstore
      obtain ⟨path, hout, -, -, -, -, hpath⟩ := hstore (Int.natCast_nonneg _)
      obtain rfl : rootPath (lastNames names) = path := List.append_cancel_right hout
      exact Or.inl (hnamei.1 hpath)
    rintro (hshort | hbuf | hbig) -
    · refine ⟨_, rfl, rfl, by omega, rootPath_head _, ?_, hnamei.2 hshort⟩
      exact zero_notMem_rootPath fun x hx => (hlead.plain hh x (List.mem_of_mem_drop hx)).2.2.2
    · cases hbuf
    · exact absurd hbig hroomy

end

/-- The working directory is in a hierarchy, and `names` lead to it. The call stays inside the buffer. When
it succeeds it has stored a path that leads back, exactly when the directory is at most 16 names deep,
or the call does not succeed: the buffer is no good or too small for the last 16 names. -/
theorem getcwd_exact {k : Kern} {p c : Nat} {names : List Name} (hcounted : Counted k) (htree : OnTree k)
    (hh : Hierarchy k.fs.sb k.fs.bread) (hp : p < nproc) (hcwd : (k.procs p).cwd = some c)
    (hlead : Leads k.fs.sb k.fs.bread names (k.fs.icache c).inum) (size : Nat) (ok : Bool) :
    ∃ r out k', getcwdStore p size ok k = .ok ((r, out), k') ∧ out.length ≤ size ∧
      ((0 ≤ r → StoresPath size c k' r out) ↔
        names.length ≤ 16 ∨ ok = false ∨ size ≤ (rootPath (lastNames names)).length) :=
  getcwdStore_path hh (htree.coherent hcounted) ((room_inodeRefs k).mono (by decide))
    (mem_add.2 (Or.inr (mem_cwds hp hcwd))) hcwd hlead size ok

/-! ## A machine with 17 directories below each other -/

section

variable {sb : Superblock} {rd : Nat → Fs.Block} {k : Kern} {B : Multiset Nat} {p c start inum : Nat}
  {path : List UInt8}

theorem sysChdir_resolve (htree : Tree sb rd) (h : Coherent sb rd k.fs (c ::ₘ B) ∅) (hroom : Room B 3)
    (hcwd : (k.procs p).cwd = some c) (hlink : (sb.inode rd (k.fs.icache c).inum).nlink ≠ 0)
    (hstart : startNumber k.fs (some c) path = some start)
    (hres : resolve rd sb.inodestart start (pathNames path) = some inum)
    (hdir : (sb.inode rd inum).type = tDir) :
    ∃ i s', sysChdir p (some path) k = .ok (0, (k.withFs s').setProc p { k.procs p with cwd := some i }) ∧
      Coherent sb rd s' (i ::ₘ B) ∅ ∧ (s'.icache i).inum = inum := by
  have hc : c ∈ c ::ₘ B := mem_cons_self c B
  obtain ⟨r, s1, hrun, h1, hnum, hsame⟩ := namei_resolve htree h (hroom.cons c)
    (fun i e => some.inj e ▸ hc) hstart
  rw [hres] at hnum
  cases r with
  | none => cases hnum
  | some i =>
    have hinum : (s1.icache i).inum = inum := some.inj hnum
    have h1' : Coherent sb rd s1 (i ::ₘ c ::ₘ B) ∅ := h1
    have hi : i ∈ i ::ₘ c ::ₘ B := mem_cons_self i _
    obtain ⟨s2, hlock, h2, hdin, hinum2⟩ := h1'.ilock hi (Finset.notMem_empty i)
    obtain ⟨h3, hsame3⟩ := h2.iunlock hi
    rw [Finset.erase_insert (Finset.notMem_empty i), cons_swap] at h3
    obtain ⟨s4, hput, h4, hinum4⟩ := h3.iput (fun hmem => absurd hmem (Finset.notMem_empty c))
      (Or.inr (by rw [(hsame3 c).1, hinum2 c, hsame c hc]; exact hlink))
    have htype : (s2.icache i).din.type = tDir := by rw [hdin, hinum]; exact hdir
    have hnamei : onFs (namei (some c) path) k = .ok (some i, k.withFs s1) := zoom_ok hrun
    have hilock : onFs (ilock i) (k.withFs s1) = .ok ((), k.withFs s2) :=
      zoom_ok (t := k.withFs s1) hlock
    have hunlock : onFs (iunlock i) (k.withFs s2) = .ok ((), k.withFs (s2.iunlock i)) := rfl
    have hiput : onFs (iput c) (k.withFs (s2.iunlock i)) = .ok ((), k.withFs s4) :=
      zoom_ok (t := k.withFs (s2.iunlock i)) hput
    refine ⟨i, s4, ?_, h4, ?_⟩
    · unfold sysChdir getProc
      dsimp only
      rw [bind_ok (b := k.procs p) (t := k) rfl, hcwd, bind_ok hnamei]
      dsimp only
      rw [bind_ok hilock, bind_ok (b := (s2.icache i).din.type) (t := k.withFs s2) rfl,
        if_neg (not_not.2 htype), bind_ok hunlock, bind_ok hiput]
      rfl
    · rw [hinum4 i, (hsame3 i).1, hinum2 i, hinum]

end

/-- The machine with the 17 directories on its disk. -/
def stairMachine : Machine := { smallMachine with sb := chainSb, disk := stairDisk 17 }

theorem stairMachine_bare : stairMachine.Bare 256 4096 4096 where
  start := rfl
  room := by decide
  reserved := rfl
  program := ⟨[47], smallImage, rfl, rfl, smallImage_loads⟩

/-- After `chdir` to a directory `m` names below the root. -/
theorem stair_chdir {m : Nat} (hm : m ≤ 17) : ∃ k c, stairMachine.Reachable (fun _ _ => True) k ∧ OnTree k ∧
    Hierarchy k.fs.sb k.fs.bread ∧ (k.procs 0).cwd = some c ∧
    Leads k.fs.sb k.fs.bread (List.replicate m stairName) (k.fs.icache c).inum := by
  obtain ⟨k, hboot, hstart⟩ := boot_bare stairMachine_bare
  have hh := stair_hierarchy (n := 17) (by decide)
  have hlead := stair_leads (n := 17) (by decide) hm
  obtain ⟨hcoh, hroot⟩ := rootFs_coherent hh.root
  have hfs : k.fs = rootFs chainSb (stairDisk 17) := hstart.fs
  rw [← hfs] at hcoh hroot
  have hnames : pathNames (rootPath (List.replicate m stairName)) = List.replicate m stairName :=
    pathNames_rootPath (hlead.plain hh)
  obtain ⟨i, s', hrun, hcoh', hnum⟩ := sysChdir_resolve hh.toTree hcoh (by unfold Room; decide) hstart.cwd
    (by rw [hroot]; exact hh.rootLink) (if_pos (rootPath_head _)) (by rw [hnames]; exact hlead.walk) hlead.dir
  have halive : k.alive 0 := by
    unfold Kern.alive
    rw [hstart.state]
    decide
  have hreach : stairMachine.Reachable (fun _ _ => True)
      (((k.withFs s').setProc 0 { k.procs 0 with cwd := some i }).setReturn 0 0) :=
    ⟨k, hboot, .step .start trivial (.call (c := .chdir (some (rootPath (List.replicate m stairName)))) halive hrun)⟩
  generalize hk : ((k.withFs s').setProc 0 { k.procs 0 with cwd := some i }).setReturn 0 0 = k' at hreach
  have hfs' : k'.fs = s' := by
    rw [← hk]
    rfl
  have hcwd : (k'.procs 0).cwd = some i := by
    rw [← hk]
    rfl
  rw [← hfs'] at hcoh' hnum
  refine ⟨k', i, hreach, onTree_single hh.toTree hcoh' (fun f => ?_) (fun p c hc => ?_), ?_, hcwd, ?_⟩
  · rw [← hk]
    exact (hstart.files f).1
  · by_cases hp : p = 0
    · rw [hp, hcwd] at hc
      exact (some.inj hc).symm
    have hother : k'.procs p = k.procs p := by
      rw [← hk]
      simp only [Kern.setReturn, Kern.setProc, Kern.withFs, Function.update_of_ne hp]
    rw [hother, hstart.others p hp] at hc
    cases hc
  · rw [hcoh'.super, hcoh'.image]
    exact hh
  · rw [hcoh'.super, hcoh'.image, hnum]
    exact hlead

/-- At 16 names below the root, with a buffer of 64 bytes. -/
theorem getcwd_exact_16 : ∃ k c r out k', stairMachine.Reachable (fun _ _ => True) k ∧
    (k.procs 0).cwd = some c ∧ getcwdStore 0 64 true k = .ok ((r, out), k') ∧ out.length ≤ 64 ∧
    (0 ≤ r → StoresPath 64 c k' r out) := by
  obtain ⟨k, c, hreach, htree, hh, hcwd, hlead⟩ := stair_chdir (m := 16) (by decide)
  obtain ⟨r, out, k', hrun, hlen, hiff⟩ := getcwd_exact (counted_reachable hreach) htree hh (by decide) hcwd
    hlead 64 true
  exact ⟨k, c, r, out, k', hreach, hcwd, hrun, hlen, hiff.2 (Or.inl (by simp))⟩

/-- At 17 names below the root the call returns 32, and what it has stored leads one directory up. -/
theorem getcwd_too_deep : ∃ k c out k', stairMachine.Reachable (fun _ _ => True) k ∧ OnTree k ∧
    Hierarchy k.fs.sb k.fs.bread ∧ (k.procs 0).cwd = some c ∧
    Leads k.fs.sb k.fs.bread (List.replicate 17 stairName) (k.fs.icache c).inum ∧
    getcwdStore 0 64 true k = .ok ((32, out), k') ∧ ¬ StoresPath 64 c k' 32 out := by
  obtain ⟨k, c, hreach, htree, hh, hcwd, hlead⟩ := stair_chdir (m := 17) (by decide)
  have hcoh := htree.coherent (counted_reachable hreach)
  have hmem : c ∈ k.inodeRefs := mem_add.2 (Or.inr (mem_cwds (by decide) hcwd))
  have hroom : Room k.inodeRefs 2 := (room_inodeRefs k).mono (by decide)
  obtain ⟨s', h', hnum, hrun⟩ := getcwdStore_run hh hcoh hroom hmem hcwd hlead (by decide : 2 ≤ 64)
  refine ⟨k, c, _, _, hreach, htree, hh, hcwd, hlead, hrun, ?_⟩
  rintro ⟨path, hout, -, -, -, -, hpath⟩
  obtain rfl : rootPath (lastNames (List.replicate 17 stairName)) = path := List.append_cancel_right hout
  have hlead' : Leads k.fs.sb k.fs.bread (List.replicate 17 stairName) (s'.icache c).inum := by
    rw [hnum c hmem]
    exact hlead
  exact absurd ((namei_lastNames hh h' hroom hmem hlead').1 hpath) (by simp)

end Slopix.Kernel
