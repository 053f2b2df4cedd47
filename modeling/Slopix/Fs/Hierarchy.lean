import Slopix.Fs.Coherent
import Slopix.Fs.Record

/-!
# Directories and their names

In a `Hierarchy` each directory but the root has one name, in the directory that its entry `..` leads
to. The names from the root to a directory are then a function of the directory, and they are found on
the way up.
-/

namespace Slopix.Fs

open Lib List Option

/-- A name other than `.` and `..`. -/
def Ordinary (name : Name) : Prop := name ≠ dot ∧ name ≠ dotdot

/-- A tree of directories. An entry has a name that a path can hold, and is the only one with it; a
directory has one name, which is in its parent, and the root has none. -/
structure Hierarchy (sb : Superblock) (rd : Nat → Block) : Prop extends Tree sb rd where
  rootDir : (sb.inode rd rootino).type = tDir
  name : ∀ inum, sb.InUse rd inum → (sb.inode rd inum).type = tDir →
    ∀ de ∈ dirents rd (sb.inode rd inum), direntInum de ≠ 0 → direntName de ≠ [] ∧
      slash ∉ direntName de ∧ lookup rd (sb.inode rd inum) (direntName de) = some (direntInum de)
  above : ∀ inum, sb.InUse rd inum → (sb.inode rd inum).type = tDir →
    ∀ name next, Ordinary name → lookup rd (sb.inode rd inum) name = some next →
      (sb.inode rd next).type = tDir → next ≠ rootino ∧ lookup rd (sb.inode rd next) dotdot = some inum ∧
        ∀ name', Ordinary name' → lookup rd (sb.inode rd inum) name' = some next → name' = name

/-- The names lead from the root to the directory `inum`, always downwards. -/
structure Leads (sb : Superblock) (rd : Nat → Block) (names : List Name) (inum : Nat) : Prop where
  ordinary : ∀ name ∈ names, Ordinary name
  walk : resolve rd sb.inodestart rootino names = some inum
  dir : (sb.inode rd inum).type = tDir

section

variable {sb : Superblock} {rd : Nat → Block} {names init : List Name} {name : Name} {inum start : Nat}

theorem Tree.resolve_used (h : Tree sb rd) (hused : sb.InUse rd start) (hlink : (sb.inode rd start).nlink ≠ 0)
    (hres : resolve rd sb.inodestart start names = some inum) :
    sb.InUse rd inum ∧ (sb.inode rd inum).nlink ≠ 0 := by
  induction names generalizing start with
  | nil =>
    obtain rfl := some.inj hres
    exact ⟨hused, hlink⟩
  | cons name rest ih =>
    rw [resolve_cons] at hres
    by_cases htype : (sb.inode rd start).type = tDir
    · rw [if_pos htype] at hres
      obtain ⟨next, hnext, hrest⟩ := bind_eq_some_iff.1 hres
      obtain ⟨hused', hlink'⟩ := h.entry start hused htype name next hnext
      exact ih hused' hlink' hrest
    · rw [if_neg htype] at hres
      cases hres

theorem Leads.used (h : Leads sb rd names inum) (htree : Tree sb rd) :
    sb.InUse rd inum ∧ (sb.inode rd inum).nlink ≠ 0 :=
  htree.resolve_used htree.root htree.rootLink h.walk

theorem leads_nil (h : Leads sb rd [] inum) : inum = rootino := (some.inj h.walk).symm

theorem Leads.last (h : Leads sb rd (init ++ [name]) inum) :
    ∃ parent, Leads sb rd init parent ∧ Ordinary name ∧ lookup rd (sb.inode rd parent) name = some inum := by
  have hwalk := h.walk
  rw [resolve_append] at hwalk
  obtain ⟨parent, hinit, hlast⟩ := bind_eq_some_iff.1 hwalk
  rw [resolve_cons] at hlast
  by_cases htype : (sb.inode rd parent).type = tDir
  · rw [if_pos htype] at hlast
    obtain ⟨next, hnext, hend⟩ := bind_eq_some_iff.1 hlast
    obtain rfl := some.inj hend
    exact ⟨parent, ⟨fun x hx => h.ordinary x (mem_append_left _ hx), hinit, htype⟩,
      h.ordinary name (mem_append_right _ (mem_singleton_self name)), hnext⟩
  · rw [if_neg htype] at hlast
    cases hlast

/-- What a hierarchy says of a directory below the root. -/
theorem Leads.above (hh : Hierarchy sb rd) (h : Leads sb rd (init ++ [name]) inum) :
    ∃ parent, Leads sb rd init parent ∧ lookup rd (sb.inode rd parent) name = some inum ∧
      inum ≠ rootino ∧ lookup rd (sb.inode rd inum) dotdot = some parent ∧
      ∀ name', Ordinary name' → lookup rd (sb.inode rd parent) name' = some inum → name' = name := by
  obtain ⟨parent, hinit, hord, hlook⟩ := h.last
  exact ⟨parent, hinit, hlook, hh.above parent (hinit.used hh.toTree).1 hinit.dir name inum hord hlook h.dir⟩

theorem Leads.unique {names' : List Name} (hh : Hierarchy sb rd) (h : Leads sb rd names inum)
    (h' : Leads sb rd names' inum) : names = names' := by
  induction names using List.reverseRecOn generalizing names' inum with
  | nil =>
    rcases names'.eq_nil_or_concat' with rfl | ⟨init', name', rfl⟩
    · rfl
    · obtain ⟨-, -, -, hne, -⟩ := h'.above hh
      exact absurd (leads_nil h) hne
  | append_singleton init name ih =>
    obtain ⟨parent, hinit, hlook, hne, hup, hone⟩ := h.above hh
    rcases names'.eq_nil_or_concat' with rfl | ⟨init', name', rfl⟩
    · exact absurd (leads_nil h') hne
    obtain ⟨parent', hinit', hlook', -, hup', -⟩ := h'.above hh
    obtain rfl : parent = parent' := some.inj (hup.symm.trans hup')
    have hord : Ordinary name' :=
      h'.ordinary name' (mem_append_right _ (mem_singleton_self name'))
    rw [ih hinit hinit', hone name' hord hlook']

/-- A name found by a lookup is one of an entry, so a path can hold it. -/
theorem Hierarchy.lookup_name (hh : Hierarchy sb rd) (hused : sb.InUse rd start)
    (htype : (sb.inode rd start).type = tDir) (hl : lookup rd (sb.inode rd start) name = some inum) :
    name ≠ [] ∧ slash ∉ name ∧ name.length ≤ 62 ∧ 0 ∉ name := by
  have hne := lookup_ne_zero hl
  obtain ⟨de, hde, rfl⟩ := map_eq_some_iff.1 hl
  have hentry := List.find?_some hde
  obtain rfl : direntName de = name := by simpa using (Bool.and_eq_true_iff.1 hentry).2
  obtain ⟨h1, h2, -⟩ := hh.name start hused htype de (List.mem_of_find?_eq_some hde) hne
  exact ⟨h1, h2, length_direntName de, zero_notMem_direntName de⟩

/-- Names that lead somewhere can be written in a path. -/
theorem Leads.plain (hh : Hierarchy sb rd) (h : Leads sb rd names inum) :
    ∀ x ∈ names, x ≠ [] ∧ slash ∉ x ∧ x.length ≤ 62 ∧ 0 ∉ x := by
  induction names using List.reverseRecOn generalizing inum with
  | nil => exact fun x hx => absurd hx not_mem_nil
  | append_singleton init name ih =>
    obtain ⟨parent, hinit, -, hlook⟩ := h.last
    intro x hx
    rcases mem_append.1 hx with hmem | hlast
    · exact ih hinit x hmem
    · rw [mem_singleton.1 hlast]
      exact hh.lookup_name (hinit.used hh.toTree).1 hinit.dir hlook

end

/-! ## The path of a directory -/

/-- The path from the root over these names. -/
def rootPath (names : List Name) : List UInt8 :=
  if names = [] then [slash] else names.flatMap (slash :: ·)

section

variable {names : List Name} {name : Name}

theorem rootPath_head (names : List Name) : (rootPath names).head? = some slash := by
  cases names with
  | nil => rfl
  | cons name rest => rfl

theorem pathNames_name (hne : name ≠ []) (hslash : slash ∉ name) (hlen : name.length ≤ 62) :
    pathNames name = [name] := by
  have hnot : ∀ c ∈ name, c ≠ slash := fun c hc e => hslash (e ▸ hc)
  cases name with
  | nil => exact absurd rfl hne
  | cons c p =>
    have hdrop : (c :: p).dropWhile (· == slash) = c :: p := by
      rw [dropWhile_cons_of_neg]
      simpa using hnot c mem_cons_self
    have htake : (c :: p).takeWhile (· != slash) = c :: p :=
      takeWhile_eq_self_iff.2 fun x hx => by simpa using hnot x hx
    have hrest : (c :: p).dropWhile (· != slash) = [] :=
      dropWhile_eq_nil_iff.2 fun x hx => by simpa using hnot x hx
    rw [pathNames_some (skipelem_cons hdrop), htake, hrest, take_of_length_le hlen]
    rfl

theorem pathNames_rootPath (h : ∀ x ∈ names, x ≠ [] ∧ slash ∉ x ∧ x.length ≤ 62 ∧ 0 ∉ x) :
    pathNames (rootPath names) = names := by
  have hflat : pathNames (names.flatMap (slash :: ·)) = names := by
    induction names with
    | nil => rfl
    | cons name rest ih =>
      obtain ⟨hne, hslash, hlen, -⟩ := h name mem_cons_self
      have hrest := ih fun x hx => h x (mem_cons_of_mem name hx)
      rw [flatMap_cons, cons_append, pathNames_slash]
      cases rest with
      | nil => rw [flatMap_nil, append_nil, pathNames_name hne hslash hlen]
      | cons next rest =>
        rw [flatMap_cons, cons_append] at hrest ⊢
        rw [pathNames_slash] at hrest
        rw [pathNames_join, hrest, pathNames_name hne hslash hlen]
        rfl
  unfold rootPath
  split
  · rename_i hnil
    rw [hnil, pathNames_slash]
    rfl
  · exact hflat

theorem zero_notMem_rootPath (h : ∀ x ∈ names, (0 : UInt8) ∉ x) : 0 ∉ rootPath names := by
  have hslash : (0 : UInt8) ≠ slash := by decide
  unfold rootPath
  split
  · simpa using hslash
  intro hmem
  obtain ⟨x, hx, hzero⟩ := mem_flatMap.1 hmem
  rcases mem_cons.1 hzero with heq | hin
  · exact hslash heq
  · exact h x hx hin

end

end Slopix.Fs
