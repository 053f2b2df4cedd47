import Mathlib.Data.List.TakeWhile
import Slopix.Fs.Dir

/-!
# The names in a path

`skipelem` takes the names off a path one by one. The names of a path do not depend on leading,
repeated or trailing slashes, and the names of two paths joined by a slash are those of the first
followed by those of the second. `fs_namei` is `fs_nameiparent` and one `fs_dirlookup` more.
-/

namespace Slopix.Fs

open Lib List Function FileSys Exec Nat

/-- The names of a path, in the order `namex` walks along them. -/
def pathNames (path : List UInt8) : List Name := pathElems path.length path

/-! ## Taking a path apart -/

section

variable {path rest : List UInt8} {name : Name}

theorem head_ne_slash {c : UInt8} {p : List UInt8} (h : path.dropWhile (· == slash) = c :: p) :
    c ≠ slash := by
  have hhead := head?_dropWhile_not (· == slash) path
  rw [h] at hhead
  simpa using hhead

theorem skipelem_dropWhile (path : List UInt8) :
    skipelem (path.dropWhile (· == slash)) = skipelem path := by
  have hidem : (path.dropWhile (· == slash)).dropWhile (· == slash) = path.dropWhile (· == slash) := by
    cases hdrop : path.dropWhile (· == slash) with
    | nil => rfl
    | cons c p =>
      rw [dropWhile_cons_of_neg]
      simpa using head_ne_slash hdrop
  unfold skipelem
  rw [hidem]

theorem skipelem_cons {c : UInt8} {p : List UInt8} (h : path.dropWhile (· == slash) = c :: p) :
    skipelem path = some (((c :: p).takeWhile (· != slash)).take 62,
      ((c :: p).dropWhile (· != slash)).dropWhile (· == slash)) := by
  unfold skipelem
  rw [h]

theorem skipelem_nil (h : path.dropWhile (· == slash) = []) : skipelem path = none := by
  unfold skipelem
  rw [h]

theorem dropWhile_name {c : UInt8} {p : List UInt8} (h : c ≠ slash) :
    (c :: p).dropWhile (· != slash) = p.dropWhile (· != slash) := by
  simp [h]

/-- Each element takes at least one character off the path. -/
theorem skipelem_length (h : skipelem path = some (name, rest)) : rest.length < path.length := by
  cases hdrop : path.dropWhile (· == slash) with
  | nil => rw [skipelem_nil hdrop] at h; cases h
  | cons c p =>
    rw [skipelem_cons hdrop] at h
    obtain ⟨-, rfl⟩ := Prod.mk.inj (Option.some.inj h)
    have hpath : (c :: p).length ≤ path.length := hdrop ▸ length_dropWhile_le _ path
    have hrest : ((p.dropWhile (· != slash)).dropWhile (· == slash)).length ≤ p.length :=
      (length_dropWhile_le _ _).trans (length_dropWhile_le _ _)
    rw [dropWhile_name (head_ne_slash hdrop)]
    rw [length_cons] at hpath
    omega

theorem pathElems_fuel {fuel : Nat} (h : path.length ≤ fuel) :
    pathElems fuel path = pathNames path := by
  suffices hboth : ∀ n m, path.length ≤ n → path.length ≤ m → pathElems n path = pathElems m path from
    hboth _ _ h (le_refl _)
  intro n
  induction n generalizing path with
  | zero =>
    intro m hn _
    obtain rfl : path = [] := length_eq_zero_iff.1 (le_zero.1 hn)
    cases m with
    | zero => rfl
    | succ m => rfl
  | succ n ih =>
    intro m hn hm
    cases m with
    | zero =>
      obtain rfl : path = [] := length_eq_zero_iff.1 (le_zero.1 hm)
      rfl
    | succ m =>
      rw [pathElems, pathElems]
      cases hskip : skipelem path with
      | none => rfl
      | some r =>
        obtain ⟨name, rest⟩ := r
        have hlen := skipelem_length hskip
        exact congrArg (name :: ·) (ih (by omega) m (by omega) (by omega))

theorem pathNames_none (h : skipelem path = none) : pathNames path = [] := by
  rw [← pathElems_fuel (le_succ path.length), pathElems, h]

theorem pathNames_some (h : skipelem path = some (name, rest)) :
    pathNames path = name :: pathNames rest := by
  rw [← pathElems_fuel (le_succ path.length), pathElems, h]
  exact congrArg (name :: ·) (pathElems_fuel (le_of_lt (skipelem_length h)))

theorem pathNames_congr {path' : List UInt8} (h : skipelem path = skipelem path') :
    pathNames path = pathNames path' := by
  cases hskip : skipelem path' with
  | none => rw [pathNames_none hskip, pathNames_none (h.trans hskip)]
  | some r => rw [pathNames_some hskip, pathNames_some (h.trans hskip)]

theorem pathNames_dropWhile (path : List UInt8) :
    pathNames (path.dropWhile (· == slash)) = pathNames path :=
  pathNames_congr (skipelem_dropWhile path)

@[simp] theorem pathNames_slash (path : List UInt8) : pathNames (slash :: path) = pathNames path := by
  have hdrop : (slash :: path).dropWhile (· == slash) = path.dropWhile (· == slash) := by simp
  rw [← pathNames_dropWhile (slash :: path), hdrop, pathNames_dropWhile]

theorem pathNames_eq_nil : pathNames path = [] ↔ ∀ c ∈ path, c = slash := by
  have hall : (∀ c ∈ path, c = slash) ↔ path.dropWhile (· == slash) = [] := by
    simp [dropWhile_eq_nil_iff]
  rw [hall]
  constructor
  · intro h
    cases hdrop : path.dropWhile (· == slash) with
    | nil => rfl
    | cons c p =>
      rw [pathNames_some (skipelem_cons hdrop)] at h
      cases h
  · exact fun h => pathNames_none (skipelem_nil h)

/-- The names of two paths with a slash between them. -/
theorem pathNames_join (a b : List UInt8) :
    pathNames (a ++ slash :: b) = pathNames a ++ pathNames b := by
  induction hlen : a.length using Nat.strong_induction_on generalizing a with
  | h n ih =>
    cases hdrop : a.dropWhile (· == slash) with
    | nil =>
      -- the first path has no name
      have hall : ∀ c ∈ a, (c == slash) = true := dropWhile_eq_nil_iff.1 hdrop
      rw [pathNames_none (skipelem_nil hdrop), nil_append,
        ← pathNames_dropWhile (a ++ slash :: b), dropWhile_append_of_pos hall,
        pathNames_dropWhile, pathNames_slash]
    | cons c p =>
      have hjoin : (a ++ slash :: b).dropWhile (· == slash) = c :: (p ++ slash :: b) := by
        rw [dropWhile_append, hdrop]
        rfl
      have htake : (c :: (p ++ slash :: b)).takeWhile (· != slash) =
          (c :: p).takeWhile (· != slash) := by
        rw [← cons_append, takeWhile_append]
        split
        · rename_i hwhole
          rw [takeWhile_cons_of_neg (by simp), append_nil,
            takeWhile_eq_self_iff.2]
          exact takeWhile_eq_self_iff.1 (( takeWhile_prefix _).eq_of_length hwhole)
        · rfl
      have hskip : (c :: (p ++ slash :: b)).dropWhile (· != slash) =
          (c :: p).dropWhile (· != slash) ++ slash :: b := by
        rw [← cons_append, dropWhile_append]
        split
        · rename_i hempty
          rw [List.isEmpty_iff.1 hempty, dropWhile_cons_of_neg (by simp), nil_append]
        · rfl
      have hshort : ((c :: p).dropWhile (· != slash)).length < n := by
        have hle : (c :: p).length ≤ a.length := hdrop ▸ length_dropWhile_le _ a
        have hrest := length_dropWhile_le (· != slash) p
        rw [dropWhile_name (head_ne_slash hdrop)]
        rw [length_cons] at hle
        omega
      rw [pathNames_some (skipelem_cons hjoin), pathNames_some (skipelem_cons hdrop), htake, hskip,
        pathNames_dropWhile, pathNames_dropWhile, ih _ hshort _ rfl, cons_append]

theorem length_pathNames (path : List UInt8) : (pathNames path).length ≤ path.length := by
  induction hlen : path.length using Nat.strong_induction_on generalizing path with
  | h n ih =>
    cases hskip : skipelem path with
    | none =>
      rw [pathNames_none hskip]
      exact zero_le n
    | some r =>
      obtain ⟨name, rest⟩ := r
      have hshort := skipelem_length hskip
      have hrest := ih rest.length (hlen ▸ hshort) rest rfl
      rw [pathNames_some hskip, length_cons]
      omega

theorem length_pathNames_append (p q : List UInt8) :
    (pathNames p).length ≤ (pathNames (p ++ q)).length := by
  induction hlen : p.length using Nat.strong_induction_on generalizing p with
  | h n ih =>
    cases hdrop : p.dropWhile (· == slash) with
    | nil =>
      rw [pathNames_none (skipelem_nil hdrop)]
      exact zero_le _
    | cons c p' =>
      have happend : (p ++ q).dropWhile (· == slash) = c :: (p' ++ q) := by
        rw [dropWhile_append, hdrop]
        rfl
      rw [pathNames_some (skipelem_cons hdrop), pathNames_some (skipelem_cons happend),
        pathNames_dropWhile, pathNames_dropWhile, length_cons, length_cons,
        dropWhile_name (head_ne_slash hdrop), dropWhile_name (head_ne_slash hdrop), dropWhile_append]
      split
      · -- the last name of the shorter path
        rename_i hempty
        rw [List.isEmpty_iff.1 hempty]
        exact Nat.succ_le_succ (zero_le _)
      have hle : (c :: p').length ≤ p.length := hdrop ▸ length_dropWhile_le _ p
      have hrest := length_dropWhile_le (· != slash) p'
      rw [length_cons] at hle
      exact Nat.succ_le_succ (ih _ (by omega) _ rfl)

/-- A name has at most `DIRSIZ` bytes, all of them bytes of the path. -/
theorem mem_pathNames {name : Name} (h : name ∈ pathNames path) :
    name.length ≤ 62 ∧ ∀ c ∈ name, c ∈ path := by
  induction hlen : path.length using Nat.strong_induction_on generalizing path with
  | h n ih =>
    cases hdrop : path.dropWhile (· == slash) with
    | nil =>
      rw [pathNames_none (skipelem_nil hdrop)] at h
      exact absurd h not_mem_nil
    | cons c p =>
      have hskip := skipelem_cons hdrop
      have hsub : (c :: p) <:+ path := hdrop ▸ dropWhile_suffix _
      have hshort := skipelem_length hskip
      rw [pathNames_some hskip] at h
      rcases mem_cons.1 h with rfl | h
      · refine ⟨length_take_le 62 _, fun x hx => hsub.subset ?_⟩
        exact ( takeWhile_prefix _).subset (mem_of_mem_take hx)
      · obtain ⟨hname, hmem⟩ := ih _ (hlen ▸ hshort) h rfl
        refine ⟨hname, fun x hx => hsub.subset ?_⟩
        exact (dropWhile_suffix _).subset ((dropWhile_suffix _).subset (hmem x hx))

end

/-! ## The last name -/

/-- What a caller of `fs_nameiparent` does to look the last name up: `fs_ilock`, `fs_dirlookup` and
`fs_iunlockput`. -/
def lookupLast : Option (Nat × Name) → FsM (Option Nat)
  | none => pure none
  | some (dp, name) => do
      ilock dp
      let r ← Exec.step fun s => s.dirlookup dp name
      iunlockput dp
      pure r.1

section

variable {s s1 : FileSys} {i : Nat}

/-- The on-disk fields of a cached inode, as `fs_ilock` leaves them. -/
def FileSys.filled (s : FileSys) (i : Nat) : Dinode :=
  if (s.icache i).valid then (s.icache i).din else s.dinode (s.icache i).inum

theorem ilock_fills (h : ilock i s = .ok ((), s1)) (href : 1 ≤ (s.icache i).ref) :
    (s.icache i).locked = false ∧
      s1 = s.setInode i { s.icache i with locked := true, valid := true, din := s.filled i } := by
  unfold ilock at h
  rw [bind_ok (b := s.icache i) rfl, if_neg (by omega)] at h
  by_cases hlocked : (s.icache i).locked = true
  · rw [if_pos hlocked] at h
    cases h
  rw [if_neg hlocked] at h
  have hs : (s.setLocked i true).load i = s1 := congrArg Prod.snd (Except.ok.inj h)
  refine ⟨Bool.eq_false_iff.2 hlocked, ?_⟩
  rw [← hs]
  unfold load setLocked setInode filled
  simp only [update_self, update_idem]
  by_cases hv : (s.icache i).valid = true
  · rw [if_pos hv, if_pos hv, hv]
  · rw [if_neg hv, if_neg hv]
    rfl

/-- The state that `fs_ilock` leaves has the inode filled, so `fs_iunlock` and a second `fs_ilock`
lead back to it. -/
theorem ilock_again (h : ilock i s = .ok ((), s1)) : ilock i (s1.iunlock i) = .ok ((), s1) := by
  by_cases href : (s.icache i).ref < 1
  · -- nothing is referenced: neither call does anything
    unfold ilock at h
    rw [Exec.bind_ok (b := s.icache i) rfl, if_pos href] at h
    obtain rfl : s = s1 := congrArg Prod.snd (Except.ok.inj h)
    have hunlock : s.iunlock i = s := if_pos (Or.inr href)
    rw [hunlock]
    unfold ilock
    rw [Exec.bind_ok (b := s.icache i) rfl, if_pos href]
    rfl
  obtain ⟨-, hs⟩ := ilock_fills h (by omega)
  have hunlock : s1.iunlock i =
      s.setInode i { s.icache i with locked := false, valid := true, din := s.filled i } := by
    rw [hs]
    unfold FileSys.iunlock FileSys.setLocked FileSys.setInode
    simp only [update_self, update_idem]
    rw [if_neg (by simpa using href)]
  rw [hunlock, hs]
  unfold ilock
  rw [Exec.bind_ok (b := { s.icache i with locked := false, valid := true, din := s.filled i })
    (congrArg (fun ip => Except.ok (ip, _)) (update_self ..)), if_neg href,
    if_neg Bool.false_ne_true]
  refine congrArg (fun t => Except.ok ((), t)) ?_
  unfold load setLocked setInode
  simp only [update_self, update_idem, if_true]

/-- `namei` is the walk to the parent and a look-up of the last name. -/
theorem namexLoop_last {names : List Name} (hne : names ≠ []) (ip : Nat) (s : FileSys) :
    (namexLoop false ip names >>= fun r => pure (r.map Prod.fst)) s =
      (namexLoop true ip names >>= lookupLast) s := by
  induction names generalizing ip s with
  | nil => exact absurd rfl hne
  | cons name rest ih =>
    rw [namexLoop, namexLoop]
    cases hlock : ilock ip s with
    | error e =>
      rw [bind_error (bind_error hlock), bind_error (bind_error hlock)]
    | ok r =>
      obtain ⟨⟨⟩, s1⟩ := r
      rw [bind_bind, bind_bind, bind_ok hlock, bind_ok hlock, bind_bind,
        bind_bind, bind_ok (b := (s1.icache ip).din.type) rfl,
        bind_ok (b := (s1.icache ip).din.type) rfl]
      by_cases htype : (s1.icache ip).din.type ≠ tDir
      · rw [if_pos htype, if_pos htype, bind_bind, bind_bind]
        rfl
      rw [if_neg htype, if_neg htype, if_neg fun hmode => Bool.false_ne_true hmode.1]
      by_cases hrest : rest = []
      · -- the last name: `fs_namei` looks it up at once, `fs_nameiparent` leaves it to the caller
        have hparent : ((iunlock ip >>= fun _ => pure (some (ip, name))) >>= lookupLast) s1 =
            (iunlockput ip >>= fun _ => pure (s1.dirlookup ip name).1.1)
              (s1.dirlookup ip name).2 := by
          rw [bind_bind, bind_ok (b := ()) (t := s1.iunlock ip) rfl,
            bind_ok (b := some (ip, name)) (t := s1.iunlock ip) rfl, lookupLast,
            bind_ok (ilock_again hlock),
            bind_ok (b := (s1.dirlookup ip name).1) (t := (s1.dirlookup ip name).2) rfl]
        rw [if_pos ⟨rfl, hrest⟩, hrest, hparent, bind_bind,
          bind_ok (b := (s1.dirlookup ip name).1) (t := (s1.dirlookup ip name).2) rfl,
          bind_bind]
        refine congrArg (fun g => (iunlockput ip >>= g) _) (funext fun _ => ?_)
        cases (s1.dirlookup ip name).1.1 with
        | none => rfl
        | some next => rfl
      rw [if_neg fun hlast => hrest hlast.2, bind_bind, bind_bind,
        bind_ok (b := (s1.dirlookup ip name).1) (t := (s1.dirlookup ip name).2) rfl,
        bind_ok (b := (s1.dirlookup ip name).1) (t := (s1.dirlookup ip name).2) rfl,
        bind_bind, bind_bind]
      cases hput : iunlockput ip (s1.dirlookup ip name).2 with
      | error e => rw [bind_error hput, bind_error hput]
      | ok r =>
        obtain ⟨⟨⟩, s2⟩ := r
        rw [bind_ok hput, bind_ok hput]
        cases (s1.dirlookup ip name).1.1 with
        | none => rfl
        | some next => exact ih hrest next s2

theorem holds_any {α : Type} (r : Except Stop (α × FileSys)) :
    Holds r (fun _ _ => True) fun _ => True := ⟨fun _ _ _ => trivial, fun _ _ => trivial⟩

/-- What `fs_nameiparent` returns is a directory, and the name is the last one of the path. -/
theorem namexLoop_parent (names : List Name) (ip : Nat) (s : FileSys) :
    Holds (namexLoop true ip names s)
      (fun r s' => ∀ d name, r = some (d, name) →
        (s'.icache d).din.type = tDir ∧ names.getLast? = some name) fun _ => True := by
  induction names generalizing ip s with
  | nil => exact (holds_any _).bind fun _ _ _ => holds_pure fun _ _ e => by cases e
  | cons name rest ih =>
    refine (holds_any _).bind fun _ s1 _ => holds_gets_bind ?_
    refine holds_ite (fun _ => ?_) fun htype => holds_ite (fun hlast => ?_) fun hmore => ?_
    · exact (holds_any _).bind fun _ _ _ => holds_pure fun _ _ e => by cases e
    · apply holds_modify_bind
      apply holds_pure
      intro d last e
      cases e
      refine ⟨?_, by rw [hlast.2]; rfl⟩
      have hdin : ((s1.iunlock ip).icache ip).din = (s1.icache ip).din := by
        unfold FileSys.iunlock
        split
        · rfl
        · unfold setLocked setInode
          simp only [update_self]
      rw [hdin]
      exact not_not.1 htype
    apply holds_step_bind
    refine (holds_any _).bind fun _ s2 _ => ?_
    cases (s1.dirlookup ip name).1.1 with
    | none => exact holds_pure fun _ _ e => by cases e
    | some next =>
      refine (ih next s2).imp fun r s' hr d last e => ?_
      obtain ⟨htype, hname⟩ := hr d last e
      refine ⟨htype, ?_⟩
      rw [List.getLast?_cons, hname]
      rfl

/-- Where `namex` starts: at the root or in the working directory. -/
def walkStart (cwd : Option Nat) (path : List UInt8) : FsM (Option Nat) :=
  if path.head? = some slash then Exec.step fun s => s.iget 0 rootino
  else
    match cwd with
    | some i => do
        Exec.modify fun s => s.idup i
        pure (some i)
    | none => Exec.stop .fault

/-- The walk along some names. -/
def walkFrom (nameiparent : Bool) (names : List Name) : Option Nat → FsM (Option (Nat × Name))
  | none =>
    match names with
    | [] => if nameiparent then Exec.stop .fault else pure none
    | _ => Exec.stop .fault
  | some ip => namexLoop nameiparent ip names

theorem namex_walk (cwd : Option Nat) (path : List UInt8) (nameiparent : Bool) :
    namex cwd path nameiparent = walkStart cwd path >>= walkFrom nameiparent (pathNames path) := by
  funext s
  unfold namex walkStart
  by_cases habs : path.head? = some slash
  · rw [if_pos habs, if_pos habs]
    cases hstart : (s.iget 0 rootino).1 with
    | none =>
      rfl
    | some ip =>
      rfl
  rw [if_neg habs, if_neg habs]
  cases cwd with
  | none => rfl
  | some i => rfl

/-- Two paths that start at the same place and have the same names. -/
def SamePath (p q : List UInt8) : Prop :=
  (p.head? = some slash ↔ q.head? = some slash) ∧ pathNames p = pathNames q

theorem namex_congr {p q : List UInt8} (h : SamePath p q) (cwd : Option Nat) (nameiparent : Bool) :
    namex cwd p nameiparent = namex cwd q nameiparent := by
  have hstart : walkStart cwd p = walkStart cwd q := by
    unfold walkStart
    simp only [h.1]
  rw [namex_walk, namex_walk, hstart, h.2]

theorem namei_last {path : List UInt8} (hne : pathNames path ≠ []) (cwd : Option Nat) (s : FileSys) :
    namei cwd path s = (nameiparent cwd path >>= lookupLast) s := by
  have hwalk : ∀ start t, (walkFrom false (pathNames path) start >>= fun r => pure (r.map Prod.fst)) t =
      (walkFrom true (pathNames path) start >>= lookupLast) t := by
    intro start t
    cases start with
    | some ip => exact namexLoop_last hne ip t
    | none =>
      cases hnames : pathNames path with
      | nil => exact absurd hnames hne
      | cons name rest => rfl
  unfold namei nameiparent
  rw [namex_walk, namex_walk, bind_bind, bind_bind]
  exact congrArg (fun g => (walkStart cwd path >>= g) s) (funext fun start => funext (hwalk start))

theorem nameiparent_dir {cwd : Option Nat} {path : List UInt8} {s s' : FileSys} {d : Nat} {name : Name}
    (h : nameiparent cwd path s = .ok (some (d, name), s')) :
    (s'.icache d).din.type = tDir ∧ (pathNames path).getLast? = some name := by
  unfold nameiparent at h
  rw [namex_walk] at h
  have hwalk : Holds ((walkStart cwd path >>= walkFrom true (pathNames path)) s)
      (fun r s' => ∀ d name, r = some (d, name) →
        (s'.icache d).din.type = tDir ∧ (pathNames path).getLast? = some name) fun _ => True := by
    refine (holds_any _).bind fun start t _ => ?_
    cases start with
    | some ip => exact namexLoop_parent (pathNames path) ip t
    | none =>
      cases pathNames path with
      | nil => exact holds_error trivial
      | cons first rest => exact holds_error trivial
  exact hwalk.ok _ _ h d name rfl

/-- `fs_namei` finds an inode exactly when `fs_nameiparent` finds a directory and the directory has
the last name of the path. -/
theorem namei_iff {path : List UInt8} (hne : pathNames path ≠ []) (cwd : Option Nat) (s s' : FileSys)
    (i : Nat) :
    namei cwd path s = .ok (some i, s') ↔
      ∃ d name s1, nameiparent cwd path s = .ok (some (d, name), s1) ∧
        (s1.icache d).din.type = tDir ∧ lookupLast (some (d, name)) s1 = .ok (some i, s') := by
  rw [namei_last hne]
  constructor
  · intro h
    cases hparent : nameiparent cwd path s with
    | error e =>
      rw [bind_error hparent] at h
      cases h
    | ok r =>
      obtain ⟨_ | ⟨d, name⟩, s1⟩ := r
      · rw [bind_ok hparent] at h
        cases h
      · rw [bind_ok hparent] at h
        exact ⟨d, name, s1, rfl, (nameiparent_dir hparent).1, h⟩
  · rintro ⟨d, name, s1, hparent, -, hlook⟩
    rw [bind_ok hparent]
    exact hlook

end

end Slopix.Fs
