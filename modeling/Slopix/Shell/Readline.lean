import Mathlib.Data.List.Basic
import Mathlib.Data.List.TakeWhile

/-!
# The line editor

`readline` edits a line in a buffer of 128 bytes; the cursor, the history and the completion of a file name by Tab move text
about in it. A store outside of a buffer is the end of a run here. The editor it implements has a text before the cursor
and one behind it; the two agree as long as no completion makes the line too long.
-/

namespace Slopix.Shell

open List Option

/-! ## Buffers -/

/-- The `n` bytes at an offset of a buffer. -/
def slice (buf : List UInt8) (i n : Nat) : Option (List UInt8) :=
  if i + n ≤ buf.length then some ((buf.drop i).take n) else none

/-- Store bytes at an offset of a buffer. -/
def put (buf : List UInt8) (i : Nat) (bytes : List UInt8) : Option (List UInt8) :=
  if i + bytes.length ≤ buf.length then some (buf.take i ++ bytes ++ buf.drop (i + bytes.length)) else none

/-! ## History -/

/-- `sizeof(buf)` in `main`, and the size of an entry of the history. -/
def maxLine : Nat := 128

/-- `HISTORY_SIZE`. -/
def historySize : Nat := 16

/-- `history_add`: not twice in a row, and the oldest line goes when there is no room. -/
def historyAdd (history : List (List UInt8)) (line : List UInt8) : List (List UInt8) :=
  if history.getLast? = some line then history
  else (if historySize ≤ history.length then history.tail else history) ++ [line.take (maxLine - 1)]

/-- The history after some lines. -/
def historyOf (lines : List (List UInt8)) : List (List UInt8) := lines.foldl historyAdd []

/-! ## Completion -/

/-- What completion sees of the file system: the names that `readdir` gives for a path, and whether a path is that of a
directory. -/
structure Files where
  list : List UInt8 → Option (List (List UInt8))
  isDir : List UInt8 → Bool
  nonzero : ∀ path names, list path = some names → ∀ name ∈ names, 0 ∉ name

/-- `NAME_MAX`. -/
def nameMax : Nat := 255

/-- `MAX_COMPLETIONS`. -/
def maxCompletions : Nat := 64

/-- The names of `builtins`. -/
def builtins : List (List UInt8) :=
  [[0x63, 0x64], [0x70, 0x77, 0x64], [0x65, 0x78, 0x69, 0x74], [0x6a, 0x6f, 0x62, 0x73], [0x66, 0x67], [0x62, 0x67]]

/-- Another name for `matches`. -/
def addName (start : List UInt8) (found : List (List UInt8)) (name : List UInt8) : List (List UInt8) :=
  if start.isPrefixOf name ∧ found.length < maxCompletions ∧ name ∉ found then found ++ [name.take nameMax] else found

/-- The names that go on from `start`: for the first word of a line without a slash also builtins and programs. -/
def candidates (files : Files) (command : Bool) (dir start : List UInt8) : List (List UInt8) :=
  let found := if command then
      (((files.list [0x2f, 0x62, 0x69, 0x6e]).getD []).filter fun name => name.head? ≠ some 0x2e).foldl (addName start)
        (builtins.filter start.isPrefixOf)
    else []
  (((files.list dir).getD []).filter fun name => name ≠ [0x2e] ∧ name ≠ [0x2e, 0x2e]).foldl (addName start) found

/-- The bytes that two names start with. -/
def commonPrefix : List UInt8 → List UInt8 → List UInt8
  | a :: as, b :: bs => if a = b then a :: commonPrefix as bs else []
  | _, _ => []

/-! ## The code -/

/-- The keys of `read_key`. -/
inductive Key
  | fail
  | enter
  | backspace
  | left
  | right
  | ctrlC
  | ctrlD
  | up
  | down
  | tab (files : Files)
  | char (c : UInt8)

/-- The variables of `readline`, and `last_was_tab`. -/
structure State where
  buf : List UInt8
  len : Nat
  pos : Nat
  hidx : Int
  saved : List UInt8
  savedLen : Nat
  lastWasTab : Bool

/-- How `readline` goes on, or returns: with a line, with 0 and no line, or with -1. -/
inductive Result
  | more (s : State)
  | line (buf : List UInt8) (n : Nat)
  | nothing
  | eof

/-- `line_replace`: an entry of the history takes the place of the line. -/
def lineReplace (s : State) (entry : List UInt8) : Option State :=
  (put s.buf 0 entry).map fun buf => { s with buf := buf, len := entry.length, pos := entry.length }

/-- The end of `tab_complete`: `full` takes the place of the token. More than `full` holds is not read. -/
def replaceToken (s : State) (tokenStart : Nat) (full : List UInt8) (flen : Nat) : Option State :=
  if full.length < flen then none
  else (slice s.buf s.pos (s.len - s.pos)).bind fun tail =>
    (put s.buf (tokenStart + flen) tail).bind fun buf =>
      (put buf tokenStart (full.take flen)).map fun buf =>
        { s with buf := buf, len := tokenStart + flen + (s.len - s.pos), pos := tokenStart + flen }

/-- The part of a path behind its last slash. -/
def baseName (token : List UInt8) : List UInt8 := (token.reverse.takeWhile (· ≠ 0x2f)).reverse

/-- `tab_complete`: the word in front of the cursor. -/
def tabComplete (files : Files) (s : State) : Option State :=
  let tokenLen := ((s.buf.take s.pos).reverse.takeWhile (· ≠ 0x20)).length
  let tokenStart := s.pos - tokenLen
  if 128 ≤ tokenLen then none
  else (slice s.buf tokenStart tokenLen).bind fun token =>
    let dirLen := token.length - (baseName token).length
    let hasSlash := decide (0 < dirLen)
    let dir := if hasSlash then token.take dirLen else [0x2e]
    let start := (baseName token).take 127
    match candidates files (tokenStart == 0 && !hasSlash) dir start with
    | [] => some s
    | [name] =>
      let text := (if hasSlash then dir else []) ++ name
      let path := ((if hasSlash then dir else [0x2e, 0x2f]) ++ name).take 255
      if files.isDir path ∧ text.length < 255 then replaceToken s tokenStart (text.take 255 ++ [0x2f]) (text.length + 1)
      else replaceToken s tokenStart (text.take 255) text.length
    | name :: names =>
      let common := names.foldl commonPrefix name
      if start.length < common.length then
        let text := (if hasSlash then dir else []) ++ common
        (replaceToken s tokenStart (text.take 255) text.length).map fun s => { s with lastWasTab := false }
      else some { s with lastWasTab := true }

/-- The entry of the history that is shown. -/
def entryAt (history : List (List UInt8)) (hidx : Int) : List UInt8 := history.getD (history.length - 1 - hidx.toNat) []

/-- One key. -/
def step (history : List (List UInt8)) (s : State) : Key → Option Result
  | .fail => some .nothing
  | .enter => (put s.buf s.len [0]).map fun buf => .line buf s.len
  | .backspace =>
    if 0 < s.pos then
      (slice s.buf s.pos (s.len - s.pos)).bind fun tail => (put s.buf (s.pos - 1) tail).map fun buf =>
        .more { s with buf := buf, len := s.len - 1, pos := s.pos - 1 }
    else some (.more s)
  | .left => some (.more (if 0 < s.pos then { s with pos := s.pos - 1 } else s))
  | .right => some (.more (if s.pos < s.len then { s with pos := s.pos + 1 } else s))
  | .ctrlC => some .nothing
  | .ctrlD => some (if s.len = 0 then .eof else .more s)
  | .up =>
    if s.hidx + 1 < history.length then
      (if s.hidx = -1 then (slice s.buf 0 s.len).bind fun text => (put s.saved 0 text).map fun saved =>
          { s with saved := saved, savedLen := s.len }
        else some s).bind fun s =>
          (lineReplace { s with hidx := s.hidx + 1 } (entryAt history (s.hidx + 1))).map .more
    else some (.more s)
  | .down =>
    if 0 ≤ s.hidx then
      (if s.hidx - 1 = -1 then slice s.saved 0 s.savedLen else some (entryAt history (s.hidx - 1))).bind fun entry =>
        (lineReplace { s with hidx := s.hidx - 1 } entry).map .more
    else some (.more s)
  | .tab files => (tabComplete files s).map .more
  | .char c =>
    if 0x20 ≤ c then
      (slice s.buf s.pos (s.len - s.pos)).bind fun tail => (put s.buf (s.pos + 1) tail).bind fun buf =>
        (put buf s.pos [c]).map fun buf => .more { s with buf := buf, len := s.len + 1, pos := s.pos + 1, lastWasTab := false }
    else some (.more { s with lastWasTab := false })

/-- The loop of `readline` over some keys. -/
def readline (history : List (List UInt8)) : State → List Key → Option Result
  | s, [] => some (.more s)
  | s, k :: ks =>
    if s.len < maxLine - 1 then
      (step history s k).bind fun
        | .more s => readline history s ks
        | r => some r
    else (put s.buf s.len [0]).map fun buf => .line buf s.len

/-! ## The editor -/

/-- A text with a cursor in it, how far back in the history one is, and the line that one started from. -/
structure Edit where
  before : List UInt8
  after : List UInt8
  recalled : Nat
  saved : List UInt8

/-- What the user has got to: a line under way, a line, no line, or the end. -/
inductive Typed
  | more (e : Edit)
  | line (text : List UInt8)
  | nothing
  | eof

namespace Edit

variable (e : Edit)

/-- The line that the editor shows. -/
def text : List UInt8 := e.before ++ e.after

/-- The word before the cursor, as far as it has been typed. -/
def token : List UInt8 := (e.before.reverse.takeWhile (· ≠ 0x20)).reverse

/-- What stands before the word. -/
def front : List UInt8 := e.before.take (e.before.length - e.token.length)

end Edit

/-- What is put behind the word: the rest of the only name, or what all names share. -/
def completion (files : Files) (first : Bool) (token : List UInt8) : Option (List UInt8) :=
  let stem := token.take (token.length - (baseName token).length)
  let dir := if stem = [] then [0x2e] else stem
  match candidates files (first && stem == []) dir (baseName token) with
  | [] => none
  | [name] =>
    if files.isDir ((if stem = [] then [0x2e, 0x2f] else stem) ++ name) then some (stem ++ name ++ [0x2f])
    else some (stem ++ name)
  | name :: names =>
    let common := names.foldl commonPrefix name
    if (baseName token).length < common.length then some (stem ++ common) else none

/-- The text before the cursor after Tab. -/
def Edit.completed (e : Edit) (files : Files) : List UInt8 :=
  match completion files (e.front == []) e.token with
  | none => e.before
  | some word => e.front ++ word

/-- The line that is shown `n` steps back. -/
def recalledEntry (history : List (List UInt8)) (n : Nat) : List UInt8 := history.getD (history.length - n) []

/-- One key. -/
def Edit.step (history : List (List UInt8)) (e : Edit) : Key → Typed
  | .fail => .nothing
  | .enter => .line e.text
  | .backspace => .more { e with before := e.before.dropLast }
  | .left => .more { e with before := e.before.dropLast, after := e.before.getLast?.toList ++ e.after }
  | .right => .more { e with before := e.before ++ e.after.head?.toList, after := e.after.tail }
  | .ctrlC => .nothing
  | .ctrlD => if e.text = [] then .eof else .more e
  | .up =>
    if e.recalled < history.length then
      .more ⟨recalledEntry history (e.recalled + 1), [], e.recalled + 1, if e.recalled = 0 then e.text else e.saved⟩
    else .more e
  | .down =>
    match e.recalled with
    | 0 => .more e
    | 1 => .more ⟨e.saved, [], 0, e.saved⟩
    | n + 2 => .more ⟨recalledEntry history (n + 1), [], n + 1, e.saved⟩
  | .tab files => .more { e with before := e.completed files }
  | .char c => if 0x20 ≤ c then .more { e with before := e.before ++ [c] } else .more e

/-- Some keys; a line that is as long as it can be is finished. -/
def Edit.run (history : List (List UInt8)) : Edit → List Key → Typed
  | e, [] => .more e
  | e, k :: ks =>
    if e.text.length < maxLine - 1 then
      match e.step history k with
      | .more e => e.run history ks
      | r => r
    else .line e.text

/-- The completions on the way leave the line short enough. -/
def Edit.Fits (history : List (List UInt8)) : Edit → List Key → Prop
  | _, [] => True
  | e, k :: ks => e.text.length < maxLine - 1 →
      (∀ files, k = .tab files → (e.completed files ++ e.after).length ≤ maxLine - 1) ∧
        ∀ e', e.step history k = .more e' → e'.Fits history ks

/-! ## Agreement -/

/-- The buffers hold the text of the editor. -/
structure Shows (history : List (List UInt8)) (s : State) (e : Edit) : Prop where
  size : s.buf.length = maxLine
  text : s.buf.take s.len = e.text
  len : s.len = e.text.length
  pos : s.pos = e.before.length
  le : s.pos ≤ s.len
  room : s.len ≤ maxLine - 1
  savedSize : s.saved.length = maxLine
  saved : s.saved.take s.savedLen = e.saved
  savedLen : s.savedLen = e.saved.length
  savedRoom : e.saved.length ≤ maxLine - 1
  hidx : s.hidx = e.recalled - 1
  recalled : e.recalled ≤ history.length
  nonzero : 0 ∉ e.text
  savedNonzero : 0 ∉ e.saved

/-- What `readline` has done is what the user has typed; a line that is returned is a string. -/
def Agrees (history : List (List UInt8)) : Result → Typed → Prop
  | .more s, .more e => Shows history s e
  | .line buf n, .line text => buf.length = maxLine ∧ buf.take (n + 1) = text ++ [0] ∧ n = text.length ∧ 0 ∉ text
  | .nothing, .nothing => True
  | .eof, .eof => True
  | _, _ => False

section

variable {buf bytes head mid tail : List UInt8} {i n : Nat}

theorem slice_eq (h : i + n ≤ buf.length) : slice buf i n = some ((buf.drop i).take n) := if_pos h

theorem put_eq (h : i + bytes.length ≤ buf.length) : ∃ buf', put buf i bytes = some buf' ∧ buf'.length = buf.length ∧
    buf'.take (i + bytes.length) = buf.take i ++ bytes ∧ ∀ k, i + bytes.length ≤ k → buf'.drop k = buf.drop k := by
  have hi : (buf.take i).length = i := length_take_of_le (by omega)
  have hlength : (buf.take i ++ bytes).length = i + bytes.length := by rw [length_append, hi]
  refine ⟨_, if_pos h, ?_, ?_, fun k hk => ?_⟩
  · rw [length_append, hlength, length_drop]
    omega
  · exact take_left' hlength
  · obtain ⟨d, rfl⟩ := Nat.exists_eq_add_of_le hk
    rw [← drop_drop, drop_left' hlength, drop_drop]

/-- A tail that is moved and a middle part that is stored before it. -/
theorem put_splice (hhead : buf.take head.length = head) (hfit : head.length + mid.length + tail.length ≤ buf.length) :
    ∃ buf1 buf2, put buf (head.length + mid.length) tail = some buf1 ∧ put buf1 head.length mid = some buf2 ∧
      buf2.length = buf.length ∧ buf2.take (head.length + mid.length + tail.length) = head ++ mid ++ tail := by
  obtain ⟨buf1, hput1, hlength1, htake1, -⟩ := put_eq hfit
  obtain ⟨buf2, hput2, hlength2, htake2, hdrop2⟩ := put_eq (show head.length + mid.length ≤ buf1.length by omega)
  refine ⟨buf1, buf2, hput1, hput2, hlength2.trans hlength1, ?_⟩
  have hfront : buf1.take head.length = head := by
    have htake := congrArg (take head.length) htake1
    rw [take_take, Nat.min_eq_left (by omega), take_append_of_le_length
      (by rw [length_take_of_le (by omega)]; omega), take_take, Nat.min_eq_left (by omega), hhead] at htake
    exact htake
  have htail : (buf1.drop (head.length + mid.length)).take tail.length = tail := by
    have hdrop := congrArg (drop (head.length + mid.length)) htake1
    rw [drop_take, Nat.add_sub_cancel_left, drop_left' (length_take_of_le (by omega))] at hdrop
    exact hdrop
  have hsplit : buf2 = buf2.take (head.length + mid.length) ++ buf2.drop (head.length + mid.length) :=
    (take_append_drop ..).symm
  rw [hdrop2 _ (le_refl _), htake2, hfront] at hsplit
  rw [hsplit, take_append, take_of_length_le (by rw [length_append]; omega), length_append,
    Nat.add_sub_cancel_left, htail]

end

/-! ## History -/

section

variable {lines : List (List UInt8)}

theorem historyOf_entries (hlines : ∀ line ∈ lines, 0 ∉ line) : ∀ entry ∈ historyOf lines, entry.length ≤ maxLine - 1 ∧ 0 ∉ entry := by
  have hadd : ∀ history line, (∀ entry ∈ history, entry.length ≤ maxLine - 1 ∧ 0 ∉ entry) → 0 ∉ line →
      ∀ entry ∈ historyAdd history line, entry.length ≤ maxLine - 1 ∧ 0 ∉ entry := by
    intro history line hhistory hline entry hentry
    unfold historyAdd at hentry
    split at hentry
    · exact hhistory entry hentry
    rcases mem_append.1 hentry with hold | hnew
    · apply hhistory
      split at hold
      · exact mem_of_mem_tail hold
      · exact hold
    · obtain rfl := mem_singleton.1 hnew
      exact ⟨length_take_le .., fun h => hline (mem_of_mem_take h)⟩
  have hfold : ∀ history, (∀ entry ∈ history, entry.length ≤ maxLine - 1 ∧ 0 ∉ entry) →
      ∀ entry ∈ lines.foldl historyAdd history, entry.length ≤ maxLine - 1 ∧ 0 ∉ entry := by
    induction lines with
    | nil => exact fun history h => h
    | cons line lines ih =>
      intro history hhistory
      exact ih (fun l hl => hlines l (mem_cons_of_mem line hl)) _
        (hadd history line hhistory (hlines line (mem_cons_self ..)))
  exact hfold [] nofun

end

/-! ## One key -/

section

variable {history : List (List UInt8)} {s : State} {e : Edit} {head mid entry : List UInt8}

theorem put_nil {buf : List UInt8} {i : Nat} (h : i ≤ buf.length) : put buf i [] = some buf := by
  have hsame : buf.take i ++ [] ++ buf.drop i = buf := by rw [append_nil, take_append_drop]
  exact (if_pos h).trans (congrArg some hsame)

theorem Edit.front_append_token (e : Edit) : e.front ++ e.token = e.before := by
  have hsplit : (e.before.reverse.dropWhile (· ≠ 0x20)).reverse ++ e.token = e.before := by
    rw [Edit.token, ← reverse_append, takeWhile_append_dropWhile, reverse_reverse]
  have hfront : e.front = (e.before.reverse.dropWhile (· ≠ 0x20)).reverse := by
    have hlength := congrArg length hsplit
    rw [length_append] at hlength
    have htake : (((e.before.reverse.dropWhile (· ≠ 0x20)).reverse) ++ e.token).take (e.before.length - e.token.length) =
        (e.before.reverse.dropWhile (· ≠ 0x20)).reverse := take_left' (by omega)
    rwa [hsplit] at htake
  rw [hfront, hsplit]

theorem length_baseName_le (token : List UInt8) : (baseName token).length ≤ token.length := by
  rw [baseName, length_reverse, ← @length_reverse _ token]
  exact ( takeWhile_prefix _).length_le

theorem candidates_nonzero (files : Files) (command : Bool) (dir start : List UInt8) :
    ∀ name ∈ candidates files command dir start, 0 ∉ name := by
  have hfold : ∀ names found : List (List UInt8), (∀ name ∈ names, 0 ∉ name) → (∀ name ∈ found, 0 ∉ name) →
      ∀ name ∈ names.foldl (addName start) found, 0 ∉ name := by
    intro names
    induction names with
    | nil => exact fun found _ hfound => hfound
    | cons n names ih =>
      intro found hnames hfound
      obtain ⟨hn, hnames⟩ := forall_mem_cons.1 hnames
      apply ih _ hnames
      unfold addName
      split
      · intro name hname
        rcases mem_append.1 hname with hname | hname
        · exact hfound name hname
        · obtain rfl := mem_singleton.1 hname
          exact fun hmem => hn (mem_of_mem_take hmem)
      · exact hfound
  have hlist : ∀ path (p : List UInt8 → Bool), ∀ name ∈ ((files.list path).getD []).filter p, 0 ∉ name := by
    intro path p name hname
    have hmem := mem_of_mem_filter hname
    cases hnames : files.list path with
    | none =>
      rw [hnames] at hmem
      cases hmem
    | some names =>
      rw [hnames] at hmem
      exact files.nonzero path names hnames name hmem
  apply hfold _ _ (hlist dir _)
  split
  · apply hfold _ _ (hlist _ _)
    intro name hname
    have hbuiltin : ∀ name ∈ builtins, 0 ∉ name := by decide
    exact hbuiltin name (mem_of_mem_filter hname)
  · exact nofun

theorem nonzero_commonPrefix (names : List (List UInt8)) {name : List UInt8} (h : 0 ∉ name) : 0 ∉ names.foldl commonPrefix name := by
  have hsub : ∀ a b : List UInt8, commonPrefix a b ⊆ a := by
    intro a
    induction a with
    | nil => exact fun b => List.Subset.refl []
    | cons c a ih =>
      intro b
      cases b with
      | nil => exact nil_subset _
      | cons d b =>
        unfold commonPrefix
        split
        · exact cons_subset_cons c (ih b)
        · exact nil_subset _
  induction names generalizing name with
  | nil => exact h
  | cons n names ih => exact ih fun hmem => h (hsub name n hmem)

theorem recall_mem {n : Nat} (hpos : 0 < n) (hle : n ≤ history.length) : recalledEntry history n ∈ history := by
  unfold recalledEntry
  have hlt : history.length - n < history.length := by omega
  rw [getD_eq_getElem?_getD, getElem?_eq_getElem hlt, getD_some]
  exact getElem_mem hlt

namespace Shows

variable (h : Shows history s e)
include h

theorem len_eq : s.len = e.before.length + e.after.length := h.len.trans (length_append ..)

theorem len_le : s.len ≤ s.buf.length := h.size ▸ h.room.trans (Nat.sub_le _ _)

/-- The bytes in front of the cursor. -/
theorem front : s.buf.take s.pos = e.before := by
  have htake := congrArg (take s.pos) h.text
  rw [take_take, min_eq_left h.le, h.pos] at htake
  rw [h.pos, htake]
  exact take_left ..

theorem tail : slice s.buf s.pos (s.len - s.pos) = some e.after := by
  have hle := h.le
  have hlen := h.len_le
  rw [slice_eq (by omega), ← drop_take, h.text, h.pos]
  exact congrArg some (drop_left ..)

/-- Bytes are put in at the cursor, and the rest moves. -/
theorem splice (hhead : s.buf.take head.length = head) (hroom : (head ++ mid ++ e.after).length ≤ maxLine - 1)
    (hnonzero : 0 ∉ head ++ mid) : ∃ buf1 buf2, put s.buf (head.length + mid.length) e.after = some buf1 ∧
      put buf1 head.length mid = some buf2 ∧
        Shows history { s with buf := buf2, len := head.length + mid.length + e.after.length, pos := head.length + mid.length }
          { e with before := head ++ mid } := by
  rw [length_append, length_append] at hroom
  have hfit : head.length + mid.length + e.after.length ≤ s.buf.length := by
    rw [h.size]
    exact hroom.trans (Nat.sub_le _ _)
  -- the tail moves first, and the middle goes before it
  obtain ⟨buf1, buf2, hput1, hput2, hlength, htake⟩ := put_splice hhead hfit
  refine ⟨buf1, buf2, hput1, hput2, ?_⟩
  exact {
    size := hlength.trans h.size
    text := htake
    len := by simp [Edit.text, Nat.add_assoc]
    pos := (length_append ..).symm
    le := Nat.le_add_right _ _
    room := hroom
    savedSize := h.savedSize
    saved := h.saved
    savedLen := h.savedLen
    savedRoom := h.savedRoom
    hidx := h.hidx
    recalled := h.recalled
    nonzero := by
      intro hmem
      rcases mem_append.1 hmem with hmem | hmem
      · exact hnonzero hmem
      · exact h.nonzero (mem_append_right _ hmem)
    savedNonzero := h.savedNonzero }

/-- The line is replaced, with the cursor at its end. -/
theorem replace (hroom : entry.length ≤ maxLine - 1) (hnonzero : 0 ∉ entry) :
    ∃ s', lineReplace s entry = some s' ∧ Shows history s' { e with before := entry, after := [] } ∧
      s' = { s with buf := s'.buf, len := entry.length, pos := entry.length } := by
  have hfit : 0 + entry.length ≤ s.buf.length := by
    rw [h.size, Nat.zero_add]
    exact hroom.trans (Nat.sub_le _ _)
  obtain ⟨buf, hput, hlength, htake, -⟩ := put_eq hfit
  refine ⟨{ s with buf := buf, len := entry.length, pos := entry.length }, ?_, ?_, rfl⟩
  · unfold lineReplace
    rw [hput]
    rfl
  rw [Nat.zero_add] at htake
  exact {
    size := hlength.trans h.size
    text := htake.trans (append_nil _).symm
    len := by simp [Edit.text]
    pos := rfl
    le := Nat.le_refl _
    room := hroom
    savedSize := h.savedSize
    saved := h.saved
    savedLen := h.savedLen
    savedRoom := h.savedRoom
    hidx := h.hidx
    recalled := h.recalled
    nonzero := by simpa [Edit.text] using hnonzero
    savedNonzero := h.savedNonzero }

theorem enter : ∃ buf, put s.buf s.len [0] = some buf ∧ Agrees history (.line buf s.len) (.line e.text) := by
  have hfit : s.len + [(0 : UInt8)].length ≤ s.buf.length := by
    rw [h.size]
    exact Nat.succ_le_of_lt (lt_of_le_of_lt h.room (by decide))
  obtain ⟨buf, hput, hlength, htake, -⟩ := put_eq hfit
  refine ⟨buf, hput, hlength.trans h.size, ?_, h.len, h.nonzero⟩
  rw [← h.text]
  exact htake

/-- Backspace. -/
theorem backspace : ∃ r, step history s .backspace = some r ∧ Agrees history r (e.step history .backspace) := by
  by_cases hnil : e.before = []
  · refine ⟨.more s, ?_, ?_⟩
    · refine if_neg ?_
      rw [h.pos, hnil]
      decide
    have hsame : { e with before := e.before.dropLast } = e := by
      rw [hnil, dropLast_nil, ← hnil]
    show Shows history s { e with before := e.before.dropLast }
    rwa [hsame]
  have hpos : s.pos = e.before.dropLast.length + 1 := by
    rw [h.pos, length_dropLast, Nat.sub_add_cancel (length_pos_of_ne_nil hnil)]
  have hhead : s.buf.take e.before.dropLast.length = e.before.dropLast := by
    have htake := congrArg (take e.before.dropLast.length) h.front
    rw [take_take, Nat.min_eq_left (by omega)] at htake
    rw [htake, length_dropLast, dropLast_eq_take]
  have hroom : (e.before.dropLast ++ [] ++ e.after).length ≤ maxLine - 1 := by
    have hlen := h.len_eq
    have hmax := h.room
    rw [h.pos] at hpos
    simp only [append_nil, length_append]
    omega
  -- a splice with nothing in the middle, whose second store does nothing
  obtain ⟨buf1, buf2, hput1, hput2, hshows⟩ := h.splice hhead hroom (by
    rw [append_nil]
    exact fun hmem => h.nonzero (mem_append_left _ ((dropLast_subset _) hmem)))
  obtain rfl : buf1 = buf2 := by
    have hlength : e.before.dropLast.length ≤ buf1.length := by
      by_contra hlong
      rw [put, if_neg (by rwa [length_nil, Nat.add_zero])] at hput2
      cases hput2
    exact some.inj ((put_nil hlength).symm.trans hput2)
  rw [append_nil, length_nil, Nat.add_zero] at hshows
  rw [length_nil, Nat.add_zero] at hput1
  have hback : e.before.dropLast.length = s.pos - 1 := by omega
  have hlen : e.before.dropLast.length + e.after.length = s.len - 1 := by
    have hall := h.len_eq
    rw [h.pos] at hpos
    omega
  rw [hlen, hback] at hshows
  rw [hback] at hput1
  refine ⟨.more { s with buf := buf1, len := s.len - 1, pos := s.pos - 1 }, ?_, hshows⟩
  show (if 0 < s.pos then _ else _) = _
  rw [if_pos (by omega), h.tail, bind_some, hput1]
  rfl

theorem move {e' : Edit} {n : Nat} (htext : e'.text = e.text) (hpos : n = e'.before.length) (hrecalled : e'.recalled = e.recalled)
    (hsaved : e'.saved = e.saved) : Shows history { s with pos := n } e' := by
  obtain ⟨before, after, recalled, saved⟩ := e'
  subst hpos hrecalled hsaved
  exact {
    h with
    text := h.text.trans htext.symm
    len := by rw [htext]; exact h.len
    pos := rfl
    le := by
      rw [h.len, ← htext]
      exact (length_append ..).symm ▸ Nat.le_add_right _ _
    nonzero := htext ▸ h.nonzero }

theorem left : ∃ r, step history s .left = some r ∧ Agrees history r (e.step history .left) := by
  refine ⟨_, rfl, ?_⟩
  by_cases hnil : e.before = []
  · rw [if_neg (by rw [h.pos, hnil]; decide)]
    refine h.move ?_ ?_ rfl rfl
    · simp [Edit.text, hnil]
    · simp [h.pos, hnil]
  rw [if_pos (by rw [h.pos]; exact length_pos_of_ne_nil hnil)]
  refine h.move ?_ ?_ rfl rfl
  · have hlast := dropLast_append_getLast hnil
    show e.before.dropLast ++ (e.before.getLast?.toList ++ e.after) = e.before ++ e.after
    rw [← append_assoc, getLast?_eq_some_getLast hnil]
    exact congrArg (· ++ e.after) hlast
  · rw [h.pos]
    exact (length_dropLast ..).symm

theorem right : ∃ r, step history s .right = some r ∧ Agrees history r (e.step history .right) := by
  refine ⟨_, rfl, ?_⟩
  cases hafter : e.after with
  | nil =>
    rw [if_neg (by rw [h.pos, h.len_eq, hafter]; simp)]
    refine h.move ?_ ?_ rfl rfl
    · simp [Edit.text, hafter]
    · simp [h.pos, hafter]
  | cons c after =>
    rw [if_pos (by rw [h.pos, h.len_eq, hafter]; simp)]
    refine h.move ?_ ?_ rfl rfl
    · simp [Edit.text, hafter]
    · simp [h.pos, hafter]

/-- A character. -/
theorem char (c : UInt8) (hlt : s.len < maxLine - 1) :
    ∃ r, step history s (.char c) = some r ∧ Agrees history r (e.step history (.char c)) := by
  by_cases hc : 0x20 ≤ c
  · have hnonzero : 0 ∉ e.before ++ [c] := by
      intro hmem
      rcases mem_append.1 hmem with hmem | hmem
      · exact h.nonzero (mem_append_left _ hmem)
      · obtain rfl := mem_singleton.1 hmem
        exact absurd hc (by decide)
    have hroom : (e.before ++ [c] ++ e.after).length ≤ maxLine - 1 := by
      have hlen := h.len_eq
      simp only [length_append, length_singleton]
      omega
    obtain ⟨buf1, buf2, hput1, hput2, hshows⟩ := h.splice (h.pos ▸ h.front) hroom hnonzero
    have hlen : e.before.length + [c].length + e.after.length = s.len + 1 := by
      have hall := h.len_eq
      rw [length_singleton]
      omega
    rw [hlen, ← h.pos] at hshows
    rw [← h.pos] at hput1 hput2
    have hmore : e.step history (.char c) = .more { e with before := e.before ++ [c] } := if_pos hc
    refine ⟨.more { s with buf := buf2, len := s.len + 1, pos := s.pos + 1, lastWasTab := false }, ?_, ?_⟩
    · have hput1 : put s.buf (s.pos + 1) e.after = some buf1 := hput1
      show (if 0x20 ≤ c then _ else _) = _
      rw [if_pos hc, h.tail, bind_some, hput1, bind_some, hput2]
      rfl
    · rw [hmore]
      exact { hshows with }
  refine ⟨.more { s with lastWasTab := false }, if_neg hc, ?_⟩
  have hsame : e.step history (.char c) = .more e := if_neg hc
  rw [hsame]
  exact { h with }

theorem recall_set {n : Nat} {hidx : Int} (hn : n ≤ history.length) (hhidx : hidx = n - 1) :
    Shows history { s with hidx := hidx } { e with recalled := n } :=
  { h with
    hidx := hhidx
    recalled := hn }

/-- The line is put aside. -/
theorem save : ∃ saved, ((slice s.buf 0 s.len).bind fun text => put s.saved 0 text) = some saved ∧
    Shows history { s with saved := saved, savedLen := s.len } { e with saved := e.text } := by
  have hlen := h.len_le
  have hroom := h.room
  have hfit : 0 + e.text.length ≤ s.saved.length := by
    rw [h.savedSize, Nat.zero_add, ← h.len]
    exact hroom.trans (Nat.sub_le _ _)
  obtain ⟨saved, hput, hlength, htake, -⟩ := put_eq hfit
  refine ⟨saved, ?_, ?_⟩
  · rw [slice_eq (by omega), drop_zero, h.text]
    exact hput
  rw [Nat.zero_add] at htake
  exact {
    h with
    savedSize := hlength.trans h.savedSize
    saved := by rw [h.len]; exact htake
    savedLen := h.len
    savedRoom := by rw [← h.len]; exact hroom
    savedNonzero := h.nonzero }

/-- Arrow up. -/
theorem up (hhistory : ∀ entry ∈ history, entry.length ≤ maxLine - 1 ∧ 0 ∉ entry) :
    ∃ r, step history s .up = some r ∧ Agrees history r (e.step history .up) := by
  have hidx := h.hidx
  by_cases hmore : e.recalled < history.length
  · obtain ⟨hroom, hnonzero⟩ := hhistory (recalledEntry history (e.recalled + 1)) (recall_mem (Nat.succ_pos _) hmore)
    -- `hidx` counts back from the newest entry, which is the last of the list
    have hentry : entryAt history (s.hidx + 1) = recalledEntry history (e.recalled + 1) := by
      have hback : history.length - 1 - (s.hidx + 1).toNat = history.length - (e.recalled + 1) := by omega
      unfold entryAt recalledEntry
      rw [hback]
    have hsaved : ∃ s', (if s.hidx = -1 then (slice s.buf 0 s.len).bind fun text => (put s.saved 0 text).map fun saved =>
          { s with saved := saved, savedLen := s.len }
        else some s) = some s' ∧ s'.hidx = s.hidx ∧
          Shows history s' { e with saved := if e.recalled = 0 then e.text else e.saved } := by
      by_cases hown : e.recalled = 0
      · obtain ⟨saved, hsave, hshows⟩ := h.save
        obtain ⟨text, htext, hput⟩ := bind_eq_some_iff.1 hsave
        refine ⟨{ s with saved := saved, savedLen := s.len }, ?_, rfl, ?_⟩
        · rw [if_pos (by omega), htext, bind_some, hput]
          rfl
        · rwa [if_pos hown]
      · refine ⟨s, if_neg (by omega), rfl, ?_⟩
        rwa [if_neg hown]
    obtain ⟨s', hs', hsame, hshows⟩ := hsaved
    obtain ⟨s'', hreplace, hshows', -⟩ :=
      (hshows.recall_set hmore (show s.hidx + 1 = ((e.recalled + 1 : Nat) : Int) - 1 by omega)).replace hroom hnonzero
    have hstep : e.step history .up = .more ⟨recalledEntry history (e.recalled + 1), [], e.recalled + 1,
        if e.recalled = 0 then e.text else e.saved⟩ := if_pos hmore
    refine ⟨.more s'', ?_, ?_⟩
    · show (if s.hidx + 1 < history.length then _ else _) = _
      rw [if_pos (by omega), hs', bind_some, hsame, hentry, hreplace]
      rfl
    · rw [hstep]
      exact hshows'
  have hstep : e.step history .up = .more e := if_neg hmore
  refine ⟨.more s, if_neg (by omega), ?_⟩
  rw [hstep]
  exact h

/-- Arrow down. -/
theorem down (hhistory : ∀ entry ∈ history, entry.length ≤ maxLine - 1 ∧ 0 ∉ entry) :
    ∃ r, step history s .down = some r ∧ Agrees history r (e.step history .down) := by
  have hidx := h.hidx
  have hle := h.recalled
  -- a newer entry, or the saved text, takes the place of the line
  have hgo : ∀ n entry, e.recalled = n + 1 → entry.length ≤ maxLine - 1 → 0 ∉ entry →
      (if s.hidx - 1 = -1 then slice s.saved 0 s.savedLen else some (entryAt history (s.hidx - 1))) = some entry →
        ∃ s', step history s .down = some (.more s') ∧ Shows history s' ⟨entry, [], n, e.saved⟩ := by
    intro n entry hn hroom hnonzero hentry
    obtain ⟨s', hreplace, hshows, -⟩ :=
      (h.recall_set (n := n) (by omega) (show s.hidx - 1 = (n : Int) - 1 by omega)).replace hroom hnonzero
    refine ⟨s', ?_, hshows⟩
    show (if 0 ≤ s.hidx then _ else _) = _
    rw [if_pos (by omega), hentry, bind_some, hreplace]
    rfl
  cases hrecalled : e.recalled with
  | zero =>
    have hstep : e.step history .down = .more e := by
      unfold Edit.step
      rw [hrecalled]
    refine ⟨.more s, if_neg (by omega), ?_⟩
    rw [hstep]
    exact h
  | succ n =>
    cases n with
    | zero =>
      have hstep : e.step history .down = .more ⟨e.saved, [], 0, e.saved⟩ := by
        unfold Edit.step
        rw [hrecalled]
      obtain ⟨s', hs', hshows⟩ := hgo 0 e.saved hrecalled h.savedRoom h.savedNonzero (by
        have hlen := h.savedLen
        have hroom := h.savedRoom
        have hsize := h.savedSize
        rw [if_pos (by omega), slice_eq (by omega), drop_zero, h.saved])
      refine ⟨.more s', hs', ?_⟩
      rw [hstep]
      exact hshows
    | succ n =>
      have hstep : e.step history .down = .more ⟨recalledEntry history (n + 1), [], n + 1, e.saved⟩ := by
        unfold Edit.step
        rw [hrecalled]
      obtain ⟨hroom, hnonzero⟩ := hhistory (recalledEntry history (n + 1)) (recall_mem (Nat.succ_pos _) (by omega))
      obtain ⟨s', hs', hshows⟩ := hgo (n + 1) _ hrecalled hroom hnonzero (by
        have hback : history.length - 1 - (s.hidx - 1).toNat = history.length - (n + 1) := by omega
        rw [if_neg (by omega), entryAt, hback]
        rfl)
      refine ⟨.more s', hs', ?_⟩
      rw [hstep]
      exact hshows

/-- The end of `tab_complete`, for a word that leaves the line short enough. -/
theorem replaceToken {full word : List UInt8} (hfull : full = word) (hroom : (e.front ++ word ++ e.after).length ≤ maxLine - 1)
    (hnonzero : 0 ∉ word) : ∃ s', Shell.replaceToken s e.front.length full word.length = some s' ∧
      Shows history s' { e with before := e.front ++ word } := by
  subst hfull
  have hhead : s.buf.take e.front.length = e.front := by
    have htake := congrArg (take e.front.length) h.front
    rw [take_take, Nat.min_eq_left (by rw [h.pos, Edit.front]; exact length_take_le' ..)] at htake
    rw [htake]
    conv => lhs; rw [← e.front_append_token]
    exact take_left ..
  have hclean : 0 ∉ e.front ++ full := by
    intro hmem
    rcases mem_append.1 hmem with hmem | hmem
    · exact h.nonzero (mem_append_left _ (mem_of_mem_take hmem))
    · exact hnonzero hmem
  obtain ⟨buf1, buf2, hput1, hput2, hshows⟩ := h.splice hhead hroom hclean
  have htail : s.len - s.pos = e.after.length := by
    have hlen := h.len_eq
    have hpos := h.pos
    omega
  rw [← htail] at hshows
  refine ⟨_, ?_, hshows⟩
  unfold Shell.replaceToken
  rw [if_neg (lt_irrefl _), h.tail, bind_some, hput1, bind_some, take_of_length_le (le_refl _), hput2]
  rfl

/-- Tab. -/
theorem tab (files : Files) (hfits : (e.completed files ++ e.after).length ≤ maxLine - 1) :
    ∃ s', tabComplete files s = some s' ∧ Shows history s' { e with before := e.completed files } := by
  have hbefore := e.front_append_token
  have hlength : e.front.length + e.token.length = e.before.length := by rw [← length_append, hbefore]
  have hpos := h.pos
  have hle := h.le
  have hroom := h.room
  have hmax : maxLine = 128 := rfl
  have htoken : (e.before.reverse.takeWhile (· ≠ 0x20)).length = e.token.length := (length_reverse ..).symm
  have hstart : s.pos - e.token.length = e.front.length := by omega
  have hslice : slice s.buf e.front.length e.token.length = some e.token := by
    have hlen := h.len_le
    have hcount : e.token.length = s.pos - e.front.length := by omega
    rw [slice_eq (by omega), hcount, ← drop_take, h.front]
    conv => lhs; rw [← hbefore]
    exact congrArg some (drop_left ..)
  unfold tabComplete
  dsimp only
  rw [h.front, htoken, hstart, if_neg (by omega), hslice, bind_some]
  have hbase : (baseName e.token).take 127 = baseName e.token := by
    have hshort := length_baseName_le e.token
    exact take_of_length_le (by omega)
  have hstemNonzero : 0 ∉ e.token.take (e.token.length - (baseName e.token).length) := fun hmem =>
    h.nonzero (mem_append_left _ (hbefore ▸ mem_append_right _ (mem_of_mem_take hmem)))
  have hslash : decide (0 < e.token.length - (baseName e.token).length) =
      !(e.token.take (e.token.length - (baseName e.token).length) == []) := by
    rw [Bool.eq_iff_iff, decide_eq_true_iff, Bool.not_eq_true', beq_eq_false_iff_ne, ← length_pos_iff,
      length_take_of_le (Nat.sub_le _ _)]
  unfold Edit.completed completion at hfits ⊢
  dsimp only at hfits ⊢
  rw [hbase, hslash]
  generalize e.token.take (e.token.length - (baseName e.token).length) = stem at *
  have htext : (if (!(stem == [])) = true then if (!(stem == [])) = true then stem else [0x2e] else []) = stem := by
    cases stem <;> rfl
  have hdir : (if (!(stem == [])) = true then stem else [0x2e]) = if stem = [] then [0x2e] else stem := by
    cases stem <;> rfl
  have hpath : (if (!(stem == [])) = true then if (!(stem == [])) = true then stem else [0x2e] else [0x2e, 0x2f]) =
      if stem = [] then [0x2e, 0x2f] else stem := by
    cases stem <;> rfl
  have hfirst : (e.front.length == 0 && !!(stem == [])) = (e.front == [] && stem == []) := by
    rw [Bool.not_not]
    cases e.front <;> rfl
  rw [htext, hpath, hdir, hfirst]
  have hclean := candidates_nonzero files (e.front == [] && stem == []) (if stem = [] then [0x2e] else stem) (baseName e.token)
  generalize candidates files (e.front == [] && stem == []) (if stem = [] then [0x2e] else stem) (baseName e.token) = found at *
  -- no name, one, or several with a common start
  cases found with
  | nil => exact ⟨s, rfl, h⟩
  | cons name names =>
    have hname : 0 ∉ name := hclean name (mem_cons_self ..)
    cases names with
    | nil =>
      dsimp only at hfits ⊢
      have hshort : ((if stem = [] then [0x2e, 0x2f] else stem) ++ name).length ≤ stem.length + name.length + 2 := by
        rw [length_append]
        split
        · simp
          omega
        · omega
      by_cases hisdir : files.isDir ((if stem = [] then [0x2e, 0x2f] else stem) ++ name) = true
      · rw [if_pos hisdir] at hfits ⊢
        have hlen := hfits
        simp only [length_append, length_singleton] at hlen
        have hword : 0 ∉ stem ++ name ++ [0x2f] := by simp [hstemNonzero, hname]
        obtain ⟨s', hs', hshows⟩ := h.replaceToken rfl hfits hword
        refine ⟨s', ?_, hshows⟩
        have hcut : (stem ++ name).take 255 = stem ++ name := take_of_length_le (by rw [length_append]; omega)
        rw [take_of_length_le (i := 255) (hshort.trans (by omega)), if_pos ⟨hisdir, by rw [length_append]; omega⟩,
          hcut, ← hs', @length_append _ (stem ++ name), length_singleton]
      rw [if_neg hisdir] at hfits ⊢
      have hlen := hfits
      simp only [length_append] at hlen
      have hword : 0 ∉ stem ++ name := by simp [hstemNonzero, hname]
      obtain ⟨s', hs', hshows⟩ := h.replaceToken rfl hfits hword
      refine ⟨s', ?_, hshows⟩
      have hcut : (stem ++ name).take 255 = stem ++ name := take_of_length_le (by rw [length_append]; omega)
      rw [take_of_length_le (i := 255) (hshort.trans (by omega)), if_neg (fun hand => hisdir hand.1), hcut, ← hs']
    | cons name' names =>
      dsimp only at hfits ⊢
      have hcommon := nonzero_commonPrefix (name' :: names) hname
      generalize (name' :: names).foldl commonPrefix name = common at *
      split
      · rename_i hmore
        rw [if_pos hmore] at hfits
        have hlen := hfits
        simp only [length_append] at hlen
        have hword : 0 ∉ stem ++ common := by simp [hstemNonzero, hcommon]
        obtain ⟨s', hs', hshows⟩ := h.replaceToken rfl hfits hword
        have hcut : (stem ++ common).take 255 = stem ++ common := take_of_length_le (by rw [length_append]; omega)
        refine ⟨{ s' with lastWasTab := false }, ?_, { hshows with }⟩
        rw [hcut, hs']
        rfl
      · exact ⟨_, rfl, { h with }⟩

end Shows

/-- **One key** does to the buffers what it does to the text. -/
theorem step_agrees (h : Shows history s e) (hhistory : ∀ entry ∈ history, entry.length ≤ maxLine - 1 ∧ 0 ∉ entry)
    (hlt : s.len < maxLine - 1) (key : Key) (hfits : ∀ files, key = .tab files → (e.completed files ++ e.after).length ≤ maxLine - 1) :
    ∃ r, step history s key = some r ∧ Agrees history r (e.step history key) := by
  cases key with
  | fail => exact ⟨.nothing, rfl, trivial⟩
  | enter =>
    obtain ⟨buf, hput, hagrees⟩ := h.enter
    refine ⟨.line buf s.len, ?_, hagrees⟩
    show (put s.buf s.len [0]).map _ = _
    rw [hput]
    rfl
  | backspace => exact h.backspace
  | left => exact h.left
  | right => exact h.right
  | ctrlC => exact ⟨.nothing, rfl, trivial⟩
  | ctrlD =>
    by_cases hempty : e.text = []
    · have hstep : e.step history .ctrlD = .eof := if_pos hempty
      refine ⟨.eof, ?_, ?_⟩
      · show some (if s.len = 0 then _ else _) = _
        rw [if_pos (by rw [h.len, hempty]; rfl)]
      · rw [hstep]
        trivial
    have hstep : e.step history .ctrlD = .more e := if_neg hempty
    refine ⟨.more s, ?_, ?_⟩
    · show some (if s.len = 0 then _ else _) = _
      rw [if_neg (by rw [h.len]; exact fun hzero => hempty (length_eq_zero_iff.1 hzero))]
    · rw [hstep]
      exact h
  | up => exact h.up hhistory
  | down => exact h.down hhistory
  | tab files =>
    obtain ⟨s', hs', hshows⟩ := h.tab files (hfits files rfl)
    refine ⟨.more s', ?_, hshows⟩
    show (tabComplete files s).map _ = _
    rw [hs']
    rfl
  | char c => exact h.char c hlt

end

/-! ## Runs -/

section

variable {history lines : List (List UInt8)} {s : State} {e : Edit} {keys : List Key}

theorem readline_agrees (hhistory : ∀ entry ∈ history, entry.length ≤ maxLine - 1 ∧ 0 ∉ entry) (h : Shows history s e)
    (hfits : e.Fits history keys) : ∃ r, readline history s keys = some r ∧ Agrees history r (e.run history keys) := by
  induction keys generalizing s e with
  | nil => exact ⟨.more s, rfl, h⟩
  | cons key keys ih =>
    by_cases hlt : s.len < maxLine - 1
    · have hlt' : e.text.length < maxLine - 1 := h.len ▸ hlt
      obtain ⟨hkey, hrest⟩ := hfits hlt'
      obtain ⟨r, hstep, hagrees⟩ := step_agrees h hhistory hlt key hkey
      unfold readline Edit.run
      rw [if_pos hlt, if_pos hlt', hstep, bind_some]
      cases r with
      | more s' =>
        cases htyped : e.step history key with
        | more e' =>
          rw [htyped] at hagrees
          exact ih hagrees (hrest e' htyped)
        | _ => rw [htyped] at hagrees; exact hagrees.elim
      | _ =>
        cases htyped : e.step history key with
        | more e' => rw [htyped] at hagrees; exact hagrees.elim
        | _ => rw [htyped] at hagrees; exact ⟨_, rfl, hagrees⟩
    -- the buffer is full, and the line is returned
    obtain ⟨buf, hput, hagrees⟩ := h.enter
    unfold readline Edit.run
    rw [if_neg hlt, if_neg (h.len ▸ hlt), hput]
    exact ⟨_, rfl, hagrees⟩

/-- The variables at the start; what the arrays hold does not matter. -/
def State.start (buf saved : List UInt8) (lastWasTab : Bool) : State := ⟨buf, 0, 0, -1, saved, 0, lastWasTab⟩

/-- An empty line. -/
def Edit.start : Edit := ⟨[], [], 0, []⟩

theorem shows_start (history : List (List UInt8)) {buf saved : List UInt8} (hbuf : buf.length = maxLine)
    (hsaved : saved.length = maxLine) (lastWasTab : Bool) : Shows history (.start buf saved lastWasTab) .start where
  size := hbuf
  text := rfl
  len := rfl
  pos := rfl
  le := le_refl _
  room := Nat.zero_le _
  savedSize := hsaved
  saved := rfl
  savedLen := rfl
  savedRoom := Nat.zero_le _
  hidx := rfl
  recalled := Nat.zero_le _
  nonzero := nofun
  savedNonzero := nofun

/-- **The buffers are right all the time, and the line that is returned is the text**, for all keys, all earlier lines and all
directories, as long as no completion makes the line longer than the buffer. -/
theorem readline_right (hlines : ∀ line ∈ lines, 0 ∉ line) {buf saved : List UInt8} (hbuf : buf.length = maxLine)
    (hsaved : saved.length = maxLine) (lastWasTab : Bool) (hfits : Edit.start.Fits (historyOf lines) keys) :
    ∃ r, readline (historyOf lines) (.start buf saved lastWasTab) keys = some r ∧
      Agrees (historyOf lines) r (Edit.start.run (historyOf lines) keys) :=
  readline_agrees (historyOf_entries hlines) (shows_start _ hbuf hsaved lastWasTab) hfits

/-- A directory with one file whose name has `n` letters. -/
def oneFile (n : Nat) : Files where
  list path := if path = [0x2e] then some [List.replicate n 0x61] else none
  isDir _ := false
  nonzero path names h name hname := by
    split at h
    · obtain rfl := Option.some.inj h
      obtain rfl := mem_singleton.1 hname
      exact fun hmem => absurd (eq_of_mem_replicate hmem) (by decide)
    · cases h

/-- The letter `a`, completed to a name of five letters. -/
theorem readline_five : ∃ r, readline (historyOf []) (.start (.replicate 128 0) (.replicate 128 0) false)
    [.char 0x61, .tab (oneFile 5), .enter] = some r ∧
      Agrees (historyOf []) r (Edit.start.run (historyOf []) [.char 0x61, .tab (oneFile 5), .enter]) := by
  have hlines : ∀ line ∈ ([] : List (List UInt8)), 0 ∉ line := nofun
  refine readline_right hlines rfl rfl false fun _ => ⟨nofun, ?_⟩
  rintro e' ⟨⟩ -
  refine ⟨?_, ?_⟩
  · rintro files ⟨⟩
    decide
  · rintro e' ⟨⟩ -
    exact ⟨nofun, fun _ _ => trivial⟩

/-- A name of 62 letters completed behind 100 spaces is stored beyond the end of the buffer. -/
theorem readline_overflow : ¬ ∀ (lines : List (List UInt8)) (buf saved : List UInt8) (lastWasTab : Bool) (keys : List Key),
    (∀ line ∈ lines, 0 ∉ line) → buf.length = maxLine → saved.length = maxLine →
      ∃ r, readline (historyOf lines) (.start buf saved lastWasTab) keys = some r ∧
        Agrees (historyOf lines) r (Edit.start.run (historyOf lines) keys) := by
  intro hall
  obtain ⟨r, hr, -⟩ := hall [.replicate 100 0x20] (.replicate 128 0) (.replicate 128 0) false
    [.up, .char 0x61, .tab (oneFile 62)] (by decide) rfl rfl
  have hnone : (readline (historyOf [.replicate 100 0x20]) (.start (.replicate 128 0) (.replicate 128 0) false)
      [.up, .char 0x61, .tab (oneFile 62)]).isSome = false := by
    decide +kernel
  rw [hr] at hnone
  cases hnone

end

end Slopix.Shell
