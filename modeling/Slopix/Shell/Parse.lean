import Mathlib.Algebra.Order.Ring.Nat
import Slopix.Shell.Token

/-!
# The command parser

`parsecmd` builds a command over pointers into the line, `nulterminate` cuts the line at the ends of the strings, and
`runcmd` opens the files of the redirections from the outside in. The parser takes the commands of the grammar and, besides,
a redirection right before the ampersand that has no file name; the redirections of a command are opened from the last to
the first.
-/

namespace Slopix.Shell

open List Option Nat

/-! ## Parsing -/

/-- `MAXCMDS`. -/
def maxCmds : Nat := 4

/-- `MAXARGS`. -/
def maxArgs : Nat := 10

/-- A command; the number of an `execcmd` is its place in the pool. -/
inductive Cmd
  | exec (i : Nat)
  | redir (cmd : Cmd) (file : Span) (mode fd : Nat)
  | pipe (left right : Cmd)
  deriving Repr

/-- The flags of `open` for a redirection. -/
def modeOf (tok : UInt8) : Nat := if tok = 0x3c then 0x000 else if tok = 0x3e then 0x301 else 0x501

/-- The descriptor of a redirection. -/
def fdOf (tok : UInt8) : Nat := if tok = 0x3c then 0 else 1

/-- `parseredirs`, with `room` free entries in the pool. -/
def parseredirs (line : List UInt8) (room ps : Nat) (cmd : Cmd) : Option (Cmd × Nat × Nat) :=
  let seen := peek line [0x3c, 0x3e] ps
  if seen.1 then
    let op := gettoken line seen.2
    let file := gettoken line op.2.eq
    if file.1 ≠ 0x77 then none
    else match room with
      | 0 => none
      | room + 1 => parseredirs line room file.2.eq (.redir cmd file.2 (modeOf op.1) (fdOf op.1))
  else some (cmd, room, seen.2)

/-- The loop of `parseexec`, with `args` free entries in `argv`. -/
def parsewords (line : List UInt8) (args room ps : Nat) (cmd : Cmd) (argv : List Span) :
    Option (Cmd × List Span × Nat × Nat) :=
  let seen := peek line operators ps
  if seen.1 then some (cmd, argv, room, seen.2)
  else
    let word := gettoken line seen.2
    if word.1 = 0 then some (cmd, argv, room, word.2.eq)
    else if word.1 ≠ 0x77 then none
    else match args with
      | 0 => none
      | args + 1 => (parseredirs line room word.2.eq cmd).bind fun r =>
        parsewords line args r.2.1 r.2.2 r.1 (argv ++ [word.2])

/-- The pointer, the free entries of the pool of redirections, and the pool of commands. -/
structure Parser where
  ps : Nat
  room : Nat
  execs : List (List Span)

/-- `parseexec`: a command with its words and redirections. -/
def parseexec (line : List UInt8) (p : Parser) : Option (Cmd × Parser) :=
  if maxCmds ≤ p.execs.length then none
  else (parseredirs line p.room p.ps (.exec p.execs.length)).bind fun r =>
    (parsewords line (maxArgs - 1) r.2.1 r.2.2 r.1 []).map fun w => (w.1, ⟨w.2.2.2, w.2.2.1, p.execs ++ [w.2.1]⟩)

/-- The loop of `parsepipe`, with `pipes` free entries in the pool. -/
def parsebars (line : List UInt8) (pipes : Nat) (cmd : Cmd) (p : Parser) : Option (Cmd × Parser) :=
  let seen := peek line [0x7c] p.ps
  if seen.1 then
    (parseexec line { p with ps := (gettoken line seen.2).2.eq }).bind fun r =>
      match pipes with
      | 0 => none
      | pipes + 1 => parsebars line pipes (.pipe cmd r.1) r.2
  else some (cmd, { p with ps := seen.2 })

/-- `parsepipe`: commands with bars between them. -/
def parsepipe (line : List UInt8) (p : Parser) : Option (Cmd × Parser) :=
  (parseexec line p).bind fun r => parsebars line maxCmds r.1 r.2

/-- What `parsecmd` returns and sets. -/
structure Parsed where
  cmd : Cmd
  execs : List (List Span)
  background : Bool

/-- `parsecmd`: the whole line, with an `&` at its end for the background. -/
def parsecmd (line : List UInt8) : Option Parsed :=
  (parsepipe line ⟨0, maxCmds, []⟩).bind fun r =>
    let ps := skipWhile isspace line r.2.ps
    let background := (line)[ps]? == some 0x26
    let ps := skipWhile isspace line (if background then ps + 1 else ps)
    if ps < line.length then none else some ⟨r.1, r.2.execs, background⟩

/-- `nulterminate`: a zero behind each word. -/
def nulterminate (execs : List (List Span)) : Cmd → List UInt8 → List UInt8
  | .exec i, buf => (execs.getD i []).foldl (fun buf word => buf.set word.eq 0) buf
  | .redir cmd file _ _, buf => nulterminate execs cmd (buf.set file.eq 0)
  | .pipe left right, buf => nulterminate execs right (nulterminate execs left buf)

/-! ## Running -/

/-- The string that starts at `q`. -/
def stringAt (buf : List UInt8) (q : Nat) : List UInt8 := (buf.drop q).takeWhile (· ≠ 0)

/-- A file that is opened for a descriptor. -/
structure Redir where
  fd : Nat
  file : List UInt8
  mode : Nat
  deriving DecidableEq, Repr

/-- A program of a pipeline: the files that have been opened, in this order, and its arguments. -/
structure Stage where
  opens : List Redir
  argv : List (List UInt8)
  deriving DecidableEq, Repr

/-- `runcmd`, up to the programs it starts. -/
def runcmd (execs : List (List Span)) (buf : List UInt8) : Cmd → List Redir → List Stage
  | .exec i, opens => [⟨opens, (execs.getD i []).map fun word => stringAt buf word.q⟩]
  | .redir cmd file mode fd, opens => runcmd execs buf cmd (opens ++ [⟨fd, stringAt buf file.q, mode⟩])
  | .pipe left right, opens => runcmd execs buf left opens ++ runcmd execs buf right opens

/-- What becomes of a line: whether it runs in the background, and its programs. -/
def plan (line : List UInt8) : Option (Bool × List Stage) :=
  (parsecmd line).map fun p => (p.background, runcmd p.execs (nulterminate p.execs p.cmd (line ++ [0])) p.cmd [])

/-! ## The grammar -/

/-- A word or a redirection. -/
inductive Item
  | word (w : List UInt8)
  | redir (o : Op) (file : List UInt8)
  deriving DecidableEq, Repr

/-- The tokens of an item; without a file name there is only the operator. -/
def Item.tokens : Item → List Token
  | .word w => [.word w]
  | .redir o [] => [.op o]
  | .redir o file => [.op o, .word file]

/-- The words among the items. -/
def wordsOf : List Item → List (List UInt8)
  | [] => []
  | .word w :: is => w :: wordsOf is
  | .redir _ _ :: is => wordsOf is

/-- The redirections among the items, in their order. -/
def redirsOf : List Item → List Redir
  | [] => []
  | .word _ :: is => redirsOf is
  | .redir o file :: is => ⟨fdOf o.tok, file, modeOf o.tok⟩ :: redirsOf is

/-- The tokens of commands with bars between them. -/
def pipeTokens : List (List Item) → List Token
  | [] => []
  | [e] => e.flatMap Item.tokens
  | e :: es => e.flatMap Item.tokens ++ .bar :: pipeTokens es

/-- A line of the grammar: commands with bars between them, and perhaps an ampersand. -/
structure Line where
  execs : List (List Item)
  background : Bool

namespace Line

/-- The tokens of a line. -/
def tokens (l : Line) : List Token := pipeTokens l.execs ++ if l.background then [.amp] else []

/-- The fixed limits. -/
structure Within (l : Line) : Prop where
  execs : l.execs.length ≤ maxCmds
  redirs : (l.execs.map fun e => (redirsOf e).length).sum ≤ maxCmds
  words : ∀ e ∈ l.execs, (wordsOf e).length < maxArgs

/-- The text is this line of the grammar. -/
structure Spells (l : Line) (line : List UInt8) : Prop where
  execs : l.execs ≠ []
  files : ∀ e ∈ l.execs, ∀ o, .redir o [] ∉ e
  lexes : Lexes line l.tokens

/-- The text is this line with the last file name left out before the ampersand. -/
structure LacksFile (l : Line) (line : List UInt8) : Prop where
  background : l.background = true
  last : ∃ es e o, l.execs = es ++ [e ++ [.redir o []]] ∧ ∀ e' ∈ e :: es, ∀ o', .redir o' [] ∉ e'
  lexes : Lexes line l.tokens

/-- The programs of a line, with the redirections from left to right. -/
def stages (l : Line) : List Stage := l.execs.map fun e => ⟨redirsOf e, wordsOf e⟩

end Line

/-- The lines of the grammar within the limits are taken and do what they say, and no other lines are taken. -/
def LineRight (line : List UInt8) : Prop :=
  (∀ l : Line, l.Spells line → l.Within → plan line = some (l.background, l.stages)) ∧
    ((plan line).isSome = true → ∃ l : Line, l.Spells line ∧ l.Within)

/-! ## Cutting the line -/

/-- The strings of a command. -/
def spansOf (execs : List (List Span)) : Cmd → List Span
  | .exec i => execs.getD i []
  | .redir cmd file _ _ => file :: spansOf execs cmd
  | .pipe left right => spansOf execs left ++ spansOf execs right

/-- The line with some of the bytes that end words cut. -/
structure CutOf (line buf : List UInt8) : Prop where
  length : buf.length = line.length + 1
  byte : ∀ (p : Nat) (c : UInt8), buf[p]? = some c → (line)[p]? = some c ∨ c = 0 ∧ ∀ d, (line)[p]? = some d → wordChar d = false

section

variable {line buf w : List UInt8} {span : Span} {spans : List Span} {execs : List (List Span)}

theorem nulterminate_eq (execs : List (List Span)) (cmd : Cmd) (buf : List UInt8) :
    nulterminate execs cmd buf = (spansOf execs cmd).foldl (fun buf word => buf.set word.eq 0) buf := by
  induction cmd generalizing buf with
  | exec i => rfl
  | redir cmd file mode fd ih => exact ih _
  | pipe left right ihl ihr =>
    rw [nulterminate, ihl, ihr, spansOf, foldl_append]

theorem cutOf_line (line : List UInt8) : CutOf line (line ++ [0]) := by
  refine ⟨length_append .., fun p c hc => ?_⟩
  rcases lt_or_ge p line.length with hlt | hge
  · left
    rwa [getElem?_append_left hlt] at hc
  right
  have hnone : (line)[p]? = none := getElem?_eq_none hge
  rw [getElem?_append_right hge] at hc
  refine ⟨?_, fun d hd => by rw [hnone] at hd; cases hd⟩
  have hmem := mem_of_getElem? hc
  simpa using hmem

theorem CutOf.set (h : CutOf line buf) (hspan : IsWord line span w) : CutOf line (buf.set span.eq 0) := by
  refine ⟨by rw [length_set, h.length], fun p c hc => ?_⟩
  rcases eq_or_ne span.eq p with rfl | hne
  · right
    have hlt : span.eq < buf.length := by
      rw [h.length]
      exact lt_succ_of_le hspan.le
    rw [getElem?_set_self hlt] at hc
    exact ⟨(some.inj hc).symm, hspan.stop⟩
  · rw [getElem?_set_ne hne] at hc
    exact h.byte p c hc

/-- The zeros cut the line behind these words. -/
theorem CutOf.foldl (h : CutOf line buf) (hspans : ∀ span ∈ spans, ∃ w, IsWord line span w) :
    CutOf line (spans.foldl (fun buf word => buf.set word.eq 0) buf) ∧
      ∀ p, (buf[p]? = some 0 ∨ ∃ span ∈ spans, span.eq = p) →
        (spans.foldl (fun buf word => buf.set word.eq 0) buf)[p]? = some 0 := by
  induction spans generalizing buf with
  | nil =>
    refine ⟨h, fun p hp => ?_⟩
    rcases hp with hp | ⟨span, hspan, -⟩
    · exact hp
    · cases hspan
  | cons span spans ih =>
    obtain ⟨w, hw⟩ := hspans span (mem_cons_self ..)
    obtain ⟨hcut, hzero⟩ := ih (h.set hw) fun s hs => hspans s (mem_cons_of_mem span hs)
    refine ⟨hcut, fun p hp => hzero p ?_⟩
    have hlt : span.eq < buf.length := by
      rw [h.length]
      exact lt_succ_of_le hw.le
    rcases eq_or_ne span.eq p with rfl | hne
    · exact .inl (getElem?_set_self hlt)
    rw [getElem?_set_ne hne]
    rcases hp with hp | ⟨s, hs, rfl⟩
    · exact .inl hp
    · rcases mem_cons.1 hs with rfl | hs
      · exact absurd rfl hne
      · exact .inr ⟨s, hs, rfl⟩

/-- A word that is cut is a string. -/
theorem CutOf.stringAt (h : CutOf line buf) (hzero : 0 ∉ line) (hspan : IsWord line span w)
    (hend : buf[span.eq]? = some 0) : stringAt buf span.q = w := by
  have hbyte : ∀ i (hi : i < w.length), buf[span.q + i]? = some w[i] := by
    intro i hi
    have hline : (line)[span.q + i]? = some w[i] := by
      rw [← getElem?_drop, ← getElem?_take_of_lt hi, hspan.text, getElem?_eq_getElem hi]
    have hlt : span.q + i < buf.length := by
      have heq := hspan.eq
      have hle := hspan.le
      rw [h.length]
      omega
    rcases h.byte _ _ (getElem?_eq_getElem hlt) with hsame | ⟨-, hstop⟩
    · rw [getElem?_eq_getElem hlt, ← hsame, hline]
    · exact absurd (hspan.chars _ (getElem_mem hi)) (by simp [hstop _ hline])
  have htake : (buf.drop span.q).take w.length = w := by
    refine ext_getElem? fun i => ?_
    rcases lt_or_ge i w.length with hi | hi
    · rw [getElem?_take_of_lt hi, getElem?_drop, hbyte i hi, getElem?_eq_getElem hi]
    · rw [getElem?_eq_none hi, getElem?_eq_none ((length_take_le ..).trans hi)]
  have hdrop : ((buf.drop span.q).drop w.length).head? = some 0 := by
    rw [drop_drop, head?_drop, ← hspan.eq]
    exact hend
  have hnonzero : ∀ c ∈ w, (decide (c ≠ 0)) = true := by
    intro c hc
    rw [decide_eq_true_eq]
    rintro rfl
    rw [← hspan.text] at hc
    exact hzero (mem_of_mem_drop (mem_of_mem_take hc))
  obtain ⟨rest, hrest⟩ := head?_eq_some_iff.1 hdrop
  unfold Shell.stringAt
  rw [← take_append_drop w.length (buf.drop span.q), htake, hrest, takeWhile_append_of_pos hnonzero]
  simp

/-- After `nulterminate` the words of a command are the strings at their places. -/
theorem stringAt_nulterminate {cmd : Cmd} (hzero : 0 ∉ line)
    (hspans : ∀ span ∈ spansOf execs cmd, ∃ w, IsWord line span w) (hmem : span ∈ spansOf execs cmd)
    (hspan : IsWord line span w) : stringAt (nulterminate execs cmd (line ++ [0])) span.q = w := by
  rw [nulterminate_eq]
  obtain ⟨hcut, hend⟩ := (cutOf_line line).foldl hspans
  exact hcut.stringAt hzero hspan (hend _ (.inr ⟨span, hmem, rfl⟩))

end

/-! ## What a command does -/

/-- The second command is the first with redirections around it, the first one innermost. -/
inductive Wraps (line : List UInt8) : Cmd → List Redir → Cmd → Prop
  | nil {cmd : Cmd} : Wraps line cmd [] cmd
  | cons {cmd cmd' : Cmd} {span : Span} {file : List UInt8} {mode fd : Nat} {rs : List Redir}
      (hfile : IsWord line span file) (h : Wraps line (.redir cmd span mode fd) rs cmd') :
      Wraps line cmd (⟨fd, file, mode⟩ :: rs) cmd'

/-- The command stands for the stages, over the pool. -/
inductive Builds (line : List UInt8) (execs : List (List Span)) : Cmd → List Stage → Prop
  | exec {i : Nat} {cmd : Cmd} {rs : List Redir} {argv : List Span} {ws : List (List UInt8)} (hwraps : Wraps line (.exec i) rs cmd)
      (hargv : execs[i]? = some argv) (hwords : List.Forall₂ (IsWord line) argv ws) : Builds line execs cmd [⟨rs, ws⟩]
  | pipe {left right : Cmd} {ss ss' : List Stage} (hleft : Builds line execs left ss) (hright : Builds line execs right ss') :
      Builds line execs (.pipe left right) (ss ++ ss')

/-- A stage as `runcmd` performs it: the last redirection first. -/
def Stage.backwards (s : Stage) : Stage := { s with opens := s.opens.reverse }

section

variable {line buf : List UInt8} {execs execs' : List (List Span)} {cmd cmd' : Cmd} {rs rs' : List Redir} {ss : List Stage}

theorem Wraps.trans {cmd'' : Cmd} (h : Wraps line cmd rs cmd') (h' : Wraps line cmd' rs' cmd'') :
    Wraps line cmd (rs ++ rs') cmd'' := by
  induction h with
  | nil => exact h'
  | cons hfile _ ih => exact .cons hfile (ih h')

variable {span : Span}

theorem Wraps.mem_spans (h : Wraps line cmd rs cmd') (hspan : span ∈ spansOf execs cmd) :
    span ∈ spansOf execs cmd' := by
  induction h with
  | nil => exact hspan
  | cons _ _ ih => exact ih (mem_cons_of_mem _ hspan)

theorem Wraps.spans (h : Wraps line cmd rs cmd') (hspan : span ∈ spansOf execs cmd') :
    span ∈ spansOf execs cmd ∨ ∃ w, IsWord line span w := by
  induction h with
  | nil => exact .inl hspan
  | @cons cmd cmd' file w mode fd rs hfile _ ih =>
    rcases ih hspan with hin | hword
    · rcases mem_cons.1 hin with rfl | hin
      · exact .inr ⟨w, hfile⟩
      · exact .inl hin
    · exact .inr hword

theorem exists_isWord {argv : List Span} {ws : List (List UInt8)} (h : List.Forall₂ (IsWord line) argv ws)
    (hspan : span ∈ argv) : ∃ w, IsWord line span w := by
  induction h with
  | nil => cases hspan
  | @cons s w argv ws hword _ ih =>
    rcases mem_cons.1 hspan with rfl | hspan
    · exact ⟨w, hword⟩
    · exact ih hspan

theorem Builds.spans (h : Builds line execs cmd ss) (hspan : span ∈ spansOf execs cmd) :
    ∃ w, IsWord line span w := by
  induction h with
  | @exec i cmd rs argv ws hwraps hargv hwords =>
    rcases hwraps.spans hspan with hin | hword
    · rw [spansOf, getD_eq_getElem?_getD, hargv, getD_some] at hin
      exact exists_isWord hwords hin
    · exact hword
  | pipe _ _ ihl ihr =>
    rcases mem_append.1 hspan with hspan | hspan
    · exact ihl hspan
    · exact ihr hspan

/-- The words of the command are strings of the buffer. -/
def Reads (line buf : List UInt8) (execs : List (List Span)) (cmd : Cmd) : Prop :=
  ∀ span ∈ spansOf execs cmd, ∀ w, IsWord line span w → stringAt buf span.q = w

theorem Wraps.runcmd (h : Wraps line cmd rs cmd') (hreads : Reads line buf execs cmd') (opens : List Redir) :
    runcmd execs buf cmd' opens = Shell.runcmd execs buf cmd (opens ++ rs.reverse) := by
  induction h with
  | nil => rw [reverse_nil, append_nil]
  | @cons cmd cmd' span file mode fd rs hfile h ih =>
    have hstring : stringAt buf span.q = file := hreads span (h.mem_spans (mem_cons_self ..)) file hfile
    rw [ih hreads, Shell.runcmd, hstring, reverse_cons, append_assoc]

/-- **What `runcmd` does**: every stage has its words in order, and its redirections backwards. -/
theorem Builds.runcmd (h : Builds line execs cmd ss) (hreads : Reads line buf execs cmd) :
    runcmd execs buf cmd [] = ss.map Stage.backwards := by
  induction h with
  | @exec i cmd rs argv ws hwraps hargv hwords =>
    have hmem : ∀ span ∈ argv, span ∈ spansOf execs (.exec i) := fun span hspan => by
      rwa [spansOf, getD_eq_getElem?_getD, hargv]
    have hstrings : argv.map (fun word => stringAt buf word.q) = ws := by
      clear hargv
      induction hwords with
      | nil => rfl
      | @cons span w argv ws hword _ ih =>
        rw [map_cons, ih fun s hs => hmem s (mem_cons_of_mem span hs),
          hreads span (hwraps.mem_spans (hmem span (mem_cons_self ..))) w hword]
    rw [hwraps.runcmd hreads, Shell.runcmd, getD_eq_getElem?_getD, hargv, getD_some, hstrings, nil_append]
    rfl
  | pipe _ _ ihl ihr =>
    rw [Shell.runcmd, ihl fun s hs => hreads s (mem_append_left _ hs),
      ihr fun s hs => hreads s (mem_append_right _ hs), map_append]

theorem Builds.mono (h : Builds line execs cmd ss) (hpool : execs <+: execs') : Builds line execs' cmd ss := by
  induction h with
  | exec hwraps hargv hwords =>
    obtain ⟨rest, rfl⟩ := hpool
    obtain ⟨hlt, -⟩ := List.getElem?_eq_some_iff.1 hargv
    exact .exec hwraps (by rwa [List.getElem?_append_left hlt]) hwords
  | pipe _ _ ihl ihr => exact .pipe ihl ihr

end

/-! ## One redirection -/

/-- A file name is only left out at the end of the items, before the ampersand. -/
def Good : List Item → List Token → Prop
  | [], _ => True
  | .word _ :: is, rest => Good is rest
  | .redir _ file :: is, rest => (file = [] → is = [] ∧ rest.head? = some .amp) ∧ Good is rest

/-- The tokens of the items of one command. -/
def itemTokens (is : List Item) : List Token := is.flatMap Item.tokens

/-- What may follow the items of a command. -/
def Ends (ts : List Token) : Prop := ∀ t, ts.head? = some t → t = .bar ∨ t = .amp

section

variable {line : List UInt8} {room ps : Nat} {cmd : Cmd} {ts rest : List Token} {is is' : List Item}

theorem head?_itemTokens (i : Item) (is : List Item) (rest : List Token) :
    (itemTokens (i :: is) ++ rest).head? ≠ some .amp := by
  cases i with
  | word w => simp [itemTokens, Item.tokens]
  | redir o file => cases file <;> simp [itemTokens, Item.tokens]

theorem itemTokens_append (is is' : List Item) : itemTokens (is ++ is') = itemTokens is ++ itemTokens is' :=
  flatMap_append ..

theorem Good.append (h : Good is (itemTokens is' ++ rest)) (h' : Good is' rest) : Good (is ++ is') rest := by
  induction is with
  | nil => exact h'
  | cons i is ih =>
    cases i with
    | word w => exact ih h
    | redir o file =>
      refine ⟨fun hnil => ?_, ih h.2⟩
      obtain ⟨rfl, hamp⟩ := h.1 hnil
      cases is' with
      | nil => exact ⟨rfl, hamp⟩
      | cons i is' => exact absurd hamp (head?_itemTokens i is' rest)

theorem redirsOf_append (is is' : List Item) : redirsOf (is ++ is') = redirsOf is ++ redirsOf is' := by
  induction is with
  | nil => rfl
  | cons i is ih => cases i <;> simp [redirsOf, ih]

theorem wordsOf_append (is is' : List Item) : wordsOf (is ++ is') = wordsOf is ++ wordsOf is' := by
  induction is with
  | nil => rfl
  | cons i is ih => cases i <;> simp [wordsOf, ih]

theorem wordChar_operators : ∀ c ∈ operators, wordChar c = false := by
  simp [operators, wordChar]

theorem wordChar_angles : ∀ c ∈ ([0x3c, 0x3e] : List UInt8), wordChar c = false := by
  simp [operators, wordChar]

theorem wordChar_bar : ∀ c ∈ ([0x7c] : List UInt8), wordChar c = false := by
  simp [operators, wordChar]

theorem parseredirs_stop (h : At line ps ts) (hstop : ∀ o, ts.head? ≠ some (.op o)) :
    ∃ ps', parseredirs line room ps cmd = some (cmd, room, ps') ∧ At line ps' ts := by
  obtain ⟨hseen, hat⟩ := peek_eq h wordChar_angles
  have hfalse : (peek line [0x3c, 0x3e] ps).1 = false := by
    rw [hseen]
    cases ts with
    | nil => rfl
    | cons t ts =>
      cases t with
      | op o => exact absurd rfl (hstop o)
      | _ => rfl
  refine ⟨_, ?_, hat⟩
  cases room <;> (unfold parseredirs; simp [hfalse])

theorem parseredirs_op {o : Op} (h : At line ps (.op o :: ts)) : ∃ ps', At line ps' ts ∧
    (∀ cmd, parseredirs line 0 ps cmd = none) ∧ ∀ room cmd, parseredirs line (room + 1) ps cmd =
      if (gettoken line ps').1 ≠ 0x77 then none
      else parseredirs line room (gettoken line ps').2.eq (.redir cmd (gettoken line ps').2 (modeOf o.tok) (fdOf o.tok)) := by
  obtain ⟨hseen, hat⟩ := peek_eq h wordChar_angles
  have htrue : (peek line [0x3c, 0x3e] ps).1 = true := by
    rw [hseen]
    cases o <;> rfl
  obtain ⟨htok, hat'⟩ := gettoken_op hat
  refine ⟨_, hat', fun cmd => ?_, fun room cmd => ?_⟩
  · unfold parseredirs
    simp [htrue]
  · rw [parseredirs]
    simp [htrue, htok]

/-- A redirection with its file name, or with an empty one before the ampersand. -/
theorem parseredirs_redir {o : Op} {file : List UInt8} (h : At line ps ((Item.redir o file).tokens ++ ts))
    (hfile : file = [] → ts.head? = some .amp) : ∃ span, IsWord line span file ∧ At line span.eq ts ∧
      ∀ room cmd, parseredirs line (room + 1) ps cmd =
        parseredirs line room span.eq (.redir cmd span (modeOf o.tok) (fdOf o.tok)) := by
  have hspan : ∃ ts', (Item.redir o file).tokens ++ ts = .op o :: ts' ∧ ∀ ps', At line ps' ts' → ∃ span,
      gettoken line ps' = (0x77, span) ∧ IsWord line span file ∧ At line span.eq ts := by
    cases file with
    | nil =>
      obtain ⟨ts, rfl⟩ := head?_eq_some_iff.1 (hfile rfl)
      exact ⟨_, rfl, fun ps' hat => gettoken_amp hat⟩
    | cons c file => exact ⟨_, rfl, fun ps' hat => gettoken_word hat⟩
  obtain ⟨ts', hts', hget⟩ := hspan
  rw [hts'] at h
  obtain ⟨ps', hat, -, hparse⟩ := parseredirs_op h
  obtain ⟨span, hgot, hword, hnext⟩ := hget ps' hat
  refine ⟨span, hword, hnext, fun room cmd => ?_⟩
  rw [hparse, hgot]
  simp

/-- A redirection that is taken has its file name, or none before the ampersand. -/
theorem parseredirs_op_some {o : Op} {r : Cmd × Nat × Nat} (h : At line ps (.op o :: ts))
    (hr : parseredirs line room ps cmd = some r) : ∃ file ts', ts = (Item.redir o file).tokens.tail ++ ts' ∧
      (file = [] → ts'.head? = some .amp) := by
  obtain ⟨ps', hat, hzero, hparse⟩ := parseredirs_op h
  cases room with
  | zero =>
    rw [hzero] at hr
    cases hr
  | succ room =>
    rw [hparse] at hr
    split at hr
    · cases hr
    cases ts with
    | nil => exact absurd (gettoken_nil hat).1 (by simp_all)
    | cons t ts =>
      cases t with
      | word w =>
        have hw : w ≠ [] := by
          rintro rfl
          exact hat.lexes.word_nil (mem_cons_self ..)
        obtain ⟨c, w, rfl⟩ := exists_cons_of_ne_nil hw
        exact ⟨c :: w, ts, rfl, nofun⟩
      | op o' =>
        have hop := (gettoken_op hat).1
        cases o' <;> simp_all [Op.tok]
      | bar => simp_all [(gettoken_bar hat).1]
      | amp => exact ⟨[], .amp :: ts, rfl, fun _ => rfl⟩

/-- The redirections at the front of the items are taken, if there is room. -/
theorem parseredirs_items (hat : At line ps (itemTokens is ++ ts)) (hgood : Good is ts) (hends : Ends ts)
    (hroom : (redirsOf is).length ≤ room) : ∃ cmd' room' ps' rs is', parseredirs line room ps cmd = some (cmd', room', ps') ∧
      Wraps line cmd rs cmd' ∧ At line ps' (itemTokens is' ++ ts) ∧ Good is' ts ∧ redirsOf is = rs ++ redirsOf is' ∧
      wordsOf is = wordsOf is' ∧ room = room' + rs.length ∧ (∀ o file rest, is' ≠ .redir o file :: rest) ∧
      is'.length ≤ is.length := by
  induction is generalizing room ps cmd with
  | nil =>
    obtain ⟨ps', hparse, hat'⟩ := parseredirs_stop hat fun o ho => by
      rcases hends _ ho with h | h <;> cases h
    exact ⟨cmd, room, ps', [], [], hparse, .nil, hat', trivial, rfl, rfl, rfl, nofun, le_refl _⟩
  | cons i is ih =>
    cases i with
    | word w =>
      obtain ⟨ps', hparse, hat'⟩ := parseredirs_stop hat nofun
      exact ⟨cmd, room, ps', [], .word w :: is, hparse, .nil, hat', hgood, rfl, rfl, rfl, nofun, le_refl _⟩
    | redir o file =>
      have hsplit : itemTokens (.redir o file :: is) ++ ts = (Item.redir o file).tokens ++ (itemTokens is ++ ts) := by
        simp [itemTokens]
      rw [hsplit] at hat
      have hfile : file = [] → (itemTokens is ++ ts).head? = some .amp := by
        intro hnil
        obtain ⟨rfl, hamp⟩ := hgood.1 hnil
        exact hamp
      obtain ⟨span, hword, hnext, hparse⟩ := parseredirs_redir hat hfile
      obtain ⟨room, rfl⟩ : ∃ n, room = n + 1 := exists_eq_add_one_of_ne_zero (by
        rintro rfl
        exact absurd hroom (by simp [redirsOf]))
      obtain ⟨cmd', room', ps', rs, is', hrest, hwraps, hat', hgood', hredirs, hwords, hleft, hstop, hlength⟩ :=
        ih hnext hgood.2 (le_of_succ_le_succ hroom)
      refine ⟨cmd', room', ps', _, is', (hparse room cmd).trans hrest, .cons hword hwraps, hat', hgood', ?_, hwords, ?_, hstop,
        le_succ_of_le hlength⟩
      · rw [redirsOf, hredirs]
        rfl
      · rw [hleft]
        rfl

theorem parseredirs_some {r : Cmd × Nat × Nat} (hat : At line ps ts) (hr : parseredirs line room ps cmd = some r) :
    ∃ is rest, ts = itemTokens is ++ rest ∧ Good is rest ∧ wordsOf is = [] ∧ room = r.2.1 + (redirsOf is).length ∧
      At line r.2.2 rest ∧ ∀ o, rest.head? ≠ some (.op o) := by
  -- each redirection takes one of the pool
  induction room using Nat.strongRecOn generalizing ps cmd ts with
  | ind room ih =>
    by_cases hop : ∃ o, ts.head? = some (.op o)
    · obtain ⟨o, ho⟩ := hop
      obtain ⟨ts, rfl⟩ := head?_eq_some_iff.1 ho
      obtain ⟨file, ts', rfl, hfile⟩ := parseredirs_op_some hat hr
      have hsplit : Token.op o :: ((Item.redir o file).tokens.tail ++ ts') = (Item.redir o file).tokens ++ ts' := by
        cases file <;> rfl
      rw [hsplit] at hat ⊢
      obtain ⟨span, -, hnext, hparse⟩ := parseredirs_redir hat hfile
      cases room with
      | zero =>
        rw [← hsplit] at hat
        obtain ⟨_, -, hzero, -⟩ := parseredirs_op hat
        rw [hzero] at hr
        cases hr
      | succ room =>
        rw [hparse] at hr
        obtain ⟨is, rest, rfl, hgood, hwords, hroom, hat', hstop⟩ := ih room (lt_succ_self _) hnext hr
        refine ⟨.redir o file :: is, rest, ?_, ⟨fun hnil => ?_, hgood⟩, hwords, ?_, hat', hstop⟩
        · simp [itemTokens]
        · have hamp := hfile hnil
          cases is with
          | nil => exact ⟨rfl, hamp⟩
          | cons i is => exact absurd hamp (head?_itemTokens i is rest)
        · rw [hroom, redirsOf, length_cons, add_assoc]
    have hstop : ∀ o, ts.head? ≠ some (.op o) := fun o ho => hop ⟨o, ho⟩
    obtain ⟨ps', hparse, hat'⟩ := parseredirs_stop hat hstop
    obtain rfl := some.inj (hparse.symm.trans hr)
    exact ⟨[], ts, rfl, trivial, rfl, rfl, hat', hstop⟩

end

/-! ## One command -/

section

variable {line : List UInt8} {args room ps : Nat} {cmd : Cmd} {argv : List Span} {ts : List Token} {is : List Item}

theorem parsewords_stop (h : At line ps ts) (hends : Ends ts) :
    ∃ ps', parsewords line args room ps cmd argv = some (cmd, argv, room, ps') ∧ At line ps' ts := by
  obtain ⟨hseen, hat⟩ := peek_eq h wordChar_operators
  cases ts with
  | nil =>
    have hfalse : (peek line operators ps).1 = false := hseen
    obtain ⟨htok, hat'⟩ := gettoken_nil hat
    refine ⟨_, ?_, hat'⟩
    cases args <;> (unfold parsewords; simp [hfalse, htok])
  | cons t ts =>
    have htrue : (peek line operators ps).1 = true := by
      rw [hseen]
      rcases hends t rfl with rfl | rfl <;> rfl
    refine ⟨_, ?_, hat⟩
    cases args <;> (unfold parsewords; simp [htrue])

theorem parsewords_word {w : List UInt8} (h : At line ps (.word w :: ts)) : ∃ span, IsWord line span w ∧ At line span.eq ts ∧
    (∀ room cmd argv, parsewords line 0 room ps cmd argv = none) ∧ ∀ args room cmd argv,
      parsewords line (args + 1) room ps cmd argv = (parseredirs line room span.eq cmd).bind fun r =>
        parsewords line args r.2.1 r.2.2 r.1 (argv ++ [span]) := by
  obtain ⟨hseen, hat⟩ := peek_eq h wordChar_operators
  have hfalse : (peek line operators ps).1 = false := hseen
  obtain ⟨span, hgot, hword, hnext⟩ := gettoken_word hat
  refine ⟨span, hword, hnext, fun room cmd argv => ?_, fun args room cmd argv => ?_⟩
  · unfold parsewords
    simp [hfalse, hgot]
  · rw [parsewords]
    simp [hfalse, hgot]

/-- The loop reads the items of one command. -/
theorem parsewords_items (hat : At line ps (itemTokens is ++ ts)) (hgood : Good is ts) (hends : Ends ts)
    (hstart : ∀ o file rest, is ≠ .redir o file :: rest) (hroom : (redirsOf is).length ≤ room)
    (hargs : (wordsOf is).length ≤ args) : ∃ cmd' spans room' ps',
      parsewords line args room ps cmd argv = some (cmd', argv ++ spans, room', ps') ∧ Wraps line cmd (redirsOf is) cmd' ∧
        List.Forall₂ (IsWord line) spans (wordsOf is) ∧ room = room' + (redirsOf is).length ∧ At line ps' ts := by
  induction args generalizing room ps cmd argv is with
  | zero =>
    cases is with
    | nil =>
      obtain ⟨ps', hparse, hat'⟩ := parsewords_stop hat hends
      exact ⟨cmd, [], room, ps', by rwa [append_nil], .nil, .nil, rfl, hat'⟩
    | cons i is =>
      cases i with
      | word w => exact absurd hargs (by simp [wordsOf])
      | redir o file => exact absurd rfl (hstart o file is)
  | succ args ih =>
    cases is with
    | nil =>
      obtain ⟨ps', hparse, hat'⟩ := parsewords_stop hat hends
      exact ⟨cmd, [], room, ps', by rwa [append_nil], .nil, .nil, rfl, hat'⟩
    | cons i is =>
      cases i with
      | redir o file => exact absurd rfl (hstart o file is)
      | word w =>
        obtain ⟨span, hword, hnext, -, hparse⟩ := parsewords_word (w := w) hat
        obtain ⟨cmd1, room1, ps1, rs, is1, hredirs, hwraps, hat1, hgood1, hsplit, hwords, hleft, hstop, -⟩ :=
          parseredirs_items hnext hgood hends hroom
        -- the redirections behind the word have taken their part of the room
        have hroom1 : (redirsOf is1).length ≤ room1 := by
          have hall := hroom
          rw [redirsOf, hsplit, length_append] at hall
          omega
        have hargs1 : (wordsOf is1).length ≤ args := by
          rw [← hwords]
          exact le_of_succ_le_succ hargs
        obtain ⟨cmd', spans, room', ps', hrest, hwraps', hforall, hleft', hat'⟩ :=
          ih hat1 hgood1 hstop hroom1 hargs1
        refine ⟨cmd', span :: spans, room', ps', ?_, ?_, ?_, ?_, hat'⟩
        · rw [hparse, hredirs, bind_some, hrest, append_assoc]
          rfl
        · rw [redirsOf, hsplit]
          exact hwraps.trans hwraps'
        · rw [wordsOf, hwords]
          exact .cons hword hforall
        · rw [redirsOf, hsplit, length_append, hleft, hleft']
          omega

theorem parsewords_some {r : Cmd × List Span × Nat × Nat} (hat : At line ps ts) (hstart : ∀ o, ts.head? ≠ some (.op o))
    (hr : parsewords line args room ps cmd argv = some r) : ∃ is rest, ts = itemTokens is ++ rest ∧ Good is rest ∧ Ends rest ∧
      (wordsOf is).length ≤ args ∧ room = r.2.2.1 + (redirsOf is).length ∧ At line r.2.2.2 rest := by
  induction args using Nat.strongRecOn generalizing room ps cmd argv ts with
  | ind args ih =>
    by_cases hword : ∃ w, ts.head? = some (.word w)
    · obtain ⟨w, hw⟩ := hword
      obtain ⟨ts, rfl⟩ := head?_eq_some_iff.1 hw
      obtain ⟨span, -, hnext, hzero, hparse⟩ := parsewords_word hat
      cases args with
      | zero =>
        rw [hzero] at hr
        cases hr
      | succ args =>
        rw [hparse] at hr
        obtain ⟨r1, hredirs, hrest⟩ := bind_eq_some_iff.1 hr
        obtain ⟨is1, ts1, rfl, hgood1, hnone, hroom1, hat1, hstop⟩ := parseredirs_some hnext hredirs
        obtain ⟨is, rest, rfl, hgood, hends, hargs, hroom, hat'⟩ := ih args (lt_succ_self _) hat1 hstop hrest
        refine ⟨.word w :: (is1 ++ is), rest, ?_, hgood1.append hgood, hends, ?_, ?_, hat'⟩
        · rw [← append_assoc, ← itemTokens_append]
          rfl
        · rw [wordsOf, wordsOf_append, hnone]
          exact Nat.succ_le_succ hargs
        · rw [redirsOf, redirsOf_append, length_append, hroom1, hroom]
          omega
    have hends : Ends ts := by
      intro t ht
      cases t with
      | word w => exact absurd ⟨w, ht⟩ hword
      | op o => exact absurd ht (hstart o)
      | bar => exact .inl rfl
      | amp => exact .inr rfl
    obtain ⟨ps', hparse, hat'⟩ := parsewords_stop hat hends
    obtain rfl := some.inj (hparse.symm.trans hr)
    exact ⟨[], ts, rfl, trivial, hends, zero_le _, rfl, hat'⟩

theorem parseexec_items {p : Parser} (hat : At line p.ps (itemTokens is ++ ts)) (hgood : Good is ts) (hends : Ends ts)
    (hroom : (redirsOf is).length ≤ p.room) (hwords : (wordsOf is).length < maxArgs) (hexecs : p.execs.length < maxCmds) :
    ∃ cmd p' argv, parseexec line p = some (cmd, p') ∧ p'.execs = p.execs ++ [argv] ∧
      Builds line p'.execs cmd [⟨redirsOf is, wordsOf is⟩] ∧ p.room = p'.room + (redirsOf is).length ∧ At line p'.ps ts := by
  obtain ⟨cmd1, room1, ps1, rs, is1, hredirs, hwraps, hat1, hgood1, hsplit, hsame, hleft, hstop, -⟩ :=
    parseredirs_items hat hgood hends hroom
  have hroom1 : (redirsOf is1).length ≤ room1 := by
    rw [hsplit, length_append] at hroom
    omega
  obtain ⟨cmd', spans, room', ps', hrest, hwraps', hforall, hleft', hat'⟩ :=
    parsewords_items hat1 hgood1 hends hstop hroom1
      (le_sub_one_of_lt (hsame ▸ hwords))
  refine ⟨cmd', ⟨ps', room', p.execs ++ [spans]⟩, spans, ?_, rfl, ?_, ?_, hat'⟩
  · unfold parseexec
    rw [if_neg (not_le.2 hexecs), hredirs, bind_some, hrest]
    rfl
  · rw [hsplit, hsame]
    exact .exec (hwraps.trans hwraps') (by simp) hforall
  · rw [hsplit, length_append, hleft, hleft']
    show room' + (redirsOf is1).length + rs.length = room' + _
    omega

theorem parseexec_some {p : Parser} {r : Cmd × Parser} (hat : At line p.ps ts) (hr : parseexec line p = some r) :
    ∃ is rest, ts = itemTokens is ++ rest ∧ Good is rest ∧ Ends rest ∧ (wordsOf is).length < maxArgs ∧
      p.room = r.2.room + (redirsOf is).length ∧ p.execs.length < maxCmds ∧ r.2.execs.length = p.execs.length + 1 ∧
      At line r.2.ps rest := by
  unfold parseexec at hr
  split at hr
  · cases hr
  rename_i hexecs
  obtain ⟨r1, hredirs, hmap⟩ := bind_eq_some_iff.1 hr
  obtain ⟨w, hwords, rfl⟩ := map_eq_some_iff.1 hmap
  obtain ⟨is1, ts1, rfl, hgood1, hnone, hroom1, hat1, hstop⟩ := parseredirs_some hat hredirs
  obtain ⟨is, rest, rfl, hgood, hends, hargs, hroom, hat'⟩ := parsewords_some hat1 hstop hwords
  refine ⟨is1 ++ is, rest, ?_, hgood1.append hgood, hends, ?_, ?_, not_le.1 hexecs, length_append .., hat'⟩
  · rw [itemTokens_append, append_assoc]
  · rw [wordsOf_append, hnone]
    exact lt_of_le_sub_one (by decide) hargs
  · rw [redirsOf_append, length_append, hroom1, hroom]
    show _ = w.2.2.1 + _
    omega

end

/-! ## Pipelines -/

/-- The commands behind the first one, each after its bar. -/
def barTokens (es : List (List Item)) : List Token := es.flatMap fun e => .bar :: itemTokens e

/-- File names are only left out at the end of the last command. -/
def GoodPipe : List (List Item) → List Token → Prop
  | [], _ => True
  | e :: es, rest => Good e (barTokens es ++ rest) ∧ GoodPipe es rest

section

variable {line : List UInt8} {pipes : Nat} {cmd : Cmd} {p : Parser} {ts : List Token} {e : List Item} {es : List (List Item)}
  {ss : List Stage}

theorem pipeTokens_cons (e : List Item) (es : List (List Item)) : pipeTokens (e :: es) = itemTokens e ++ barTokens es := by
  induction es generalizing e with
  | nil => exact (append_nil _).symm
  | cons e' es ih =>
    rw [pipeTokens, ih e']
    · rfl
    · exact nofun

theorem ends_barTokens (es : List (List Item)) (hends : Ends ts) : Ends (barTokens es ++ ts) := by
  cases es with
  | nil => exact hends
  | cons e es => exact fun t ht => .inl (some.inj ht).symm

theorem parsebars_stop (h : At line p.ps ts) (hts : ts.head? ≠ some .bar) (hends : Ends ts) :
    ∃ ps', parsebars line pipes cmd p = some (cmd, { p with ps := ps' }) ∧ At line ps' ts := by
  obtain ⟨hseen, hat⟩ := peek_eq h wordChar_bar
  have hfalse : (peek line [0x7c] p.ps).1 = false := by
    rw [hseen]
    cases ts with
    | nil => rfl
    | cons t ts =>
      rcases hends t rfl with rfl | rfl
      · exact absurd rfl hts
      · rfl
  refine ⟨_, ?_, hat⟩
  cases pipes <;> (unfold parsebars; simp [hfalse])

theorem parsebars_bar (h : At line p.ps (.bar :: ts)) : ∃ ps', At line ps' ts ∧
    (∀ cmd, parsebars line 0 cmd p = none) ∧ ∀ pipes cmd, parsebars line (pipes + 1) cmd p =
      (parseexec line { p with ps := ps' }).bind fun r => parsebars line pipes (.pipe cmd r.1) r.2 := by
  obtain ⟨hseen, hat⟩ := peek_eq h wordChar_bar
  have htrue : (peek line [0x7c] p.ps).1 = true := hseen
  refine ⟨_, (gettoken_bar hat).2, fun cmd => ?_, fun pipes cmd => ?_⟩
  · unfold parsebars
    simp [htrue]
  · rw [parsebars]
    simp [htrue]

theorem parsebars_items (hat : At line p.ps (barTokens es ++ ts)) (hgood : GoodPipe es ts) (hends : Ends ts)
    (hts : ts.head? ≠ some .bar) (hroom : (es.map fun e => (redirsOf e).length).sum ≤ p.room)
    (hwords : ∀ e ∈ es, (wordsOf e).length < maxArgs) (hexecs : p.execs.length + es.length ≤ maxCmds)
    (hpipes : es.length ≤ pipes) (hcmd : Builds line p.execs cmd ss) : ∃ cmd' p', parsebars line pipes cmd p = some (cmd', p') ∧
      Builds line p'.execs cmd' (ss ++ es.map fun e => ⟨redirsOf e, wordsOf e⟩) ∧ At line p'.ps ts := by
  induction es generalizing pipes cmd p ss with
  | nil =>
    obtain ⟨ps', hparse, hat'⟩ := parsebars_stop hat hts hends
    refine ⟨cmd, _, hparse, ?_, hat'⟩
    rwa [map_nil, append_nil]
  | cons e es ih =>
    obtain ⟨pipes, rfl⟩ : ∃ n, pipes = n + 1 := exists_eq_add_one_of_ne_zero (by
      rintro rfl
      exact absurd hpipes (by simp))
    have hsplit : barTokens (e :: es) ++ ts = .bar :: (itemTokens e ++ (barTokens es ++ ts)) := by
      simp [barTokens]
    rw [hsplit] at hat
    rw [map_cons, sum_cons] at hroom
    rw [length_cons] at hexecs hpipes
    obtain ⟨ps', hat1, -, hparse⟩ := parsebars_bar hat
    obtain ⟨cmd1, p1, argv, hexec, hpool, hbuilds, hleft, hat2⟩ := parseexec_items (p := { p with ps := ps' }) hat1 hgood.1
      (ends_barTokens es hends) (le_of_add_right_le hroom) (hwords e (mem_cons_self ..)) (by
        show p.execs.length < maxCmds
        omega)
    have hleft : p.room = p1.room + (redirsOf e).length := hleft
    have hpool : p1.execs = p.execs ++ [argv] := hpool
    obtain ⟨cmd', p', hrest, hbuilds', hat'⟩ := ih (p := p1) hat2 hgood.2 (by omega)
      (fun e' he' => hwords e' (mem_cons_of_mem e he')) (by
        rw [hpool, length_append, length_singleton]
        omega) (show es.length ≤ pipes by omega) (.pipe (hcmd.mono ⟨[argv], hpool.symm⟩) hbuilds)
    refine ⟨cmd', p', ?_, ?_, hat'⟩
    · rw [hparse, hexec]
      exact hrest
    · rw [append_assoc] at hbuilds'
      exact hbuilds'

theorem parsebars_some {r : Cmd × Parser} (hat : At line p.ps ts) (hends : Ends ts) (hexecs : p.execs.length ≤ maxCmds)
    (hr : parsebars line pipes cmd p = some r) : ∃ es rest, ts = barTokens es ++ rest ∧ GoodPipe es rest ∧ Ends rest ∧
      rest.head? ≠ some .bar ∧ (∀ e ∈ es, (wordsOf e).length < maxArgs) ∧
      p.room = r.2.room + (es.map fun e => (redirsOf e).length).sum ∧ p.execs.length + es.length ≤ maxCmds ∧ At line r.2.ps rest := by
  induction pipes using Nat.strongRecOn generalizing cmd p ts with
  | ind pipes ih =>
    by_cases hbar : ts.head? = some .bar
    · obtain ⟨ts, rfl⟩ := head?_eq_some_iff.1 hbar
      obtain ⟨ps', hat1, hzero, hparse⟩ := parsebars_bar hat
      cases pipes with
      | zero =>
        rw [hzero] at hr
        cases hr
      | succ pipes =>
        rw [hparse] at hr
        obtain ⟨r1, hexec, hrest⟩ := bind_eq_some_iff.1 hr
        obtain ⟨e, ts1, rfl, hgood1, hends1, hwords1, hroom1, hlt, hpool, hat2⟩ := parseexec_some hat1 hexec
        have hpool : r1.2.execs.length = p.execs.length + 1 := hpool
        obtain ⟨es, rest, rfl, hgood, hends', hnot, hwords, hroom, hcount, hat'⟩ :=
          ih pipes (lt_succ_self _) hat2 hends1 (by omega) hrest
        refine ⟨e :: es, rest, ?_, ⟨hgood1, hgood⟩, hends', hnot, ?_, ?_, ?_, hat'⟩
        · simp [barTokens]
        · exact forall_mem_cons.2 ⟨hwords1, hwords⟩
        · rw [map_cons, sum_cons, hroom1, hroom]
          omega
        · rw [length_cons]
          omega
    · obtain ⟨ps', hparse, hat'⟩ := parsebars_stop hat hbar hends
      obtain rfl := some.inj (hparse.symm.trans hr)
      exact ⟨[], ts, rfl, trivial, hends, hbar, nofun, rfl, hexecs, hat'⟩

end

/-! ## Lines -/

section

variable {line : List UInt8} {l : Line} {is : List Item} {es : List (List Item)} {rest : List Token}

/-- The `&` of a line in the background. -/
def amps (background : Bool) : List Token := if background then [.amp] else []

theorem ends_amps (b : Bool) : Ends (amps b) ∧ (amps b).head? ≠ some .bar := by
  cases b with
  | false => exact ⟨nofun, nofun⟩
  | true => exact ⟨fun t ht => .inr (some.inj ht).symm, nofun⟩

theorem at_line (h : Lexes line rest) : At line 0 rest := ⟨zero_le _, h⟩

/-- **A line is taken** when file names are left out at most before the ampersand; its redirections are then opened
backwards. -/
theorem plan_of_good (hexecs : l.execs ≠ []) (hgood : GoodPipe l.execs (amps l.background)) (hlex : Lexes line l.tokens)
    (hwithin : l.Within) (hzero : 0 ∉ line) : plan line = some (l.background, l.stages.map Stage.backwards) := by
  obtain ⟨execs, background⟩ := l
  obtain ⟨e, es, rfl⟩ := exists_cons_of_ne_nil hexecs
  obtain ⟨hcount, hroom, hwords⟩ := hwithin
  rw [map_cons, sum_cons] at hroom
  have htokens : Line.tokens ⟨e :: es, background⟩ = itemTokens e ++ (barTokens es ++ amps background) := by
    rw [← append_assoc, ← pipeTokens_cons]
    rfl
  rw [htokens] at hlex
  obtain ⟨hends, hnot⟩ := ends_amps background
  obtain ⟨cmd1, p1, argv, hexec, hpool, hbuilds, hleft, hat1⟩ := parseexec_items (p := ⟨0, maxCmds, []⟩) (at_line hlex) hgood.1
    (ends_barTokens es hends) (le_of_add_right_le hroom) (hwords e (mem_cons_self ..)) (by decide)
  have hpool : p1.execs = [argv] := hpool
  have hleft : maxCmds = p1.room + (redirsOf e).length := hleft
  rw [length_cons] at hcount
  obtain ⟨cmd, p, hrest, hbuilds, hat⟩ := parsebars_items hat1 hgood.2 hends hnot (by omega)
    (fun e' he' => hwords e' (mem_cons_of_mem e he')) (by
      rw [hpool, length_singleton]
      omega) (show es.length ≤ maxCmds by omega) hbuilds
  have hpipe : parsepipe line ⟨0, maxCmds, []⟩ = some (cmd, p) := by
    unfold parsepipe
    rw [hexec]
    exact hrest
  -- behind the last command there is the ampersand or nothing
  have hparse : parsecmd line = some ⟨cmd, p.execs, background⟩ := by
    unfold parsecmd
    rw [hpipe, bind_some]
    dsimp only
    cases background with
    | false =>
      have hend := At.nil hat
      have hagain : skipWhile isspace line line.length = line.length := by
        unfold skipWhile
        simp
      simp [hend, hagain]
    | true =>
      obtain ⟨hbyte, hafter⟩ := At.amp hat
      rw [hbyte]
      simp [At.nil hafter]
  unfold plan
  rw [hparse, map_some]
  rw [hbuilds.runcmd fun span hspan w hw => stringAt_nulterminate hzero (fun s hs => hbuilds.spans hs) hspan hw]
  rfl

/-- **What is taken** is a line of the grammar, file names apart. -/
theorem plan_some (h : (plan line).isSome = true) : ∃ l : Line, l.execs ≠ [] ∧ GoodPipe l.execs (amps l.background) ∧
    Lexes line l.tokens ∧ l.Within := by
  unfold plan at h
  rw [isSome_map] at h
  obtain ⟨parsed, hparsed⟩ := isSome_iff_exists.1 h
  obtain ⟨r, hpipe, hend⟩ := bind_eq_some_iff.1 hparsed
  obtain ⟨r1, hexec, hbars⟩ := bind_eq_some_iff.1 hpipe
  obtain ⟨ts, hlex⟩ := exists_lexes line
  obtain ⟨e, ts1, rfl, hgood1, hends1, hwords1, hroom1, -, hpool, hat1⟩ := parseexec_some (at_line hlex) hexec
  have hroom1 : maxCmds = r1.2.room + (redirsOf e).length := hroom1
  obtain ⟨es, rest, rfl, hgood, hends, hnot, hwords, hroom, hcount, hat⟩ :=
    parsebars_some hat1 hends1 (by rw [hpool]; decide) hbars
  -- the rest does not begin with a bar, and there is nothing behind the ampersand
  have htail : ∃ b, rest = amps b := by
    dsimp only at hend
    cases rest with
    | nil => exact ⟨false, rfl⟩
    | cons t ts =>
      have ht : t = .amp := by
        rcases hends t rfl with rfl | rfl
        · exact absurd rfl hnot
        · rfl
      subst ht
      refine ⟨true, ?_⟩
      cases ts with
      | nil => rfl
      | cons t ts =>
        obtain ⟨hbyte, hafter⟩ := At.amp hat
        have hlt := At.lt hafter (by simp)
        rw [hbyte] at hend
        simp [hlt] at hend
  obtain ⟨b, rfl⟩ := htail
  refine ⟨⟨e :: es, b⟩, nofun, ⟨hgood1, hgood⟩, ?_, ?_, ?_, ?_⟩
  · have htokens : Line.tokens ⟨e :: es, b⟩ = itemTokens e ++ (barTokens es ++ amps b) := by
      rw [← append_assoc, ← pipeTokens_cons]
      rfl
    rwa [htokens]
  · show (e :: es).length ≤ maxCmds
    rw [length_cons]
    omega
  · show ((e :: es).map fun e => (redirsOf e).length).sum ≤ maxCmds
    rw [map_cons, sum_cons]
    omega
  · exact forall_mem_cons.2 ⟨hwords1, hwords⟩

theorem good_of_files (h : ∀ o, .redir o [] ∉ is) : Good is rest := by
  induction is with
  | nil => trivial
  | cons i is ih =>
    have htail : Good is rest := ih fun o ho => h o (mem_cons_of_mem i ho)
    cases i with
    | word w => exact htail
    | redir o file =>
      refine ⟨?_, htail⟩
      rintro rfl
      exact absurd (mem_cons_self ..) (h o)

/-- The last item may lack its file name before the ampersand. -/
theorem files_of_good (h : Good is rest) : (∀ o, .redir o [] ∉ is) ∨
    ∃ is' o, is = is' ++ [.redir o []] ∧ (∀ o', .redir o' [] ∉ is') ∧ rest.head? = some .amp := by
  induction is with
  | nil => exact .inl nofun
  | cons i is ih =>
    have htail : Good is rest := by
      cases i with
      | word w => exact h
      | redir o file => exact h.2
    by_cases hi : ∃ o, i = .redir o []
    · obtain ⟨o, rfl⟩ := hi
      obtain ⟨rfl, hamp⟩ := h.1 rfl
      exact .inr ⟨[], o, rfl, nofun, hamp⟩
    have hnot : ∀ o, Item.redir o [] ≠ i := fun o ho => hi ⟨o, ho.symm⟩
    rcases ih htail with hall | ⟨is', o, rfl, hall, hamp⟩
    · exact .inl fun o ho => (mem_cons.1 ho).elim (hnot o) (hall o)
    · exact .inr ⟨i :: is', o, rfl, fun o' ho => (mem_cons.1 ho).elim (hnot o') (hall o'), hamp⟩

theorem goodPipe_of_files (h : ∀ e ∈ es, ∀ o, .redir o [] ∉ e) : GoodPipe es rest := by
  induction es with
  | nil => trivial
  | cons e es ih => exact ⟨good_of_files (h e (mem_cons_self ..)), ih fun e' he' => h e' (mem_cons_of_mem e he')⟩

theorem files_of_goodPipe (h : GoodPipe es rest) : (∀ e ∈ es, ∀ o, .redir o [] ∉ e) ∨ rest.head? = some .amp ∧
    ∃ es' e o, es = es' ++ [e ++ [.redir o []]] ∧ ∀ e' ∈ e :: es', ∀ o', .redir o' [] ∉ e' := by
  induction es with
  | nil => exact .inl nofun
  | cons e es ih =>
    rcases files_of_good h.1 with hall | ⟨is', o, rfl, hall, hamp⟩
    · rcases ih h.2 with hrest | ⟨hamp, es', e1, o, rfl, hrest⟩
      · exact .inl (forall_mem_cons.2 ⟨hall, hrest⟩)
      · obtain ⟨hlast, hinit⟩ := forall_mem_cons.1 hrest
        exact .inr ⟨hamp, e :: es', e1, o, rfl, forall_mem_cons.2 ⟨hlast, forall_mem_cons.2 ⟨hall, hinit⟩⟩⟩
    · cases es with
      | nil => exact .inr ⟨hamp, [], is', o, rfl, forall_mem_cons.2 ⟨hall, nofun⟩⟩
      | cons e es => cases hamp

theorem Line.LacksFile.good (h : l.LacksFile line) : l.execs ≠ [] ∧ GoodPipe l.execs (amps l.background) := by
  obtain ⟨es, e, o, hexecs, hall⟩ := h.last
  rw [h.background, hexecs]
  refine ⟨by simp, ?_⟩
  obtain ⟨hlast, hinit⟩ := forall_mem_cons.1 hall
  clear hexecs hall
  induction es with
  | nil => exact ⟨(good_of_files hlast).append ⟨fun _ => ⟨rfl, rfl⟩, trivial⟩, trivial⟩
  | cons e' es ih =>
    obtain ⟨he', hinit⟩ := forall_mem_cons.1 hinit
    exact ⟨good_of_files he', ih hinit⟩

theorem mem_redirsOf {r : Redir} (h : r ∈ redirsOf is) : ∃ o, .redir o r.file ∈ is := by
  induction is with
  | nil => cases h
  | cons i is ih =>
    cases i with
    | word w =>
      obtain ⟨o, ho⟩ := ih h
      exact ⟨o, mem_cons_of_mem _ ho⟩
    | redir o file =>
      rcases mem_cons.1 h with rfl | h
      · exact ⟨o, mem_cons_self ..⟩
      · obtain ⟨o', ho'⟩ := ih h
        exact ⟨o', mem_cons_of_mem _ ho'⟩

theorem Line.Spells.plan (h : l.Spells line) (hwithin : l.Within) (hzero : 0 ∉ line) :
    plan line = some (l.background, l.stages.map Stage.backwards) :=
  plan_of_good h.execs (goodPipe_of_files h.files) h.lexes hwithin hzero

theorem Line.LacksFile.plan (h : l.LacksFile line) (hwithin : l.Within) (hzero : 0 ∉ line) :
    plan line = some (l.background, l.stages.map Stage.backwards) :=
  plan_of_good h.good.1 h.good.2 h.lexes hwithin hzero

theorem Stage.backwards_eq_self {s : Stage} : s.backwards = s ↔ s.opens.reverse = s.opens := by
  constructor
  · intro h
    exact congrArg Stage.opens h
  · intro h
    unfold Stage.backwards
    rw [h]

/-- **A line is treated right exactly when the redirections of each command are the same from both ends, and no file name is
missing before the ampersand.** -/
theorem lineRight_iff (hzero : 0 ∉ line) : LineRight line ↔
    (∀ l : Line, l.Spells line → l.Within → ∀ e ∈ l.execs, (redirsOf e).reverse = redirsOf e) ∧
      ¬ ∃ l : Line, l.LacksFile line ∧ l.Within := by
  constructor
  · rintro ⟨hright, honly⟩
    refine ⟨fun l hl hwithin e he => ?_, ?_⟩
    · have hsame := (hl.plan hwithin hzero).symm.trans (hright l hl hwithin)
      simp only [Option.some.injEq, Prod.mk.injEq, true_and] at hsame
      have hmem : (⟨redirsOf e, wordsOf e⟩ : Stage) ∈ l.stages := mem_map.2 ⟨e, he, rfl⟩
      exact Stage.backwards_eq_self.1 (map_inj_left.1 (hsame.trans (map_id _).symm) _ hmem)
    rintro ⟨l, hl, hwithin⟩
    have hplan := hl.plan hwithin hzero
    obtain ⟨l', hl', hwithin'⟩ := honly (by rw [hplan]; rfl)
    have hsame := hplan.symm.trans (hl'.plan hwithin' hzero)
    simp only [Option.some.injEq, Prod.mk.injEq] at hsame
    -- the missing file name is among the files of a line that has them all
    obtain ⟨es, e, o, hexecs, -⟩ := hl.last
    have hstage : (⟨redirsOf (e ++ [.redir o []]), wordsOf (e ++ [.redir o []])⟩ : Stage).backwards ∈
        l.stages.map Stage.backwards := mem_map_of_mem (mem_map.2 ⟨_, by simp [hexecs], rfl⟩)
    rw [hsame.2] at hstage
    obtain ⟨s, hs, hback⟩ := mem_map.1 hstage
    obtain ⟨e', he', rfl⟩ := mem_map.1 hs
    have hopens : (redirsOf e').reverse = (redirsOf (e ++ [.redir o []])).reverse := congrArg Stage.opens hback
    have hmem : (⟨fdOf o.tok, [], modeOf o.tok⟩ : Redir) ∈ redirsOf e' := by
      rw [reverse_injective hopens, redirsOf_append]
      exact mem_append_right _ (mem_cons_self ..)
    obtain ⟨o', ho'⟩ := mem_redirsOf hmem
    exact hl'.files e' he' o' ho'
  -- redirections that are the same from both ends are opened as they are written
  rintro ⟨hsame, hfiles⟩
  refine ⟨fun l hl hwithin => ?_, fun hsome => ?_⟩
  · have hback : l.stages.map Stage.backwards = l.stages := by
      refine (map_congr_left fun s hs => ?_).trans (map_id _)
      obtain ⟨e, he, rfl⟩ := mem_map.1 hs
      exact Stage.backwards_eq_self.2 (hsame l hl hwithin e he)
    rw [hl.plan hwithin hzero, hback]
  obtain ⟨l, hexecs, hgood, hlex, hwithin⟩ := plan_some hsome
  rcases files_of_goodPipe hgood with hall | ⟨hamp, hlast⟩
  · exact ⟨l, ⟨hexecs, hall, hlex⟩, hwithin⟩
  have hbackground : l.background = true := by
    cases hb : l.background with
    | true => rfl
    | false =>
      rw [hb] at hamp
      cases hamp
  exact absurd ⟨l, ⟨hbackground, hlast, hlex⟩, hwithin⟩ hfiles

/-- `a<x|b&`: one redirection is the same from both ends. -/
theorem line_pipe : LineRight [0x61, 0x3c, 0x78, 0x7c, 0x62, 0x26] := by
  have hopens : ∃ ss, plan [0x61, 0x3c, 0x78, 0x7c, 0x62, 0x26] = some (true, ss) ∧
      ∀ s ∈ ss, s.opens = [] ∨ s.opens = [⟨0, [0x78], 0⟩] := ⟨_, rfl, by decide⟩
  obtain ⟨ss, hss, hopens⟩ := hopens
  have hfew : ∀ l : Line, plan [0x61, 0x3c, 0x78, 0x7c, 0x62, 0x26] = some (l.background, l.stages.map Stage.backwards) →
      ∀ e ∈ l.execs, redirsOf e = [] ∨ redirsOf e = [⟨0, [0x78], 0⟩] := by
    intro l hl e he
    obtain rfl := (Prod.mk.inj (Option.some.inj (hss.symm.trans hl))).2
    have hstage := hopens _ (mem_map_of_mem (mem_map.2 ⟨e, he, rfl⟩))
    exact hstage.imp reverse_eq_nil_iff.1 fun h => reverse_eq_iff.1 h
  refine (lineRight_iff (by decide)).2 ⟨fun l hl hwithin e he => ?_, fun ⟨l, hl, hwithin⟩ => ?_⟩
  · rcases hfew l (hl.plan hwithin (by decide)) e he with h | h <;> rw [h] <;> rfl
  · obtain ⟨es, e, o, hexecs, -⟩ := hl.last
    have hlast : redirsOf (e ++ [.redir o []]) = redirsOf e ++ [⟨fdOf o.tok, [], modeOf o.tok⟩] := redirsOf_append _ _
    have hmem : ∃ r ∈ redirsOf (e ++ [.redir o []]), r.file = [] := ⟨_, hlast ▸ mem_append_right _ (mem_singleton_self _), rfl⟩
    rcases hfew l (hl.plan hwithin (by decide)) _ (hexecs ▸ mem_append_right _ (mem_singleton_self _)) with h | h
    · simp [h] at hmem
    · simp [h] at hmem

/-- `>x>y` opens `y` first, and its output goes to `x`. -/
theorem line_twice : ¬ ∀ line : List UInt8, 0 ∉ line → line.length ≤ 127 → LineRight line := by
  intro hall
  have hspells : Line.Spells ⟨[[.redir .write [0x78], .redir .write [0x79]]], false⟩ [0x3e, 0x78, 0x3e, 0x79] := by
    refine ⟨cons_ne_nil _ _, by simp, ?_⟩
    have hword : ∀ w ∈ [[0x78], [0x79]], ∀ c ∈ w, wordChar c = true := by
      simp [operators, wordChar, isspace]
    have hy : Lexes [0x79] [.word [0x79]] := .word rfl (cons_ne_nil _ _) (hword _ (by simp)) (by simp) .nil
    have hnext : ∀ c, ([0x3e, 0x79] : List UInt8).head? = some c → wordChar c = false := by
      simp [operators, wordChar]
    exact .write (by simp) (.word rfl (cons_ne_nil _ _) (hword _ (by simp)) hnext (.write (by simp) hy))
  have hwithin : Line.Within ⟨[[.redir .write [0x78], .redir .write [0x79]]], false⟩ := ⟨by decide, by decide, by decide⟩
  have hplan := (hall [0x3e, 0x78, 0x3e, 0x79] (by decide) (by decide)).1 _ hspells hwithin
  exact absurd hplan (by decide)

end

end Slopix.Shell
