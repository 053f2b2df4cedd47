import Mathlib.Data.List.TakeWhile

/-!
# Stream editor

`parse_script`, `substitute` and `process` of `cmd/sed/sed.c`. `process` builds a line in `MAXLINE` bytes and `substitute`
its result in as many; `sed_exact` states that the limits decide whether a substitution is made line by line.
-/

namespace Slopix.Sed

open List

/-! ## The program -/

/-- `MAXLINE`. -/
def maxline : Nat := 1024

/-- The commands. -/
inductive Cmd where
  | subst
  | print
deriving DecidableEq

/-- `struct script`. -/
structure Script where
  cmd : Cmd
  old : List UInt8
  new : List UInt8
  global : Bool
  print : Bool
deriving DecidableEq

/-- The loops of `parse_script` over a text, with `n` bytes of room: the text, and where `p` stands. -/
def field (delim : UInt8) : Nat → List UInt8 → List UInt8 × List UInt8
  | 0, p => ([], p)
  | _ + 1, [] => ([], [])
  | n + 1, c :: p =>
    if c = delim then ([], c :: p)
    else
      let r := field delim n p
      (c :: r.1, r.2)

/-- `parse_script` after the delimiter. -/
def parseSubst (delim : UInt8) (p : List UInt8) : Option Script :=
  let old := field delim 255 p
  match old.2 with
  | [] => none
  | c :: p =>
    if c ≠ delim then none
    else
      let new := field delim 255 p
      let p := if new.2.head? = some delim then new.2.tail else new.2
      some ⟨.subst, old.1, new.1, p.contains 0x67, p.contains 0x70⟩

/-- `parse_script` on a string without its `'\0'`. -/
def parseScript (s : List UInt8) : Option Script :=
  if s = [0x70] then some ⟨.print, [], [], false, false⟩
  else
    match s with
    | c :: delim :: p => if c = 0x73 then parseSubst delim p else none
    | _ => none

/-- `strstr` for a needle that is not empty: what stands before the match, and the rest. -/
def strstr (needle : List UInt8) : List UInt8 → Option (List UInt8 × List UInt8)
  | [] => none
  | c :: cs =>
    if needle.isPrefixOf (c :: cs) then some ([], c :: cs)
    else (strstr needle cs).map fun r => (c :: r.1, r.2)

/-- The loop of `substitute`: `out` up to `dst`, and `src`. Each round takes at least one byte. -/
def substLoop (sc : Script) : Nat → List UInt8 → List UInt8 → List UInt8 × List UInt8
  | 0, dst, src => (dst, src)
  | n + 1, dst, src =>
    match strstr sc.old src with
    | none => (dst, src)
    | some (pre, found) =>
      if maxline - 1 ≤ dst.length + pre.length + sc.new.length then (dst, src)
      else
        let dst := dst ++ pre ++ sc.new
        let src := found.drop sc.old.length
        if sc.global then substLoop sc n dst src else (dst, src)

/-- `substitute`: what has been replaced, and the rest of the line when it fits. -/
def substitute (line : List UInt8) (sc : Script) : List UInt8 :=
  if sc.old = [] then line
  else
    let r := substLoop sc (line.length + 1) [] line
    if r.1.length + r.2.length < maxline - 1 then r.1 ++ r.2 else r.1

/-- The line of a command: up to a `'\0'`, and with the substitution. -/
def edit (sc : Script) (line : List UInt8) : List UInt8 :=
  let line := line.takeWhile (· != 0)
  if sc.cmd = .subst then substitute line sc else line

/-- The lines that are done, as they were put together and as they are printed, and `line`. -/
structure Progress where
  handled : List (List UInt8 × List UInt8)
  line : List UInt8

/-- The end of a line. -/
def Progress.flush (st : Progress) (sc : Script) : Progress := ⟨st.handled ++ [(st.line, edit sc st.line)], []⟩

/-- One byte in `process`. -/
def feed (sc : Script) (st : Progress) (c : UInt8) : Progress :=
  if c = 0x0a ∨ maxline - 1 ≤ st.line.length then st.flush sc else { st with line := st.line ++ [c] }

/-- The bytes that `process` gets: the results of `read` up to an empty one. -/
def input (reads : List (List UInt8)) : List UInt8 := (reads.takeWhile (· ≠ [])).flatten

/-- The lines of `process`. -/
def handled (sc : Script) (reads : List (List UInt8)) : List (List UInt8 × List UInt8) :=
  let st := (reads.takeWhile (· ≠ [])).foldl (fun st buf => buf.foldl (feed sc) st) ⟨[], []⟩
  (if 0 < st.line.length then st.flush sc else st).handled

/-- What `process` prints. -/
def process (sc : Script) (suppress : Bool) (reads : List (List UInt8)) : List UInt8 :=
  if suppress = false ∨ sc.cmd = .print ∨ sc.print = true then (handled sc reads).flatMap fun x => x.2 ++ [0x0a] else []

/-! ## The command -/

/-- A command `s<d>old<d>new<d>[g][p]`. -/
structure Command where
  delim : UInt8
  old : List UInt8
  new : List UInt8
  global : Bool
  print : Bool
  old_ne : old ≠ []
  delim_old : delim ∉ old
  delim_new : delim ∉ new

/-- The text of the command on the command line. -/
def Command.text (c : Command) : List UInt8 :=
  0x73 :: c.delim :: (c.old ++ c.delim :: (c.new ++ c.delim ::
    ((if c.global then [0x67] else []) ++ if c.print then [0x70] else [])))

/-- The first occurrence of `old`, or all with `g`, replaced from left to right. The first bytes are those of an occurrence
that is already replaced. -/
def replace (old new : List UInt8) (g : Bool) : Nat → List UInt8 → List UInt8
  | _, [] => []
  | k + 1, _ :: cs => replace old new g k cs
  | 0, c :: cs =>
    if old <+: c :: cs then new ++ if g then replace old new g (old.length - 1) cs else cs.drop (old.length - 1)
    else c :: replace old new g 0 cs

/-- A line with the replacement. -/
def Command.apply (c : Command) (line : List UInt8) : List UInt8 := replace c.old c.new c.global 0 line

/-- The lines of a text, after the first bytes of its first line. -/
def linesFrom : List UInt8 → List UInt8 → List (List UInt8)
  | acc, [] => if acc = [] then [] else [acc]
  | acc, c :: cs => if c = 0x0a then acc :: linesFrom [] cs else linesFrom (acc ++ [c]) cs

/-- Each line of the input is handled as it is, and printed with the replacement. -/
structure Faithful (c : Command) (sc : Script) (reads : List (List UInt8)) : Prop where
  lines : (handled sc reads).map Prod.fst = linesFrom [] (input reads)
  results : (handled sc reads).map Prod.snd = (linesFrom [] (input reads)).map c.apply
  output : process sc false reads = ((linesFrom [] (input reads)).map c.apply).flatMap (· ++ [0x0a])

/-! ## The script -/

section

variable {delim : UInt8} {n : Nat} {xs rest : List UInt8}

theorem field_all (hd : delim ∉ xs) (h : xs.length ≤ n) : field delim n (xs ++ delim :: rest) = (xs, delim :: rest) := by
  induction xs generalizing n with
  | nil =>
    cases n with
    | zero => rfl
    | succ n => rw [nil_append, field, if_pos rfl]
  | cons x xs ih =>
    obtain ⟨n, rfl⟩ := Nat.exists_eq_succ_of_ne_zero (ne_of_gt (lt_of_lt_of_le (Nat.succ_pos _) h))
    rw [cons_append, field, if_neg (fun e : x = delim => hd (e ▸ mem_cons_self)),
      ih (fun hm => hd (mem_cons_of_mem x hm)) (Nat.le_of_succ_le_succ h)]

theorem field_cut (hd : delim ∉ xs) (h : n < xs.length) : ∃ c p, (field delim n (xs ++ rest)).2 = c :: p ∧ c ≠ delim := by
  induction xs generalizing n with
  | nil => exact absurd h (Nat.not_lt_zero n)
  | cons x xs ih =>
    have hx : x ≠ delim := fun e => hd (e ▸ mem_cons_self)
    cases n with
    | zero => exact ⟨x, xs ++ rest, rfl, hx⟩
    | succ n =>
      rw [cons_append, field, if_neg hx]
      exact ih (fun hm => hd (mem_cons_of_mem x hm)) (Nat.lt_of_succ_lt_succ h)

/-- What is accepted is read as it is meant, when `new` has room. -/
theorem parseScript_text {c : Command} {sc : Script} (h : parseScript c.text = some sc) (hnew : c.new.length ≤ 255) :
    sc = ⟨.subst, c.old, c.new, c.global, c.print⟩ := by
  have hsubst : parseSubst c.delim (c.old ++ c.delim :: (c.new ++ c.delim ::
      ((if c.global then [0x67] else []) ++ if c.print then [0x70] else []))) = some sc := by
    unfold parseScript Command.text at h
    rwa [if_neg (by simp)] at h
  unfold parseSubst at hsubst
  dsimp only at hsubst
  -- behind a longer `old` there is no delimiter, and the script is refused
  have hold : c.old.length ≤ 255 := by
    refine Nat.le_of_not_lt fun hlong => ?_
    obtain ⟨x, p, hp, hx⟩ := field_cut c.delim_old hlong
    rw [hp] at hsubst
    dsimp only at hsubst
    rw [if_pos hx] at hsubst
    cases hsubst
  rw [field_all c.delim_old hold] at hsubst
  dsimp only at hsubst
  rw [if_neg (not_not.2 rfl), field_all c.delim_new hnew, List.head?_cons, if_pos rfl, tail_cons] at hsubst
  rw [← Option.some.inj hsubst]
  cases c.global <;> cases c.print <;> rfl

end

/-! ## The substitution -/

section

variable {sc : Script} {old new : List UInt8} {g : Bool}

theorem replace_skip (k : Nat) (cs : List UInt8) : replace old new g k cs = replace old new g 0 (cs.drop k) := by
  induction cs generalizing k with
  | nil => cases k <;> rfl
  | cons c cs ih =>
    cases k with
    | zero => rfl
    | succ k => exact ih k

theorem replace_strstr (hold : old ≠ []) (new : List UInt8) (g : Bool) (src : List UInt8) : match strstr old src with
    | none => replace old new g 0 src = src
    | some (pre, found) => src = pre ++ found ∧ found ≠ [] ∧ replace old new g 0 src =
        pre ++ new ++ if g then replace old new g 0 (found.drop old.length) else found.drop old.length := by
  induction src with
  | nil => rfl
  | cons c cs ih =>
    have hlen : old.length = old.length - 1 + 1 := by
      have hpos := length_pos_iff.2 hold
      omega
    rw [strstr, replace]
    -- the first match is right here, or it is the one in the rest
    by_cases hpre : old <+: c :: cs
    · rw [if_pos ( isPrefixOf_iff_prefix.2 hpre), if_pos hpre]
      refine ⟨rfl, cons_ne_nil c cs, ?_⟩
      rw [hlen, drop_succ_cons, Nat.add_sub_cancel, replace_skip]
      rfl
    rw [if_neg (fun h => hpre ( isPrefixOf_iff_prefix.1 h)), if_neg hpre]
    cases hfind : strstr old cs with
    | none =>
      rw [hfind] at ih
      exact congrArg (c :: ·) ih
    | some r =>
      rw [hfind] at ih
      obtain ⟨hsplit, hne, hrep⟩ := ih
      exact ⟨congrArg (c :: ·) hsplit, hne, congrArg (c :: ·) hrep⟩

theorem substLoop_lt (n : Nat) (dst src : List UInt8) (h : dst.length < maxline - 1) :
    (substLoop sc n dst src).1.length < maxline - 1 := by
  induction n generalizing dst src with
  | zero => exact h
  | succ n ih =>
    rw [substLoop]
    split
    · exact h
    split
    · exact h
    rename_i pre _ _ hroom
    have hnext : (dst ++ pre ++ sc.new).length < maxline - 1 := by
      rw [length_append, length_append]
      exact Nat.lt_of_not_le hroom
    split
    · exact ih _ _ hnext
    · exact hnext

theorem substitute_lt (hold : sc.old ≠ []) (line : List UInt8) : (substitute line sc).length < maxline - 1 := by
  unfold substitute
  rw [if_neg hold]
  dsimp only
  split
  · rename_i hfits
    rwa [length_append]
  · exact substLoop_lt _ _ _ (by decide)

theorem substLoop_eq (hold : sc.old ≠ []) (n : Nat) (dst src : List UInt8) (hn : src.length < n)
    (h : dst.length + (replace sc.old sc.new sc.global 0 src).length < maxline - 1) :
    (substLoop sc n dst src).1 ++ (substLoop sc n dst src).2 = dst ++ replace sc.old sc.new sc.global 0 src := by
  induction n generalizing dst src with
  | zero => exact absurd hn (Nat.not_lt_zero _)
  | succ n ih =>
    have hfind := replace_strstr hold sc.new sc.global src
    rw [substLoop]
    split at hfind
    · exact congrArg (dst ++ ·) hfind.symm
    rename_i pre found _
    obtain ⟨hsplit, hne, hrep⟩ := hfind
    rw [hrep] at h ⊢
    rw [length_append, length_append] at h
    -- what this round writes is a part of the result, which has room
    rw [if_neg (by omega)]
    split
    · rename_i hg
      rw [if_pos hg] at h
      have hshort : (found.drop sc.old.length).length < n := by
        have hpos := length_pos_iff.2 hne
        have holdpos := length_pos_iff.2 hold
        rw [length_drop]
        rw [hsplit, length_append] at hn
        omega
      rw [ih _ _ hshort (by rw [length_append, length_append]; omega)]
      simp only [append_assoc]
    · simp only [append_assoc]

/-- **The substitution is made exactly when there is room for the result.** -/
theorem substitute_eq_iff (hold : sc.old ≠ []) (line : List UInt8) :
    substitute line sc = replace sc.old sc.new sc.global 0 line ↔
      (replace sc.old sc.new sc.global 0 line).length < maxline - 1 := by
  refine ⟨fun h => h ▸ substitute_lt hold line, fun h => ?_⟩
  have hloop := substLoop_eq hold (line.length + 1) [] line (Nat.lt_succ_self _) (by rwa [length_nil, Nat.zero_add])
  have hlen := congrArg List.length hloop
  rw [length_append, nil_append] at hlen
  unfold substitute
  rw [if_neg hold, if_pos (hlen ▸ h)]
  exact hloop

end

/-! ## The lines -/

section

variable {sc : Script} {acc xs l : List UInt8}

theorem mem_linesFrom (hl : l ∈ linesFrom acc xs) {b : UInt8} (hb : b ∈ l) : b ∈ acc ∨ b ∈ xs := by
  induction xs generalizing acc with
  | nil =>
    rw [linesFrom] at hl
    split at hl
    · exact absurd hl not_mem_nil
    · exact Or.inl (mem_singleton.1 hl ▸ hb)
  | cons x xs ih =>
    rw [linesFrom] at hl
    split at hl
    · rcases mem_cons.1 hl with rfl | hl
      · exact Or.inl hb
      · exact (ih hl).elim (absurd · not_mem_nil) fun h => Or.inr (mem_cons_of_mem x h)
    rcases ih hl with h | h
    · rcases mem_append.1 h with h | h
      · exact Or.inl h
      · exact Or.inr (mem_singleton.1 h ▸ mem_cons_self)
    · exact Or.inr (mem_cons_of_mem x h)

theorem exists_linesFrom (hacc : acc ≠ []) (xs : List UInt8) : ∃ l ∈ linesFrom acc xs, acc.length ≤ l.length := by
  induction xs generalizing acc with
  | nil => exact ⟨acc, by rw [linesFrom, if_neg hacc]; exact mem_singleton.2 rfl, le_refl _⟩
  | cons x xs ih =>
    rw [linesFrom]
    split
    · exact ⟨acc, mem_cons_self, le_refl _⟩
    · have hne : acc ++ [x] ≠ [] := by simp
      obtain ⟨l, hl, hlen⟩ := ih hne
      rw [length_append] at hlen
      exact ⟨l, hl, by omega⟩

/-- The end of the input. -/
def Progress.finish (st : Progress) (sc : Script) : List (List UInt8 × List UInt8) :=
  (if 0 < st.line.length then st.flush sc else st).handled

theorem handled_eq (sc : Script) (reads : List (List UInt8)) :
    handled sc reads = ((input reads).foldl (feed sc) ⟨[], []⟩).finish sc := by
  unfold handled input Progress.finish
  rw [foldl_flatten]

theorem foldl_feed (sc : Script) (hshort : ∀ l ∈ linesFrom acc xs, l.length ≤ maxline - 1) (done : List (List UInt8 × List UInt8)) :
    (xs.foldl (feed sc) ⟨done, acc⟩).finish sc = done ++ (linesFrom acc xs).map fun l => (l, edit sc l) := by
  induction xs generalizing acc done with
  | nil =>
    unfold Progress.finish linesFrom
    by_cases hacc : acc = []
    · rw [if_pos hacc, if_neg (by simp [hacc])]
      exact (append_nil done).symm
    · rw [if_neg hacc, if_pos (by exact length_pos_iff.2 hacc)]
      rfl
  | cons x xs ih =>
    rw [linesFrom] at hshort ⊢
    rw [foldl_cons, feed]
    by_cases hx : x = 0x0a
    · rw [if_pos hx] at hshort
      rw [if_pos hx, if_pos (Or.inl hx), Progress.flush, ih fun l hl => hshort l (mem_cons_of_mem acc hl)]
      simp only [map_cons, append_assoc, singleton_append]
    rw [if_neg hx] at hshort
    -- the line goes on with this byte, and the whole of it has room
    have hne : acc ++ [x] ≠ [] := by simp
    obtain ⟨l, hl, hlen⟩ := exists_linesFrom hne xs
    have hroom : ¬ maxline - 1 ≤ acc.length := by
      have hle := hshort l hl
      rw [length_append, length_singleton] at hlen
      omega
    rw [if_neg hx, if_neg (not_or.2 ⟨hx, hroom⟩)]
    exact ih hshort done

/-- No line is longer than the buffer, and the results are those of the lines. -/
structure Progress.Bounded (sc : Script) (st : Progress) : Prop where
  handled : ∀ x ∈ st.handled, x.1.length ≤ maxline - 1 ∧ x.2 = edit sc x.1
  line : st.line.length ≤ maxline - 1

theorem Progress.Bounded.flush {st : Progress} (h : st.Bounded sc) : (st.flush sc).Bounded sc := by
  refine ⟨fun x hx => ?_, Nat.zero_le _⟩
  rcases mem_append.1 hx with hx | hx
  · exact h.handled x hx
  · obtain rfl := mem_singleton.1 hx
    exact ⟨h.line, rfl⟩

theorem Progress.Bounded.run {st : Progress} (h : st.Bounded sc) (xs : List UInt8) : (xs.foldl (feed sc) st).Bounded sc := by
  induction xs generalizing st with
  | nil => exact h
  | cons c xs ih =>
    refine ih ?_
    unfold feed
    split
    · exact h.flush
    rename_i hroom
    refine ⟨h.handled, ?_⟩
    rw [length_append]
    exact Nat.lt_of_not_le (not_or.1 hroom).2

theorem mem_handled {reads : List (List UInt8)} {x : List UInt8 × List UInt8} (hx : x ∈ handled sc reads) :
    x.1.length ≤ maxline - 1 ∧ x.2 = edit sc x.1 := by
  have hstart : Progress.Bounded sc ⟨[], []⟩ := ⟨fun x hx => absurd hx not_mem_nil, Nat.zero_le _⟩
  have hend := hstart.run (input reads)
  rw [handled_eq, Progress.finish] at hx
  split at hx
  · exact hend.flush.handled x hx
  · exact hend.handled x hx

theorem input_single {n : Nat} (h : l.length = n + 1) : input [l] = l := by
  have hne : l ≠ [] := fun e => by simp [e] at h
  unfold input
  rw [takeWhile_cons_of_pos (by simpa using hne), takeWhile_nil, flatten_cons, flatten_nil,
    append_nil]

theorem linesFrom_single (hacc : acc ++ xs ≠ []) (hxs : 0x0a ∉ xs) : linesFrom acc xs = [acc ++ xs] := by
  induction xs generalizing acc with
  | nil =>
    rw [append_nil] at hacc ⊢
    rw [linesFrom, if_neg hacc]
  | cons x xs ih =>
    have hx : x ≠ 0x0a := fun e => hxs (e ▸ mem_cons_self)
    rw [linesFrom, if_neg hx, ih (by simp) fun hm => hxs (mem_cons_of_mem x hm), append_assoc,
      singleton_append]

theorem not_faithful_of_long {c : Command} {n : Nat} (hlen : l.length = 1023 + n + 1) (hl : 0x0a ∉ l) :
    ¬ Faithful c sc [l] := by
  intro h
  have hne : [] ++ l ≠ [] := fun e => by simp [nil_append l ▸ e] at hlen
  have hlines := h.lines
  rw [input_single hlen, linesFrom_single hne hl] at hlines
  obtain ⟨x, hx, hxl⟩ := mem_map.1 (hlines ▸ mem_singleton.2 rfl)
  have hle := (mem_handled hx).1
  rw [hxl, nil_append, hlen] at hle
  unfold maxline at hle
  omega

end

/-- **The limits of `sed`.** -/
theorem sed_exact (c : Command) (sc : Script) (reads : List (List UInt8)) (hparse : parseScript c.text = some sc)
    (hnew : c.new.length ≤ 255) (hnul : 0 ∉ input reads) :
    Faithful c sc reads ↔ ∀ l ∈ linesFrom [] (input reads), l.length ≤ 1023 ∧ (c.apply l).length ≤ 1022 := by
  obtain rfl := parseScript_text hparse hnew
  constructor
  · intro h l hl
    -- a line that is handled fits the buffer, and so does what becomes of it
    constructor
    · obtain ⟨x, hx, rfl⟩ := mem_map.1 (h.lines ▸ hl)
      exact (mem_handled hx).1
    · obtain ⟨x, hx, hres⟩ := mem_map.1 (h.results ▸ mem_map_of_mem hl)
      rw [← hres, (mem_handled hx).2]
      exact Nat.le_of_lt_succ (substitute_lt c.old_ne _)
  intro h
  have hlines := foldl_feed ⟨.subst, c.old, c.new, c.global, c.print⟩ (fun l hl => (h l hl).1) []
  rw [← handled_eq, nil_append] at hlines
  have hedit : ∀ l ∈ linesFrom [] (input reads), edit ⟨.subst, c.old, c.new, c.global, c.print⟩ l = c.apply l := by
    intro l hl
    have hclean : ∀ b ∈ l, (b != 0) = true := by
      intro b hb
      refine bne_iff_ne.2 fun e => ?_
      exact (mem_linesFrom hl hb).elim (absurd · not_mem_nil) fun hm => hnul (e ▸ hm)
    unfold edit
    rw [takeWhile_eq_self_iff.2 hclean, if_pos rfl]
    exact (substitute_eq_iff c.old_ne l).2 (Nat.lt_succ_of_le (h l hl).2)
  have hresults : (handled ⟨.subst, c.old, c.new, c.global, c.print⟩ reads).map Prod.snd =
      (linesFrom [] (input reads)).map c.apply := by
    rw [hlines, map_map]
    exact map_congr_left hedit
  refine ⟨by rw [hlines, map_map]; exact map_id _, hresults, ?_⟩
  rw [← hresults, process, if_pos (Or.inl rfl), flatMap_map]

/-- A command with one byte for `old` and one for `new`, separated by `/`. -/
def Command.single (x y : UInt8) (hx : x ≠ 0x2f) (hy : y ≠ 0x2f) : Command where
  delim := 0x2f
  old := [x]
  new := [y]
  global := false
  print := false
  old_ne := cons_ne_nil x []
  delim_old := fun h => hx (mem_singleton.1 h).symm
  delim_new := fun h => hy (mem_singleton.1 h).symm

/-- `s/a/b/` on the lines `a` and `ca`, the second one read in two pieces. -/
theorem sed_exact_use : Faithful (Command.single 0x61 0x62 (by decide) (by decide)) ⟨.subst, [0x61], [0x62], false, false⟩
    [[0x61, 0x0a, 0x63], [0x61]] :=
  (sed_exact (Command.single 0x61 0x62 (by decide) (by decide)) ⟨.subst, [0x61], [0x62], false, false⟩
    [[0x61, 0x0a, 0x63], [0x61]] (by decide) (by decide) (by decide)).2 (by decide)

/-- A line of 1024 bytes is printed empty, without its text. -/
theorem long_line : ¬ ∀ (c : Command) (sc : Script) (reads : List (List UInt8)), parseScript c.text = some sc →
    0 ∉ input reads → Faithful c sc reads := by
  intro h
  have hmem : ∀ b ∈ List.replicate 1024 (0x63 : UInt8), b = 0x63 := fun b hb => eq_of_mem_replicate hb
  have hnul : 0 ∉ input [List.replicate 1024 (0x63 : UInt8)] := fun hm =>
    absurd (hmem 0 (input_single (length_replicate (n := 1024)) ▸ hm)) (by decide)
  refine not_faithful_of_long (n := 0) (length_replicate (n := 1024)) (fun hm => absurd (hmem _ hm) (by decide))
    (h (Command.single 0x61 0x62 (by decide) (by decide)) ⟨.subst, [0x61], [0x62], false, false⟩ _ (by decide) hnul)

end Slopix.Sed
