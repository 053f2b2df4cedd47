import Mathlib.Data.List.Basic
import Mathlib.Data.List.TakeWhile

/-!
# Tokens of a command line

`peek` and `gettoken` move a pointer over the line. What they see is related to the tokens of the rest of the line: words,
the redirection operators, the bar and the ampersand, with spaces between them where one likes.
-/

namespace Slopix.Shell

open List

/-! ## Scanning -/

/-- `isspace`. -/
def isspace (c : UInt8) : Bool := c == 0x20 || c == 0x09 || c == 0x0a || c == 0x0b || c == 0x0c || c == 0x0d

/-- The bytes `<`, `>`, `|` and `&`. -/
def operators : List UInt8 := [0x3c, 0x3e, 0x7c, 0x26]

/-- A byte that does not end a word. -/
def wordChar (c : UInt8) : Bool := !isspace c && !operators.contains c

/-- A loop that moves `ps` over bytes of the line. -/
def skipWhile (p : UInt8 → Bool) (line : List UInt8) (ps : Nat) : Nat := ps + ((line.drop ps).takeWhile p).length

/-- A string in the line, from `q` up to `eq`. -/
structure Span where
  q : Nat
  eq : Nat
  deriving DecidableEq, Repr

/-- `peek`; it also moves the pointer over spaces. -/
def peek (line toks : List UInt8) (ps : Nat) : Bool × Nat :=
  let ps := skipWhile isspace line ps
  ((line)[ps]?.any toks.contains, ps)

/-- `gettoken`: the token, `+` for `>>` and `w` for a word, and where it is. The pointer is moved to its end. -/
def gettoken (line : List UInt8) (ps : Nat) : UInt8 × Span :=
  let ps := skipWhile isspace line ps
  match (line)[ps]? with
  | none => (0, ⟨ps, ps⟩)
  | some c =>
    if c = 0x3e ∧ (line)[ps + 1]? = some 0x3e then (0x2b, ⟨ps, ps + 2⟩)
    else if c = 0x3c ∨ c = 0x3e ∨ c = 0x7c then (c, ⟨ps, ps + 1⟩)
    else (0x77, ⟨ps, skipWhile wordChar line ps⟩)

/-! ## The tokens of a text -/

/-- The redirection operators `<`, `>` and `>>`. -/
inductive Op
  | read
  | write
  | append
  deriving DecidableEq, Repr

/-- The token of `gettoken` for an operator. -/
def Op.tok : Op → UInt8
  | .read => 0x3c
  | .write => 0x3e
  | .append => 0x2b

/-- The tokens of the grammar. -/
inductive Token
  | word (w : List UInt8)
  | op (o : Op)
  | bar
  | amp
  deriving DecidableEq, Repr

/-- The tokens of a text. Spaces may stand anywhere between them; a word goes as far as it can, and so does `>>`. -/
inductive Lexes : List UInt8 → List Token → Prop
  | nil : Lexes [] []
  | space {c : UInt8} {s : List UInt8} {ts : List Token} (hc : isspace c = true) (h : Lexes s ts) : Lexes (c :: s) ts
  | read {s : List UInt8} {ts : List Token} (h : Lexes s ts) : Lexes (0x3c :: s) (.op .read :: ts)
  | write {s : List UInt8} {ts : List Token} (hs : s.head? ≠ some 0x3e) (h : Lexes s ts) :
      Lexes (0x3e :: s) (.op .write :: ts)
  | append {s : List UInt8} {ts : List Token} (h : Lexes s ts) : Lexes (0x3e :: 0x3e :: s) (.op .append :: ts)
  | bar {s : List UInt8} {ts : List Token} (h : Lexes s ts) : Lexes (0x7c :: s) (.bar :: ts)
  | amp {s : List UInt8} {ts : List Token} (h : Lexes s ts) : Lexes (0x26 :: s) (.amp :: ts)
  | word {l w s : List UInt8} {ts : List Token} (hl : l = w ++ s) (hw : w ≠ []) (hin : ∀ c ∈ w, wordChar c = true)
      (hs : ∀ c, s.head? = some c → wordChar c = false) (h : Lexes s ts) : Lexes l (.word w :: ts)

section

variable {s line : List UInt8} {ts : List Token} {c : UInt8}

theorem isspace_of_wordChar (h : wordChar c = true) : isspace c = false := by
  simp [wordChar] at h
  exact h.1

/-- Blanks in front do not matter. -/
theorem Lexes.dropWhile (h : Lexes s ts) : Lexes (s.dropWhile isspace) ts := by
  induction h with
  | nil => exact .nil
  | space hc _ ih =>
    rw [dropWhile_cons_of_pos hc]
    exact ih
  | read h => exact .read h
  | write hs h => exact .write hs h
  | append h => exact .append h
  | bar h => exact .bar h
  | amp h => exact .amp h
  | @word s w rest ts hl hw hin hs h =>
    have hsame : s.dropWhile isspace = s := by
      obtain ⟨c, w, rfl⟩ := exists_cons_of_ne_nil hw
      rw [hl, cons_append, dropWhile_cons_of_neg]
      simp [isspace_of_wordChar (hin c (mem_cons_self ..))]
    rw [hsame]
    exact .word hl hw hin hs h

theorem Lexes.word_nil (h : Lexes s ts) : .word [] ∉ ts := by
  induction h with
  | nil => simp
  | space _ _ ih => exact ih
  | word _ hw _ _ _ ih => simp [ih, hw.symm]
  | _ => simp [*]

theorem head?_dropWhile (p : UInt8 → Bool) (s : List UInt8) : ∀ c, (s.dropWhile p).head? = some c → p c = false := by
  intro c hc
  have hhead := head?_dropWhile_not p s
  rwa [hc] at hhead

theorem exists_lexes (s : List UInt8) : ∃ ts, Lexes s ts := by
  induction hn : s.length using Nat.strongRecOn generalizing s with
  | ind n ih =>
    subst hn
    cases s with
    | nil => exact ⟨[], .nil⟩
    | cons c s =>
      obtain ⟨ts, hts⟩ := ih s.length (Nat.lt_succ_self _) s rfl
      by_cases hspace : isspace c = true
      · exact ⟨ts, .space hspace hts⟩
      by_cases hword : wordChar c = true
      · -- a word goes up to the next byte that ends it
        have hsplit : c :: s = (c :: s).takeWhile wordChar ++ (c :: s).dropWhile wordChar :=
          takeWhile_append_dropWhile.symm
        have hdrop : ((c :: s).dropWhile wordChar).length < (c :: s).length := by
          rw [dropWhile_cons_of_pos hword]
          exact Nat.lt_succ_of_le (length_dropWhile_le ..)
        obtain ⟨rest, hrest⟩ := ih _ hdrop _ rfl
        refine ⟨_, .word hsplit ?_ (fun c hc => mem_takeWhile_imp hc) (head?_dropWhile wordChar _) hrest⟩
        simp [takeWhile_cons_of_pos hword]
      have hop : c = 0x3c ∨ c = 0x3e ∨ c = 0x7c ∨ c = 0x26 := by
        by_contra hnone
        exact hword (by simp_all [wordChar, operators])
      rcases hop with rfl | rfl | rfl | rfl
      · exact ⟨_, .read hts⟩
      · by_cases hhead : s.head? = some 0x3e
        · obtain ⟨s', rfl⟩ := head?_eq_some_iff.1 hhead
          obtain ⟨rest, hrest⟩ := ih s'.length (by rw [length_cons, length_cons]; omega) s' rfl
          exact ⟨_, .append hrest⟩
        · exact ⟨_, .write hhead hts⟩
      · exact ⟨_, .bar hts⟩
      · exact ⟨_, .amp hts⟩

end

/-! ## What the pointer sees -/

/-- The tokens from a pointer on. -/
structure At (line : List UInt8) (ps : Nat) (ts : List Token) : Prop where
  le : ps ≤ line.length
  lexes : Lexes (line.drop ps) ts

/-- A span is a word of the line, which nothing that belongs to it follows. -/
structure IsWord (line : List UInt8) (span : Span) (w : List UInt8) : Prop where
  eq : span.eq = span.q + w.length
  text : (line.drop span.q).take w.length = w
  chars : ∀ c ∈ w, wordChar c = true
  stop : ∀ c, (line)[span.eq]? = some c → wordChar c = false
  le : span.eq ≤ line.length

/-- The byte that the first token starts with, unless it is a word. -/
def firstByte : List Token → Option UInt8
  | .op .read :: _ => some 0x3c
  | .op _ :: _ => some 0x3e
  | .bar :: _ => some 0x7c
  | .amp :: _ => some 0x26
  | _ => none

section

variable {line toks : List UInt8} {ps : Nat} {ts : List Token} {w : List UInt8}

theorem drop_skipWhile (p : UInt8 → Bool) (line : List UInt8) (ps : Nat) :
    line.drop (skipWhile p line ps) = (line.drop ps).dropWhile p := by
  have hsplit : ((line.drop ps).takeWhile p ++ (line.drop ps).dropWhile p).drop ((line.drop ps).takeWhile p).length =
      (line.drop ps).dropWhile p := drop_left ..
  rwa [takeWhile_append_dropWhile, drop_drop] at hsplit

theorem skipWhile_le (p : UInt8 → Bool) (h : ps ≤ line.length) : skipWhile p line ps ≤ line.length := by
  have htake := ( takeWhile_prefix p (l := line.drop ps)).length_le
  rw [length_drop] at htake
  unfold skipWhile
  omega

theorem At.start (h : At line ps ts) : At line (skipWhile isspace line ps) ts ∧
    ∀ c, (line)[skipWhile isspace line ps]? = some c → isspace c = false := by
  refine ⟨⟨skipWhile_le isspace h.le, ?_⟩, fun c hc => ?_⟩
  · rw [drop_skipWhile]
    exact h.lexes.dropWhile
  · rw [← head?_drop, drop_skipWhile] at hc
    exact head?_dropWhile isspace _ c hc

/-- `peek` sees the first byte of the next token. -/
theorem peek_eq (h : At line ps ts) (htoks : ∀ c ∈ toks, wordChar c = false) :
    (peek line toks ps).1 = (firstByte ts).any toks.contains ∧ At line (peek line toks ps).2 ts := by
  obtain ⟨hat, hspace⟩ := h.start
  refine ⟨?_, hat⟩
  have hlex := hat.lexes
  unfold peek
  dsimp only
  rw [← head?_drop] at hspace ⊢
  generalize line.drop (skipWhile isspace line ps) = s at *
  cases hlex with
  | nil => rfl
  | space hc => simp_all
  | word hl hw hin =>
    obtain ⟨c, w, rfl⟩ := exists_cons_of_ne_nil hw
    have hnot : c ∉ toks := fun hc => by simpa [htoks c hc] using hin c (mem_cons_self ..)
    simp [hl, hnot, firstByte]
  | _ => rfl

theorem gettoken_nil (h : At line ps []) : (gettoken line ps).1 = 0 ∧ At line (gettoken line ps).2.eq [] := by
  obtain ⟨hat, hspace⟩ := h.start
  have hlex := hat.lexes
  unfold gettoken
  dsimp only
  rw [← head?_drop] at hspace ⊢
  generalize hs : line.drop (skipWhile isspace line ps) = s at *
  cases hlex with
  | nil => exact ⟨rfl, hat⟩
  | space hc => simp_all

theorem step_of_drop {q : Nat} {c : UInt8} {s : List UInt8} (h : line.drop q = c :: s) :
    (line)[q]? = some c ∧ (line)[q + 1]? = s.head? ∧ line.drop (q + 1) = s ∧ q + 1 ≤ line.length := by
  have hnext : line.drop (q + 1) = s := by
    rw [← drop_drop, h]
    rfl
  refine ⟨?_, ?_, hnext, ?_⟩
  · rw [← head?_drop, h]
    rfl
  · rw [← head?_drop, hnext]
  · have hlength := congrArg length h
    rw [length_drop, length_cons] at hlength
    omega

theorem gettoken_op {o : Op} (h : At line ps (.op o :: ts)) :
    (gettoken line ps).1 = o.tok ∧ At line (gettoken line ps).2.eq ts := by
  obtain ⟨hat, hspace⟩ := h.start
  have hlex := hat.lexes
  unfold gettoken
  dsimp only
  rw [← head?_drop] at hspace
  generalize skipWhile isspace line ps = q at *
  generalize hs : line.drop q = s at *
  cases hlex with
  | space hc => simp_all
  | read h =>
    obtain ⟨hbyte, -, hdrop, hle⟩ := step_of_drop hs
    rw [hbyte]
    exact ⟨rfl, hle, hdrop ▸ h⟩
  | write hnot h =>
    obtain ⟨hbyte, hnext, hdrop, hle⟩ := step_of_drop hs
    rw [hbyte, hnext]
    dsimp only
    rw [if_neg (fun hand => hnot hand.2), if_pos (.inr (.inl rfl))]
    exact ⟨rfl, hle, hdrop ▸ h⟩
  | append h =>
    obtain ⟨hbyte, hnext, hdrop, -⟩ := step_of_drop hs
    obtain ⟨-, -, hdrop2, hle⟩ := step_of_drop hdrop
    rw [hbyte, hnext]
    exact ⟨rfl, hle, hdrop2 ▸ h⟩

theorem gettoken_bar (h : At line ps (.bar :: ts)) :
    (gettoken line ps).1 = 0x7c ∧ At line (gettoken line ps).2.eq ts := by
  obtain ⟨hat, hspace⟩ := h.start
  have hlex := hat.lexes
  unfold gettoken
  dsimp only
  rw [← head?_drop] at hspace
  generalize skipWhile isspace line ps = q at *
  generalize hs : line.drop q = s at *
  cases hlex with
  | space hc => simp_all
  | bar h =>
    obtain ⟨hbyte, -, hdrop, hle⟩ := step_of_drop hs
    rw [hbyte]
    exact ⟨rfl, hle, hdrop ▸ h⟩

/-- A byte that is no space and no operator of `gettoken` starts a word, which may be empty. -/
theorem gettoken_span {c : UInt8} (hbyte : (line)[skipWhile isspace line ps]? = some c)
    (hc : c ≠ 0x3c ∧ c ≠ 0x3e ∧ c ≠ 0x7c) : gettoken line ps =
      (0x77, ⟨skipWhile isspace line ps, skipWhile wordChar line (skipWhile isspace line ps)⟩) := by
  unfold gettoken
  dsimp only
  rw [hbyte]
  dsimp only
  rw [if_neg (fun h => hc.2.1 h.1), if_neg (by simp [hc])]

theorem isWord_skipWhile {q : Nat} {w s : List UInt8} (hq : q ≤ line.length) (hs : line.drop q = w ++ s)
    (hin : ∀ c ∈ w, wordChar c = true) (hstop : ∀ c, s.head? = some c → wordChar c = false) :
    IsWord line ⟨q, skipWhile wordChar line q⟩ w ∧ line.drop (skipWhile wordChar line q) = s := by
  have htake : (w ++ s).takeWhile wordChar = w := by
    rw [takeWhile_append_of_pos hin]
    cases s with
    | nil => exact append_nil w
    | cons c s => rw [takeWhile_cons_of_neg (by simp [hstop c rfl]), append_nil]
  have hend : skipWhile wordChar line q = q + w.length := by
    unfold skipWhile
    rw [hs, htake]
  have hdrop : line.drop (q + w.length) = s := by
    rw [← drop_drop, hs]
    exact drop_left ..
  rw [hend]
  refine ⟨⟨rfl, ?_, hin, ?_, ?_⟩, hdrop⟩
  · show (line.drop q).take w.length = w
    rw [hs]
    exact take_left ..
  · intro c hc
    apply hstop
    rw [← hdrop, head?_drop]
    exact hc
  have hlength := congrArg length hs
  rw [length_drop, length_append] at hlength
  show q + w.length ≤ line.length
  omega

theorem gettoken_word (h : At line ps (.word w :: ts)) : ∃ span, gettoken line ps = (0x77, span) ∧
    IsWord line span w ∧ At line span.eq ts := by
  obtain ⟨hat, hspace⟩ := h.start
  obtain ⟨hle, hlex⟩ := hat
  rw [← head?_drop] at hspace
  generalize hs : line.drop (skipWhile isspace line ps) = s at *
  cases hlex with
  | space hc => simp_all
  | @word _ _ rest _ hl hw hin hstop hrest =>
    obtain ⟨c, w', rfl⟩ := exists_cons_of_ne_nil hw
    have hbyte : (line)[skipWhile isspace line ps]? = some c := by
      rw [← head?_drop, hs, hl]
      rfl
    have hc : c ≠ 0x3c ∧ c ≠ 0x3e ∧ c ≠ 0x7c := by
      have hword := hin c (mem_cons_self ..)
      refine ⟨?_, ?_, ?_⟩
      · rintro rfl
        exact absurd hword (by decide)
      · rintro rfl
        exact absurd hword (by decide)
      · rintro rfl
        exact absurd hword (by decide)
    obtain ⟨hisword, hdrop⟩ := isWord_skipWhile hle (hs.trans hl) hin hstop
    exact ⟨_, gettoken_span hbyte hc, hisword, hisword.le, hdrop ▸ hrest⟩

theorem At.amp (h : At line ps (.amp :: ts)) : (line)[skipWhile isspace line ps]? = some 0x26 ∧
    At line (skipWhile isspace line ps + 1) ts := by
  obtain ⟨⟨hle, hlex⟩, hspace⟩ := h.start
  rw [← head?_drop] at hspace
  generalize hs : line.drop (skipWhile isspace line ps) = s at *
  cases hlex with
  | space hc => simp_all
  | amp h =>
    obtain ⟨hbyte, -, hdrop, hle⟩ := step_of_drop hs
    exact ⟨hbyte, hle, hdrop ▸ h⟩

theorem gettoken_amp (h : At line ps (.amp :: ts)) : ∃ span, gettoken line ps = (0x77, span) ∧
    IsWord line span [] ∧ At line span.eq (.amp :: ts) := by
  obtain ⟨hbyte, -⟩ := h.amp
  obtain ⟨hle, hlex⟩ := h.start.1
  obtain ⟨hisword, hdrop⟩ := isWord_skipWhile hle (w := []) (s := line.drop (skipWhile isspace line ps)) rfl
    (fun _ hc => by cases hc) (fun c hc => by
      rw [head?_drop, hbyte] at hc
      obtain rfl := Option.some.inj hc
      rfl)
  exact ⟨_, gettoken_span hbyte (by decide), hisword, hisword.le, hdrop ▸ hlex⟩

theorem At.nil (h : At line ps []) : skipWhile isspace line ps = line.length := by
  obtain ⟨⟨hle, hlex⟩, hspace⟩ := h.start
  rw [← head?_drop] at hspace
  generalize hs : line.drop (skipWhile isspace line ps) = s at *
  cases hlex with
  | nil => exact Nat.le_antisymm hle (drop_eq_nil_iff.1 hs)
  | space hc => simp_all

theorem At.lt (h : At line ps ts) (hts : ts ≠ []) : skipWhile isspace line ps < line.length := by
  obtain ⟨hle, hlex⟩ := h.start.1
  by_contra hge
  rw [drop_eq_nil_iff.2 (Nat.not_lt.1 hge)] at hlex
  cases hlex with
  | nil => exact hts rfl
  | word hl hw => exact hw (append_eq_nil_iff.1 hl.symm).1

end

end Slopix.Shell
