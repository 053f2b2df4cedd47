import Mathlib.Data.List.Chain
import Mathlib.Data.List.TakeWhile
import Slopix.As.Mov
import Slopix.Lib.Worklist

/-!
# Macros of the assembler

`pass1` collects macros and puts their bodies in the place of their uses, into the list of tokens that it goes through;
`pass2` expands the uses once more, with the macros that `pass1` has left. A pass ends when no macro is used inside of its
own expansion: a use is replaced by tokens that stand deeper, and there are only so many names.
-/

namespace Slopix.As

open Lib Relation List Option

/-! ## Tokens -/

/-- A kind of token, with what the lexer sets for it. -/
inductive Kind
  | newline | label (str : Option Name) | ident (str : Name) | register (r : Register) | number (val : BitVec 64)
  | string (str : Name) | hash | comma | lbracket | rbracket | bang | colon | equals | lo12 | dot | plus | minus | percent
  | lparen | rparen | pipe | lshift | backslash
  deriving DecidableEq, Repr

/-- `str` of a token; the one of a label that a macro has made may be NULL. -/
def Kind.str : Kind → Option Name
  | .label str => str
  | .ident str => some str
  | .string str => some str
  | _ => none

/-- A token. The last component is not in the program and nothing reads it: the macros in whose expansions it stands. -/
structure Token where
  kind : Kind
  lineNo : Nat
  inside : List Name
  deriving DecidableEq, Repr

/-- A macro. -/
structure Macro where
  name : Name
  params : List Name
  body : List Token
  deriving DecidableEq, Repr

/-- `.macro`. -/
def macroWord : Name := [0x2e, 0x6d, 0x61, 0x63, 0x72, 0x6f]

/-- `.endm`. -/
def endmWord : Name := [0x2e, 0x65, 0x6e, 0x64, 0x6d]

/-- The tokens up to the end of the line, and the newline. -/
def lineOf (ts : List Token) : List Token :=
  ts.takeWhile (·.kind ≠ .newline) ++ (ts.dropWhile (·.kind ≠ .newline)).take 1

/-- `skip_to_newline`, and over the newline. -/
def skipLine (ts : List Token) : List Token := (ts.dropWhile (·.kind ≠ .newline)).tail

/-! ## Expansion -/

/-- `macro_lookup`. -/
def macroLookup (macros : List Macro) (name : Name) : Option Macro := macros.find? fun m => m.name == name

/-- `find_param`. Comparing a name with a token without text is no result. -/
def findParam (params : List Name) (str : Option Name) : Option (Option Nat) :=
  if params = [] then some none else str.map fun name => params.idxOf? name

/-- `parse_macro_args`: what is put in `args`, and the tokens behind. -/
def parseMacroArgs : Nat → List Token → List Token × List Token
  | _, [] => ([], [])
  | n, t :: ts =>
    if t.kind = .newline ∨ n = 0 then ([], t :: ts)
    else if t.kind = .comma then parseMacroArgs n ts
    else (t :: (parseMacroArgs (n - 1) ts).1, (parseMacroArgs (n - 1) ts).2)

/-- The loop of `expand_macro`, after some tokens it passes over; reading what was not put in `args` is no result. -/
def expandBody (params : List Name) (args : List Token) (clone : Kind → Token) : Nat → List Token → Option (List Token)
  | _, [] => some []
  | skip + 1, _ :: ts => expandBody params args clone skip ts
  | 0, t :: ts =>
    match ts with
    | [] => some [clone t.kind]
    | p :: rest =>
      if t.kind = .backslash then
        match findParam params p.kind.str with
        | none => none
        | some none => (expandBody params args clone 0 ts).map (clone t.kind :: ·)
        | some (some idx) => args[idx]?.bind fun arg =>
          match p.kind, rest.head?.map Token.kind with
          | .label _, _ => (expandBody params args clone 1 ts).map (clone (.label arg.kind.str) :: ·)
          | .ident _, some .colon => (expandBody params args clone 2 ts).map (clone (.label arg.kind.str) :: ·)
          | _, _ => (expandBody params args clone 1 ts).map (clone arg.kind :: ·)
      else (expandBody params args clone 0 ts).map (clone t.kind :: ·)

/-- What one turn of a pass comes to: it goes on, the tokens are at their end, there is a message, or memory outside of an
array, or never set, is used. -/
inductive Outcome (σ : Type)
  | next (s : σ)
  | done
  | error
  | fault
  deriving DecidableEq, Repr

namespace Outcome

variable {σ τ : Type}

/-- The outcome with its state changed. -/
def map (f : σ → τ) : Outcome σ → Outcome τ
  | .next s => .next (f s)
  | .done => .done
  | .error => .error
  | .fault => .fault

/-- Where it goes on. -/
def next? : Outcome σ → Option σ
  | .next s => some s
  | _ => none

end Outcome

/-- A token in the expansion of a use. -/
def Token.clone (use : Token) (m : Macro) (kind : Kind) : Token := ⟨kind, use.lineNo, m.name :: use.inside⟩

/-- `MAX` of `args` and `macro_params`. -/
def maxParams : Nat := 16

/-- A use of a macro: `parse_macro_args`, `expand_macro` and `splice_tokens`. -/
def useMacro (m : Macro) (use : Token) (ts : List Token) : Outcome (List Token) :=
  if maxParams < (parseMacroArgs m.params.length ts).1.length then .fault
  else match expandBody m.params (parseMacroArgs m.params.length ts).1 (use.clone m) 0 m.body with
    | none => .fault
    | some expanded => .next (expanded ++ (parseMacroArgs m.params.length ts).2)

/-! ## The passes -/

/-- A turn of either pass outside of definitions. Directives and instructions that are refused end the assembler. -/
def scan (rejects : List Token → Bool) (macros : List Macro) (t : Token) (ts : List Token) : Outcome (List Token) :=
  match t.kind with
  | .ident name =>
    if name.head? = some 0x2e then if rejects (t :: ts) then .error else .next (skipLine ts)
    else match macroLookup macros name with
      | some m => useMacro m t ts
      | none => if rejects (t :: ts) then .error else .next (skipLine ts)
  | _ => .next ts

/-- The parameters on the line of `.macro`. -/
def paramsOf (ts : List Token) : List Name :=
  (ts.takeWhile (·.kind ≠ .newline)).filterMap fun t => match t.kind with
    | .ident str => some str
    | _ => none

/-- The state of `pass1`; a definition that is being collected has the tokens so far as its body. -/
structure Pass1 where
  tokens : List Token
  macros : List Macro
  collecting : Option Macro
  deriving DecidableEq, Repr

/-- A turn of `pass1`. -/
def Pass1.step (rejects : List Token → Bool) (s : Pass1) : Outcome Pass1 :=
  match s.tokens, s.collecting with
  | [], _ => .done
  | t :: ts, some m =>
    if t.kind = .ident endmWord then .next ⟨skipLine ts, m :: s.macros, none⟩
    else .next ⟨skipLine (t :: ts), s.macros, some { m with body := m.body ++ lineOf (t :: ts) }⟩
  | t :: ts, none =>
    if t.kind = .ident macroWord then
      match ts.head?.map Token.kind with
      | some (.ident name) =>
        if maxParams < (paramsOf ts.tail).length then .fault
        else .next ⟨skipLine ts, s.macros, some ⟨name, paramsOf ts.tail, []⟩⟩
      | _ => .error
    else if t.kind = .ident endmWord then .error
    -- `symtab_add(NULL)`
    else if t.kind = .label none then .fault
    else (scan rejects s.macros t ts).map fun tokens => { s with tokens }

/-- The state of `pass2`. -/
structure Pass2 where
  tokens : List Token
  skipMacroBody : Bool
  deriving DecidableEq, Repr

/-- A turn of `pass2`. -/
def Pass2.step (rejects : List Token → Bool) (macros : List Macro) (s : Pass2) : Outcome Pass2 :=
  match s.tokens with
  | [] => .done
  | t :: ts =>
    if s.skipMacroBody then .next ⟨skipLine (t :: ts), t.kind ≠ .ident endmWord⟩
    else if t.kind = .ident macroWord then .next ⟨skipLine ts, true⟩
    else (scan rejects macros t ts).map fun tokens => ⟨tokens, false⟩

/-- The tokens of a source, from the kinds and lines that the lexer gives. -/
def tokensOf (source : List (Kind × Nat)) : List Token := source.map fun x => ⟨x.1, x.2, []⟩

/-- What `pass1` gets to. -/
def Run1 (rejects : List Token → Bool) (source : List (Kind × Nat)) : Pass1 → Prop :=
  ReflTransGen (fun s s' => s.step rejects = .next s') ⟨tokensOf source, [], none⟩

/-- What `pass2` gets to. -/
def Run2 (rejects : List Token → Bool) (macros : List Macro) (source : List (Kind × Nat)) : Pass2 → Prop :=
  ReflTransGen (fun s s' => s.step rejects macros = .next s') ⟨tokensOf source, false⟩

/-! ## What is asked -/

/-- A part of a body: a token, or an argument, as it is or as a label. -/
inductive Part
  | plain (kind : Kind)
  | param (i : Nat)
  | label (i : Nat)

/-- The token starts the name of a parameter. -/
def Names (params : List Name) (t : Token) (ts : List Token) : Prop :=
  t.kind = .backslash ∧ ∃ p name, ts.head? = some p ∧ p.kind.str = some name ∧ name ∈ params

/-- How a body reads: a backslash and the name of a parameter stand for its argument, with a colon behind them for a
label. -/
inductive Reads (params : List Name) : List Token → List Part → Prop
  | nil : Reads params [] []
  | plain {t : Token} {ts : List Token} {parts : List Part} (hnot : ¬ Names params t ts) (h : Reads params ts parts) :
      Reads params (t :: ts) (.plain t.kind :: parts)
  | param {t p : Token} {ts : List Token} {parts : List Part} {name : Name} {i : Nat} (ht : t.kind = .backslash)
      (hp : p.kind = .ident name ∨ p.kind = .string name) (hi : params.idxOf? name = some i)
      (hcolon : p.kind = .ident name → ts.head?.map Token.kind ≠ some .colon) (h : Reads params ts parts) :
      Reads params (t :: p :: ts) (.param i :: parts)
  | label {t p : Token} {ts : List Token} {parts : List Part} {name : Name} {i : Nat} (ht : t.kind = .backslash)
      (hp : p.kind = .label (some name)) (hi : params.idxOf? name = some i) (h : Reads params ts parts) :
      Reads params (t :: p :: ts) (.label i :: parts)
  | labelColon {t p c : Token} {ts : List Token} {parts : List Part} {name : Name} {i : Nat} (ht : t.kind = .backslash)
      (hp : p.kind = .ident name) (hc : c.kind = .colon) (hi : params.idxOf? name = some i) (h : Reads params ts parts) :
      Reads params (t :: p :: c :: ts) (.label i :: parts)

/-- The arguments of a use: what stands between the commas on the rest of its line. -/
def argsOf (ts : List Token) : List (List Token) :=
  match ts.takeWhile (·.kind ≠ .newline) with
  | [] => []
  | line => line.splitOnP (·.kind = .comma)

/-- The part with the tokens of the arguments; what is followed by a colon is a label when it is one token with text. -/
def Part.fill (args : List (List Token)) : Part → List Kind
  | .plain kind => [kind]
  | .param i => (args.getD i []).map Token.kind
  | .label i => match (args.getD i []).map Token.kind with
    | [kind] => if kind.str = none then [kind, .colon] else [.label kind.str]
    | kinds => kinds ++ [.colon]

/-- What becomes of a use: the body with the arguments in place of the parameters, and behind it the next line. -/
def UseRight (m : Macro) (use : Token) (ts : List Token) (o : Outcome (List Token)) : Prop :=
  ∃ parts expanded, Reads m.params m.body parts ∧ expanded.map Token.kind = parts.flatMap (Part.fill (argsOf ts)) ∧
    (∀ t ∈ expanded, t.lineNo = use.lineNo) ∧ o = .next (expanded ++ ts.dropWhile (·.kind ≠ .newline))

/-- The macro whose use the tokens start with. -/
def usedMacro (macros : List Macro) (t : Token) : Option Macro :=
  match t.kind with
  | .ident name => if name.head? = some 0x2e then none else macroLookup macros name
  | _ => none

/-- Nothing goes wrong in memory, and a use with enough arguments is replaced by its expansion. -/
def TurnRight (macros : List Macro) (ts : List Token) (o : Outcome (List Token)) : Prop :=
  o ≠ .fault ∧ ∀ use rest, ts = use :: rest → ∀ m ∈ usedMacro macros use, m.params.length ≤ (argsOf rest).length →
    UseRight m use rest o

/-- The turn of `pass1` from this state is right; in a definition nothing is expanded. -/
def Pass1.Right (rejects : List Token → Bool) (s : Pass1) : Prop :=
  TurnRight (if s.collecting = none then s.macros else []) s.tokens ((s.step rejects).map Pass1.tokens)

/-- The turn of `pass2` from this state is right. -/
def Pass2.Right (rejects : List Token → Bool) (macros : List Macro) (s : Pass2) : Prop :=
  TurnRight (if s.skipMacroBody then [] else macros) s.tokens ((s.step rejects macros).map Pass2.tokens)

/-- Both passes end on the source, and every turn of them is right. -/
structure MacrosRight (rejects1 rejects2 : List Token → Bool) (source : List (Kind × Nat)) : Prop where
  right₁ : ∀ s, Run1 rejects1 source s → s.Right rejects1
  ends₁ : ∃ s, Run1 rejects1 source s ∧ ∀ s', s.step rejects1 ≠ .next s'
  right₂ : ∀ s, Run1 rejects1 source s → s.step rejects1 = .done → ∀ s2, Run2 rejects2 s.macros source s2 →
    s2.Right rejects2 s.macros
  ends₂ : ∀ s, Run1 rejects1 source s → s.step rejects1 = .done →
    ∃ s2, Run2 rejects2 s.macros source s2 ∧ ∀ s', s2.step rejects2 s.macros ≠ .next s'

/-! ## When it holds -/

/-- The tokens on the line that can be put in `args`. -/
def argTokens (ts : List Token) : List Token := (ts.takeWhile (·.kind ≠ .newline)).filter (·.kind ≠ .comma)

/-- The parameter that the tokens make a label of. -/
def labelAt (params : List Name) : List Token → Option Nat
  | t :: p :: rest => match t.kind, p.kind, rest.head?.map Token.kind with
    | .backslash, .label (some str), _ => params.idxOf? str
    | .backslash, .ident str, some .colon => params.idxOf? str
    | _, _, _ => none
  | _ => none

/-- A use has enough tokens on its line, no backslash in the body is before a token without text, and the use is not in an
expansion of the same macro. If there are enough arguments, there are no more than parameters, each is one token, and has
text where the body makes a label of it. -/
def UseFine (m : Macro) (use : Token) (ts : List Token) : Prop :=
  m.params.length ≤ (argTokens ts).length ∧
    (m.params = [] ∨ m.body.IsChain fun t p => t.kind = .backslash → p.kind.str ≠ none) ∧ m.name ∉ use.inside ∧
    (m.params.length ≤ (argsOf ts).length → (argsOf ts).length = m.params.length ∧ (∀ arg ∈ argsOf ts, arg.length = 1) ∧
      ∀ l ∈ m.body.tails, ∀ i ∈ labelAt m.params l, ∀ arg ∈ (argsOf ts).getD i [], arg.kind.str ≠ none)

instance (m : Macro) (use : Token) (ts : List Token) : Decidable (UseFine m use ts) :=
  inferInstanceAs (Decidable (_ ∧ _ ∧ _ ∧ (_ → _ ∧ _ ∧ _)))

/-- A state of `pass1` whose definition has at most 16 parameters, whose label has text, and whose use is fine. -/
def Pass1.Fine (s : Pass1) : Prop :=
  s.collecting = none → (s.tokens.head?.map Token.kind = some (.ident macroWord) → (paramsOf (s.tokens.drop 2)).length ≤ maxParams) ∧
    s.tokens.head?.map Token.kind ≠ some (.label none) ∧ ∀ use ∈ s.tokens.head?, ∀ m ∈ usedMacro s.macros use, UseFine m use s.tokens.tail

instance (s : Pass1) : Decidable s.Fine := inferInstanceAs (Decidable (_ → _ ∧ _ ∧ _))

/-- A state of `pass2` whose use is fine. -/
def Pass2.Fine (macros : List Macro) (s : Pass2) : Prop :=
  s.skipMacroBody = false → ∀ use ∈ s.tokens.head?, ∀ m ∈ usedMacro macros use, UseFine m use s.tokens.tail

instance (macros : List Macro) (s : Pass2) : Decidable (s.Fine macros) := inferInstanceAs (Decidable (_ → ∀ _ ∈ _, _))

section

variable {params : List Name} {args ts : List Token} {clone : Kind → Token} {n : Nat}

theorem parseMacroArgs_spec (n : Nat) (ts : List Token) :
    (parseMacroArgs n ts).1 = (argTokens ts).take n ∧ (parseMacroArgs n ts).2 <:+ ts := by
  induction ts generalizing n with
  | nil => exact ⟨take_nil.symm, suffix_refl []⟩
  | cons t ts ih =>
    unfold parseMacroArgs argTokens
    by_cases hline : t.kind = .newline
    · rw [if_pos (.inl hline), takeWhile_cons_of_neg (by simpa using hline)]
      exact ⟨take_nil.symm, suffix_refl _⟩
    rw [takeWhile_cons_of_pos (by simpa using hline)]
    by_cases hn : n = 0
    · rw [if_pos (.inr hn), hn]
      exact ⟨rfl, suffix_refl _⟩
    rw [if_neg (not_or.2 ⟨hline, hn⟩)]
    by_cases hcomma : t.kind = .comma
    · rw [if_pos hcomma, filter_cons_of_neg (by simpa using hcomma)]
      exact ⟨(ih n).1, (ih n).2.trans (suffix_cons t ts)⟩
    · obtain ⟨n, rfl⟩ := Nat.exists_eq_add_one_of_ne_zero hn
      rw [if_neg hcomma, filter_cons_of_pos (by simpa using hcomma), take_succ_cons]
      exact ⟨congrArg (t :: ·) (ih n).1, (ih n).2.trans (suffix_cons t ts)⟩

theorem parseMacroArgs_zero (ts : List Token) : parseMacroArgs 0 ts = ([], ts) := by
  cases ts <;> simp [parseMacroArgs]

/-- A line whose arguments are one token each is taken as a whole. -/
theorem parseMacroArgs_line (args line rest : List Token) (hline : ∀ t ∈ line, t.kind ≠ .newline)
    (hargs : line.splitOnP (·.kind = .comma) = args.map fun t => [t]) :
    parseMacroArgs args.length (line ++ rest) = (args, rest) := by
  induction args generalizing line with
  | nil => exact absurd hargs (splitOnP_ne_nil _ _)
  | cons arg args ih =>
    match line with
    | [] => simp at hargs
    | t :: line =>
      obtain ⟨ht, hline⟩ := forall_mem_cons.1 hline
      by_cases hcomma : t.kind = .comma
      · simp [splitOnP_cons_eq_if_modifyHead, hcomma] at hargs
      -- behind the token there is nothing, or a comma and the other arguments
      obtain ⟨piece, pieces, hpieces⟩ := exists_cons_of_ne_nil (splitOnP_ne_nil (fun t : Token => decide (t.kind = .comma)) line)
      obtain ⟨⟨rfl, rfl⟩, rfl⟩ : (t = arg ∧ piece = []) ∧ pieces = args.map fun t => [t] := by
        simpa [splitOnP_cons_eq_if_modifyHead, hcomma, hpieces] using hargs
      have htake : parseMacroArgs (t :: args).length (t :: line ++ rest) =
          (t :: (parseMacroArgs args.length (line ++ rest)).1, (parseMacroArgs args.length (line ++ rest)).2) := by
        simp [parseMacroArgs, ht, hcomma]
      rw [htake]
      match line with
      | [] =>
        obtain rfl : args = [] := by simpa using hpieces
        rw [nil_append, length_nil, parseMacroArgs_zero]
      | c :: line =>
        by_cases hc : c.kind = .comma
        · have hrest : line.splitOnP (·.kind = .comma) = args.map fun t => [t] := by
            simpa [splitOnP_cons_eq_if_modifyHead, hc] using hpieces
          have hpos : args.length ≠ 0 := fun h => splitOnP_ne_nil _ _ (hrest.trans (by simp [length_eq_zero_iff.1 h]))
          have hskip : parseMacroArgs args.length (c :: line ++ rest) = parseMacroArgs args.length (line ++ rest) := by
            rw [cons_append, parseMacroArgs, if_neg (by simp [hc, hpos]), if_pos hc]
          rw [hskip, ih line (forall_mem_cons.1 hline).2 hrest]
        · obtain ⟨q, qs, hq⟩ := exists_cons_of_ne_nil (splitOnP_ne_nil (fun t : Token => decide (t.kind = .comma)) line)
          simp [splitOnP_cons_eq_if_modifyHead, hc, hq] at hpieces

theorem exists_singles {α : Type} {l : List (List α)} (h : ∀ x ∈ l, x.length = 1) : ∃ xs : List α, l = xs.map fun x => [x] := by
  induction l with
  | nil => exact ⟨[], rfl⟩
  | cons y l ih =>
    obtain ⟨hy, hl⟩ := forall_mem_cons.1 h
    obtain ⟨x, rfl⟩ := length_eq_one_iff.1 hy
    obtain ⟨xs, rfl⟩ := ih hl
    exact ⟨x :: xs, rfl⟩

/-- Where every argument is one token, the loop ends at the end of the line. -/
theorem parseMacroArgs_args {args : List Token} (hargs : argsOf ts = args.map fun t => [t]) :
    parseMacroArgs args.length ts = (args, ts.dropWhile (·.kind ≠ .newline)) := by
  have hline : ∀ t ∈ ts.takeWhile (·.kind ≠ .newline), t.kind ≠ .newline := fun t ht => by
    simpa using mem_takeWhile_imp ht
  have hts := takeWhile_append_dropWhile (p := fun t : Token => decide (t.kind ≠ .newline)) (l := ts)
  unfold argsOf at hargs
  split at hargs
  · rename_i hnil
    obtain rfl : args = [] := map_eq_nil_iff.1 hargs.symm
    rw [length_nil, parseMacroArgs_zero]
    rw [hnil, nil_append] at hts
    rw [hts]
  · have htake := parseMacroArgs_line args _ (ts.dropWhile (·.kind ≠ .newline)) hline hargs
    rwa [hts] at htake

theorem expandBody_skip (k : Nat) (ts : List Token) :
    expandBody params args clone k ts = expandBody params args clone 0 (ts.drop k) := by
  induction k generalizing ts with
  | zero => rfl
  | succ k ih =>
    cases ts with
    | nil => rfl
    | cons t ts => exact ih ts

theorem findParam_eq {str : Option Name} (hstr : params = [] ∨ str ≠ none) :
    findParam params str = some none ∧ (∀ name, str = some name → name ∉ params) ∨
      ∃ name i, str = some name ∧ params.idxOf? name = some i ∧ i < params.length ∧ findParam params str = some (some i) := by
  unfold findParam
  by_cases hnil : params = []
  · subst hnil
    exact .inl ⟨if_pos rfl, nofun⟩
  rw [if_neg hnil]
  obtain ⟨name, rfl⟩ := ne_none_iff_exists'.1 (hstr.resolve_left hnil)
  cases hidx : params.idxOf? name with
  | none =>
    refine .inl ⟨congrArg some hidx, ?_⟩
    rintro _ ⟨⟩
    exact idxOf?_eq_none_iff.1 hidx
  | some i =>
    obtain ⟨hlt, -⟩ := idxOf?_eq_some_iff.1 hidx
    exact .inr ⟨name, i, rfl, hidx, hlt, congrArg some hidx⟩

/-- What the loop puts in place of a part. -/
def Part.put (args : List Token) : Part → Option Kind
  | .plain kind => some kind
  | .param i => args[i]?.map Token.kind
  | .label i => args[i]?.map fun arg => .label arg.kind.str

/-- A label of the body stands at one of its tokens. -/
theorem Reads.labels {parts : List Part} (h : Reads params ts parts) {i : Nat} (hi : .label i ∈ parts) :
    ∃ l ∈ ts.tails, labelAt params l = some i := by
  have hbehind : ∀ (front ts : List Token), (∃ l ∈ ts.tails, labelAt params l = some i) →
      ∃ l ∈ (front ++ ts).tails, labelAt params l = some i := fun front ts ⟨l, hl, hlabel⟩ =>
    ⟨l, (mem_tails ..).2 (((mem_tails ..).1 hl).trans (suffix_append ..)), hlabel⟩
  have hself : ∀ ts : List Token, ts ∈ ts.tails := fun ts => (mem_tails ..).2 (suffix_refl ts)
  induction h with
  | nil => cases hi
  | @plain t ts parts _ _ ih => exact hbehind [t] ts (ih ((mem_cons.1 hi).resolve_left nofun))
  | @param t p ts parts _ _ _ _ _ _ _ ih => exact hbehind [t, p] ts (ih ((mem_cons.1 hi).resolve_left nofun))
  | @label t p ts parts name j ht hp hidx _ ih =>
    rcases mem_cons.1 hi with heq | hi
    · cases heq
      exact ⟨_, hself _, by simp [labelAt, ht, hp, hidx]⟩
    · exact hbehind [t, p] ts (ih hi)
  | @labelColon t p c ts parts name j ht hp hc hidx _ ih =>
    rcases mem_cons.1 hi with heq | hi
    · cases heq
      exact ⟨_, hself _, by simp [labelAt, ht, hp, hc, hidx]⟩
    · exact hbehind [t, p, c] ts (ih hi)

/-- Arguments of one token, with text where they are labels, are put where they belong. -/
theorem fill_put {parts : List Part} {kinds : List Kind} (h : parts.map (Part.put args) = kinds.map some)
    (hlabels : ∀ i, .label i ∈ parts → ∀ arg ∈ args[i]?, arg.kind.str ≠ none) :
    kinds = parts.flatMap (Part.fill (args.map fun t => [t])) := by
  induction parts generalizing kinds with
  | nil => exact map_eq_nil_iff.1 h.symm
  | cons part parts ih =>
    obtain ⟨kind, kinds, rfl⟩ := exists_cons_of_ne_nil (l := kinds) (by rintro rfl; cases h)
    obtain ⟨hput, hrest⟩ := cons_eq_cons.1 h
    have hpart : part.fill (args.map fun t => [t]) = [kind] := by
      cases part with
      | plain k => exact congrArg (· :: []) (some.inj hput)
      | param i =>
        obtain ⟨arg, harg, rfl⟩ := map_eq_some_iff.1 hput
        simp [Part.fill, List.getD_eq_getElem?_getD, harg]
      | label i =>
        obtain ⟨arg, harg, rfl⟩ := map_eq_some_iff.1 hput
        have htext := hlabels i (mem_cons_self ..) arg harg
        simp [Part.fill, List.getD_eq_getElem?_getD, harg, htext]
    rw [flatMap_cons, hpart, ← ih hrest fun i hi => hlabels i (mem_cons_of_mem _ hi)]
    rfl

/-- The body reads as parts, and the loop fills them with the arguments. -/
def Expands (params : List Name) (args : List Token) (clone : Kind → Token) (ts : List Token) : Prop :=
  ∃ (parts : List Part) (kinds : List Kind), Reads params ts parts ∧ parts.map (Part.put args) = kinds.map some ∧
    expandBody params (args.take params.length) clone 0 ts = some (kinds.map clone) ∧
      ∀ k ∈ kinds, ∀ s, k.str = some s → ∃ t ∈ ts ++ args, t.kind.str = some s

/-- One more token, or a mark with its number, in front of a body that expands. -/
theorem Expands.cons (h : Expands params args clone ts) (front : List Token) {part : Part} {kind : Kind}
    (hreads : ∀ parts, Reads params ts parts → Reads params (front ++ ts) (part :: parts)) (hfill : part.put args = some kind)
    (hexpand : expandBody params (args.take params.length) clone 0 (front ++ ts) =
      (expandBody params (args.take params.length) clone 0 ts).map (clone kind :: ·))
    (hstr : ∀ s, kind.str = some s → ∃ t ∈ front ++ args, t.kind.str = some s) : Expands params args clone (front ++ ts) := by
  obtain ⟨parts, kinds, hparts, hkinds, hrest, hnames⟩ := h
  refine ⟨part :: parts, kind :: kinds, hreads parts hparts, ?_, ?_, ?_⟩
  · rw [map_cons, map_cons, hfill, hkinds]
  · rw [hexpand, hrest]
    rfl
  intro k hk s hs
  have hsub : ∀ t, t ∈ front ++ args ∨ t ∈ ts ++ args → t ∈ front ++ ts ++ args := by
    intro t ht
    simp only [mem_append] at ht ⊢
    tauto
  rcases mem_cons.1 hk with rfl | hk
  · obtain ⟨t, ht, hts⟩ := hstr s hs
    exact ⟨t, hsub t (.inl ht), hts⟩
  · obtain ⟨t, ht, hts⟩ := hnames k hk s hs
    exact ⟨t, hsub t (.inr ht), hts⟩

/-- **The loop of `expand_macro`** puts the arguments in the place of the parameters. -/
theorem expands (hclean : params = [] ∨ ts.IsChain fun t p => t.kind = .backslash → p.kind.str ≠ none)
    (hargs : params.length ≤ args.length) : Expands params args clone ts := by
  -- on the length, because a parameter is two or three tokens
  induction hn : ts.length using Nat.strongRecOn generalizing ts with
  | ind n ih =>
    subst hn
    have hless : ∀ front rest : List Token, ts = front ++ rest → front ≠ [] → Expands params args clone rest := by
      rintro front rest rfl hfront
      refine ih _ ?_ (hclean.imp_right fun h => h.right_of_append) rfl
      have hpos := length_pos_of_ne_nil hfront
      rw [length_append]
      omega
    have hown : ∀ (t : Token) (l : List Token) (s : Name), t.kind.str = some s → ∃ t' ∈ [t] ++ l, t'.kind.str = some s :=
      fun t l s hs => ⟨t, mem_cons_self .., hs⟩
    match ts with
    | [] => exact ⟨[], [], .nil, rfl, rfl, nofun⟩
    | [t] =>
      refine (hless [t] [] rfl (cons_ne_nil _ _)).cons [t] (fun _ => .plain ?_) rfl rfl (hown t args)
      rintro ⟨-, p, name, hp, -⟩
      cases hp
    | t :: p :: rest =>
      by_cases hback : t.kind = .backslash
      · have hstr : params = [] ∨ p.kind.str ≠ none := hclean.imp_right fun h => h.rel_head? rfl hback
        rcases findParam_eq hstr with ⟨hfind, hnot⟩ | ⟨name, i, hname, hidx, hlt, hfind⟩
        · refine (hless [t] (p :: rest) rfl (cons_ne_nil _ _)).cons [t] (fun _ => .plain ?_) rfl ?_
            (hown t args)
          · rintro ⟨-, _, name, ⟨⟩, hp, hmem⟩
            exact hnot name hp hmem
          · show expandBody _ _ _ 0 (t :: p :: rest) = _
            rw [expandBody, if_pos hback, hfind]
        -- the argument takes the place of two or three tokens
        obtain ⟨arg, harg⟩ : ∃ arg, args[i]? = some arg := ⟨_, getElem?_eq_getElem (hlt.trans_le hargs)⟩
        have hmem := mem_of_getElem? harg
        have hgiven : (args.take params.length)[i]? = some arg := by rw [getElem?_take_of_lt hlt, harg]
        have htext : ∀ (l : List Token) (s : Name), arg.kind.str = some s → ∃ t' ∈ l ++ args, t'.kind.str = some s :=
          fun l s hs => ⟨arg, mem_append_right l hmem, hs⟩
        have hplain : Part.put args (.param i) = some arg.kind := by rw [Part.put, harg, map_some]
        have hlabel : Part.put args (.label i) = some (.label arg.kind.str) := by rw [Part.put, harg, map_some]
        have hskip : ∀ k, expandBody params (args.take params.length) clone k (p :: rest) =
            expandBody params (args.take params.length) clone 0 ((p :: rest).drop k) := fun k => expandBody_skip k _
        cases hp : p.kind with
        | label str =>
          obtain rfl : str = some name := by rwa [hp] at hname
          refine (hless [t, p] rest rfl (cons_ne_nil _ _)).cons [t, p] (fun _ => .label hback hp hidx) hlabel ?_ (htext _)
          show expandBody _ _ _ 0 (t :: p :: rest) = _
          rw [expandBody, if_pos hback, hfind]
          simp only [hgiven, hp, hskip, bind_some, drop_succ_cons, drop_zero]
        | ident str =>
          obtain rfl : str = name := by rw [hp] at hname; exact some.inj hname
          by_cases hcolon : rest.head?.map Token.kind = some .colon
          · obtain ⟨c, hc, hkind⟩ := map_eq_some_iff.1 hcolon
            obtain ⟨rest, rfl⟩ := head?_eq_some_iff.1 hc
            refine (hless [t, p, c] rest rfl (cons_ne_nil _ _)).cons [t, p, c] (fun _ => .labelColon hback hp hkind hidx) hlabel ?_
              (htext _)
            show expandBody _ _ _ 0 (t :: p :: c :: rest) = _
            rw [expandBody, if_pos hback, hfind]
            simp only [hgiven, hp, hcolon, hskip, bind_some, drop_succ_cons, drop_zero]
          refine (hless [t, p] rest rfl (cons_ne_nil _ _)).cons [t, p] (fun _ => .param hback (.inl hp) hidx fun _ => hcolon)
            hplain ?_ (htext _)
          show expandBody _ _ _ 0 (t :: p :: rest) = _
          rw [expandBody, if_pos hback, hfind]
          simp only [hgiven, hp, hskip, bind_some, drop_succ_cons, drop_zero]
          cases hhead : rest.head?.map Token.kind with
          | none => rfl
          | some k => cases k <;> first | rfl | exact absurd hhead hcolon
        | string str =>
          obtain rfl : str = name := by rw [hp] at hname; exact some.inj hname
          refine (hless [t, p] rest rfl (cons_ne_nil _ _)).cons [t, p] (fun _ => .param hback (.inr hp) hidx ?_) hplain ?_
            (htext _)
          · intro hident
            rw [hp] at hident
            cases hident
          · show expandBody _ _ _ 0 (t :: p :: rest) = _
            rw [expandBody, if_pos hback, hfind]
            simp only [hgiven, hp, hskip, bind_some, drop_succ_cons, drop_zero]
        | _ => rw [hp] at hname; cases hname
      refine (hless [t] (p :: rest) rfl (cons_ne_nil _ _)).cons [t] (fun _ => .plain ?_) rfl ?_
          (hown t args)
      · exact fun h => hback h.1
      · show expandBody _ _ _ 0 (t :: p :: rest) = _
        rw [expandBody, if_neg hback]

end

/-! ## One turn -/

/-- The names are from the source, and a token is at most once in an expansion of a macro. -/
structure Placed (names : List Name) (t : Token) : Prop where
  str : ∀ s, t.kind.str = some s → s ∈ names
  inside : t.inside ⊆ names
  nodup : t.inside.Nodup

/-- The names are from the source, and the parameters have room in `args`. -/
structure Known (names : List Name) (m : Macro) : Prop where
  str : ∀ t ∈ m.body, ∀ s, t.kind.str = some s → s ∈ names
  params : m.params.length ≤ maxParams

/-- How much deeper a token can get. -/
def room (names : List Name) (t : Token) : Nat := names.length - t.inside.length

section

variable {names : List Name} {rejects : List Token → Bool} {macros : List Macro} {m : Macro} {t : Token} {ts : List Token}

theorem usedMacro_some (h : usedMacro macros t = some m) :
    t.kind.str = some m.name ∧ m ∈ macros ∧ scan rejects macros t ts = useMacro m t ts := by
  unfold usedMacro at h
  unfold scan
  cases hkind : t.kind with
  | ident name =>
    rw [hkind] at h
    dsimp only at h ⊢
    split at h
    · cases h
    rename_i hdot
    rw [if_neg hdot, h]
    have hname := find?_some h
    exact ⟨congrArg some (eq_of_beq hname).symm, mem_of_find?_eq_some h, rfl⟩
  | _ => rw [hkind] at h; cases h

theorem skipLine_suffix (ts : List Token) : skipLine ts <:+ ts :=
  (tail_suffix _).trans (dropWhile_suffix _)

theorem skipLine_cons_suffix (t : Token) (ts : List Token) : skipLine (t :: ts) <:+ ts := by
  unfold skipLine
  by_cases hline : t.kind = .newline
  · rw [dropWhile_cons_of_neg (by simpa using hline)]
    exact suffix_refl ts
  · rw [dropWhile_cons_of_pos (by simpa using hline)]
    exact skipLine_suffix ts

theorem usedMacro_none (h : usedMacro macros t = none) :
    scan rejects macros t ts = .error ∨ ∃ ts', scan rejects macros t ts = .next ts' ∧ ts' <:+ ts := by
  unfold usedMacro at h
  unfold scan
  cases hkind : t.kind with
  | ident name =>
    rw [hkind] at h
    dsimp only at h ⊢
    have hline : ∀ b : Bool, (if b then Outcome.error else .next (skipLine ts)) = .error ∨
        ∃ ts', (if b then Outcome.error else .next (skipLine ts)) = .next ts' ∧ ts' <:+ ts := by
      intro b
      cases b with
      | true => exact .inl rfl
      | false => exact .inr ⟨_, rfl, skipLine_suffix ts⟩
    split at h
    · rename_i hdot
      rw [if_pos hdot]
      exact hline _
    · rename_i hdot
      rw [if_neg hdot, h]
      exact hline _
  | _ => exact .inr ⟨ts, rfl, suffix_refl ts⟩

/-- **A use** is replaced by its expansion, whose tokens stand deeper. -/
theorem useMacro_right (hts : ∀ x ∈ t :: ts, Placed names x) (hname : t.kind.str = some m.name) (hm : Known names m)
    (hfine : UseFine m t ts) : (m.params.length ≤ (argsOf ts).length → UseRight m t ts (useMacro m t ts)) ∧
      ∃ ts', useMacro m t ts = .next ts' ∧ (∀ x ∈ ts', Placed names x) ∧ Shrinks (room names) ts' (t :: ts) := by
  obtain ⟨hargs, hclean, hapart, hall⟩ := hfine
  obtain ⟨hgiven, hsuffix⟩ := parseMacroArgs_spec m.params.length ts
  have hcount : (parseMacroArgs m.params.length ts).1.length = m.params.length := by
    rw [hgiven, length_take, Nat.min_eq_left hargs]
  obtain ⟨parts, kinds, hreads, hkinds, hexpand, hstr⟩ := expands hclean hcount.ge
  rw [take_of_length_le hcount.le] at hexpand
  have huse : useMacro m t ts = .next (kinds.map (t.clone m) ++ (parseMacroArgs m.params.length ts).2) := by
    unfold useMacro
    rw [if_neg (Nat.not_lt.2 (hcount.trans_le hm.params)), hexpand]
  obtain ⟨front, hfront⟩ := hsuffix
  have ht := hts t (mem_cons_self ..)
  have hin : m.name :: t.inside ⊆ names := cons_subset.2 ⟨ht.str _ hname, ht.inside⟩
  have hdup : (m.name :: t.inside).Nodup := nodup_cons.2 ⟨hapart, ht.nodup⟩
  refine ⟨fun hmany => ?_, _, huse, ?_, ?_⟩
  · obtain ⟨hlength, hone, hlabels⟩ := hall hmany
    obtain ⟨args, heq⟩ := exists_singles hone
    have htaken := parseMacroArgs_args heq
    rw [← length_map, ← heq, hlength] at htaken
    rw [htaken] at hkinds huse
    refine ⟨parts, kinds.map (t.clone m), hreads, ?_, fun x hx => ?_, huse⟩
    · rw [List.map_map, heq]
      refine (map_id'' (fun _ => rfl) kinds).trans (fill_put hkinds fun i hi arg harg => ?_)
      obtain ⟨l, hl, hlabel⟩ := hreads.labels hi
      refine hlabels l hl i hlabel arg ?_
      rw [heq]
      simp [List.getD_eq_getElem?_getD, Option.mem_def.1 harg]
    · obtain ⟨k, -, rfl⟩ := mem_map.1 hx
      rfl
  · intro x hx
    rcases mem_append.1 hx with hx | hx
    · obtain ⟨k, hk, rfl⟩ := mem_map.1 hx
      refine ⟨fun s hs => ?_, hin, hdup⟩
      obtain ⟨y, hy, hys⟩ := hstr k hk s hs
      rcases mem_append.1 hy with hy | hy
      · exact hm.str y hy s hys
      · refine (hts y (mem_cons_of_mem t ?_)).str s hys
        rw [hgiven] at hy
        exact (takeWhile_subset _) (mem_of_mem_filter (mem_of_mem_take hy))
    · exact hts x (mem_cons_of_mem t (hfront ▸ mem_append_right front hx))
  -- the new tokens stand one macro deeper, and no macro is twice on the way there
  refine ⟨_, t :: front, _, cons_ne_nil _ _, by rw [cons_append, hfront], rfl, fun x hx => ?_⟩
  obtain ⟨k, -, rfl⟩ := mem_map.1 hx
  refine ⟨t, mem_cons_self .., ?_⟩
  have hdeep : (m.name :: t.inside).length ≤ names.length := (hdup.subperm hin).length_le
  show names.length - (m.name :: t.inside).length < names.length - t.inside.length
  rw [length_cons] at hdeep ⊢
  omega

/-- **A turn outside of definitions** is right, and leaves a shorter list or tokens that stand deeper. -/
theorem scan_right (hts : ∀ x ∈ t :: ts, Placed names x) (hmacros : ∀ m ∈ macros, Known names m)
    (hfine : ∀ m ∈ usedMacro macros t, UseFine m t ts) : TurnRight macros (t :: ts) (scan rejects macros t ts) ∧
      ∀ ts', scan rejects macros t ts = .next ts' → (∀ x ∈ ts', Placed names x) ∧ Shrinks (room names) ts' (t :: ts) := by
  cases hused : usedMacro macros t with
  | none =>
    obtain herror | ⟨ts', hnext, hsuffix⟩ := usedMacro_none hused
    · rw [herror]
      exact ⟨⟨nofun, by rintro _ _ ⟨⟩ m hm; rw [hused] at hm; cases hm⟩, nofun⟩
    rw [hnext]
    refine ⟨⟨nofun, by rintro _ _ ⟨⟩ m hm; rw [hused] at hm; cases hm⟩, ?_⟩
    rintro _ ⟨⟩
    exact ⟨fun x hx => hts x (mem_cons_of_mem t (hsuffix.subset hx)), Shrinks.of_suffix hsuffix⟩
  | some m =>
    obtain ⟨hname, hmem, hscan⟩ := usedMacro_some hused
    obtain ⟨hright, ts', hnext, hplaced, hless⟩ := useMacro_right hts hname (hmacros m hmem) (hfine m hused)
    rw [hscan]
    refine ⟨⟨by rw [hnext]; nofun, ?_⟩, ?_⟩
    · rintro _ _ ⟨⟩ m' hm' hmany
      obtain rfl := some.inj (hused.symm.trans hm')
      exact hright hmany
    intro ts'' hts''
    rw [hnext] at hts''
    cases hts''
    exact ⟨hplaced, hless⟩

theorem usedMacro_nil (t : Token) : usedMacro [] t = none := by
  unfold usedMacro macroLookup
  cases t.kind with
  | ident name => exact ite_self _
  | _ => rfl

theorem usedMacro_dot {name : Name} (hkind : t.kind = .ident name) (hdot : name.head? = some 0x2e) : usedMacro macros t = none := by
  unfold usedMacro
  rw [hkind]
  exact if_pos hdot

theorem turnRight_of_none {o : Outcome (List Token)} (ho : o ≠ .fault) (h : usedMacro macros t = none) :
    TurnRight macros (t :: ts) o := by
  refine ⟨ho, ?_⟩
  rintro _ _ ⟨⟩ m hm
  rw [h] at hm
  cases hm

theorem mem_lineOf (ts : List Token) {x : Token} (h : x ∈ lineOf ts) : x ∈ ts := by
  rcases mem_append.1 h with h | h
  · exact takeWhile_subset _ h
  · exact dropWhile_subset _ (mem_of_mem_take h)

end

/-! ## The passes -/

section

variable {names : List Name} {rejects : List Token → Bool} {macros : List Macro}

/-- What holds between the turns of `pass1`. -/
structure Pass1.Inv (names : List Name) (s : Pass1) : Prop where
  tokens : ∀ x ∈ s.tokens, Placed names x
  macros : ∀ m ∈ s.macros, Known names m
  collecting : ∀ m ∈ s.collecting, Known names m

/-- **A turn of `pass1`**. -/
theorem Pass1.Inv.step {s : Pass1} (h : s.Inv names) (hfine : s.Fine) : s.Right rejects ∧
    ∀ s', s.step rejects = .next s' → s'.Inv names ∧ Shrinks (room names) s'.tokens s.tokens := by
  obtain ⟨tokens, macros, collecting⟩ := s
  obtain ⟨htokens, hmacros, hcollecting⟩ := h
  cases tokens with
  | nil => exact ⟨⟨nofun, nofun⟩, nofun⟩
  | cons t ts =>
    have hrest : ∀ ts', ts' <:+ ts → ∀ x ∈ ts', Placed names x := fun ts' hts' x hx =>
      htokens x (mem_cons_of_mem t (hts'.subset hx))
    cases collecting with
    | some m =>
      -- the end of a definition, or one more line of it
      have hm := hcollecting m rfl
      by_cases hendm : t.kind = .ident endmWord
      · have hstep : Pass1.step rejects ⟨t :: ts, macros, some m⟩ = .next ⟨skipLine ts, m :: macros, none⟩ := if_pos hendm
        unfold Pass1.Right
        rw [hstep]
        refine ⟨turnRight_of_none nofun (usedMacro_nil t), ?_⟩
        rintro _ ⟨⟩
        exact ⟨⟨hrest _ (skipLine_suffix ts), forall_mem_cons.2 ⟨hm, hmacros⟩, nofun⟩,
          Shrinks.of_suffix (skipLine_suffix ts)⟩
      have hstep : Pass1.step rejects ⟨t :: ts, macros, some m⟩ =
          .next ⟨skipLine (t :: ts), macros, some { m with body := m.body ++ lineOf (t :: ts) }⟩ := if_neg hendm
      unfold Pass1.Right
      rw [hstep]
      refine ⟨turnRight_of_none nofun (usedMacro_nil t), ?_⟩
      rintro _ ⟨⟩
      refine ⟨⟨hrest _ (skipLine_cons_suffix t ts), hmacros, ?_⟩, Shrinks.of_suffix (skipLine_cons_suffix t ts)⟩
      rintro _ ⟨⟩
      refine ⟨fun x hx => ?_, hm.params⟩
      rcases mem_append.1 hx with hx | hx
      · exact hm.str x hx
      · exact (htokens x (mem_lineOf _ hx)).str
    | none =>
      obtain ⟨hparams, hlabel, huse⟩ := hfine rfl
      by_cases hmacro : t.kind = .ident macroWord
      · have hstep : Pass1.step rejects ⟨t :: ts, macros, none⟩ = match ts.head?.map Token.kind with
            | some (.ident name) =>
              if maxParams < (paramsOf ts.tail).length then .fault
              else .next ⟨skipLine ts, macros, some ⟨name, paramsOf ts.tail, []⟩⟩
            | _ => .error := if_pos hmacro
        have hcount : (paramsOf ts.tail).length ≤ maxParams := by
          have hcount := hparams (congrArg some hmacro)
          rwa [drop_succ_cons, drop_one] at hcount
        have hcases : (∃ name, Pass1.step rejects ⟨t :: ts, macros, none⟩ =
            .next ⟨skipLine ts, macros, some ⟨name, paramsOf ts.tail, []⟩⟩) ∨
              Pass1.step rejects ⟨t :: ts, macros, none⟩ = .error := by
          rw [hstep]
          split
          · rename_i name _
            exact .inl ⟨name, if_neg (Nat.not_lt.2 hcount)⟩
          · exact .inr rfl
        have hnone : usedMacro macros t = none := usedMacro_dot hmacro rfl
        unfold Pass1.Right
        obtain ⟨name, hnext⟩ | herror := hcases
        · rw [hnext]
          refine ⟨turnRight_of_none nofun hnone, ?_⟩
          rintro _ ⟨⟩
          refine ⟨⟨hrest _ (skipLine_suffix ts), hmacros, ?_⟩, Shrinks.of_suffix (skipLine_suffix ts)⟩
          rintro _ ⟨⟩
          exact ⟨nofun, hcount⟩
        · rw [herror]
          exact ⟨turnRight_of_none nofun hnone, nofun⟩
      by_cases hendm : t.kind = .ident endmWord
      · have hstep : Pass1.step rejects ⟨t :: ts, macros, none⟩ = .error := (if_neg hmacro).trans (if_pos hendm)
        unfold Pass1.Right
        rw [hstep]
        exact ⟨turnRight_of_none nofun (usedMacro_dot hendm rfl), nofun⟩
      have hstep : Pass1.step rejects ⟨t :: ts, macros, none⟩ =
          (scan rejects macros t ts).map fun tokens => ⟨tokens, macros, none⟩ :=
        (if_neg hmacro).trans ((if_neg hendm).trans (if_neg fun h => hlabel (congrArg some h)))
      obtain ⟨hright, hnext⟩ := scan_right htokens hmacros (huse t rfl)
      unfold Pass1.Right
      rw [hstep]
      cases hscan : scan rejects macros t ts with
      | next ts' =>
        rw [hscan] at hright
        refine ⟨hright, ?_⟩
        rintro _ ⟨⟩
        obtain ⟨hplaced, hless⟩ := hnext ts' hscan
        exact ⟨⟨hplaced, hmacros, nofun⟩, hless⟩
      | _ => rw [hscan] at hright; exact ⟨hright, nofun⟩

/-- **A turn of `pass2`**. -/
theorem Pass2.step_right {s : Pass2} (htokens : ∀ x ∈ s.tokens, Placed names x) (hmacros : ∀ m ∈ macros, Known names m)
    (hfine : s.Fine macros) : s.Right rejects macros ∧
      ∀ s', s.step rejects macros = .next s' → (∀ x ∈ s'.tokens, Placed names x) ∧ Shrinks (room names) s'.tokens s.tokens := by
  obtain ⟨tokens, skipping⟩ := s
  cases tokens with
  | nil => exact ⟨⟨nofun, nofun⟩, nofun⟩
  | cons t ts =>
    have hskip : ∀ ts', ts' <:+ ts → (∀ x ∈ ts', Placed names x) ∧ Shrinks (room names) ts' (t :: ts) := fun ts' hts' =>
      ⟨fun x hx => htokens x (mem_cons_of_mem t (hts'.subset hx)), Shrinks.of_suffix hts'⟩
    cases skipping with
    | true =>
      refine ⟨turnRight_of_none nofun (usedMacro_nil t), ?_⟩
      rintro _ ⟨⟩
      exact hskip _ (skipLine_cons_suffix t ts)
    | false =>
      unfold Pass2.Right
      by_cases hmacro : t.kind = .ident macroWord
      · have hstep : Pass2.step rejects macros ⟨t :: ts, false⟩ = .next ⟨skipLine ts, true⟩ := if_pos hmacro
        rw [hstep]
        refine ⟨turnRight_of_none nofun (usedMacro_dot hmacro rfl), ?_⟩
        rintro _ ⟨⟩
        exact hskip _ (skipLine_suffix ts)
      have hstep : Pass2.step rejects macros ⟨t :: ts, false⟩ =
          (scan rejects macros t ts).map fun tokens => ⟨tokens, false⟩ := if_neg hmacro
      obtain ⟨hright, hnext⟩ := scan_right htokens hmacros (hfine rfl t rfl)
      rw [hstep]
      cases hscan : scan rejects macros t ts with
      | next ts' =>
        rw [hscan] at hright
        refine ⟨hright, ?_⟩
        rintro _ ⟨⟩
        exact hnext ts' hscan
      | _ => rw [hscan] at hright; exact ⟨hright, nofun⟩

/-- The lines `.macro m a`, `\a` and `.endm`, and a use. -/
def oneParam (use : List (Kind × Nat)) : List (Kind × Nat) :=
  [(.ident macroWord, 1), (.ident [0x6d], 1), (.ident [0x61], 1), (.newline, 1), (.backslash, 2), (.ident [0x61], 2), (.newline, 2),
    (.ident endmWord, 3), (.newline, 3)] ++ use

/-- The macros that `pass1` leaves. -/
def oneMacro : List Macro := [⟨[0x6d], [[0x61]], [⟨.backslash, 2, []⟩, ⟨.ident [0x61], 2, []⟩, ⟨.newline, 2, []⟩]⟩]

/-- The states from some state on. -/
def trace {σ : Type} (step : σ → Outcome σ) : Nat → σ → List σ
  | 0, s => [s]
  | n + 1, s => s :: ((step s).next?.map (trace step n)).getD []

theorem mem_trace {σ : Type} {step : σ → Outcome σ} {n : Nat} {s0 s : σ}
    (hl : ∀ s ∈ trace step n s0, ∀ s' ∈ (step s).next?, s' ∈ trace step n s0)
    (hrun : ReflTransGen (fun s s' => step s = .next s') s0 s) : s ∈ trace step n s0 := by
  refine mem_of_closed (fun s hs s' hnext => hl s hs s' (by rw [hnext]; rfl)) ?_ hrun
  cases n <;> exact mem_cons_self ..

end

end Slopix.As
