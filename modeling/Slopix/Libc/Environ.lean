import Mathlib.Data.Finmap
import Slopix.Lib.Simulation
import Slopix.Libc.Heap

/-!
# The environment

`getenv`, `setenv` and `unsetenv` of `libc/stdlib.c`. Every entry is a string `NAME=value` in a block of its own. A
block that is not allocated cannot be read, and a call that reads one has no result. `malloc` answers with NULL or
with a block that is not in use. The reference is a finite map from names to values.
-/

namespace Slopix.Environ

open Lib List Function Option

/-! ## The code -/

/-- The room of `environ_storage`. -/
def ENV_MAX : Nat := 64

/-- A string of a caller: NULL, text that ends with a NUL, or a place in an entry. -/
inductive Str where
  | null
  | own (text : List UInt8)
  | stored (block off : Nat)
  deriving DecidableEq

/-- The blocks of the entries by address, and `environ_storage` up to `environ_count`. -/
structure Env where
  blocks : Nat → Option (List UInt8)
  storage : List Nat

/-- `strncmp(s1, s2, n) == 0` -/
def strncmpZero : Nat → List UInt8 → List UInt8 → Option Bool
  | 0, _, _ => some true
  | n + 1, a :: s1, b :: s2 => if a ≠ 0 ∧ a = b then strncmpZero n s1 s2 else some (a = b)
  | _ + 1, _, _ => none

namespace Env

variable (e : Env)

/-- The bytes at a string, as far as its block reaches. -/
def bytesAt : Str → Option (List UInt8)
  | .null => none
  | .own s => some (s ++ [0])
  | .stored a off => (e.blocks a).map fun s => s.drop off

/-- The string at a pointer, up to the NUL. -/
def text (p : Str) : Option (List UInt8) :=
  (e.bytesAt p).bind fun s => if 0 ∈ s then some (s.takeWhile (· ≠ 0)) else none

/-- The `n` bytes that `memcpy` reads. -/
def copy (p : Str) (n : Nat) : Option (List UInt8) :=
  (e.bytesAt p).bind fun s => if n ≤ s.length then some (s.take n) else none

/-- The condition of the three loops. -/
def isEntry (name : Str) (namelen p : Nat) : Option Bool :=
  if p = 0 then some false
  else
    (e.blocks p).bind fun s => (e.bytesAt name).bind fun t => (strncmpZero namelen s t).bind fun same =>
      if same then s[namelen]?.map fun c => c = 0x3d else some false

/-- The index of the first entry of a name, from index `i` on. -/
def find (name : Str) (namelen : Nat) : List Nat → Nat → Option (Option Nat)
  | [], _ => some none
  | p :: ps, i => (e.isEntry name namelen p).bind fun hit => if hit then some (some i) else find name namelen ps (i + 1)

/-- `getenv`: what follows the `=` of the first entry of the name. -/
def getenv (name : Str) : Option Str :=
  if name = .null then some .null
  else
    (e.text name).bind fun n =>
      if n = [] then some .null
      else (e.find name n.length e.storage 0).map fun r => r.elim .null fun i => .stored (e.storage.getD i 0) (n.length + 1)

/-- A block given back. -/
def free (p : Nat) : Env := { e with blocks := Function.update e.blocks p none }

/-- The entry is written into the block that `malloc` gave. -/
def makeEntry (a : Nat) (name value : Str) (namelen vallen : Nat) : Option Env :=
  if a = 0 ∨ (e.blocks a).isSome then none
  else
    (e.copy name namelen).bind fun s => (e.copy value (vallen + 1)).map fun t =>
      { e with blocks := Function.update e.blocks a (some (s ++ 0x3d :: t)) }

/-- `setenv`; `given` is the answer of `malloc`. -/
def setenv (given : Option Nat) (name value : Str) (overwrite : Int) : Option (Int × Env) :=
  if name = .null then some (-1, e)
  else
    (e.text name).bind fun n =>
      if n = [] ∨ 0x3d ∈ n then some (-1, e)
      else
        (e.text value).bind fun v => (e.find name n.length e.storage 0).bind fun r =>
          match r with
          | some i =>
            if overwrite = 0 then some (0, e)
            else
              let e := e.free (e.storage.getD i 0)
              match given with
              | none => some (-1, e)
              | some a =>
                (e.makeEntry a name value n.length v.length).map fun e => (0, { e with storage := e.storage.set i a })
          | none =>
            if ENV_MAX ≤ e.storage.length then some (-1, e)
            else
              match given with
              | none => some (-1, e)
              | some a =>
                (e.makeEntry a name value n.length v.length).map fun e => (0, { e with storage := e.storage ++ [a] })

/-- `unsetenv`: the entry is freed and the last one takes its place. -/
def unsetenv (name : Str) : Option (Int × Env) :=
  if name = .null then some (-1, e)
  else
    (e.text name).bind fun n =>
      if n = [] ∨ 0x3d ∈ n then some (-1, e)
      else
        (e.find name n.length e.storage 0).map fun r =>
          match r with
          | some i =>
            let e := e.free (e.storage.getD i 0)
            (0, { e with storage := (e.storage.set i (e.storage.getD (e.storage.length - 1) 0)).dropLast })
          | none => (0, e)

end Env

/-! ## Runs -/

/-- What a caller passes: NULL, text of its own, or what `getenv` gives it, `off` bytes further on. -/
inductive Arg where
  | null
  | own (text : List UInt8)
  | got (name : List UInt8) (off : Nat)

/-- The calls, with the answer of `malloc`. -/
inductive EnvCall where
  | getenv (name : Arg)
  | setenv (name value : Arg) (overwrite : Int) (given : Option Nat)
  | unsetenv (name : Arg)

/-- What a call returns; for `getenv` the text at the pointer. -/
inductive Answer where
  | text (t : Option (List UInt8))
  | status (r : Int)

/-- `s + k` of a string. -/
def Str.add (k : Nat) : Str → Str
  | .null => .null
  | .own s => .own (s.drop k)
  | .stored a off => .stored a (off + k)

/-- The string that a caller passes: its own, or one that `getenv` has returned. -/
def Env.arg (e : Env) : Arg → Option Str
  | .null => some .null
  | .own s => some (.own s)
  | .got n k => (e.getenv (.own n)).map (Str.add k)

/-- One call. -/
def Env.step (e : Env) : EnvCall → Option (Answer × Env)
  | .getenv name =>
    (e.arg name).bind fun p => (e.getenv p).bind fun q =>
      if q = .null then some (.text none, e) else (e.text q).map fun t => (.text (some t), e)
  | .setenv name value overwrite given =>
    (e.arg name).bind fun p => (e.arg value).bind fun q =>
      (e.setenv given p q overwrite).map fun r => (.status r.1, r.2)
  | .unsetenv name => (e.arg name).bind fun p => (e.unsetenv p).map fun r => (.status r.1, r.2)

/-- No variables. -/
def Env.start : Env := ⟨fun _ => none, []⟩

/-! ## The finite map -/

/-- The abstract environment: a map from names to values. -/
abbrev EnvMap := Finmap fun _ : List UInt8 => List UInt8

/-- The text that an argument stands for in the map. -/
def EnvMap.arg (m : EnvMap) : Arg → Option (List UInt8)
  | .null => none
  | .own s => some (s.takeWhile (· ≠ 0))
  | .got n k => (m.lookup (n.takeWhile (· ≠ 0))).map fun v => v.drop k

/-- The calls on the map. A name that is NULL, empty or has a `=` is refused; `stored` says whether there was memory. -/
def EnvMap.set (m : EnvMap) (n v : List UInt8) (overwrite : Int) (stored : Bool) : Int × EnvMap :=
  if n = [] ∨ 0x3d ∈ n then (-1, m)
  else if n ∈ m ∧ overwrite = 0 then (0, m)
  else if stored = true ∧ (n ∈ m ∨ m.keys.card < ENV_MAX) then (0, m.insert n v)
  else (-1, m)

/-- What a call does to the map and answers. -/
def EnvMap.step (m : EnvMap) : EnvCall → Answer × EnvMap
  | .getenv name => (.text ((m.arg name).bind fun n => m.lookup n), m)
  | .setenv name value overwrite given =>
    let r := ((m.arg name).bind fun n => (m.arg value).map fun v => m.set n v overwrite given.isSome).getD (-1, m)
    (.status r.1, r.2)
  | .unsetenv name =>
    let r := ((m.arg name).map fun n => if n = [] ∨ 0x3d ∈ n then ((-1 : Int), m) else (0, m.erase n)).getD (-1, m)
    (.status r.1, r.2)

/-! ## The claim's domain and the defect -/

section

variable (e : Env)

/-- The text of an argument in the environment of the code. -/
def Env.argText (a : Arg) : Option (List UInt8) := (e.arg a).bind e.text

/-- The entry of the name at a pointer. -/
def Env.entryAt (p : Str) : Option Nat :=
  (e.text p).bind fun n =>
    if n = [] ∨ 0x3d ∈ n then none
    else (e.find p n.length e.storage 0).bind fun r => r.map fun i => e.storage.getD i 0

/-- The entry that a call with this name replaces. -/
def Env.replaced (name : Arg) : Option Nat := (e.arg name).bind e.entryAt

/-- An argument is NULL or a string, and where it comes from `getenv` the name had no `=`. -/
def Env.Points (a : Arg) : Prop :=
  (∀ n k, a = .got n k → 0x3d ∉ n.takeWhile (· ≠ 0)) ∧ ∀ p, e.arg a = some p → p = .null ∨ (e.text p).isSome = true

/-- What a caller may do, and what `malloc` promises: NULL or a block that is not in use. -/
def Env.Proper : EnvCall → Prop
  | .getenv name => e.Points name ∧ ∀ n, e.argText name = some n → 0x3d ∉ n
  | .setenv name value _ given =>
    e.Points name ∧ e.Points value ∧ e.argText value ≠ none ∧
      ∀ a, given = some a → a ≠ 0 ∧ (e.blocks a = none ∨ e.replaced name = some a)
  | .unsetenv name => e.Points name

/-- Where `setenv` replaces an entry, `malloc` succeeds and no argument points into this entry. -/
def Env.Safe : EnvCall → Prop
  | .setenv name value overwrite given =>
    ∀ p, e.replaced name = some p → overwrite ≠ 0 →
      given ≠ none ∧ ∀ off, e.arg name ≠ some (.stored p off) ∧ e.arg value ≠ some (.stored p off)
  | _ => True

end

/-! ## Strings -/

section

variable {e : Env} {p : Str} {n r s : List UInt8}

theorem takeWhile_stop {α : Type} {q : α → Bool} {n r : List α} {c : α} (hn : ∀ a ∈ n, q a = true) (hc : q c = false) :
    (n ++ c :: r).takeWhile q = n := by
  rw [takeWhile_append_of_pos hn, takeWhile_cons_of_neg (by simp [hc]), append_nil]

theorem text_stop (hn : 0 ∉ n) (r : List UInt8) : (n ++ 0 :: r).takeWhile (fun c => decide (c ≠ 0)) = n :=
  takeWhile_stop (fun a ha => decide_eq_true fun hzero => hn (hzero ▸ ha)) (by simp)

theorem text_bytes (h : e.text p = some n) : ∃ r, e.bytesAt p = some (n ++ 0 :: r) ∧ 0 ∉ n := by
  unfold Env.text at h
  cases hbytes : e.bytesAt p with
  | none =>
    rw [hbytes] at h
    cases h
  | some s =>
    rw [hbytes, bind_some] at h
    by_cases hzero : 0 ∈ s
    · obtain ⟨w, r, rfl, hw⟩ := eq_append_cons_of_mem hzero
      rw [if_pos hzero, text_stop hw, some.injEq] at h
      exact ⟨r, by rw [h], h ▸ hw⟩
    · rw [if_neg hzero] at h
      cases h

theorem text_of_bytes (h : e.bytesAt p = some (n ++ 0 :: r)) (hn : 0 ∉ n) : e.text p = some n := by
  unfold Env.text
  rw [h, bind_some, if_pos (by simp), text_stop hn]

theorem copy_of_bytes (h : e.bytesAt p = some (n ++ 0 :: r)) :
    e.copy p n.length = some n ∧ e.copy p (n.length + 1) = some (n ++ [0]) := by
  unfold Env.copy
  rw [h, bind_some, bind_some, if_pos (by simp), if_pos (by simp)]
  exact ⟨by simp, by simp [take_append]⟩

/-- `strncmp` over the length of a name that is not cut off by a NUL. -/
theorem strncmpZero_eq {s : List UInt8} (hs : 0 ∈ s) (hn : 0 ∉ n) :
    strncmpZero n.length s (n ++ r) = some (decide (n <+: s)) := by
  induction n generalizing s with
  | nil => simp [strncmpZero]
  | cons b n ih =>
    cases s with
    | nil => simp at hs
    | cons a s =>
      rw [length_cons, cons_append, strncmpZero]
      simp only [mem_cons, not_or] at hs hn
      by_cases hab : a ≠ 0 ∧ a = b
      · obtain ⟨hzero, rfl⟩ := hab
        rw [if_pos ⟨hzero, rfl⟩, ih (hs.resolve_left (Ne.symm hzero)) hn.2]
        simp [cons_prefix_cons]
      have hne : a ≠ b := by
        rintro rfl
        exact hab ⟨fun h => hn.1 h.symm, rfl⟩
      simp [cons_prefix_cons, hne, Ne.symm hne]

end

/-! ## Entries -/

/-- An entry, as the map has it. -/
structure Entry where
  ptr : Nat
  name : List UInt8
  value : List UInt8
  nonzero : ptr ≠ 0
  named : name ≠ []
  plain : 0x3d ∉ name
  name_ends : 0 ∉ name
  value_ends : 0 ∉ value

/-- What its block holds. -/
def Entry.bytes (t : Entry) : List UInt8 := t.name ++ 0x3d :: (t.value ++ [0])

theorem Entry.name_iff (t : Entry) {n : List UInt8} (hn : 0x3d ∉ n) :
    (n <+: t.bytes ∧ t.bytes[n.length]? = some 0x3d) ↔ t.name = n := by
  constructor
  · rintro ⟨⟨w, hw⟩, hc⟩
    rw [← hw, getElem?_append_right (Nat.le_refl _), Nat.sub_self] at hc
    obtain ⟨w, rfl⟩ : ∃ w', w = 0x3d :: w' := by
      cases w with
      | nil => cases hc
      | cons c w => exact ⟨w, by rw [getElem?_cons_zero, some.injEq] at hc; rw [hc]⟩
    have hstop : ∀ m : List UInt8, 0x3d ∉ m → ∀ u, (m ++ 0x3d :: u).takeWhile (fun c => decide (c ≠ 0x3d)) = m :=
      fun m hm u => takeWhile_stop (fun a ha => decide_eq_true fun heq => hm (heq ▸ ha)) (by simp)
    rw [← hstop t.name t.plain (t.value ++ [0]), ← hstop n hn w, hw, Entry.bytes]
  · rintro rfl
    exact ⟨⟨_, rfl⟩, by simp [Entry.bytes]⟩

section

variable {e : Env} {p : Str} {n r : List UInt8}

theorem isEntry_eq {t : Entry} (ht : e.blocks t.ptr = some t.bytes) (h : e.bytesAt p = some (n ++ 0 :: r)) (hn : 0 ∉ n)
    (hplain : 0x3d ∉ n) : e.isEntry p n.length t.ptr = some (decide (t.name = n)) := by
  unfold Env.isEntry
  have hends : 0 ∈ t.bytes := by simp [Entry.bytes]
  rw [if_neg t.nonzero, ht, h, bind_some, bind_some, strncmpZero_eq hends hn, bind_some]
  by_cases hfront : n <+: t.bytes
  · rw [if_pos (decide_eq_true hfront)]
    cases hc : t.bytes[n.length]? with
    | none =>
      -- the string goes on after the name
      obtain ⟨w, hw⟩ := hfront
      have hlen : t.bytes.length = n.length + w.length := by rw [← hw, length_append]
      have hw0 : w = [] := length_eq_zero_iff.mp (by
        have := getElem?_eq_none_iff.mp hc
        omega)
      rw [hw0, append_nil] at hw
      exact absurd (hw ▸ hends) hn
    | some c =>
      rw [map_some, some.injEq, decide_eq_decide, ← t.name_iff hplain, hc, some.injEq]
      exact (and_iff_right hfront).symm
  · rw [if_neg (by simpa using hfront)]
    have hne : t.name ≠ n := fun heq => hfront ((t.name_iff hplain).mpr heq).1
    rw [decide_eq_false hne]

/-- **The loop finds the entry of the name.** -/
theorem find_spec {L : List Entry} (hL : ∀ t ∈ L, e.blocks t.ptr = some t.bytes) (h : e.bytesAt p = some (n ++ 0 :: r))
    (hn : 0 ∉ n) (hplain : 0x3d ∉ n) (i : Nat) :
    ((∀ t ∈ L, t.name ≠ n) ∧ e.find p n.length (L.map Entry.ptr) i = some none) ∨
      ∃ A t B, L = A ++ t :: B ∧ t.name = n ∧ e.find p n.length (L.map Entry.ptr) i = some (some (i + A.length)) := by
  induction L generalizing i with
  | nil => exact .inl ⟨by simp, rfl⟩
  | cons u L ih =>
    rw [map_cons, Env.find, isEntry_eq (hL u mem_cons_self) h hn hplain, bind_some]
    by_cases hu : u.name = n
    · rw [if_pos (decide_eq_true hu)]
      exact .inr ⟨[], u, L, rfl, hu, rfl⟩
    rw [if_neg (by simpa using hu)]
    obtain ⟨hnone, hrun⟩ | ⟨A, t, B, rfl, ht, hrun⟩ := ih (fun t ht => hL t (mem_cons_of_mem _ ht)) (i + 1)
    · exact .inl ⟨by simpa using ⟨hu, hnone⟩, hrun⟩
    · refine .inr ⟨u :: A, t, B, rfl, ht, ?_⟩
      rw [hrun, length_cons, add_assoc, add_comm 1]

end

/-! ## The table of entries -/

/-- The entries are in their blocks, and the map has their values. -/
structure Table (blocks : Nat → Option (List UInt8)) (L : List Entry) (m : EnvMap) : Prop where
  ptrs : (L.map Entry.ptr).Nodup
  names : (L.map Entry.name).Nodup
  held : ∀ t ∈ L, blocks t.ptr = some t.bytes
  lookup : ∀ n v, m.lookup n = some v ↔ ∃ t ∈ L, t.name = n ∧ t.value = v

section

variable {blocks : Nat → Option (List UInt8)} {L L' : List Entry} {m : EnvMap} {t : Entry}

theorem Table.perm (h : Table blocks L m) (hp : L.Perm L') : Table blocks L' m where
  ptrs := (hp.map _).nodup_iff.mp h.ptrs
  names := (hp.map _).nodup_iff.mp h.names
  held := fun t ht => h.held t (hp.mem_iff.mpr ht)
  lookup := fun n v => by simpa only [hp.mem_iff] using h.lookup n v

theorem Table.lookup_none (h : Table blocks L m) {n : List UInt8} : m.lookup n = none ↔ ∀ t ∈ L, t.name ≠ n := by
  constructor
  · intro hnone t ht hname
    have := (h.lookup n t.value).mpr ⟨t, ht, hname, rfl⟩
    rw [hnone] at this
    cases this
  intro hall
  cases hv : m.lookup n with
  | none => rfl
  | some v =>
    obtain ⟨t, ht, hname, -⟩ := (h.lookup n v).mp hv
    exact absurd hname (hall t ht)

theorem Table.mem (h : Table blocks L m) {n : List UInt8} : n ∈ m ↔ ∃ t ∈ L, t.name = n := by
  rw [← not_iff_not, ← Finmap.lookup_eq_none, h.lookup_none]
  push Not
  rfl

theorem Table.card (h : Table blocks L m) : m.keys.card = L.length := by
  have hkeys : m.keys = (L.map Entry.name).toFinset := by
    ext n
    rw [Finmap.mem_keys, h.mem]
    simp
  rw [hkeys, toFinset_card_of_nodup h.names, length_map]

/-- A new block is none of the entries. -/
theorem Table.fresh (h : Table blocks L m) {a : Nat} (hfree : blocks a = none) : ∀ u ∈ L, u.ptr ≠ a := by
  rintro u hu rfl
  rw [h.held u hu] at hfree
  cases hfree

/-- One more variable. -/
theorem Table.cons (h : Table blocks L m) (hfree : blocks t.ptr = none) (hname : ∀ u ∈ L, u.name ≠ t.name) :
    Table (update blocks t.ptr (some t.bytes)) (t :: L) (m.insert t.name t.value) where
  ptrs := by
    rw [map_cons, nodup_cons]
    exact ⟨by simpa using h.fresh hfree, h.ptrs⟩
  names := by
    rw [map_cons, nodup_cons]
    exact ⟨by simpa using hname, h.names⟩
  held := by
    intro u hu
    rcases mem_cons.mp hu with rfl | hu
    · simp
    · rw [update_of_ne (h.fresh hfree u hu), h.held u hu]
  lookup := by
    intro n v
    by_cases hn : n = t.name
    · subst hn
      rw [Finmap.lookup_insert, some.injEq]
      constructor
      · rintro rfl
        exact ⟨t, mem_cons_self, rfl, rfl⟩
      rintro ⟨u, hu, hun, rfl⟩
      rcases mem_cons.mp hu with rfl | hu
      · rfl
      · exact absurd hun (hname u hu)
    · rw [Finmap.lookup_insert_of_ne _ hn, h.lookup]
      simp [Ne.symm hn]

theorem Table.tail (h : Table blocks (t :: L) m) : Table (update blocks t.ptr none) L (m.erase t.name) where
  ptrs := (nodup_cons.mp h.ptrs).2
  names := (nodup_cons.mp h.names).2
  held := by
    intro u hu
    have hne : u.ptr ≠ t.ptr := by
      intro heq
      exact (nodup_cons.mp h.ptrs).1 (heq ▸ mem_map_of_mem hu)
    rw [update_of_ne hne, h.held u (mem_cons_of_mem _ hu)]
  lookup := by
    intro n v
    by_cases hn : n = t.name
    · subst hn
      rw [Finmap.lookup_erase]
      constructor
      · intro hv
        cases hv
      · rintro ⟨u, hu, hun, -⟩
        exact absurd (hun ▸ mem_map_of_mem hu) (nodup_cons.mp h.names).1
    · rw [Finmap.lookup_erase_ne hn, h.lookup]
      simp [Ne.symm hn]

end

theorem fill_hole {α β : Type} (f : α → β) (A : List α) (a : α) (B : List α) (d : β) :
    ∃ L : List α, L.Perm (A ++ B) ∧ (((A ++ a :: B).map f).set A.length
      (((A ++ a :: B).map f).getD (((A ++ a :: B).map f).length - 1) d)).dropLast = L.map f := by
  rcases eq_nil_or_concat' B with rfl | ⟨B, b, rfl⟩
  · exact ⟨A, by simp, by simp⟩
  refine ⟨A ++ b :: B, (perm_append_singleton b B).symm.append_left A, ?_⟩
  have hlist : (A ++ a :: (B ++ [b])).map f = (A ++ a :: B).map f ++ [f b] := by simp
  have hlast : ((A ++ a :: B).map f ++ [f b]).getD (((A ++ a :: B).map f ++ [f b]).length - 1) d = f b := by
    simp
  rw [hlist, hlast]
  have hset : ((A ++ a :: B).map f ++ [f b]).set A.length (f b) = (A ++ b :: B).map f ++ [f b] := by
    simp
  rw [hset, dropLast_concat]

/-- The environment and the map agree. -/
def Agrees (e : Env) (m : EnvMap) : Prop :=
  ∃ L, e.storage = L.map Entry.ptr ∧ Table e.blocks L m ∧ L.length ≤ ENV_MAX

theorem agrees_start : Agrees Env.start ∅ :=
  ⟨[], rfl, ⟨nodup_nil, nodup_nil, by simp, by simp⟩, Nat.zero_le _⟩

/-! ## Pointers -/

section

variable {e : Env} {p : Str} {n : List UInt8} {L : List Entry} {m : EnvMap}

theorem text_own (s : List UInt8) : e.text (.own s) = some (s.takeWhile (· ≠ 0)) := by
  unfold Env.text Env.bytesAt
  rw [bind_some, if_pos (by simp), takeWhile_append]
  split
  · rename_i hall
    rw [( takeWhile_prefix _).eq_of_length hall]
    simp
  · rfl

theorem bytesAt_stored {t : Entry} (ht : e.blocks t.ptr = some t.bytes) (k : Nat) :
    e.bytesAt (.stored t.ptr (t.name.length + 1 + k)) = some ((t.value ++ [0]).drop k) := by
  rw [Env.bytesAt, ht, map_some, add_assoc, ← drop_drop, Entry.bytes, drop_left, add_comm 1,
    drop_succ_cons]

theorem text_stored {t : Entry} (ht : e.blocks t.ptr = some t.bytes) {k : Nat} {w : List UInt8}
    (h : e.text (.stored t.ptr (t.name.length + 1 + k)) = some w) : w = t.value.drop k := by
  obtain ⟨r, hbytes, hw⟩ := text_bytes h
  rw [bytesAt_stored ht, some.injEq] at hbytes
  have hk : k ≤ t.value.length := by
    by_contra hlt
    rw [drop_eq_nil_of_le (by simp; omega)] at hbytes
    simp at hbytes
  rw [drop_append_of_le_length hk] at hbytes
  have hzero : 0 ∉ t.value.drop k := fun hmem => t.value_ends (mem_of_mem_drop hmem)
  rw [← text_stop hw r, ← hbytes, text_stop hzero]

/-- **`getenv` gives a pointer to the value**, or NULL. -/
theorem getenv_spec (hs : e.storage = L.map Entry.ptr) (h : Table e.blocks L m) (hp : e.text p = some n)
    (hplain : 0x3d ∉ n) :
    (e.getenv p = some .null ∧ m.lookup n = none) ∨
      ∃ t ∈ L, t.name = n ∧ e.getenv p = some (.stored t.ptr (t.name.length + 1)) := by
  have hnull : p ≠ .null := by
    rintro rfl
    cases hp
  obtain ⟨r, hbytes, hn⟩ := text_bytes hp
  unfold Env.getenv
  rw [if_neg hnull, hp, bind_some]
  by_cases hempty : n = []
  · subst hempty
    exact .inl ⟨rfl, h.lookup_none.mpr fun t _ => t.named⟩
  rw [if_neg hempty, hs]
  obtain ⟨hnone, hrun⟩ | ⟨A, t, B, rfl, rfl, hrun⟩ := find_spec h.held hbytes hn hplain 0
  · rw [hrun]
    exact .inl ⟨rfl, h.lookup_none.mpr hnone⟩
  · rw [hrun]
    exact .inr ⟨t, by simp, rfl, by simp⟩

/-- **An argument has the text that the map gives it.** -/
theorem arg_spec (hs : e.storage = L.map Entry.ptr) (h : Table e.blocks L m) {a : Arg} (ha : e.Points a) :
    (e.arg a = some .null ∧ m.arg a = none) ∨ ∃ p n, e.arg a = some p ∧ e.text p = some n ∧ m.arg a = some n := by
  cases a with
  | null => exact .inl ⟨rfl, rfl⟩
  | own s => exact .inr ⟨.own s, _, rfl, text_own s, rfl⟩
  | got n k =>
    obtain ⟨hnull, hnone⟩ | ⟨t, ht, hname, hget⟩ := getenv_spec hs h (text_own n) (ha.1 n k rfl)
    · refine .inl ⟨by rw [Env.arg, hnull]; rfl, ?_⟩
      rw [EnvMap.arg, hnone]
      rfl
    have harg : e.arg (.got n k) = some (.stored t.ptr (t.name.length + 1 + k)) := by
      rw [Env.arg, hget]
      rfl
    obtain ⟨w, hw⟩ := isSome_iff_exists.mp ((ha.2 _ harg).resolve_left (by simp))
    refine .inr ⟨_, w, harg, hw, ?_⟩
    rw [EnvMap.arg, (h.lookup _ _).mpr ⟨t, ht, hname, rfl⟩, text_stored (h.held t ht) hw]
    rfl

end

/-! ## The calls -/

section

variable {e : Env} {m : EnvMap} {p q : Str} {n v : List UInt8}

theorem bytesAt_free {a : Nat} (hp : ∀ off, p ≠ .stored a off) : (e.free a).bytesAt p = e.bytesAt p := by
  cases p with
  | null => rfl
  | own s => rfl
  | stored b off =>
    have hne : b ≠ a := by
      rintro rfl
      exact hp off rfl
    simp [Env.bytesAt, Env.free, hne]

theorem makeEntry_spec {t : Entry} {r r' : List UInt8} (hfree : e.blocks t.ptr = none)
    (hp : e.bytesAt p = some (t.name ++ 0 :: r)) (hq : e.bytesAt q = some (t.value ++ 0 :: r')) :
    e.makeEntry t.ptr p q t.name.length t.value.length =
      some { e with blocks := update e.blocks t.ptr (some t.bytes) } := by
  unfold Env.makeEntry
  rw [if_neg (by simp [t.nonzero, hfree]), (copy_of_bytes hp).1, bind_some, (copy_of_bytes hq).2]
  rfl

/-- **`setenv`** does what the map does, where `malloc` and the pointers are as they should be. -/
theorem setenv_spec (he : Agrees e m) (hp : e.text p = some n) (hq : e.text q = some v) {given : Option Nat}
    {overwrite : Int}
    (hgiven : ∀ a, given = some a → a ≠ 0 ∧ (e.blocks a = none ∨ e.entryAt p = some a))
    (hsafe : ∀ x, e.entryAt p = some x → overwrite ≠ 0 →
      given ≠ none ∧ ∀ off, p ≠ .stored x off ∧ q ≠ .stored x off) :
    ∃ e', e.setenv given p q overwrite = some ((m.set n v overwrite given.isSome).1, e') ∧
      Agrees e' (m.set n v overwrite given.isSome).2 := by
  obtain ⟨L, hs, h, hmax⟩ := he
  have hnull : p ≠ .null := by
    rintro rfl
    cases hp
  obtain ⟨r, hpbytes, hn⟩ := text_bytes hp
  obtain ⟨r', hqbytes, hv⟩ := text_bytes hq
  unfold Env.setenv
  rw [if_neg hnull, hp, bind_some]
  by_cases hbad : n = [] ∨ 0x3d ∈ n
  · rw [if_pos hbad, EnvMap.set, if_pos hbad]
    exact ⟨e, rfl, L, hs, h, hmax⟩
  have hentry : e.entryAt p = (e.find p n.length e.storage 0).bind fun r => r.map fun i => e.storage.getD i 0 := by
    rw [Env.entryAt, hp, bind_some, if_neg hbad]
  rw [if_neg hbad, hq, bind_some]
  rw [hentry, hs] at hgiven hsafe
  rw [hs]
  obtain ⟨hempty, hplain⟩ := not_or.mp hbad
  obtain ⟨hnone, hrun⟩ | ⟨A, t, B, rfl, rfl, hrun⟩ := find_spec h.held hpbytes hn hplain 0
  · -- a new name
    have hnew : n ∉ m := Finmap.lookup_eq_none.mp (h.lookup_none.mpr hnone)
    rw [hrun, bind_some]
    rw [hrun] at hgiven
    rw [length_map]
    by_cases hfull : ENV_MAX ≤ L.length
    · rw [if_pos hfull]
      have hset : m.set n v overwrite given.isSome = (-1, m) := by
        simp [EnvMap.set, hbad, hnew, h.card, not_lt.mpr hfull]
      rw [hset]
      exact ⟨e, rfl, L, hs, h, hmax⟩
    rw [if_neg hfull]
    cases given with
    | none =>
      have hset : m.set n v overwrite (none : Option Nat).isSome = (-1, m) := by
        simp [EnvMap.set, hbad, hnew]
      rw [hset]
      exact ⟨e, rfl, L, hs, h, hmax⟩
    | some a =>
      obtain ⟨ha, hfree⟩ := hgiven a rfl
      have hset : m.set n v overwrite (some a).isSome = (0, m.insert n v) := by
        simp [EnvMap.set, hbad, hnew, h.card, not_le.mp hfull]
      let t : Entry := ⟨a, n, v, ha, hempty, hplain, hn, hv⟩
      have hfree : e.blocks t.ptr = none := hfree.resolve_right (by simp)
      have hmake := makeEntry_spec (t := t) hfree hpbytes hqbytes
      refine ⟨⟨update e.blocks t.ptr (some t.bytes), L.map Entry.ptr ++ [a]⟩, ?_, L ++ [t], by simp [t], ?_,
        by simp; omega⟩
      · rw [hset]
        dsimp only [t] at hmake ⊢
        rw [hmake, map_some, hs]
      · rw [hset]
        exact (h.cons hfree hnone).perm (perm_append_singleton t L).symm
  -- the entry of the name
  have hmem : t.name ∈ m := h.mem.mpr ⟨t, by simp, rfl⟩
  have hptr : ((A ++ t :: B).map Entry.ptr).getD (0 + A.length) 0 = t.ptr := by simp
  rw [hrun, bind_some]
  rw [hrun, bind_some, map_some, hptr] at hgiven hsafe
  dsimp only
  by_cases hkeep : overwrite = 0
  · rw [if_pos hkeep]
    have hset : m.set t.name v overwrite given.isSome = (0, m) := by
      simp [EnvMap.set, hbad, hmem, hkeep]
    rw [hset]
    exact ⟨e, rfl, A ++ t :: B, hs, h, hmax⟩
  obtain ⟨hmemory, haway⟩ := hsafe t.ptr rfl hkeep
  obtain ⟨a, rfl⟩ := ne_none_iff_exists'.mp hmemory
  obtain ⟨ha, hfree⟩ := hgiven a rfl
  have hset : m.set t.name v overwrite (some a).isSome = (0, m.insert t.name v) := by
    simp [EnvMap.set, hbad, hmem, hkeep]
  -- the entry goes, and the new one is made without it
  have htail := (h.perm perm_middle).tail
  let u : Entry := ⟨a, t.name, v, ha, t.named, t.plain, t.name_ends, hv⟩
  have hblock : (e.free t.ptr).blocks u.ptr = none := by
    by_cases hsame : a = t.ptr
    · simp [Env.free, u, hsame]
    · have hout : e.blocks a = none := hfree.resolve_right (by simpa using Ne.symm hsame)
      simp [Env.free, u, hsame, hout]
  have hmake := makeEntry_spec (t := u) hblock (bytesAt_free (fun off => (haway off).1) ▸ hpbytes)
    (bytesAt_free (fun off => (haway off).2) ▸ hqbytes)
  have hname : ∀ w ∈ A ++ B, w.name ≠ u.name := by
    intro w hw hwu
    have hnodup := (h.perm perm_middle).names
    exact (nodup_cons.mp hnodup).1 (mem_map.mpr ⟨w, hw, hwu⟩)
  refine ⟨⟨update (e.free t.ptr).blocks u.ptr (some u.bytes), (A ++ u :: B).map Entry.ptr⟩, ?_, A ++ u :: B, rfl, ?_,
    by simpa using hmax⟩
  · rw [if_neg hkeep, hset, hptr]
    dsimp only [u] at hmake ⊢
    rw [hmake, map_some]
    simp [Env.free, hs]
  rw [hset]
  have hinsert : (m.erase t.name).insert t.name v = m.insert t.name v := by
    apply Finmap.ext_lookup
    intro x
    by_cases hx : x = t.name
    · subst hx
      rw [Finmap.lookup_insert, Finmap.lookup_insert]
    · rw [Finmap.lookup_insert_of_ne _ hx, Finmap.lookup_erase_ne hx, Finmap.lookup_insert_of_ne _ hx]
  have hcons := htail.cons hblock hname
  rw [hinsert] at hcons
  exact hcons.perm perm_middle.symm

/-- **`unsetenv`** does what the map does. -/
theorem unsetenv_spec (he : Agrees e m) (hp : e.text p = some n) :
    ∃ e', e.unsetenv p = some (if n = [] ∨ 0x3d ∈ n then -1 else 0, e') ∧
      Agrees e' (if n = [] ∨ 0x3d ∈ n then m else m.erase n) := by
  obtain ⟨L, hs, h, hmax⟩ := he
  have hnull : p ≠ .null := by
    rintro rfl
    cases hp
  obtain ⟨r, hpbytes, hn⟩ := text_bytes hp
  unfold Env.unsetenv
  rw [if_neg hnull, hp, bind_some]
  by_cases hbad : n = [] ∨ 0x3d ∈ n
  · simp only [if_pos hbad]
    exact ⟨e, rfl, L, hs, h, hmax⟩
  simp only [if_neg hbad]
  rw [hs]
  obtain ⟨hempty, hplain⟩ := not_or.mp hbad
  obtain ⟨hnone, hrun⟩ | ⟨A, t, B, rfl, rfl, hrun⟩ := find_spec h.held hpbytes hn hplain 0
  · have herase : m.erase n = m := by
      apply Finmap.ext_lookup
      intro x
      by_cases hx : x = n
      · subst hx
        rw [Finmap.lookup_erase, h.lookup_none.mpr hnone]
      · rw [Finmap.lookup_erase_ne hx]
    rw [hrun, herase]
    exact ⟨e, rfl, L, hs, h, hmax⟩
  obtain ⟨L', hperm, hfill⟩ := fill_hole Entry.ptr A t B 0
  have hptr : ((A ++ t :: B).map Entry.ptr).getD (0 + A.length) 0 = t.ptr := by simp
  rw [hrun]
  refine ⟨⟨(e.free t.ptr).blocks, L'.map Entry.ptr⟩, ?_, L', rfl, ?_, ?_⟩
  · rw [map_some]
    dsimp only
    rw [hptr, ← hfill, zero_add]
    simp only [Env.free, hs]
  · exact ((h.perm perm_middle).tail).perm hperm.symm
  · have hlen := hperm.length_eq
    simp only [length_append, length_cons] at hlen hmax
    omega

end

/-! ## Runs -/

/-- **One call** on the environment is the call on the map. -/
theorem step_simulates :
    Simulates Env.step EnvMap.step (fun e c => e.Proper c ∧ e.Safe c) Agrees := by
  intro e m c he hok
  obtain ⟨hproper, hsafe⟩ := hok
  obtain ⟨L, hs, h, hmax⟩ := he
  have he : Agrees e m := ⟨L, hs, h, hmax⟩
  cases c with
  | getenv name =>
    obtain ⟨hname, hplain⟩ := hproper
    obtain ⟨harg, hnone⟩ | ⟨p, n, harg, hp, hn⟩ := arg_spec hs h hname
    · refine ⟨e, ?_, he⟩
      rw [Env.step, harg, EnvMap.step, hnone]
      rfl
    have htext : e.argText name = some n := by rw [Env.argText, harg, bind_some, hp]
    obtain ⟨hget, hlook⟩ | ⟨t, ht, rfl, hget⟩ := getenv_spec hs h hp (hplain n htext)
    · refine ⟨e, ?_, he⟩
      rw [Env.step, harg, bind_some, hget, bind_some, if_pos rfl, EnvMap.step, hn, bind_some, hlook]
    refine ⟨e, ?_, he⟩
    have hvalue : e.text (.stored t.ptr (t.name.length + 1)) = some t.value :=
      text_of_bytes (r := []) (bytesAt_stored (h.held t ht) 0) t.value_ends
    rw [Env.step, harg, bind_some, hget, bind_some, if_neg (by simp), hvalue, EnvMap.step, hn,
      bind_some, (h.lookup _ _).mpr ⟨t, ht, rfl, rfl⟩]
    rfl
  | setenv name value overwrite given =>
    obtain ⟨hname, hvalue, hdefined, hgiven⟩ := hproper
    obtain ⟨q, v, hargq, hq, hv⟩ : ∃ q v, e.arg value = some q ∧ e.text q = some v ∧ m.arg value = some v := by
      obtain ⟨harg, -⟩ | hsome := arg_spec hs h hvalue
      · exact absurd (by rw [Env.argText, harg]; rfl) hdefined
      · exact hsome
    obtain ⟨harg, hnone⟩ | ⟨p, n, harg, hp, hn⟩ := arg_spec hs h hname
    · have hstep : m.step (.setenv name value overwrite given) = (.status (-1), m) := by
        rw [EnvMap.step, hnone]
        rfl
      rw [hstep]
      refine ⟨e, ?_, he⟩
      rw [Env.step, harg, hargq]
      rfl
    have hentry : e.replaced name = e.entryAt p := by rw [Env.replaced, harg, bind_some]
    rw [hentry] at hgiven
    have haway : ∀ x, e.entryAt p = some x → overwrite ≠ 0 →
        given ≠ none ∧ ∀ off, p ≠ .stored x off ∧ q ≠ .stored x off := by
      intro x hx hover
      obtain ⟨hmemory, hout⟩ := hsafe x (hentry ▸ hx) hover
      refine ⟨hmemory, fun off => ?_⟩
      simpa only [harg, hargq, ne_eq, some.injEq] using hout off
    obtain ⟨e', hrun, hagrees⟩ := setenv_spec he hp hq hgiven haway
    refine ⟨e', ?_, ?_⟩
    · rw [Env.step, harg, bind_some, hargq, bind_some, hrun, EnvMap.step, hn, hv]
      rfl
    · rw [EnvMap.step, hn, hv]
      exact hagrees
  | unsetenv name =>
    obtain ⟨harg, hnone⟩ | ⟨p, n, harg, hp, hn⟩ := arg_spec hs h hproper
    · have hstep : m.step (.unsetenv name) = (.status (-1), m) := by
        rw [EnvMap.step, hnone]
        rfl
      rw [hstep]
      refine ⟨e, ?_, he⟩
      rw [Env.step, harg]
      rfl
    obtain ⟨e', hrun, hagrees⟩ := unsetenv_spec he hp
    refine ⟨e', ?_, ?_⟩
    · rw [Env.step, harg, bind_some, hrun, EnvMap.step, hn]
      by_cases hbad : n = [] ∨ 0x3d ∈ n
      · simp [hbad]
      · simp [hbad]
    rw [EnvMap.step, hn]
    by_cases hbad : n = [] ∨ 0x3d ∈ n
    · simpa [hbad] using hagrees
    · simpa [hbad] using hagrees

theorem step_refused (m : EnvMap) (c : EnvCall) (h : (m.step c).1 = .status (-1)) : (m.step c).2 = m := by
  cases c with
  | getenv name => rfl
  | setenv name value overwrite given =>
    unfold EnvMap.step at h ⊢
    dsimp only at h ⊢
    cases hn : m.arg name with
    | none => rfl
    | some n =>
      cases hv : m.arg value with
      | none => rfl
      | some v =>
        simp only [map_some, bind_some, getD_some] at h ⊢
        unfold EnvMap.set at h ⊢
        split_ifs with h1 h2 h3 <;> first | rfl | simp_all
  | unsetenv name =>
    unfold EnvMap.step at h ⊢
    dsimp only at h ⊢
    cases hn : m.arg name with
    | none => rfl
    | some n =>
      rw [hn] at h
      simp only [map_some, getD_some] at h ⊢
      split_ifs with hbad
      · rfl
      · simp [hbad] at h

theorem Agrees.card {e : Env} {m : EnvMap} (h : Agrees e m) : m.keys.card ≤ ENV_MAX := by
  obtain ⟨L, -, htable, hmax⟩ := h
  rw [htable.card]
  exact hmax

/-- **The environment is a finite map.** In every run where a `setenv` that replaces an entry gets its memory and is
given no pointer into this entry, the answers are those of the map, the map has at most `ENV_MAX` entries, every string
in `environ_storage` is valid, and a call that returns -1 has changed none of this. -/
theorem environ_agrees {calls : List EnvCall}
    (h : Allowed (fun e c => e.Proper c ∧ e.Safe c) Env.step Env.start calls) :
    ∃ e, trace Env.step Env.start calls = some ((refTrace EnvMap.step ∅ calls).1, e) ∧
      Agrees e (refTrace EnvMap.step ∅ calls).2 ∧ (refTrace EnvMap.step ∅ calls).2.keys.card ≤ ENV_MAX ∧
      ∀ c, ((refTrace EnvMap.step ∅ calls).2.step c).1 = .status (-1) →
        ((refTrace EnvMap.step ∅ calls).2.step c).2 = (refTrace EnvMap.step ∅ calls).2 := by
  obtain ⟨e, hrun, hagrees⟩ := step_simulates.run agrees_start h
  exact ⟨e, hrun, hagrees, hagrees.card, step_refused _⟩

theorem points_own (e : Env) (s : List UInt8) : e.Points (.own s) := by
  refine ⟨?_, ?_⟩
  · intro n k h
    cases h
  · intro p h
    cases h
    exact .inr (by rw [text_own]; rfl)

theorem argText_own (e : Env) (s : List UInt8) : e.argText (.own s) = some (s.takeWhile (· ≠ 0)) :=
  text_own (e := e) s

theorem proper_setenv_own (e : Env) (n v : List UInt8) (overwrite : Int) {given : Option Nat}
    (h : ∀ a, given = some a → a ≠ 0 ∧ (e.blocks a = none ∨ e.replaced (.own n) = some a)) :
    e.Proper (.setenv (.own n) (.own v) overwrite given) :=
  ⟨points_own e n, points_own e v, by rw [argText_own]; simp, h⟩

theorem proper_getenv_own (e : Env) {n : List UInt8} (h : 0x3d ∉ n.takeWhile (· ≠ 0)) : e.Proper (.getenv (.own n)) := by
  refine ⟨points_own e n, ?_⟩
  intro t ht
  rw [argText_own, some.injEq] at ht
  rwa [← ht]

/-- A value is replaced, in the block of the old one. -/
theorem environ_agrees_replaced : ∃ e, trace Env.step Env.start
      [.setenv (.own [65]) (.own [49]) 1 (some 16), .setenv (.own [65]) (.own [50]) 1 (some 16), .getenv (.own [65])] =
        some ((refTrace EnvMap.step ∅ [.setenv (.own [65]) (.own [49]) 1 (some 16),
          .setenv (.own [65]) (.own [50]) 1 (some 16), .getenv (.own [65])]).1, e) := by
  have hallowed : Allowed (fun e c => e.Proper c ∧ e.Safe c) Env.step Env.start
      [.setenv (.own [65]) (.own [49]) 1 (some 16), .setenv (.own [65]) (.own [50]) 1 (some 16),
        .getenv (.own [65])] := by
    refine ⟨⟨proper_setenv_own _ _ _ _ ?_, ?_⟩, ?_⟩
    · rintro a ⟨⟩
      exact ⟨by decide, .inl rfl⟩
    · intro p hp
      cases hp
    rintro p hp
    obtain rfl := Option.some.inj hp
    refine ⟨⟨proper_setenv_own _ _ _ _ ?_, ?_⟩, ?_⟩
    · rintro a ⟨⟩
      exact ⟨by decide, .inr (by decide)⟩
    · intro p _ _
      exact ⟨by simp, fun off => by simp [Env.arg]⟩
    · rintro p hp
      exact ⟨⟨proper_getenv_own _ (by decide), trivial⟩, fun _ _ => trivial⟩
  obtain ⟨e, hrun, -⟩ := environ_agrees hallowed
  exact ⟨e, hrun⟩

/-- The old string is freed before there is memory for the new one, which is longer: `setenv` returns -1, and the next `getenv` reads
the freed block. -/
theorem failed_replace_dangles : ¬ ∀ calls, Allowed Env.Proper Env.step Env.start calls →
    ∃ e, trace Env.step Env.start calls = some ((refTrace EnvMap.step ∅ calls).1, e) ∧
      Agrees e (refTrace EnvMap.step ∅ calls).2 := by
  intro h
  obtain ⟨e, hrun, -⟩ := h
    [.setenv (.own [65]) (.own [49]) 1 (some 16), .setenv (.own [65]) (.own (List.replicate 40 50)) 1 none, .getenv (.own [65])] (by
      refine ⟨proper_setenv_own _ _ _ _ ?_, ?_⟩
      · rintro a ⟨⟩
        exact ⟨by decide, .inl rfl⟩
      rintro p hp
      refine ⟨proper_setenv_own _ _ _ _ (by rintro a ⟨⟩), ?_⟩
      rintro p hp
      exact ⟨proper_getenv_own _ (by decide), fun _ _ => trivial⟩)
  have hnone : (trace Env.step Env.start
      [.setenv (.own [65]) (.own [49]) 1 (some 16), .setenv (.own [65]) (.own (List.replicate 40 50)) 1 none,
        .getenv (.own [65])]).isSome = false := by decide
  rw [hrun] at hnone
  cases hnone

end Slopix.Environ
