import Slopix.Fs.Record
import Slopix.Fs.Walk
import Slopix.Kernel.FileCalls

/-!
# The records of `sys_getdents`

`getdents` is the loop of `sys_getdents` with the bytes it stores; `getdentsLoop` is the same loop
without them. A call stores the records of the live entries from the offset of the open file on, as many
as fit. `Records` is what a reader that steps by `d_reclen` finds in a buffer, and `Listing` the buffers
of the calls up to the first one that returns 0.
-/

namespace Slopix.Kernel

open Lib Fs List

/-! ## The call -/

/-- A `struct linux_dirent` at byte `o`: `d_ino`, `d_off`, `d_reclen`, `d_name`. The bytes behind the
name up to the next record are not written. -/
def putRecord (b : Bytes) (o ino off : Nat) (name : Name) : Bytes :=
  putBytes (putLe 2 (putLe 8 (putLe 8 b o ino) (o + 8) off) (o + 16) (reclen name)) (o + 18) (name ++ [0])

/-- The loop of `sys_getdents`: bytes used so far, the file offset and the user buffer. -/
def getdentsFill (i count : Nat) : Nat → FileSys → Nat → Nat → Bytes → (Nat × Nat × Bytes) × FileSys
  | 0, s, off, bpos, b => ((bpos, off, b), s)
  | n + 1, s, off, bpos, b =>
    if (s.icache i).din.size ≤ off ∨ count ≤ bpos then ((bpos, off, b), s)
    else
      let r := s.readi i off 64
      let next := (off + 64) % Fs.uintMod
      if r.1.length ≠ 64 then ((bpos, off, b), r.2)
      else if direntInum r.1 = 0 then getdentsFill i count n r.2 next bpos b
      else if count < bpos + reclen (direntName r.1) then ((bpos, off, b), r.2)
      else
        getdentsFill i count n r.2 next (bpos + reclen (direntName r.1))
          (putRecord b bpos (direntInum r.1) next (direntName r.1))

/-- One call on directory `i` with the file at `off`. -/
def getdents (i count : Nat) (s : FileSys) (off : Nat) (b : Bytes) : (Nat × Nat × Bytes) × FileSys :=
  getdentsFill i count ((s.icache i).din.size / 64 + 1) s off 0 b

/-- The buffers of repeated calls until one returns 0, with what each call returned. -/
inductive Listing (i count : Nat) : FileSys → Nat → List (Nat × Bytes) → Prop
  | done {s : FileSys} {off : Nat} (b : Bytes) (h : (getdents i count s off b).1.1 = 0) :
      Listing i count s off []
  | more {s : FileSys} {off : Nat} (b : Bytes) {bufs : List (Nat × Bytes)}
      (h : (getdents i count s off b).1.1 ≠ 0)
      (rest : Listing i count (getdents i count s off b).2 (getdents i count s off b).1.2.1 bufs) :
      Listing i count s off
        (((getdents i count s off b).1.1, (getdents i count s off b).1.2.2) :: bufs)

/-- Step through a buffer by `d_reclen`, up to byte `n`. Fails when a record is not wholly inside. -/
def parseRecords (b : Bytes) (n : Nat) : Nat → Nat → Option (List (Nat × Name))
  | 0, pos => if pos = n then some [] else none
  | fuel + 1, pos =>
    if pos = n then some []
    else
      let len := getLe 2 b (pos + 16)
      if len = 0 ∨ n < pos + len then none
      else (parseRecords b n fuel (pos + len)).map
        ((getLe 8 b pos, (getBytes b (pos + 18) (len - 18)).takeWhile (· != 0)) :: ·)

/-- The records of the `n` bytes a call returned. -/
def parse (b : Bytes) (n : Nat) : Option (List (Nat × Name)) := parseRecords b n n 0

/-- The entries in use, with their numbers and names. -/
def liveEntries (slots : List (List UInt8)) : List (Nat × Name) :=
  (slots.filter fun de => direntInum de != 0).map fun de => (direntInum de, direntName de)

/-! ## Records in a buffer -/

/-- A record of the entry at byte `o`. -/
structure HasRecord (b : Bytes) (o : Nat) (x : Nat × Name) : Prop where
  ino : getLe 8 b o = x.1
  len : getLe 2 b (o + 16) = reclen x.2
  name : ∀ k ≤ x.2.length, b (o + 18 + k) = (x.2 ++ [0]).getD k 0

/-- Records one behind the other, from byte `pos` to byte `n`. -/
def Records (b : Bytes) (n : Nat) : Nat → List (Nat × Name) → Prop
  | pos, [] => pos = n
  | pos, x :: l => HasRecord b pos x ∧ Records b n (pos + reclen x.2) l

section

variable {b b' : Bytes} {n o pos : Nat} {x : Nat × Name} {l l' : List (Nat × Name)} {name : Name}

theorem reclen_bounds (name : Name) : name.length + 19 ≤ reclen name ∧ reclen name ≤ name.length + 26 := by
  unfold reclen
  omega

theorem Records.le (h : Records b n pos l) : pos ≤ n := by
  induction l generalizing pos with
  | nil => exact le_of_eq h
  | cons x l ih => exact Nat.le_trans (Nat.le_add_right _ _) (ih h.2)

theorem HasRecord.congr (h : HasRecord b o x) (hsame : ∀ k, o ≤ k → k < o + reclen x.2 → b' k = b k) :
    HasRecord b' o x := by
  have hlen := (reclen_bounds x.2).1
  refine ⟨?_, ?_, fun k hk => ?_⟩
  · rw [← h.ino]
    exact getLe_congr fun k hk hk' => hsame k hk (by omega)
  · rw [← h.len]
    exact getLe_congr fun k hk hk' => hsame k (by omega) (by omega)
  · rw [← h.name k hk]
    exact hsame _ (by omega) (by omega)

theorem putBytes_of_lt {bs : List UInt8} {k : Nat} (h : k < o) : putBytes b o bs k = b k := by
  unfold putBytes
  rw [if_neg (by omega)]

theorem hasRecord_put {ino off : Nat} (hino : ino < 65536) (hname : name.length ≤ 62) :
    HasRecord (putRecord b o ino off name) o (ino, name) := by
  have hlen := (reclen_bounds name).2
  unfold putRecord
  refine ⟨?_, ?_, fun k hk => ?_⟩
  · rw [getLe_congr fun k _ hk' => putBytes_of_lt (by omega), getLe_putLe_of_disjoint (by omega),
      getLe_putLe_of_disjoint (by omega)]
    exact getLe_putLe_self (lt_trans hino (by decide))
  · rw [getLe_congr fun k _ hk' => putBytes_of_lt (by omega)]
    exact getLe_putLe_self (lt_of_le_of_lt hlen (by omega))
  unfold putBytes
  have hlen' : (name ++ [(0 : UInt8)]).length = name.length + 1 := length_append
  rw [if_pos ⟨by omega, by rw [hlen']; exact Nat.add_lt_add_left (Nat.lt_succ_of_le hk) _⟩,
    Nat.add_sub_cancel_left]

theorem putRecord_of_lt {ino off k : Nat} (h : k < o) : putRecord b o ino off name k = b k := by
  unfold putRecord
  rw [putBytes_of_lt (by omega)]
  unfold putLe
  rw [if_neg (by omega), if_neg (by omega), if_neg (by omega)]

/-- The name in a record, read as a string of at most `m` bytes. -/
theorem HasRecord.string (h : HasRecord b o x) (hzero : (0 : UInt8) ∉ x.2) {m : Nat} (hm : x.2.length < m) :
    (getBytes b (o + 18) m).takeWhile (· != 0) = x.2 := by
  have hsplit : getBytes b (o + 18) m =
      x.2 ++ 0 :: getBytes b (o + 18 + (x.2.length + 1)) (m - (x.2.length + 1)) := by
    apply ext_getElem
    · simp [getBytes]
      omega
    intro k hk hk'
    rw [show (getBytes b (o + 18) m)[k] = b (o + 18 + k) by simp [getBytes]]
    by_cases hlt : k < x.2.length
    · rw [h.name k (le_of_lt hlt), getElem_append_left hlt]
      simp [getD_eq_getElem?_getD, List.getElem?_append_left hlt, hlt]
    rw [getElem_append_right (Nat.le_of_not_lt hlt)]
    by_cases he : k = x.2.length
    · subst he
      rw [h.name _ (le_refl _)]
      simp
    obtain ⟨j, rfl⟩ : ∃ j, k = x.2.length + (j + 1) := ⟨k - x.2.length - 1, by omega⟩
    simp [getBytes]
    congr 1
    omega
  rw [hsplit, takeWhile_append_of_pos]
  · simp
  intro c hc
  simp only [bne_iff_ne, ne_eq]
  rintro rfl
  exact hzero hc

end

/-! ## One call -/

section

variable {s : FileSys} {i count : Nat}

theorem direntInum_lt (de : List UInt8) : direntInum de < 65536 := by
  have hlow : (de.getD 0 0).toNat < 256 := (de.getD 0 0).toNat_lt
  have hhigh : (de.getD 1 0).toNat < 256 := (de.getD 1 0).toNat_lt
  unfold direntInum
  omega

theorem liveEntries_cons (de : List UInt8) (l : List (List UInt8)) :
    liveEntries (de :: l) =
      if direntInum de = 0 then liveEntries l else (direntInum de, direntName de) :: liveEntries l := by
  unfold liveEntries
  by_cases hde : direntInum de = 0 <;> simp [hde]

/-- Slots `j` to `j'` of directory `i`. -/
def slots (s : FileSys) (i j j' : Nat) : List (List UInt8) :=
  (List.range' j (j' - j)).map (direntAt s.bread (s.icache i).din)

theorem slots_self (j : Nat) : slots s i j j = [] := by simp [slots]

theorem slots_cons {j j' : Nat} (h : j < j') :
    slots s i j j' = direntAt s.bread (s.icache i).din j :: slots s i (j + 1) j' := by
  unfold slots
  rw [show j' - j = (j' - (j + 1)) + 1 by omega, range'_succ, map_cons]

theorem slots_append {j j' j'' : Nat} (h : j ≤ j') (h' : j' ≤ j'') :
    slots s i j j' ++ slots s i j' j'' = slots s i j j'' := by
  unfold slots
  rw [← map_append, show j'' - j = (j' - j) + (j'' - j') by omega, ← range'_append_1,
    Nat.add_sub_cancel' h]

/-- What a call that starts at slot `j`, with `bpos` bytes used, leaves behind. -/
structure Filled (s : FileSys) (i count j bpos : Nat) (b : Bytes) (j' bpos' : Nat) (b' : Bytes) : Prop where
  ge : j ≤ j'
  le : j' ≤ (s.icache i).din.size / 64
  fits : bpos' ≤ count
  before : ∀ k < bpos, b' k = b k
  records : Records b' bpos' bpos (liveEntries (slots s i j j'))
  stop : j' < (s.icache i).din.size / 64 → count ≤ bpos' ∨
    direntInum (direntAt s.bread (s.icache i).din j') ≠ 0 ∧
      count < bpos' + reclen (direntName (direntAt s.bread (s.icache i).din j'))

/-- The loop of `sys_getdents`, by induction on its passes. -/
theorem getdentsFill_spec {fuel j bpos : Nat} {b : Bytes} (h : NoHoles s.bread (s.icache i).din)
    (hsize : (s.icache i).din.size ≤ maxBytes) (hj : j ≤ (s.icache i).din.size / 64)
    (hfuel : (s.icache i).din.size / 64 < j + fuel) (hbpos : bpos ≤ count) :
    ∃ j' bpos' b', getdentsFill i count fuel s (64 * j) bpos b = ((bpos', 64 * j', b'), s) ∧
      Filled s i count j bpos b j' bpos' b' := by
  induction fuel generalizing j bpos b with
  | zero => omega
  | succ fuel ih =>
    rw [getdentsFill]
    by_cases hend : (s.icache i).din.size ≤ 64 * j ∨ count ≤ bpos
    · rw [if_pos hend]
      refine ⟨j, bpos, b, rfl, le_refl j, hj, hbpos, fun _ _ => rfl, ?_, fun hlt => ?_⟩
      · rw [slots_self]
        rfl
      · exact Or.inl (hend.resolve_left (by omega))
    rw [not_or, not_le, not_le] at hend
    rw [if_neg (by omega), readi_eq h hsize (by omega) (by decide)]
    dsimp only
    rw [length_bytesFrom]
    by_cases hshort : min 64 ((s.icache i).din.size - 64 * j) ≠ 64
    · -- a last slot that is cut short
      rw [if_pos hshort]
      refine ⟨j, bpos, b, rfl, le_refl j, hj, hbpos, fun _ _ => rfl, ?_, fun hlt => ?_⟩
      · rw [slots_self]
        rfl
      · omega
    rw [if_neg hshort, not_not.1 hshort]
    have hnext : (64 * j + 64) % Fs.uintMod = 64 * (j + 1) := by
      unfold maxBytes at hsize
      rw [Nat.mod_eq_of_lt (by unfold Fs.uintMod; omega), Nat.mul_succ]
    rw [hnext, show bytesFrom s.bread (s.icache i).din (64 * j) 64 =
      direntAt s.bread (s.icache i).din j from rfl]
    have hlt : j < (s.icache i).din.size / 64 := by omega
    by_cases hdead : direntInum (direntAt s.bread (s.icache i).din j) = 0
    · rw [if_pos hdead]
      obtain ⟨j', bpos', b', hrun, hf⟩ := ih (b := b) hlt (by omega) hbpos
      refine ⟨j', bpos', b', hrun, Nat.le_of_succ_le hf.ge, hf.le, hf.fits, hf.before, ?_, hf.stop⟩
      rw [slots_cons hf.ge, liveEntries_cons, if_pos hdead]
      exact hf.records
    rw [if_neg hdead]
    by_cases hfull : count < bpos + reclen (direntName (direntAt s.bread (s.icache i).din j))
    · rw [if_pos hfull]
      refine ⟨j, bpos, b, rfl, le_refl j, hj, hbpos, fun _ _ => rfl, ?_, fun _ => ?_⟩
      · rw [slots_self]
        rfl
      · exact Or.inr ⟨hdead, hfull⟩
    rw [if_neg hfull]
    generalize hb : putRecord b bpos (direntInum (direntAt s.bread (s.icache i).din j)) (64 * (j + 1))
      (direntName (direntAt s.bread (s.icache i).din j)) = b1
    obtain ⟨j', bpos', b', hrun, hf⟩ := ih (b := b1) hlt (by omega) (Nat.le_of_not_lt hfull)
    have hput : HasRecord b1 bpos (direntInum (direntAt s.bread (s.icache i).din j),
        direntName (direntAt s.bread (s.icache i).din j)) := by
      rw [← hb]
      exact hasRecord_put (direntInum_lt _) (length_direntName _)
    refine ⟨j', bpos', b', hrun, Nat.le_of_succ_le hf.ge, hf.le, hf.fits, fun k hk => ?_, ?_, hf.stop⟩
    · rw [hf.before k (by omega), ← hb, putRecord_of_lt hk]
    · rw [slots_cons hf.ge, liveEntries_cons, if_neg hdead]
      exact ⟨hput.congr fun k _ hk => hf.before k hk, hf.records⟩

theorem getdents_spec {j : Nat} (h : NoHoles s.bread (s.icache i).din)
    (hsize : (s.icache i).din.size ≤ maxBytes) (hj : j ≤ (s.icache i).din.size / 64) (b : Bytes) :
    ∃ j' n b', getdents i count s (64 * j) b = ((n, 64 * j', b'), s) ∧ Filled s i count j 0 b j' n b' :=
  getdentsFill_spec h hsize hj (by omega) (Nat.zero_le count)

/-- The entries from slot `j` on. -/
def entriesFrom (s : FileSys) (i j : Nat) : List (Nat × Name) :=
  liveEntries (slots s i j ((s.icache i).din.size / 64))

theorem liveEntries_append (l l' : List (List UInt8)) : liveEntries (l ++ l') = liveEntries l ++ liveEntries l' := by
  simp [liveEntries]

theorem entriesFrom_split {j j' : Nat} (h : j ≤ j') (h' : j' ≤ (s.icache i).din.size / 64) :
    entriesFrom s i j = liveEntries (slots s i j j') ++ entriesFrom s i j' := by
  unfold entriesFrom
  rw [← slots_append h h', liveEntries_append]

theorem zero_notMem_liveEntries {l : List (List UInt8)} {x : Nat × Name} (hx : x ∈ liveEntries l) :
    (0 : UInt8) ∉ x.2 := by
  obtain ⟨de, -, rfl⟩ := mem_map.1 hx
  exact zero_notMem_direntName de

theorem Filled.finished {j j' : Nat} {b b' : Bytes} (h : Filled s i count j 0 b j' 0 b')
    (hcount : ∀ x ∈ entriesFrom s i j, reclen x.2 ≤ count) : entriesFrom s i j = [] := by
  have hhead : liveEntries (slots s i j j') = [] := by
    have hrec := h.records
    cases hl : liveEntries (slots s i j j') with
    | nil => rfl
    | cons x l =>
      rw [hl] at hrec
      have hle := hrec.2.le
      have hpos := (reclen_bounds x.2).1
      omega
  have hsplit := entriesFrom_split h.ge h.le
  rw [hhead, nil_append] at hsplit
  rw [hsplit] at hcount ⊢
  by_contra hne
  obtain ⟨x, hx⟩ := exists_mem_of_ne_nil _ hne
  have hxlen := hcount x hx
  have hxpos := (reclen_bounds x.2).1
  rcases lt_or_ge j' ((s.icache i).din.size / 64) with hlt | hge
  · rcases h.stop hlt with hzero | ⟨hlive, hfull⟩
    · omega
    have hmem : (direntInum (direntAt s.bread (s.icache i).din j'),
        direntName (direntAt s.bread (s.icache i).din j')) ∈ entriesFrom s i j' := by
      unfold entriesFrom
      rw [slots_cons hlt, liveEntries_cons, if_neg hlive]
      exact mem_cons_self
    have hle := hcount _ hmem
    dsimp only at hle
    omega
  apply hne
  unfold entriesFrom
  rw [le_antisymm h.le hge, slots_self]
  rfl

theorem Filled.advances {j j' n : Nat} {b b' : Bytes} (h : Filled s i count j 0 b j' n b') (hn : n ≠ 0) :
    j < j' := by
  rcases lt_or_ge j j' with hlt | hge
  · exact hlt
  · have hrec := h.records
    rw [le_antisymm hge h.ge, slots_self] at hrec
    exact absurd hrec.symm hn

/-! ## All calls -/

/-- Each record has at least one byte. -/
theorem Records.length_le {b : Bytes} {n pos : Nat} {l : List (Nat × Name)} (h : Records b n pos l) :
    l.length ≤ n - pos := by
  induction l generalizing pos with
  | nil => exact Nat.zero_le _
  | cons x l ih =>
    have hle := h.2.le
    have hpos := (reclen_bounds x.2).1
    have hlen := ih h.2
    rw [length_cons]
    omega

/-- Records are parsed as what they are, each wholly inside the buffer. -/
theorem parse_records {b : Bytes} {n pos fuel : Nat} {l : List (Nat × Name)} (h : Records b n pos l)
    (hname : ∀ x ∈ l, (0 : UInt8) ∉ x.2) (hfuel : l.length ≤ fuel) :
    parseRecords b n fuel pos = some l := by
  induction l generalizing pos fuel with
  | nil =>
    obtain rfl : pos = n := h
    cases fuel <;> simp [parseRecords]
  | cons x l ih =>
    obtain ⟨hrec, hrest⟩ := h
    have hle := hrest.le
    have hpos := (reclen_bounds x.2).1
    obtain ⟨fuel, rfl⟩ : ∃ m, fuel = m + 1 := ⟨fuel - 1, by rw [length_cons] at hfuel; omega⟩
    rw [parseRecords, if_neg (by omega), hrec.len]
    rw [if_neg (by omega), ih hrest (fun y hy => hname y (mem_cons_of_mem x hy))
      (Nat.le_of_succ_le_succ hfuel), hrec.ino, hrec.string (hname x mem_cons_self) (by omega)]
    rfl

/-- The records of all calls are the live entries, in order. -/
theorem listing_spec {off : Nat} {bufs : List (Nat × Bytes)} (hl : Listing i count s off bufs)
    (h : NoHoles s.bread (s.icache i).din) (hsize : (s.icache i).din.size ≤ maxBytes) {j : Nat}
    (hoff : off = 64 * j) (hj : j ≤ (s.icache i).din.size / 64)
    (hcount : ∀ x ∈ entriesFrom s i j, reclen x.2 ≤ count) :
    ∃ parts, bufs.mapM (fun x => parse x.2 x.1) = some parts ∧ parts.flatten = entriesFrom s i j := by
  induction hl generalizing j with
  | done b hzero =>
    subst hoff
    obtain ⟨j', n, b', hrun, hf⟩ := @getdents_spec _ i count j h hsize hj b
    rw [hrun] at hzero
    obtain rfl : n = 0 := hzero
    exact ⟨[], rfl, (hf.finished hcount).symm⟩
  | @more t off b bufs hn rest ih =>
    subst hoff
    obtain ⟨j', n, b', hrun, hf⟩ := @getdents_spec _ i count j h hsize hj b
    rw [hrun] at ih ⊢
    have hsplit := entriesFrom_split hf.ge hf.le
    rw [hsplit] at hcount ⊢
    obtain ⟨parts, hparts, hflat⟩ := ih h hsize rfl hf.le fun x hx =>
      hcount x (mem_append.2 (Or.inr hx))
    have hparse : parse b' n = some (liveEntries (slots t i j j')) :=
      parse_records hf.records (fun x hx => zero_notMem_liveEntries hx) hf.records.length_le
    refine ⟨liveEntries (slots t i j j') :: parts, ?_, ?_⟩
    · rw [mapM_cons, hparse, hparts]
      rfl
    · rw [flatten_cons, hflat]

theorem exists_listing (h : NoHoles s.bread (s.icache i).din) (hsize : (s.icache i).din.size ≤ maxBytes)
    {j : Nat} (hj : j ≤ (s.icache i).din.size / 64) : ∃ bufs, Listing i count s (64 * j) bufs := by
  obtain ⟨m, hm⟩ : ∃ m, m = (s.icache i).din.size / 64 - j := ⟨_, rfl⟩
  induction m using Nat.strong_induction_on generalizing j with
  | _ m ih =>
    obtain ⟨j', n, b', hrun, hf⟩ := @getdents_spec _ i count j h hsize hj fun _ => 0
    by_cases hn : n = 0
    · refine ⟨[], .done (fun _ => 0) ?_⟩
      rw [hrun]
      exact hn
    have hlt := hf.advances hn
    have hle := hf.le
    obtain ⟨bufs, hbufs⟩ := ih ((s.icache i).din.size / 64 - j') (by omega) hle rfl
    have hmore : (getdents i count s (64 * j) fun _ => 0).1.1 ≠ 0 := by
      rw [hrun]
      exact hn
    refine ⟨_, .more (fun _ => 0) hmore (?_ : Listing i count _ _ bufs)⟩
    rw [hrun]
    exact hbufs

end

end Slopix.Kernel
