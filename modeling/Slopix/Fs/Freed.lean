import Slopix.Fs.Data
import Slopix.Fs.Record

/-!
# Freeing blocks

`bfree` changes one bit of the bitmap. `Cut` says what a sequence of such steps and of changes to given
blocks has done: outside the bitmap and the given blocks nothing has changed, on disk or in a buffer, and
a block is marked used if it was and has not been freed.
-/

namespace Slopix.Fs

open Lib Function List FileSys

/-- Block numbers are passed as an `int`, and the bitmap of every block lies inside the image. -/
structure Superblock.Wf (sb : Superblock) : Prop where
  size : sb.size ≤ 2147483648
  bitmap : ∀ b < sb.size, b / 8192 + sb.bmapstart < sb.size

namespace FileSys

/-- The block is one of the bitmap. -/
def IsBitmap (s : FileSys) (c : Nat) : Prop := ∃ b < s.sb.size, s.bblock b = c

/-- No buffer of the bitmap has a change that is not on disk. -/
def BitmapClean (s : FileSys) : Prop := ∀ c, s.IsBitmap c → s.buf c = none

end FileSys

section

variable {s s' s'' : FileSys} {b c x : Nat} {T T' F F' : Nat → Prop}

theorem isBitmap_congr (h : s'.sb = s.sb) (c : Nat) : s'.IsBitmap c ↔ s.IsBitmap c := by
  unfold FileSys.IsBitmap bblock
  rw [h]

/-- A block that was written reads back. -/
theorem bread_bwrite (b c : Nat) (data : Block) :
    (s.bwrite b data).bread c = if c = b then data else s.bread c := by
  unfold bread bwrite
  by_cases h : c = b
  · subst h
    simp
  · simp [h]

theorem bread_bdirty (b c : Nat) (data : Block) :
    (s.bdirty b data).bread c = if c = b then data else s.bread c := by
  unfold bread bdirty
  by_cases h : c = b
  · subst h
    simp
  · simp [h]

theorem bit_place (hwf : s.sb.Wf) (hb : b < s.sb.size) (hx : x < s.sb.size)
    (hblock : s.bblock x = s.bblock b) (hbyte : x % 8192 / 8 = b % 8192 / 8) (hbit : x % 8 = b % 8) :
    x = b := by
  have hsize := hwf.size
  unfold bblock uintMod at hblock
  omega

theorem bfree_used (hwf : s.sb.Wf) (hb : b < s.sb.size) (hx : x < s.sb.size) :
    (s.bfree b).used x = true ↔ s.used x = true ∧ x ≠ b := by
  have hblock : (s.bfree b).bblock x = s.bblock x := rfl
  unfold used
  rw [hblock, bfree, setUsed, bread_bwrite]
  by_cases hsame : s.bblock x = s.bblock b
  · rw [if_pos hsame, hsame]
    by_cases hbyte : x % 8192 / 8 = b % 8192 / 8
    · rw [hbyte, update_self, testBit_setBit (Nat.mod_lt _ (by decide)) (Nat.mod_lt _ (by decide))]
      by_cases hbit : x % 8 = b % 8
      · have hxb := bit_place hwf hb hx hsame hbyte hbit
        simp [hxb]
      · have hne : x ≠ b := fun h => hbit (by rw [h])
        simp [hbit, hne]
    · have hne : x ≠ b := fun h => hbyte (by rw [h])
      rw [update_of_ne hbyte]
      simp [hne]
  · have hne : x ≠ b := fun h => hsame (by rw [h])
    rw [if_neg hsame]
    simp [hne]

/-- Blocks in `T` may have changed, those in `F` have been freed, and nothing else has happened. -/
structure Cut (s s' : FileSys) (T F : Nat → Prop) : Prop where
  sb : s'.sb = s.sb
  same : ∀ c, ¬ s.IsBitmap c → ¬ T c → s'.disk c = s.disk c ∧ s'.buf c = s.buf c
  clean : s.BitmapClean → s'.BitmapClean
  used : ∀ x < s.sb.size, s'.used x = true ↔ s.used x = true ∧ ¬ F x

theorem Cut.refl (s : FileSys) : Cut s s (fun _ => False) fun _ => False :=
  ⟨rfl, fun _ _ _ => ⟨rfl, rfl⟩, id, fun _ _ => by simp⟩

theorem Cut.trans (h : Cut s s' T F) (h' : Cut s' s'' T' F') :
    Cut s s'' (fun c => T c ∨ T' c) fun x => F x ∨ F' x := by
  refine ⟨h'.sb.trans h.sb, fun c hc hT => ?_, fun hclean => h'.clean (h.clean hclean), fun x hx => ?_⟩
  · obtain ⟨hd, hb⟩ := h.same c hc fun ht => hT (.inl ht)
    obtain ⟨hd', hb'⟩ := h'.same c (fun hb => hc ((isBitmap_congr h.sb c).1 hb)) fun ht => hT (.inr ht)
    exact ⟨hd'.trans hd, hb'.trans hb⟩
  · rw [h'.used x (by rw [h.sb]; exact hx), h.used x hx, not_or, and_assoc]

theorem Cut.congr (h : Cut s s' T F) (hT : ∀ c, T c → T' c) (hF : ∀ x, F x ↔ F' x) : Cut s s' T' F' :=
  ⟨h.sb, fun c hc ht => h.same c hc fun h => ht (hT c h), h.clean, fun x hx => by rw [h.used x hx, hF]⟩

theorem Cut.bread (h : Cut s s' T F) (hc : ¬ s.IsBitmap c) (hT : ¬ T c) (hread : s.bread c = s.disk c) :
    s'.bread c = s.disk c := by
  obtain ⟨hd, hb⟩ := h.same c hc hT
  rw [FileSys.bread, hb, hd]
  exact hread

/-- `bfree` clears the bit of its block and no other. -/
theorem bfree_cut (hwf : s.sb.Wf) (hb : b < s.sb.size) :
    Cut s (s.bfree b) (fun _ => False) fun x => x = b := by
  refine ⟨rfl, fun c hc _ => ?_, fun hclean c hc => ?_, fun x hx => bfree_used hwf hb hx⟩
  · have hne : c ≠ s.bblock b := fun h => hc ⟨b, hb, h.symm⟩
    exact ⟨update_of_ne hne _ _, update_of_ne hne _ _⟩
  by_cases hcb : c = s.bblock b
  · subst hcb
    exact update_self _ _ _
  · exact (update_of_ne hcb _ _).trans (hclean c hc)

theorem used_congr (hsb : s'.sb = s.sb) (hread : ∀ c, s.IsBitmap c → s'.bread c = s.bread c)
    (hx : x < s.sb.size) : s'.used x = s.used x := by
  have hblock : s'.bblock x = s.bblock x := by
    unfold bblock
    rw [hsb]
  unfold used
  rw [hblock, hread _ ⟨x, hx, rfl⟩]

/-- What changes one block outside the bitmap allocates and frees nothing. -/
theorem cut_block (hb : ¬ s.IsBitmap b) (hsb : s'.sb = s.sb)
    (hread : ∀ c, c ≠ b → s'.disk c = s.disk c ∧ s'.buf c = s.buf c) :
    Cut s s' (fun c => c = b) fun _ => False := by
  have hne : ∀ c, s.IsBitmap c → c ≠ b := fun c hc h => hb (h ▸ hc)
  refine ⟨hsb, fun c _ hc => hread c hc, fun hclean c hc => ?_, fun x hx => ?_⟩
  · unfold IsBitmap bblock at hc
    rw [hsb] at hc
    exact (hread c (hne c hc)).2.trans (hclean c hc)
  have hbits : ∀ c, s.IsBitmap c → s'.bread c = s.bread c := by
    intro c hc
    obtain ⟨hdisk, hbuf⟩ := hread c (hne c hc)
    rw [FileSys.bread, FileSys.bread, hdisk, hbuf]
  simp [used_congr hsb hbits hx]

theorem bwrite_cut (hb : ¬ s.IsBitmap b) (data : Block) :
    Cut s (s.bwrite b data) (fun c => c = b) fun _ => False :=
  cut_block hb rfl fun _ hne => ⟨update_of_ne hne _ _, update_of_ne hne _ _⟩

theorem bdirty_cut (hb : ¬ s.IsBitmap b) (data : Block) :
    Cut s (s.bdirty b data) (fun c => c = b) fun _ => False :=
  cut_block hb rfl fun _ hne => ⟨rfl, update_of_ne hne _ _⟩

theorem setDin_cut (i : Nat) (d : Dinode) : Cut s (s.setDin i d) (fun _ => False) fun _ => False :=
  ⟨rfl, fun _ _ _ => ⟨rfl, rfl⟩, id, fun _ _ => by
    show s.used _ = true ↔ _
    simp⟩

end

/-! ## Entries of an index block -/

section

variable {s : FileSys} {data : Block} {start j b : Nat} {js : List Nat} {modified left : Bool}

theorem entryOf_putLe {j k v : Nat} (hv : v < uintMod) :
    getLe 4 (putLe 4 data (4 * j) v) (4 * k) = if k = j then v else getLe 4 data (4 * k) := by
  by_cases h : k = j
  · subst h
    rw [if_pos rfl, getLe_putLe_self hv]
  · rw [if_neg h, getLe_putLe_of_disjoint (by omega)]

/-- What the loop over the entries of an index block does. -/
structure Trimmed (s : FileSys) (data : Block) (start : Nat) (js : List Nat) (modified left : Bool)
    (r : FileSys × Block × Bool × Bool) : Prop where
  cut : Cut s r.1 (fun _ => False) fun x =>
    ∃ j ∈ js, start ≤ j ∧ getLe 4 data (4 * j) = x ∧ x ≠ 0
  icache : r.1.icache = s.icache
  entry : ∀ k, getLe 4 r.2.1 (4 * k) =
    if k ∈ js ∧ start ≤ k then 0 else getLe 4 data (4 * k)
  modified : r.2.2.1 = true ↔ modified = true ∨ ∃ j ∈ js, start ≤ j ∧ getLe 4 data (4 * j) ≠ 0
  left : r.2.2.2 = true ↔ left = true ∨ ∃ j ∈ js, j < start ∧ getLe 4 data (4 * j) ≠ 0

/-- The loop over the entries of an index block frees those from `start` on. -/
theorem truncEntries_spec (hwf : s.sb.Wf) (hnd : js.Nodup)
    (hlt : ∀ j ∈ js, getLe 4 data (4 * j) ≠ 0 → getLe 4 data (4 * j) < s.sb.size) :
    Trimmed s data start js modified left (truncEntries start js (s, data, modified, left)) := by
  induction js generalizing s data modified left with
  | nil => exact ⟨(Cut.refl s).congr (fun _ h => h) (by simp), rfl, by simp [truncEntries],
      by simp [truncEntries], by simp [truncEntries]⟩
  | cons j js ih =>
    obtain ⟨hj, hnd⟩ := nodup_cons.1 hnd
    have hrest := fun k hk => hlt k (mem_cons_of_mem _ hk)
    rw [truncEntries]
    by_cases h0 : getLe 4 data (4 * j) = 0
    · -- an empty entry
      rw [if_pos h0]
      obtain ⟨hcut, hic, hentry, hmod, hleft⟩ := @ih s data modified left hwf hnd hrest
      refine ⟨hcut.congr (fun _ h => h) fun x => ?_, hic, fun k => ?_, ?_, ?_⟩
      · constructor
        · rintro ⟨k, hk, hx⟩
          exact ⟨k, mem_cons_of_mem _ hk, hx⟩
        rintro ⟨k, hk, hs, rfl, hne⟩
        rcases mem_cons.1 hk with rfl | hk
        · exact absurd h0 hne
        · exact ⟨k, hk, hs, rfl, hne⟩
      · rw [hentry]
        by_cases hkj : k = j
        · subst hkj
          simp [hj, h0]
        · simp [hkj]
      · rw [hmod]
        simp [h0]
      · rw [hleft]
        simp [h0]
    rw [if_neg h0]
    by_cases hstart : j < start
    · -- an entry that stays
      rw [if_pos hstart]
      obtain ⟨hcut, hic, hentry, hmod, hleft⟩ := @ih s data modified true hwf hnd hrest
      have hnot : ¬ start ≤ j := by omega
      refine ⟨hcut.congr (fun _ h => h) fun x => ?_, hic, fun k => ?_, ?_, ?_⟩
      · simp [hnot]
      · rw [hentry]
        by_cases hkj : k = j
        · subst hkj
          simp [hj, hnot]
        · simp [hkj]
      · rw [hmod]
        simp [hnot]
      · rw [hleft]
        simp [hstart, h0]
    -- an entry that is freed
    rw [if_neg hstart]
    have hge : start ≤ j := Nat.le_of_not_lt hstart
    have hother : ∀ k ∈ js, getLe 4 (putLe 4 data (4 * j) 0) (4 * k) = getLe 4 data (4 * k) := by
      intro k hk
      have hne : k ≠ j := fun h => hj (h ▸ hk)
      rw [entryOf_putLe (by decide), if_neg hne]
    have hfree := bfree_cut hwf (hlt j mem_cons_self h0)
    obtain ⟨hcut, hic, hentry, hmod, hleft⟩ := @ih (s.bfree (getLe 4 data (4 * j)))
      (putLe 4 data (4 * j) 0) true left hwf hnd fun k hk => by
        rw [hother k hk]
        exact hrest k hk
    refine ⟨(hfree.trans hcut).congr (fun _ h => h.elim id id) fun x => ?_, hic, fun k => ?_, ?_, ?_⟩
    · constructor
      · rintro (rfl | ⟨k, hk, hs, hx, hne⟩)
        · exact ⟨j, mem_cons_self, hge, rfl, h0⟩
        · rw [hother k hk] at hx
          exact ⟨k, mem_cons_of_mem _ hk, hs, hx, hne⟩
      rintro ⟨k, hk, hs, rfl, hne⟩
      rcases mem_cons.1 hk with rfl | hk
      · exact .inl rfl
      · exact .inr ⟨k, hk, hs, hother k hk, hne⟩
    · rw [hentry, entryOf_putLe (by decide)]
      by_cases hkj : k = j
      · subst hkj
        simp [hj, hge]
      · simp [hkj]
    · rw [hmod]
      simp [hge, h0]
    rw [hleft]
    constructor
    · rintro (hl | ⟨k, hk, hs, hne⟩)
      · exact .inl hl
      · rw [hother k hk] at hne
        exact .inr ⟨k, mem_cons_of_mem _ hk, hs, hne⟩
    rintro (hl | ⟨k, hk, hs, hne⟩)
    · exact .inl hl
    · rcases mem_cons.1 hk with rfl | hk
      · exact absurd hs hstart
      · exact .inr ⟨k, hk, hs, by rw [hother k hk]; exact hne⟩

end

end Slopix.Fs
