import Slopix.Fs.FileTree
import Slopix.Fs.Freed

/-!
# The parts of `fs_itrunc_to`

What the loops over the direct blocks, the single-indirect and the double-indirect block do, one after the
other, when `N` blocks of the file stay. `At` compares a state in between with the one at the start: what
has been touched, what has been freed and what the inode's `addrs` are now.
-/

namespace Slopix.Fs

open Lib Function List FileSys

/-- The way from `s0` to `s`: blocks in `T` may have changed, those in `F` are freed, and `addrs` of entry `i`
of the inode cache is `A`. -/
structure At (s0 s : FileSys) (i : Nat) (T F : Nat → Prop) (A : Nat → Nat) : Prop where
  cut : Cut s0 s T F
  icache : s.icache = Function.update s0.icache i
    { s0.icache i with din := { (s0.icache i).din with addrs := A } }

section

variable {s0 s : FileSys} {i k b N : Nat} {T T' F F' : Nat → Prop} {A A' : Nat → Nat} {data : Block}

theorem At.start (s : FileSys) (i : Nat) :
    At s s i (fun _ => False) (fun _ => False) (s.icache i).din.addrs :=
  ⟨Cut.refl s, (update_eq_self i s.icache).symm⟩

theorem At.din (h : At s0 s i T F A) : (s.icache i).din = { (s0.icache i).din with addrs := A } := by
  rw [h.icache, update_self]

theorem At.addrs (h : At s0 s i T F A) : (s.icache i).din.addrs = A := by rw [h.din]

theorem At.congr (h : At s0 s i T F A) (hT : ∀ c, T c → T' c) (hF : ∀ x, F x ↔ F' x) (hA : A = A') :
    At s0 s i T' F' A' := ⟨h.cut.congr hT hF, hA ▸ h.icache⟩

theorem At.wf (h : At s0 s i T F A) (hwf : s0.sb.Wf) : s.sb.Wf := h.cut.sb.symm ▸ hwf

theorem At.bitmap (h : At s0 s i T F A) (hb : ¬ s0.IsBitmap b) : ¬ s.IsBitmap b := fun hb' =>
  hb ((isBitmap_congr h.cut.sb b).1 hb')

theorem At.bfree (h : At s0 s i T F A) (hwf : s0.sb.Wf) (hb : b < s0.sb.size) :
    At s0 (s.bfree b) i T (fun x => F x ∨ x = b) A :=
  ⟨(h.cut.trans (bfree_cut (h.wf hwf) (by rw [h.cut.sb]; exact hb))).congr
    (fun _ ht => ht.elim id False.elim) fun _ => Iff.rfl, h.icache⟩

theorem At.clearAddr (h : At s0 s i T F A) (k : Nat) :
    At s0 (s.clearAddr i k) i T F (update A k 0) := by
  refine ⟨(h.cut.trans (setDin_cut i _)).congr (fun _ ht => ht.elim id False.elim) fun x => by simp, ?_⟩
  unfold FileSys.clearAddr FileSys.setDin FileSys.setInode
  dsimp only
  rw [h.icache, update_self, update_idem]

theorem At.bwrite (h : At s0 s i T F A) (hb : ¬ s0.IsBitmap b) (data : Block) :
    At s0 (s.bwrite b data) i (fun c => T c ∨ c = b) F A :=
  ⟨(h.cut.trans (bwrite_cut (h.bitmap hb) data)).congr (fun _ ht => ht) fun x => by simp, h.icache⟩

theorem At.bdirty (h : At s0 s i T F A) (hb : ¬ s0.IsBitmap b) (data : Block) :
    At s0 (s.bdirty b data) i (fun c => T c ∨ c = b) F A :=
  ⟨(h.cut.trans (bdirty_cut (h.bitmap hb) data)).congr (fun _ ht => ht) fun x => by simp, h.icache⟩

/-! ## The direct blocks -/

/-- A direct block is freed. -/
theorem At.truncAddr (h : At s0 s i T F A) (hwf : s0.sb.Wf) (hk : A k ≠ 0 → A k < s0.sb.size) :
    At s0 (s.truncAddr i k) i T (fun x => F x ∨ x = A k ∧ x ≠ 0) (update A k 0) := by
  unfold FileSys.truncAddr
  rw [h.addrs]
  by_cases h0 : A k = 0
  · rw [if_neg (not_not.2 h0)]
    refine h.congr (fun _ ht => ht) (fun x => ?_) (update_eq_self_iff.2 h0.symm).symm
    constructor
    · exact .inl
    · rintro (hF | ⟨rfl, hne⟩)
      · exact hF
      · exact absurd h0 hne
  rw [if_pos h0]
  refine ((h.bfree hwf (hk h0)).clearAddr k).congr (fun _ ht => ht) (fun x => ?_) rfl
  constructor
  · rintro (hF | rfl)
    · exact .inl hF
    · exact .inr ⟨rfl, h0⟩
  · exact fun hx => hx.imp_right And.left

theorem At.truncAddrs (hwf : s0.sb.Wf) {ks : List Nat} (h : At s0 s i T F A) (hnd : ks.Nodup)
    (hlt : ∀ k ∈ ks, A k ≠ 0 → A k < s0.sb.size) :
    At s0 (ks.foldl (fun s k => s.truncAddr i k) s) i T (fun x => F x ∨ ∃ k ∈ ks, x = A k ∧ x ≠ 0)
      (fun k => if k ∈ ks then 0 else A k) := by
  induction ks generalizing s F A with
  | nil => exact h.congr (fun _ ht => ht) (by simp) (by simp)
  | cons k ks ih =>
    obtain ⟨hk, hnd⟩ := nodup_cons.1 hnd
    have hne : ∀ m ∈ ks, update A k 0 m = A m := by
      intro m hm
      refine update_of_ne ?_ _ _
      rintro rfl
      exact hk hm
    have hstep := h.truncAddr hwf (hlt k mem_cons_self)
    have hrest := ih hstep hnd fun m hm => by
      rw [hne m hm]
      exact hlt m (mem_cons_of_mem _ hm)
    refine hrest.congr (fun _ ht => ht) (fun x => ?_) (funext fun m => ?_)
    · constructor
      · rintro ((hF | hx) | ⟨m, hm, hx⟩)
        · exact .inl hF
        · exact .inr ⟨k, mem_cons_self, hx⟩
        · rw [hne m hm] at hx
          exact .inr ⟨m, mem_cons_of_mem _ hm, hx⟩
      rintro (hF | ⟨m, hm, hx⟩)
      · exact .inl (.inl hF)
      · rcases mem_cons.1 hm with rfl | hm
        · exact .inl (.inr hx)
        · exact .inr ⟨m, hm, by rw [hne m hm]; exact hx⟩
    by_cases hmk : m = k
    · subst hmk
      simp
    · simp [hmk]

/-! ## The single-indirect block -/

/-- An index block of the file: it can be read as it is on disk, and its entries are blocks. -/
structure IndexBlock (s0 : FileSys) (T : Nat → Prop) (b : Nat) : Prop where
  untouched : ¬ T b
  bitmap : ¬ s0.IsBitmap b
  settled : s0.bread b = s0.disk b
  size : b < s0.sb.size
  entries : ∀ j < 256, entryOf (s0.disk b) j ≠ 0 → entryOf (s0.disk b) j < s0.sb.size

theorem IndexBlock.bread (hb : IndexBlock s0 T b) (h : At s0 s i T F A) : s.bread b = s0.disk b :=
  h.cut.bread hb.bitmap hb.untouched hb.settled

/-- What `fs_itrunc_to` frees below the single-indirect block. -/
def FreedSingle (s0 : FileSys) (a N x : Nat) : Prop :=
  a ≠ 0 ∧ N ≤ 266 ∧ x ≠ 0 ∧ ((∃ j < 256, N ≤ 11 + j ∧ entryOf (s0.disk a) j = x) ∨ N ≤ 11 ∧ x = a)

/-- The singly indirect tree after the cut. -/
theorem At.indirect (h : At s0 s i T F A) (hwf : s0.sb.Wf) (ha : A 11 ≠ 0 → IndexBlock s0 T (A 11)) :
    At s0 (s.itruncToIndirect i N) i (fun c => T c ∨ c = A 11 ∧ c ≠ 0 ∧ N ≤ 266)
        (fun x => F x ∨ FreedSingle s0 (A 11) N x) (if N ≤ 11 then update A 11 0 else A) ∧
      (11 < N → N ≤ 266 → A 11 ≠ 0 → ∀ j < 256, entryOf ((s.itruncToIndirect i N).disk (A 11)) j =
        if N ≤ 11 + j then 0 else entryOf (s0.disk (A 11)) j) ∧
      (11 < N → A 11 ≠ 0 → (s.itruncToIndirect i N).bread (A 11) = (s.itruncToIndirect i N).disk (A 11)) := by
  unfold itruncToIndirect
  dsimp only
  rw [h.addrs]
  by_cases hdo : N ≤ 266 ∧ A 11 ≠ 0
  · obtain ⟨hN, h0⟩ := hdo
    have hidx := ha h0
    rw [if_pos ⟨hN, h0⟩, hidx.bread h]
    have hmem : ∀ j, j ∈ (range 256).filter (N - 11 ≤ ·) ↔ j < 256 ∧ N ≤ 11 + j := by
      intro j
      simp
      omega
    obtain ⟨hcut, hic, hentry, hmod, -⟩ := @truncEntries_spec s (s0.disk (A 11)) (N - 11)
      ((range 256).filter (N - 11 ≤ ·)) false false (h.wf hwf) (nodup_range.filter _)
      fun j hj hne => by
        rw [h.cut.sb]
        exact hidx.entries j ((hmem j).1 hj).1 hne
    generalize hr : truncEntries (N - 11) ((range 256).filter (N - 11 ≤ ·))
      (s, s0.disk (A 11), false, false) = r at hcut hic hentry hmod ⊢
    have hat : At s0 r.1 i T (fun x => F x ∨ ∃ j < 256, N ≤ 11 + j ∧
        entryOf (s0.disk (A 11)) j = x ∧ x ≠ 0) A := by
      refine ⟨(h.cut.trans hcut).congr (fun _ ht => ht.elim id False.elim) fun x => ?_, hic.trans h.icache⟩
      refine or_congr_right ⟨?_, ?_⟩
      · rintro ⟨j, hj, -, hx⟩
        exact ⟨j, ((hmem j).1 hj).1, ((hmem j).1 hj).2, hx⟩
      · rintro ⟨j, hj, hge, hx⟩
        exact ⟨j, (hmem j).2 ⟨hj, hge⟩, by omega, hx⟩
    by_cases hstart : N - 11 = 0
    · -- nothing of the block stays
      have hle : N ≤ 11 := by omega
      have hwrite : ¬ (r.2.2.1 = true ∧ 0 < N - 11) := by omega
      rw [if_pos hstart, if_neg hwrite, if_pos hle]
      refine ⟨?_, fun hlt => by omega, fun hlt => by omega⟩
      have hdirty : At s0 (if r.2.2.1 = true then r.1.bdirty (A 11) r.2.1 else r.1) i
          (fun c => T c ∨ c = A 11) (fun x => F x ∨ ∃ j < 256, N ≤ 11 + j ∧
            entryOf (s0.disk (A 11)) j = x ∧ x ≠ 0) A := by
        split
        · exact hat.bdirty hidx.bitmap _
        · exact hat.congr (fun _ ht => .inl ht) (fun _ => Iff.rfl) rfl
      refine ((hdirty.bfree hwf hidx.size).clearAddr 11).congr
        (fun c ht => ht.imp_right fun hc => ⟨hc, hc ▸ h0, hN⟩) (fun x => ?_) rfl
      constructor
      · rintro ((hF | ⟨j, hj, hge, hx, hne⟩) | rfl)
        · exact .inl hF
        · exact .inr ⟨h0, hN, hne, .inl ⟨j, hj, hge, hx⟩⟩
        · exact .inr ⟨h0, hN, h0, .inr ⟨hle, rfl⟩⟩
      rintro (hF | ⟨-, -, hne, ⟨j, hj, hge, hx⟩ | ⟨-, rfl⟩⟩)
      · exact .inl (.inl hF)
      · exact .inl (.inr ⟨j, hj, hge, hx, hne⟩)
      · exact .inr rfl
    -- the block stays, without its entries from `N - 11` on
    have hlt : ¬ N ≤ 11 := by omega
    rw [if_neg hstart, if_neg hlt]
    have hfreed : ∀ x, (F x ∨ ∃ j < 256, N ≤ 11 + j ∧ entryOf (s0.disk (A 11)) j = x ∧ x ≠ 0) ↔
        (F x ∨ FreedSingle s0 (A 11) N x) := by
      intro x
      refine or_congr_right ⟨?_, ?_⟩
      · rintro ⟨j, hj, hge, hx, hne⟩
        exact ⟨h0, hN, hne, .inl ⟨j, hj, hge, hx⟩⟩
      · rintro ⟨-, -, hne, ⟨j, hj, hge, hx⟩ | ⟨hle, -⟩⟩
        · exact ⟨j, hj, hge, hx, hne⟩
        · exact absurd hle hlt
    have hkeep : ∀ j < 256, entryOf r.2.1 j =
        if N ≤ 11 + j then 0 else entryOf (s0.disk (A 11)) j := by
      intro j hj
      unfold entryOf
      rw [hentry]
      by_cases hge : N ≤ 11 + j
      · rw [if_pos ⟨(hmem j).2 ⟨hj, hge⟩, by omega⟩, if_pos hge]
      · rw [if_neg fun hc => hge ((hmem j).1 hc.1).2, if_neg hge]
    by_cases hm : r.2.2.1 = true
    · have hwrite : r.2.2.1 = true ∧ 0 < N - 11 := ⟨hm, by omega⟩
      rw [if_pos hwrite]
      refine ⟨(hat.bwrite hidx.bitmap _).congr (fun c ht => ht.imp_right fun hc => ⟨hc, hc ▸ h0, hN⟩)
        hfreed rfl, fun _ _ _ j hj => ?_, fun _ _ => ?_⟩
      · have hdisk : (r.1.bwrite (A 11) r.2.1).disk (A 11) = r.2.1 := update_self _ _ _
        rw [hdisk, hkeep j hj]
      · rw [bread_bwrite, if_pos rfl]
        exact (update_self (A 11) r.2.1 r.1.disk).symm
    have hwrite : ¬ (r.2.2.1 = true ∧ 0 < N - 11) := fun hc => hm hc.1
    rw [if_neg hwrite, if_neg hm]
    have hdisk := (hat.cut.same (A 11) hidx.bitmap hidx.untouched).1
    refine ⟨hat.congr (fun c ht => .inl ht) hfreed rfl, fun _ _ _ j hj => ?_, fun _ _ => ?_⟩
    · rw [hdisk]
      split
      · rename_i hge
        by_contra hne
        exact hm (hmod.2 (.inr ⟨j, (hmem j).2 ⟨hj, hge⟩, by omega, hne⟩))
      · rfl
    · rw [hidx.bread hat, hdisk]
  rw [if_neg hdo]
  refine ⟨h.congr (fun _ ht => .inl ht) (fun x => ?_) ?_, fun _ hN h0 => absurd ⟨hN, h0⟩ hdo, fun _ h0 => ?_⟩
  · unfold FreedSingle
    constructor
    · exact .inl
    · rintro (hF | ⟨h0, hN, -⟩)
      · exact hF
      · exact absurd ⟨hN, h0⟩ hdo
  · split
    · rename_i hle
      have hzero : A 11 = 0 := by
        by_contra h0
        exact hdo ⟨by omega, h0⟩
      exact (update_eq_self_iff.2 hzero.symm).symm
    · rfl
  · rw [(ha h0).bread h, (h.cut.same _ (ha h0).bitmap (ha h0).untouched).1]

end

/-! ## The double-indirect block -/

/-- The second-level index block at entry `k` of block `a`. -/
def innerOf (s0 : FileSys) (a k : Nat) : Nat := entryOf (s0.disk a) k

/-- Something of the blocks below entry `k` stays. -/
def StaysInner (s0 : FileSys) (a N k : Nat) : Prop :=
  ∃ l < 256, 267 + 256 * k + l < N ∧ entryOf (s0.disk (innerOf s0 a k)) l ≠ 0

/-- The loop reads the index block at entry `k`. -/
def ReadInner (s0 : FileSys) (a N k : Nat) : Prop := (N - 267) / 256 ≤ k ∧ innerOf s0 a k ≠ 0

/-- What is freed at entry `k` and below. -/
def FreedInner (s0 : FileSys) (a N k x : Nat) : Prop :=
  ReadInner s0 a N k ∧ x ≠ 0 ∧
    ((∃ l < 256, N ≤ 267 + 256 * k + l ∧ entryOf (s0.disk (innerOf s0 a k)) l = x) ∨
      ¬ StaysInner s0 a N k ∧ x = innerOf s0 a k)

/-- The second-level index blocks can be read as they are on disk, and are different. -/
structure InnerBlocks (s0 : FileSys) (T : Nat → Prop) (a : Nat) : Prop where
  index : ∀ k < 256, innerOf s0 a k ≠ 0 → IndexBlock s0 T (innerOf s0 a k)
  inj : ∀ k < 256, ∀ k' < 256, innerOf s0 a k ≠ 0 → innerOf s0 a k = innerOf s0 a k' → k = k'

/-- After the entries before `n`. -/
structure InnerAt (s0 : FileSys) (i : Nat) (T F : Nat → Prop) (A : Nat → Nat) (a N n : Nat)
    (r : FileSys × Block × Bool) : Prop where
  reached : At s0 r.1 i (fun c => T c ∨ ∃ k < n, ReadInner s0 a N k ∧ innerOf s0 a k = c)
    (fun x => F x ∨ ∃ k < n, FreedInner s0 a N k x) A
  data : ∀ k < 256, n ≤ k → getLe 4 r.2.1 (4 * k) = innerOf s0 a k
  flag : r.2.2 = true ↔ ∀ k < n, innerOf s0 a k ≠ 0 → (N - 267) / 256 ≤ k ∧ ¬ StaysInner s0 a N k
  disk : ∀ k < n, ReadInner s0 a N k → StaysInner s0 a N k → ∀ l < 256,
    entryOf (r.1.disk (innerOf s0 a k)) l =
      if N ≤ 267 + 256 * k + l then 0 else entryOf (s0.disk (innerOf s0 a k)) l
  settled : ∀ k < n, ReadInner s0 a N k → StaysInner s0 a N k →
    r.1.bread (innerOf s0 a k) = r.1.disk (innerOf s0 a k)
  root : (∀ k < n, ReadInner s0 a N k → StaysInner s0 a N k) → r.2.1 = s0.disk a

section

variable {s0 s : FileSys} {i a N n : Nat} {T F : Nat → Prop} {A : Nat → Nat} {r : FileSys × Block × Bool}

theorem exists_lt_succ {p : Nat → Prop} : (∃ k < n + 1, p k) ↔ (∃ k < n, p k) ∨ p n := by
  constructor
  · rintro ⟨k, hk, hp⟩
    rcases Nat.lt_succ_iff_lt_or_eq.1 hk with hk | rfl
    · exact .inl ⟨k, hk, hp⟩
    · exact .inr hp
  · rintro (⟨k, hk, hp⟩ | hp)
    · exact ⟨k, Nat.lt_succ_of_lt hk, hp⟩
    · exact ⟨n, Nat.lt_succ_self n, hp⟩

theorem forall_lt_succ {p : Nat → Prop} : (∀ k < n + 1, p k) ↔ (∀ k < n, p k) ∧ p n := by
  constructor
  · exact fun h => ⟨fun k hk => h k (Nat.lt_succ_of_lt hk), h n (Nat.lt_succ_self n)⟩
  rintro ⟨h, hn⟩ k hk
  rcases Nat.lt_succ_iff_lt_or_eq.1 hk with hk | rfl
  · exact h k hk
  · exact hn

theorem InnerAt.skip (h : InnerAt s0 i T F A a N n r) (hread : ¬ ReadInner s0 a N n) {flag : Bool}
    (hflag : flag = true ↔ r.2.2 = true ∧ innerOf s0 a n = 0) :
    InnerAt s0 i T F A a N (n + 1) (r.1, r.2.1, flag) := by
  refine ⟨h.reached.congr (fun c ht => ht.imp_right fun ⟨k, hk, hx⟩ => ⟨k, Nat.lt_succ_of_lt hk, hx⟩)
    (fun x => ?_) rfl, fun k hk hn => h.data k hk (Nat.le_of_succ_le hn), ?_, fun k hk hrk => ?_,
    fun k hk hrk => ?_, fun hall => h.root fun k hk => hall k (Nat.lt_succ_of_lt hk)⟩
  · rw [exists_lt_succ]
    have hno : ¬ FreedInner s0 a N n x := fun hx => hread hx.1
    simp [hno]
  · rw [hflag, h.flag, forall_lt_succ]
    refine and_congr_right fun _ => ⟨fun h0 hne => absurd h0 hne, fun hall => ?_⟩
    by_contra hne
    exact hread ⟨(hall hne).1, hne⟩
  · rcases Nat.lt_succ_iff_lt_or_eq.1 hk with hk | rfl
    · exact h.disk k hk hrk
    · exact absurd hrk hread
  · rcases Nat.lt_succ_iff_lt_or_eq.1 hk with hk | rfl
    · exact h.settled k hk hrk
    · exact absurd hrk hread

theorem start_le_iff {k l : Nat} (hk : (N - 267) / 256 ≤ k) (hl : l < 256) :
    (if k = (N - 267) / 256 then (N - 267) % 256 else 0) ≤ l ↔ N ≤ 267 + 256 * k + l := by
  split <;> omega

/-- One more inner block of the doubly indirect tree. -/
theorem InnerAt.step (h : InnerAt s0 i T F A a N n r) (hwf : s0.sb.Wf) (hin : InnerBlocks s0 T a)
    (hn : n < 256) : InnerAt s0 i T F A a N (n + 1)
      (itruncToInner ((N - 267) / 256) ((N - 267) % 256) r n) := by
  have hb := h.data n hn (Nat.le_refl n)
  unfold itruncToInner
  dsimp only
  rw [hb]
  by_cases h0 : innerOf s0 a n = 0
  · rw [if_pos h0]
    exact h.skip (fun hr => hr.2 h0) (by simp [h0])
  rw [if_neg h0]
  by_cases hlt : n < (N - 267) / 256
  · rw [if_pos hlt]
    exact h.skip (fun hr => absurd hr.1 (Nat.not_le_of_lt hlt)) (by simp [h0])
  rw [if_neg hlt]
  have hge : (N - 267) / 256 ≤ n := Nat.le_of_not_lt hlt
  have hread : ReadInner s0 a N n := ⟨hge, h0⟩
  have hidx := hin.index n hn h0
  have hfresh : ¬ (T (innerOf s0 a n) ∨ ∃ k < n, ReadInner s0 a N k ∧ innerOf s0 a k = innerOf s0 a n) := by
    rintro (ht | ⟨k, hk, hrk, heq⟩)
    · exact hidx.untouched ht
    · exact absurd (hin.inj k (by omega) n hn hrk.2 heq) (by omega)
  have hbread : r.1.bread (innerOf s0 a n) = s0.disk (innerOf s0 a n) :=
    h.reached.cut.bread hidx.bitmap hfresh hidx.settled
  rw [hbread]
  generalize hstart : (if n = (N - 267) / 256 then (N - 267) % 256 else 0) = start
  have hcutoff : ∀ l < 256, start ≤ l ↔ N ≤ 267 + 256 * n + l := fun l hl =>
    hstart ▸ start_le_iff hge hl
  obtain ⟨hcut, hic, hentry, -, hleft⟩ := @truncEntries_spec r.1 (s0.disk (innerOf s0 a n)) start
    (range 256) false false (h.reached.wf hwf) nodup_range fun l hl hne => by
      rw [h.reached.cut.sb]
      exact hidx.entries l (mem_range.1 hl) hne
  generalize truncEntries start (range 256)
    (r.1, s0.disk (innerOf s0 a n), false, false) = t at hcut hic hentry hleft ⊢
  have hstays : t.2.2.2 = true ↔ StaysInner s0 a N n := by
    rw [hleft]
    constructor
    · rintro (hf | ⟨l, hl, hs, hne⟩)
      · cases hf
      have hl := mem_range.1 hl
      refine ⟨l, hl, ?_, hne⟩
      have := hcutoff l hl
      omega
    · rintro ⟨l, hl, hs, hne⟩
      have := hcutoff l hl
      exact .inr ⟨l, mem_range.2 hl, by omega, hne⟩
  have hat : At s0 t.1 i (fun c => T c ∨ ∃ k < n, ReadInner s0 a N k ∧ innerOf s0 a k = c)
      (fun x => (F x ∨ ∃ k < n, FreedInner s0 a N k x) ∨ ∃ l < 256, N ≤ 267 + 256 * n + l ∧
        entryOf (s0.disk (innerOf s0 a n)) l = x ∧ x ≠ 0) A := by
    refine ⟨(h.reached.cut.trans hcut).congr (fun _ ht => ht.elim id False.elim) fun x => ?_,
      hic.trans h.reached.icache⟩
    refine or_congr_right ⟨?_, ?_⟩
    · rintro ⟨l, hl, hs, hx⟩
      have hl := mem_range.1 hl
      exact ⟨l, hl, (hcutoff l hl).1 hs, hx⟩
    · rintro ⟨l, hl, hs, hx⟩
      exact ⟨l, mem_range.2 hl, (hcutoff l hl).2 hs, hx⟩
  have htouch : ∀ c, ((T c ∨ ∃ k < n, ReadInner s0 a N k ∧ innerOf s0 a k = c) ∨ c = innerOf s0 a n) →
      T c ∨ ∃ k < n + 1, ReadInner s0 a N k ∧ innerOf s0 a k = c := by
    rintro c ((ht | ⟨k, hk, hx⟩) | rfl)
    · exact .inl ht
    · exact .inr ⟨k, Nat.lt_succ_of_lt hk, hx⟩
    · exact .inr ⟨n, Nat.lt_succ_self n, hread, rfl⟩
  -- an earlier index block is not touched any more
  have hold : ∀ k < n, ReadInner s0 a N k → innerOf s0 a k ≠ innerOf s0 a n := fun k hk hrk heq =>
    hfresh (.inr ⟨k, hk, hrk, heq⟩)
  have holdDisk : ∀ k < n, ReadInner s0 a N k → t.1.disk (innerOf s0 a k) = r.1.disk (innerOf s0 a k) := by
    intro k hk hrk
    have hbk := (hin.index k (by omega) hrk.2).bitmap
    exact (hcut.same _ (h.reached.bitmap hbk) id).1
  have holdRead : ∀ k < n, ReadInner s0 a N k → StaysInner s0 a N k →
      t.1.bread (innerOf s0 a k) = t.1.disk (innerOf s0 a k) := by
    intro k hk hrk hsk
    have hbk := (hin.index k (by omega) hrk.2).bitmap
    rw [hcut.bread (h.reached.bitmap hbk) id (h.settled k hk hrk hsk), holdDisk k hk hrk]
  by_cases hst : StaysInner s0 a N n
  · -- something stays: the block is written
    have htrue := hstays.2 hst
    rw [htrue, if_neg Bool.false_ne_true.symm]
    refine ⟨(hat.bwrite hidx.bitmap _).congr htouch (fun x => ?_) rfl,
      fun k hk hnk => h.data k hk (Nat.le_of_succ_le hnk), ?_, fun k hk hrk hsk l hl => ?_,
      fun k hk hrk hsk => ?_, fun hall => h.root fun k hk => hall k (Nat.lt_succ_of_lt hk)⟩
    · rw [@exists_lt_succ n, or_assoc]
      refine or_congr_right (or_congr_right ⟨?_, ?_⟩)
      · rintro ⟨l, hl, hs, hx, hne⟩
        exact ⟨hread, hne, .inl ⟨l, hl, hs, hx⟩⟩
      · rintro ⟨-, hne, ⟨l, hl, hs, hx⟩ | ⟨hno, -⟩⟩
        · exact ⟨l, hl, hs, hx, hne⟩
        · exact absurd hst hno
    · rw [forall_lt_succ]
      simp [h0, hst]
    · rcases Nat.lt_succ_iff_lt_or_eq.1 hk with hk | rfl
      · have hdisk : (t.1.bwrite (innerOf s0 a n) t.2.1).disk (innerOf s0 a k) =
            t.1.disk (innerOf s0 a k) := update_of_ne (hold k hk hrk) _ _
        rw [hdisk, holdDisk k hk hrk]
        exact h.disk k hk hrk hsk l hl
      have hdisk : (t.1.bwrite (innerOf s0 a k) t.2.1).disk (innerOf s0 a k) = t.2.1 :=
        update_self _ _ _
      rw [hdisk, entryOf, hentry]
      have hiff := hcutoff l hl
      by_cases hge' : start ≤ l
      · rw [if_pos ⟨mem_range.2 hl, hge'⟩, if_pos (hiff.1 hge')]
      · rw [if_neg fun hc => hge' hc.2, if_neg fun hc => hge' (hiff.2 hc)]
        rfl
    rw [bread_bwrite]
    rcases Nat.lt_succ_iff_lt_or_eq.1 hk with hk | rfl
    · rw [if_neg (hold k hk hrk), holdRead k hk hrk hsk]
      exact (update_of_ne (hold k hk hrk) t.2.1 t.1.disk).symm
    · rw [if_pos rfl]
      exact (update_self (innerOf s0 a k) t.2.1 t.1.disk).symm
  -- nothing stays: the block is freed
  have hfalse : t.2.2.2 = false := by
    cases hleft' : t.2.2.2 with
    | false => rfl
    | true => exact absurd (hstays.1 hleft') hst
  rw [hfalse, if_pos rfl]
  have hfreed := (hat.bdirty hidx.bitmap t.2.1).bfree hwf hidx.size
  have hother := fun k (hk : k < n) (hrk : ReadInner s0 a N k) =>
    ((bdirty_cut (hat.bitmap hidx.bitmap) t.2.1).trans (bfree_cut (hat.wf hwf) (b := innerOf s0 a n) (by
        show _ < t.1.sb.size
        rw [hat.cut.sb]
        exact hidx.size))).same (innerOf s0 a k)
        (hat.bitmap (hin.index k (by omega) hrk.2).bitmap)
        (by rintro (heq | hf); exacts [hold k hk hrk heq, hf])
  refine ⟨hfreed.congr htouch (fun x => ?_) rfl, fun k hk hnk => ?_, ?_, fun k hk hrk hsk l hl => ?_,
    fun k hk hrk hsk => ?_, fun hall => absurd (hall n (Nat.lt_succ_self n) hread) hst⟩
  · rw [@exists_lt_succ n, or_assoc, or_assoc]
    refine or_congr_right (or_congr_right ⟨?_, ?_⟩)
    · rintro (⟨l, hl, hs, hx, hne⟩ | rfl)
      · exact ⟨hread, hne, .inl ⟨l, hl, hs, hx⟩⟩
      · exact ⟨hread, h0, .inr ⟨hst, rfl⟩⟩
    · rintro ⟨-, hne, ⟨l, hl, hs, hx⟩ | ⟨-, rfl⟩⟩
      · exact .inl ⟨l, hl, hs, hx, hne⟩
      · exact .inr rfl
  · dsimp only
    rw [entryOf_putLe (by decide), if_neg (by omega)]
    exact h.data k hk (Nat.le_of_succ_le hnk)
  · dsimp only
    rw [h.flag, forall_lt_succ]
    simp [h0, hge, hst]
  · rcases Nat.lt_succ_iff_lt_or_eq.1 hk with hk | rfl
    · rw [(hother k hk hrk).1, holdDisk k hk hrk]
      exact h.disk k hk hrk hsk l hl
    · exact absurd hsk hst
  rcases Nat.lt_succ_iff_lt_or_eq.1 hk with hk | rfl
  · obtain ⟨hd, hf⟩ := hother k hk hrk
    unfold bread at holdRead ⊢
    rw [hd, hf]
    exact holdRead k hk hrk hsk
  · exact absurd hsk hst

theorem innerAt_all (h : At s0 s i T F A) (hwf : s0.sb.Wf) (hin : InnerBlocks s0 T a) : InnerAt s0 i T F A a N 256 ((range 256).foldl
      (itruncToInner ((N - 267) / 256) ((N - 267) % 256)) (s, s0.disk a, true)) := by
  have hall : ∀ n ≤ 256, InnerAt s0 i T F A a N n ((range n).foldl
      (itruncToInner ((N - 267) / 256) ((N - 267) % 256)) (s, s0.disk a, true)) := by
    intro n
    induction n with
    | zero =>
      intro _
      exact ⟨h.congr (fun _ ht => .inl ht) (by simp) rfl, fun _ _ _ => rfl, by simp, by simp, by simp, fun _ => rfl⟩
    | succ n ih =>
      intro hn
      rw [range_succ, foldl_append]
      exact (ih (Nat.le_of_succ_le hn)).step hwf hin hn
  exact hall 256 (Nat.le_refl _)

/-- Nothing below the double-indirect block stays. -/
def NothingStays (s0 : FileSys) (a N : Nat) : Prop :=
  ∀ k < 256, innerOf s0 a k ≠ 0 → (N - 267) / 256 ≤ k ∧ ¬ StaysInner s0 a N k

/-- The doubly indirect block, or an inner one that the loop has read. -/
def TouchedDouble (s0 : FileSys) (a N c : Nat) : Prop :=
  c = a ∨ ∃ k < 256, ReadInner s0 a N k ∧ innerOf s0 a k = c

/-- The loop has ended, and the first-level block is released. -/
theorem At.double_end (h : At s0 s i T F A) (hwf : s0.sb.Wf) (ha : IndexBlock s0 T (A 12))
    (hin : InnerBlocks s0 T (A 12)) (hroot : ∀ k < 256, innerOf s0 (A 12) k ≠ A 12) :
    ∃ r : FileSys × Block × Bool, (N ≤ 65802 → A 12 ≠ 0 → s.itruncToDouble i N =
        if r.2.2 then ((r.1.bdirty (A 12) r.2.1).bfree (A 12)).clearAddr i 12
        else r.1.bdirty (A 12) r.2.1) ∧
      (r.2.2 = true ↔ NothingStays s0 (A 12) N) ∧
      At s0 (r.1.bdirty (A 12) r.2.1) i (fun c => T c ∨ TouchedDouble s0 (A 12) N c)
        (fun x => F x ∨ ∃ k < 256, FreedInner s0 (A 12) N k x) A ∧
      (r.1.bdirty (A 12) r.2.1).disk (A 12) = s0.disk (A 12) ∧
      (∀ k < 256, ReadInner s0 (A 12) N k → StaysInner s0 (A 12) N k → ∀ l < 256,
        entryOf ((r.1.bdirty (A 12) r.2.1).disk (innerOf s0 (A 12) k)) l =
          if N ≤ 267 + 256 * k + l then 0 else entryOf (s0.disk (innerOf s0 (A 12) k)) l) ∧
      (∀ k < 256, ReadInner s0 (A 12) N k → StaysInner s0 (A 12) N k →
        (r.1.bdirty (A 12) r.2.1).bread (innerOf s0 (A 12) k) =
          (r.1.bdirty (A 12) r.2.1).disk (innerOf s0 (A 12) k)) ∧
      ((∀ k < 256, ReadInner s0 (A 12) N k → StaysInner s0 (A 12) N k) →
        (r.1.bdirty (A 12) r.2.1).bread (A 12) = s0.disk (A 12)) := by
  have hrun := innerAt_all (N := N) h hwf hin
  generalize hr : (range 256).foldl
    (itruncToInner ((N - 267) / 256) ((N - 267) % 256)) (s, s0.disk (A 12), true) = r at hrun
  refine ⟨r, fun hN h0 => ?_, hrun.flag, ?_, ?_, hrun.disk, fun k hk hrk hsk => ?_, fun hall => ?_⟩
  · unfold itruncToDouble
    dsimp only
    rw [h.addrs, if_pos ⟨hN, h0⟩, ha.bread h, hr]
  · refine (hrun.reached.bdirty ha.bitmap _).congr (fun c hc => ?_) (fun _ => Iff.rfl) rfl
    rcases hc with (ht | hk) | rfl
    · exact .inl ht
    · exact .inr (.inr hk)
    · exact .inr (.inl rfl)
  · refine (hrun.reached.cut.same (A 12) ha.bitmap ?_).1
    rintro (ht | ⟨k, hk, -, heq⟩)
    · exact ha.untouched ht
    · exact hroot k hk heq
  · rw [bread_bdirty, if_neg (hroot k hk)]
    exact hrun.settled k hk hrk hsk
  · rw [bread_bdirty, if_pos rfl]
    exact hrun.root hall

theorem At.double_all (h : At s0 s i T F A) (hwf : s0.sb.Wf) (ha : IndexBlock s0 T (A 12))
    (hin : InnerBlocks s0 T (A 12)) (hroot : ∀ k < 256, innerOf s0 (A 12) k ≠ A 12) (hN : N ≤ 65802)
    (h0 : A 12 ≠ 0) (hnone : NothingStays s0 (A 12) N) :
    At s0 (s.itruncToDouble i N) i (fun c => T c ∨ TouchedDouble s0 (A 12) N c)
      (fun x => F x ∨ (∃ k < 256, FreedInner s0 (A 12) N k x) ∨ x = A 12) (update A 12 0) := by
  obtain ⟨r, hr, hflag, hat, -⟩ := h.double_end (N := N) hwf ha hin hroot
  rw [hr hN h0, if_pos (hflag.2 hnone)]
  exact ((hat.bfree hwf ha.size).clearAddr 12).congr (fun _ ht => ht) (fun x => or_assoc) rfl

/-- Something stays: the first-level block is the old one on disk. -/
theorem At.double_part (h : At s0 s i T F A) (hwf : s0.sb.Wf) (ha : IndexBlock s0 T (A 12))
    (hin : InnerBlocks s0 T (A 12)) (hroot : ∀ k < 256, innerOf s0 (A 12) k ≠ A 12) (hN : N ≤ 65802)
    (h0 : A 12 ≠ 0) (hsome : ¬ NothingStays s0 (A 12) N) :
    At s0 (s.itruncToDouble i N) i (fun c => T c ∨ TouchedDouble s0 (A 12) N c)
        (fun x => F x ∨ ∃ k < 256, FreedInner s0 (A 12) N k x) A ∧
      (s.itruncToDouble i N).disk (A 12) = s0.disk (A 12) ∧
      (∀ k < 256, ReadInner s0 (A 12) N k → StaysInner s0 (A 12) N k → ∀ l < 256,
        entryOf ((s.itruncToDouble i N).disk (innerOf s0 (A 12) k)) l =
          if N ≤ 267 + 256 * k + l then 0 else entryOf (s0.disk (innerOf s0 (A 12) k)) l) ∧
      (∀ k < 256, ReadInner s0 (A 12) N k → StaysInner s0 (A 12) N k →
        (s.itruncToDouble i N).bread (innerOf s0 (A 12) k) = (s.itruncToDouble i N).disk (innerOf s0 (A 12) k)) ∧
      ((∀ k < 256, ReadInner s0 (A 12) N k → StaysInner s0 (A 12) N k) →
        (s.itruncToDouble i N).bread (A 12) = s0.disk (A 12)) := by
  obtain ⟨r, hr, hflag, hat, hdisk, hinner, hsettled, hroot'⟩ := h.double_end (N := N) hwf ha hin hroot
  rw [hr hN h0, if_neg fun hf => hsome (hflag.1 hf)]
  exact ⟨hat, hdisk, hinner, hsettled, hroot'⟩

theorem IndexBlock.move {b : Nat} (hb : IndexBlock s0 T b) (h : At s0 s i T F A) :
    IndexBlock s (fun _ => False) b ∧ s.disk b = s0.disk b := by
  have hdisk := (h.cut.same b hb.bitmap hb.untouched).1
  refine ⟨⟨id, h.bitmap hb.bitmap, (hb.bread h).trans hdisk.symm, ?_, fun j hj hne => ?_⟩, hdisk⟩
  · rw [h.cut.sb]
    exact hb.size
  · rw [hdisk] at hne ⊢
    rw [h.cut.sb]
    exact hb.entries j hj hne

/-- What the cut of the doubly indirect tree does not touch. -/
theorem At.double_frame (h : At s0 s i T F A) (hwf : s0.sb.Wf) (ha : A 12 ≠ 0 → IndexBlock s0 T (A 12))
    (hin : A 12 ≠ 0 → InnerBlocks s0 T (A 12))
    (hroot : A 12 ≠ 0 → ∀ k < 256, innerOf s0 (A 12) k ≠ A 12) {c : Nat} (hc : ¬ s0.IsBitmap c)
    (ht : A 12 ≠ 0 → ¬ TouchedDouble s0 (A 12) N c) :
    (s.itruncToDouble i N).disk c = s.disk c ∧ (s.itruncToDouble i N).buf c = s.buf c := by
  by_cases hdo : N ≤ 65802 ∧ A 12 ≠ 0
  · obtain ⟨hN, h0⟩ := hdo
    obtain ⟨hidx, hdisk⟩ := (ha h0).move h
    have hsame : ∀ k, innerOf s (A 12) k = innerOf s0 (A 12) k := fun k => by
      unfold innerOf
      rw [hdisk]
    have hin' : InnerBlocks s (fun _ => False) (A 12) := by
      refine ⟨fun k hk hne => ?_, fun k hk k' hk' hne heq => ?_⟩
      · rw [hsame] at hne ⊢
        exact (((hin h0).index k hk hne).move h).1
      · rw [hsame] at hne heq
        rw [hsame] at heq
        exact (hin h0).inj k hk k' hk' hne heq
    have hroot' : ∀ k < 256, innerOf s (A 12) k ≠ A 12 := fun k hk => by
      rw [hsame]
      exact hroot h0 k hk
    have hself : At s s i (fun _ => False) (fun _ => False) A := by
      rw [← h.addrs]
      exact At.start s i
    obtain ⟨r, hr, -, hat, -⟩ := hself.double_end (N := N) (h.wf hwf) hidx hin' hroot'
    have hfinal : (s.itruncToDouble i N).disk c = (r.1.bdirty (A 12) r.2.1).disk c ∧
        (s.itruncToDouble i N).buf c = (r.1.bdirty (A 12) r.2.1).buf c := by
      rw [hr hN h0]
      split
      · have hfree : c ≠ (r.1.bdirty (A 12) r.2.1).bblock (A 12) := by
          intro heq
          refine hc ⟨A 12, (ha h0).size, ?_⟩
          rw [heq]
          unfold bblock
          rw [hat.cut.sb, h.cut.sb]
        exact ⟨update_of_ne hfree _ _, update_of_ne hfree _ _⟩
      · exact ⟨rfl, rfl⟩
    rw [hfinal.1, hfinal.2]
    refine hat.cut.same c (h.bitmap hc) ?_
    rintro (hf | rfl | ⟨k, hk, ⟨hge, hne⟩, heq⟩)
    · exact hf
    · exact ht h0 (.inl rfl)
    · rw [hsame] at hne heq
      exact ht h0 (.inr ⟨k, hk, ⟨hge, hne⟩, heq⟩)
  · unfold itruncToDouble
    rw [h.addrs, if_neg hdo]
    exact ⟨rfl, rfl⟩

theorem double_idle (h : At s0 s i T F A) (hidle : ¬ (N ≤ 65802 ∧ A 12 ≠ 0)) :
    s.itruncToDouble i N = s := by
  unfold itruncToDouble
  rw [h.addrs, if_neg hidle]

end

end Slopix.Fs
