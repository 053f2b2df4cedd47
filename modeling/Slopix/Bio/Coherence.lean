import Slopix.Bio.Cache

/-!
# The buffer cache, one process at a time

Sequences of `bio_read`, in-place modification followed by `bio_write`, and `bio_release`, on a disk
that completes every request. `last` records for each block what was last written to it, and at the
start what the disk holds at the block's two sectors.

The driver is given `blockno * SECTORS_PER_BLOCK`, computed as an `unsigned int`, and no device
number. Blocks of different devices, and blocks `2^31` apart, therefore share their sectors.
`bio_coherent` is the coherence law for runs in which every block is on one device and below
`2^31`; `bio_wrong_block` is a run outside that range that returns another block's data.
-/

namespace Slopix.Bio

open Lib Function Option

universe u

variable {S : Type u}

/-- `bio_read` on a disk that completes every request. -/
def bioRead (c : Bcache S) (disk : Nat → S) (dev blockno : Nat) : Option Nat × Bcache S :=
  match bget c dev blockno with
  | (none, c') => (none, c')
  | (some i, c') =>
    if (c'.buf i).valid then (some i, c')
    else
      (some i, c'.setBuf i { c'.buf i with
        data := (disk (sectorOf blockno), disk (sectorOf blockno + 1)), valid := true })

/-- `bio_write` on a disk that completes every request: the disk afterwards. -/
def bioWrite (c : Bcache S) (disk : Nat → S) (i : Nat) : Nat → S :=
  Function.update (Function.update disk (sectorOf (c.buf i).blockno) (c.buf i).data.1)
    (sectorOf (c.buf i).blockno + 1) (c.buf i).data.2

/-- The cache, the disk, and what was last written to each block. -/
structure St (S : Type u) where
  cache : Bcache S
  disk : Nat → S
  last : Nat → S × S

/-- The boot state; the last write of a block is what the disk has. -/
def St.init (data : Nat → S × S) (disk : Nat → S) : St S where
  cache := bioInit data
  disk := disk
  last n := (disk (2 * n), disk (2 * n + 1))

/-- One operation of the process: `bio_read`, a modification followed by `bio_write`, or
`bio_release`. The last two are on a buffer it has a reference to. -/
inductive Op (S : Type u) where
  | read (dev blockno : Nat)
  | write (i : Nat) (f : S × S → S × S)
  | release (i : Nat)

/-- The buffer is one the process has a reference to. -/
def St.holds (s : St S) (i : Nat) : Prop := i < nbuf ∧ (s.cache.buf i).refcnt ≠ 0

instance (s : St S) (i : Nat) : Decidable (s.holds i) := inferInstanceAs (Decidable (_ ∧ _))

/-- One operation, with the buffer a `bio_read` returns. -/
def St.step (s : St S) : Op S → Option (St S × Option Nat)
  | .read dev blockno =>
    let r := bioRead s.cache s.disk dev blockno
    some ({ s with cache := r.2 }, r.1)
  | .write i f =>
    if s.holds i then
      let b := s.cache.buf i
      let cache := s.cache.setBuf i { b with data := f b.data }
      some ({ cache := cache
              disk := bioWrite cache s.disk i
              last := Function.update s.last b.blockno (f b.data) }, none)
    else none
  | .release i =>
    if s.holds i then some ({ s with cache := bioRelease s.cache i }, none) else none

/-- Runs whose operations all satisfy `C`. -/
inductive Run (C : Op S → Prop) : St S → Prop
  | init (data : Nat → S × S) (disk : Nat → S) : Run C (.init data disk)
  | step {s s' : St S} {o : Op S} {r : Option Nat} :
      Run C s → C o → s.step o = some (s', r) → Run C s'

/-- Every block read is on device `dev` and has a sector address that fits an `unsigned int`. -/
def OnDisk (dev : Nat) : Op S → Prop
  | .read d blockno => d = dev ∧ blockno < 2147483648
  | _ => True

theorem sectorOf_eq {n : Nat} (h : n < 2147483648) : sectorOf n = 2 * n := by
  unfold sectorOf uintMod
  omega

/-- The coherence invariant: one live buffer per block, and buffers and disk agree with what was
last written. -/
structure Inv (dev : Nat) (s : St S) : Prop where
  order : ∃ l, RingOrder s.cache l ∧ FirstOfBlock s.cache l
  onDisk : ∀ i < nbuf, (s.cache.buf i).live →
    (s.cache.buf i).dev = dev ∧ (s.cache.buf i).blockno < 2147483648
  fresh : ∀ i < nbuf, (s.cache.buf i).valid = true →
    (s.cache.buf i).data = s.last (s.cache.buf i).blockno
  through : ∀ n < 2147483648, (s.disk (2 * n), s.disk (2 * n + 1)) = s.last n

section

variable {dev : Nat} {s : St S}

theorem inv_init (data : Nat → S × S) (disk : Nat → S) : Inv dev (St.init data disk) where
  order := by
    refine ⟨_, ringOrder_bioInit data, fun i _ hlive => ?_⟩
    rcases hlive with h | h
    · cases h
    · exact absurd rfl h
  onDisk i _ hlive := by
    rcases hlive with h | h
    · cases h
    · exact absurd rfl h
  fresh i _ h := by cases h
  through n _ := rfl

/-- What `bio_read` returns: a buffer of the block, valid, whose data were in it already or have just
been read. Other buffers that are referenced or valid for another block stay. -/
theorem bioRead_cases {c : Bcache S} {l : List Nat} (ho : RingOrder c l) (disk : Nat → S)
    (dev blockno : Nat) :
    (∃ i < nbuf, ∃ b : Buf S, bioRead c disk dev blockno = (some i, c.setBuf i b) ∧
      b.dev = dev ∧ b.blockno = blockno ∧ b.valid = true ∧
      ((c.buf i).refcnt ≠ 0 → (c.buf i).dev = dev ∧ (c.buf i).blockno = blockno) ∧
      (b.data = (disk (sectorOf blockno), disk (sectorOf blockno + 1)) ∨
        (c.buf i).valid = true ∧ (c.buf i).blockno = blockno ∧ b.data = (c.buf i).data)) ∨
    bioRead c disk dev blockno = (none, c) := by
  unfold bioRead
  rcases bget_cases ho dev blockno with ⟨i, hfind, hget⟩ | ⟨i, hi, hzero, -, hget⟩ | ⟨-, hget⟩
  · have hblk := List.find?_some hfind
    obtain ⟨hdev, hno⟩ := Buf.isBlock_iff.1 hblk
    have hi := ho.mem_iff.1 (List.mem_of_find?_eq_some hfind)
    rw [hget]
    simp only [Bcache.setBuf, update_self, update_idem]
    cases hv : (c.buf i).valid with
    | true =>
      exact Or.inl ⟨i, hi, _, rfl, hdev, hno, rfl, fun _ => ⟨hdev, hno⟩,
        Or.inr ⟨hv, hno, rfl⟩⟩
    | false =>
      exact Or.inl ⟨i, hi, _, rfl, hdev, hno, rfl, fun _ => ⟨hdev, hno⟩, Or.inl rfl⟩
  · rw [hget]
    simp only [Bcache.setBuf, update_self, update_idem, Bool.false_eq_true, if_false]
    exact Or.inl ⟨i, hi, _, rfl, rfl, rfl, rfl, fun h => absurd hzero h, Or.inl rfl⟩
  · rw [hget]
    exact Or.inr rfl

/-- `bio_read` keeps one live buffer per block: filling a buffer that `bget` returned changes only
its data and its flag. -/
theorem firstOfBlock_bioRead {c : Bcache S} {l : List Nat} (ho : RingOrder c l)
    (h : FirstOfBlock c l) (disk : Nat → S) (dev blockno : Nat) :
    RingOrder (bioRead c disk dev blockno).2 l ∧ FirstOfBlock (bioRead c disk dev blockno).2 l := by
  obtain ⟨ho', h', hfirst⟩ := firstOfBlock_bget ho h dev blockno
  unfold bioRead
  rcases hg : bget c dev blockno with ⟨r, c'⟩
  rw [hg] at ho' h' hfirst
  cases r with
  | none => exact ⟨ho', h'⟩
  | some i =>
    simp only
    split
    · exact ⟨ho', h'⟩
    · exact ⟨ho'.setBuf _ _, h'.setBuf rfl rfl (hfirst i rfl)⟩

theorem bioRead_last (h : Inv dev s) {blockno : Nat} (hn : blockno < 2147483648) {i : Nat}
    (hr : (bioRead s.cache s.disk dev blockno).1 = some i) :
    i < nbuf ∧ ((bioRead s.cache s.disk dev blockno).2.buf i).data = s.last blockno ∧
      ((bioRead s.cache s.disk dev blockno).2.buf i).blockno = blockno := by
  obtain ⟨l, ho, -⟩ := h.order
  rcases bioRead_cases ho s.disk dev blockno with ⟨k, hk, b, hread, hd, hno, hv, -, hdata⟩ | hread
  · rw [hread] at hr ⊢
    obtain rfl : k = i := some.inj hr
    refine ⟨hk, ?_, by simpa [Bcache.setBuf] using hno⟩
    simp only [Bcache.setBuf, update_self]
    rcases hdata with hdata | ⟨hval, hsame, hdata⟩
    · rw [hdata, sectorOf_eq hn]
      exact h.through blockno hn
    · rw [hdata, ← hsame]
      exact h.fresh k hk hval
  · rw [hread] at hr
    cases hr

/-- A read keeps the invariant: a hit has the last data, a miss gets it from the disk. -/
theorem Inv.read (h : Inv dev s) {blockno : Nat} (hn : blockno < 2147483648) :
    Inv dev { s with cache := (bioRead s.cache s.disk dev blockno).2 } := by
  obtain ⟨l, ho, hf⟩ := h.order
  obtain ⟨ho', hf'⟩ := firstOfBlock_bioRead ho hf s.disk dev blockno
  refine ⟨⟨l, ho', hf'⟩, ?_, ?_, h.through⟩
  · intro i hi hlive
    rcases bioRead_cases ho s.disk dev blockno with ⟨k, hk, b, hread, hd, hno, -⟩ | hread
    · simp only [hread, Bcache.setBuf] at hlive ⊢
      by_cases e : i = k
      · subst e
        simp [hd, hno, hn]
      · rw [update_of_ne e] at hlive ⊢
        exact h.onDisk i hi hlive
    · simp only [hread] at hlive ⊢
      exact h.onDisk i hi hlive
  intro i hi hval
  rcases hr : (bioRead s.cache s.disk dev blockno).1 with _ | k
  · rcases bioRead_cases ho s.disk dev blockno with ⟨k, -, b, hread, -⟩ | hread
    · rw [hread] at hr
      cases hr
    · simp only [hread] at hval ⊢
      exact h.fresh i hi hval
  obtain ⟨-, hdata, hno⟩ := bioRead_last h hn hr
  rcases bioRead_cases ho s.disk dev blockno with ⟨k', -, b, hread, -⟩ | hread
  · obtain rfl : k' = k := by
      rw [hread] at hr
      exact some.inj hr
    by_cases e : i = k'
    · subst e
      rw [hdata, hno]
    · simp only [hread, Bcache.setBuf, update_of_ne e] at hval ⊢
      exact h.fresh i hi hval
  · rw [hread] at hr
    cases hr

/-- A write reaches the disk before it returns. -/
theorem Inv.write (h : Inv dev s) {i : Nat} (hh : s.holds i) (f : S × S → S × S) :
    Inv dev
      { cache := s.cache.setBuf i { s.cache.buf i with data := f (s.cache.buf i).data }
        disk := bioWrite (s.cache.setBuf i { s.cache.buf i with data := f (s.cache.buf i).data })
          s.disk i
        last := Function.update s.last (s.cache.buf i).blockno (f (s.cache.buf i).data) } := by
  obtain ⟨hi, href⟩ := hh
  obtain ⟨hd, hn⟩ := h.onDisk i hi (Or.inr href)
  have hbuf : ∀ j, ∃ b : Buf S, (s.cache.setBuf i
      { s.cache.buf i with data := f (s.cache.buf i).data }).buf j = b ∧
      b.dev = (s.cache.buf j).dev ∧ b.blockno = (s.cache.buf j).blockno ∧
      (b.live ↔ (s.cache.buf j).live) ∧ b.valid = (s.cache.buf j).valid ∧
      b.data = if j = i then f (s.cache.buf i).data else (s.cache.buf j).data := by
    intro j
    refine ⟨_, rfl, ?_⟩
    by_cases e : j = i
    · subst e
      simp [Bcache.setBuf, Buf.live]
    · simp [Bcache.setBuf, e]
  refine ⟨?_, ?_, ?_, ?_⟩
  · obtain ⟨l, ho, hf⟩ := h.order
    exact ⟨l, ho.setBuf _ _, hf.setBuf rfl rfl (hf i hi (Or.inr href))⟩
  · intro j hj hlive
    obtain ⟨b, hb, hbd, hbn, hbl, -⟩ := hbuf j
    simp only [hb] at hlive ⊢
    rw [hbd, hbn]
    exact h.onDisk j hj (hbl.1 hlive)
  · intro j hj hval
    obtain ⟨b, hb, -, hbn, -, hbv, hbdata⟩ := hbuf j
    simp only [hb] at hval ⊢
    rw [hbdata, hbn]
    by_cases e : j = i
    · subst e
      simp
    -- another valid buffer holds another block
    rw [if_neg e, update_of_ne]
    · exact h.fresh j hj (by rw [← hbv]; exact hval)
    intro hblk
    obtain ⟨l, ho, hf⟩ := h.order
    have hlj : (s.cache.buf j).live := Or.inl (by rw [← hbv]; exact hval)
    have hdj := (h.onDisk j hj hlj).1
    exact e (hf.eq_of_block hj hi hlj (Or.inr href) (by rw [hdj, hd]) hblk)
  intro n hn'
  simp only [bioWrite, Bcache.setBuf, update_self, sectorOf_eq hn]
  by_cases e : n = (s.cache.buf i).blockno
  · subst e
    rw [update_self, update_self, update_of_ne (by omega),
      update_self]
  · rw [update_of_ne e, update_of_ne (by omega), update_of_ne (by omega),
      update_of_ne (by omega), update_of_ne (by omega)]
    exact h.through n hn'

theorem Inv.release (h : Inv dev s) {i : Nat} (hh : s.holds i) :
    Inv dev { s with cache := bioRelease s.cache i } := by
  obtain ⟨l, ho, hf⟩ := h.order
  have hbuf : ∀ j, ∃ n, (bioRelease s.cache i).buf j = { s.cache.buf j with refcnt := n } ∧
      (n ≠ 0 → (s.cache.buf j).refcnt ≠ 0) := by
    intro j
    rw [bioRelease_buf]
    by_cases e : j = i
    · subst e
      exact ⟨_, update_self .., fun _ => hh.2⟩
    · exact ⟨(s.cache.buf j).refcnt, by rw [update_of_ne e], fun h => h⟩
  refine ⟨firstOfBlock_bioRelease ho hf hh.1 hh.2, ?_, ?_, h.through⟩
  · intro j hj hlive
    obtain ⟨n, hb, hn⟩ := hbuf j
    simp only [hb] at hlive ⊢
    exact h.onDisk j hj (hlive.imp (fun hv => hv) hn)
  intro j hj hval
  obtain ⟨n, hb, -⟩ := hbuf j
  simp only [hb] at hval ⊢
  exact h.fresh j hj hval

/-- Every operation keeps the invariant. -/
theorem Inv.step (h : Inv dev s) {op : Op S} (hc : OnDisk dev op) {s' : St S} {r : Option Nat}
    (hs : s.step op = some (s', r)) : Inv dev s' := by
  cases op with
  | read d blockno =>
    obtain ⟨rfl, hn⟩ := hc
    obtain ⟨rfl, -⟩ := Prod.mk.inj (some.inj hs)
    exact h.read hn
  | write i f =>
    simp only [St.step] at hs
    split at hs
    · rename_i hh
      obtain ⟨rfl, -⟩ := Prod.mk.inj (some.inj hs)
      exact h.write hh f
    · cases hs
  | release i =>
    simp only [St.step] at hs
    split at hs
    · rename_i hh
      obtain ⟨rfl, -⟩ := Prod.mk.inj (some.inj hs)
      exact h.release hh
    · cases hs

end

theorem run_inv {dev : Nat} {s : St S} (h : Run (OnDisk dev) s) : Inv dev s := by
  induction h with
  | init data disk => exact inv_init data disk
  | step _ hc hs ih => exact ih.step hc hs

theorem step_keeps_block {s s' : St S} {l : List Nat} (ho : RingOrder s.cache l) {op : Op S}
    {r : Option Nat} (hs : s.step op = some (s', r)) {i : Nat}
    (href : (s.cache.buf i).refcnt ≠ 0) :
    (s'.cache.buf i).dev = (s.cache.buf i).dev ∧
      (s'.cache.buf i).blockno = (s.cache.buf i).blockno := by
  cases op with
  | read d n =>
    obtain ⟨rfl, -⟩ := Prod.mk.inj (some.inj hs)
    rcases bioRead_cases ho s.disk d n with ⟨k, -, b, hread, hd, hno, -, hkeep, -⟩ | hread
    · simp only [hread, Bcache.setBuf]
      by_cases e : i = k
      · subst e
        obtain ⟨h1, h2⟩ := hkeep href
        simp [hd, hno, h1, h2]
      · simp [update_of_ne e]
    · simp only [hread, and_self]
  | write k f =>
    simp only [St.step] at hs
    split at hs
    · obtain ⟨rfl, -⟩ := Prod.mk.inj (some.inj hs)
      by_cases e : i = k
      · subst e
        simp [Bcache.setBuf]
      · simp [Bcache.setBuf, update_of_ne e]
    · cases hs
  | release k =>
    simp only [St.step] at hs
    split at hs
    · obtain ⟨rfl, -⟩ := Prod.mk.inj (some.inj hs)
      simp only [bioRelease_buf]
      by_cases e : i = k
      · subst e
        simp
      · simp [update_of_ne e]
    · cases hs

/-- **Coherence of the cache for one process.** Along every run on one device with block numbers
below `2^31`: the ring is a permutation of the `NBUF` buffers; two buffers that are valid or
referenced carry different blocks; an operation never gives a referenced buffer another block; and
`bio_read` returns what was last written to the block. -/
theorem bio_coherent {dev : Nat} {s : St S} (h : Run (OnDisk dev) s) :
    (∃ l, s.cache.links.IsRing nbuf l ∧ l.Perm (List.range nbuf)) ∧
      (∀ i < nbuf, ∀ j < nbuf, i ≠ j → (s.cache.buf i).live → (s.cache.buf j).live →
        ¬ ((s.cache.buf i).dev = (s.cache.buf j).dev ∧
          (s.cache.buf i).blockno = (s.cache.buf j).blockno)) ∧
      (∀ op s' r, s.step op = some (s', r) → ∀ i, (s.cache.buf i).refcnt ≠ 0 →
        (s'.cache.buf i).dev = (s.cache.buf i).dev ∧
          (s'.cache.buf i).blockno = (s.cache.buf i).blockno) ∧
      ∀ blockno < 2147483648, ∀ s' i, s.step (.read dev blockno) = some (s', some i) →
        (s'.cache.buf i).blockno = blockno ∧ (s'.cache.buf i).data = s.last blockno := by
  have hinv := run_inv h
  obtain ⟨l, ho, hf⟩ := hinv.order
  refine ⟨⟨l, ho.isRing, ho.perm⟩, ?_, fun op s' r hs i => step_keeps_block ho hs, ?_⟩
  · intro i hi j hj hne hli hlj hsame
    exact hne (hf.eq_of_block hi hj hli hlj hsame.1 hsame.2)
  intro blockno hn s' i hs
  obtain ⟨rfl, hr⟩ := Prod.mk.inj (some.inj hs)
  obtain ⟨-, hdata, hno⟩ := bioRead_last hinv hn hr
  exact ⟨hno, hdata⟩

/-- A run on block 0, then a read of block `2^31`: the sector address wraps to 0 and `bio_read`
returns the new contents of block 0. -/
theorem bio_wrong_block :
    ∃ (s s' : St Nat) (i : Nat), Run (fun _ => True) s ∧
      s.step (.read 0 2147483648) = some (s', some i) ∧
      (s'.cache.buf i).data = (7, 7) ∧ s.last 2147483648 = (4294967296, 4294967297) := by
  have h := Run.step (o := .write 63 fun _ => (7, 7)) (Run.step (o := .read 0 0)
    (Run.init (C := fun _ => True) (fun _ => (0, 0)) fun n => n) trivial rfl) trivial rfl
  have hread : ∀ s : St Nat, s.step (.read 0 2147483648) =
      some ({ s with cache := (bioRead s.cache s.disk 0 2147483648).2 },
        (bioRead s.cache s.disk 0 2147483648).1) := fun _ => rfl
  refine ⟨_, _, 0, h, (hread _).trans (congrArg (fun r => some (_, r)) ?_), ?_, ?_⟩
  · decide +kernel
  · decide +kernel
  · decide +kernel

/-- The law at a run that reads block 0, rewrites it and reads it again. -/
theorem bio_coherent_rewrite :
    ∃ (s s' : St Nat) (i : Nat), Run (OnDisk 0) s ∧
      s.step (.read 0 0) = some (s', some i) ∧ s.last 0 = (7, 7) ∧
      (s'.cache.buf i).data = s.last 0 := by
  have h := Run.step (o := .write 63 fun _ => (7, 7)) (Run.step (o := .read 0 0)
    (Run.init (C := OnDisk 0) (fun _ => (0, 0)) fun n => n) ⟨rfl, by decide⟩ rfl) trivial rfl
  exact ⟨_, _, 63, h, rfl, by decide +kernel, ((bio_coherent h).2.2.2 0 (by decide) _ 63 rfl).2⟩

end Slopix.Bio
