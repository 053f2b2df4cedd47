import Mathlib.Algebra.BigOperators.Fin
import Mathlib.Algebra.Order.BigOperators.Group.Finset
import Slopix.Bio.Cache

/-!
# Interleaved use of the buffer cache

Processes that each `bio_read` a block, modify the buffer, `bio_write` and `bio_release` it. A
process can be switched away where it sleeps: in `disk_wait` and while the driver waits for a sector.
`Sys.step` runs one process up to its next such point. The device may answer a request, fail it, or
answer so late that the driver has given up; a late answer to a read still lands in the buffer.

`logical` records, for every buffer filled since it was last recycled, the contents it should have:
those of the first fill with every later modification applied. `bio_no_lost_update` shows that
`bio_read` returns these contents as long as no `bio_read` starts on a block that another process is
still filling and no request times out. `bio_lost_update` is a run of two processes in which the
second fill overwrites a modification.
-/

namespace Slopix.Bio.Interleaving

open Lib Function Option

universe u

/-- `NPROC`. -/
def nproc : Nat := 64

instance : NeZero nproc := ⟨by decide⟩

/-- How far a process is with its buffer: in `bio_read` of a block (waiting for the disk, then
reading the first and the second sector), holding it, or in `bio_write`. -/
inductive Phase where
  | readWait (blockno : Nat)
  | readLo (blockno : Nat)
  | readHi (blockno : Nat)
  | hold
  | writeWait
  | writeLo
  | writeHi

/-- The process is inside a `bio_read` that fills the buffer. -/
def Phase.reading : Phase → Bool
  | .readWait _ => true
  | .readLo _ => true
  | .readHi _ => true
  | _ => false

/-- The cache, the disk, the processes with the buffer each one works on, the contents every buffer
should have, and the read requests the driver has given up on (buffer, half, sector). -/
structure Sys (S : Type u) where
  cache : Bcache S
  disk : Nat → S
  diskBusy : Bool
  proc : Fin nproc → Option (Nat × Phase)
  logical : Nat → Option (S × S)
  late : List (Nat × Bool × Nat)

variable {S : Type u}

/-- One action. `acquire` is the return of `disk_wait`, `complete` and `fail` the return of the
driver for one sector, `lateRead` and `lateWrite` answers to requests the driver has given up on. -/
inductive Act (S : Type u) where
  | read (p : Fin nproc) (dev blockno : Nat)
  | acquire (p : Fin nproc)
  | complete (p : Fin nproc)
  | fail (p : Fin nproc) (timeout : Bool)
  | modify (p : Fin nproc) (f : S × S → S × S)
  | write (p : Fin nproc)
  | release (p : Fin nproc)
  | lateRead (n : Nat)
  | lateWrite (sector : Nat) (x : S)

/-- Store one sector in a block: the first half or the second. -/
def putHalf (data : S × S) (second : Bool) (x : S) : S × S :=
  if second then (data.1, x) else (x, data.2)

namespace Sys

/-- Initially no process uses the cache. -/
def init (data : Nat → S × S) (disk : Nat → S) : Sys S :=
  { cache := bioInit data, disk := disk, diskBusy := false, proc := fun _ => none,
    logical := fun _ => none, late := [] }

/-- Set where process `p` is. -/
def setProc (s : Sys S) (p : Fin nproc) (x : Option (Nat × Phase)) : Sys S :=
  { s with proc := Function.update s.proc p x }

/-- Write one sector of a buffer's memory. -/
def fill (s : Sys S) (i : Nat) (second : Bool) (sector : Nat) : Sys S :=
  { s with
    cache := s.cache.setBuf i
      { s.cache.buf i with data := putHalf (s.cache.buf i).data second (s.disk sector) } }

/-- `bio_read` up to `disk_wait`: a valid buffer is returned at once. A recycled buffer has no
contents to lose. -/
def startRead (s : Sys S) (p : Fin nproc) (dev blockno : Nat) : Sys S × Option Nat :=
  match bget s.cache dev blockno with
  | (none, c) => ({ s with cache := c }, none)
  | (some i, c) =>
    let s' : Sys S :=
      { s with
        cache := c
        logical := if (s.cache.buf i).isBlock dev blockno then s.logical
          else Function.update s.logical i none }
    if (c.buf i).valid then (s'.setProc p (some (i, .hold)), some i)
    else (s'.setProc p (some (i, .readWait blockno)), none)

/-- The end of a successful fill: `disk_done(); b->valid = 1; return b`. -/
def finishRead (s : Sys S) (p : Fin nproc) (i : Nat) : Sys S :=
  { s with
    cache := s.cache.setBuf i { s.cache.buf i with valid := true }
    diskBusy := false
    logical := if (s.logical i).isNone then
      Function.update s.logical i (some (s.cache.buf i).data) else s.logical
    proc := Function.update s.proc p (some (i, .hold)) }

/-- The driver reports a failed read: `disk_done(); bio_release(b); return 0`. -/
def failRead (s : Sys S) (p : Fin nproc) (i : Nat) (timeout second : Bool) (sector : Nat) : Sys S :=
  { s with
    cache := bioRelease s.cache i
    diskBusy := false
    proc := Function.update s.proc p none
    late := if timeout then (i, second, sector) :: s.late else s.late }

/-- One action, with the buffer that a `bio_read` returns. -/
def step (s : Sys S) : Act S → Option (Sys S × Option Nat)
  | .read p dev blockno =>
    match s.proc p with
    | none => some (s.startRead p dev blockno)
    | some _ => none
  | .acquire p =>
    if s.diskBusy then none
    else
      match s.proc p with
      | some (i, .readWait n) =>
        some ({ s with diskBusy := true }.setProc p (some (i, .readLo n)), none)
      | some (i, .writeWait) =>
        some ({ s with diskBusy := true }.setProc p (some (i, .writeLo)), none)
      | _ => none
  | .complete p =>
    match s.proc p with
    | some (i, .readLo n) =>
      some ((s.fill i false (sectorOf n)).setProc p (some (i, .readHi n)), none)
    | some (i, .readHi n) => some ((s.fill i true (sectorOf n + 1)).finishRead p i, some i)
    | some (i, .writeLo) =>
      let b := s.cache.buf i
      some ({ s with disk := Function.update s.disk (sectorOf b.blockno) b.data.1 }.setProc p
        (some (i, .writeHi)), none)
    | some (i, .writeHi) =>
      let b := s.cache.buf i
      some ({ s with
        disk := Function.update s.disk (sectorOf b.blockno + 1) b.data.2
        diskBusy := false }.setProc p (some (i, .hold)), none)
    | _ => none
  | .fail p timeout =>
    match s.proc p with
    | some (i, .readLo n) => some (s.failRead p i timeout false (sectorOf n), none)
    | some (i, .readHi n) => some (s.failRead p i timeout true (sectorOf n + 1), none)
    | some (i, .writeLo) => some ({ s with diskBusy := false }.setProc p (some (i, .hold)), none)
    | some (i, .writeHi) => some ({ s with diskBusy := false }.setProc p (some (i, .hold)), none)
    | _ => none
  | .modify p f =>
    match s.proc p with
    | some (i, .hold) =>
      some ({ s with
        cache := s.cache.setBuf i { s.cache.buf i with data := f (s.cache.buf i).data }
        logical := Function.update s.logical i ((s.logical i).map f) }, none)
    | _ => none
  | .write p =>
    match s.proc p with
    | some (i, .hold) => some (s.setProc p (some (i, .writeWait)), none)
    | _ => none
  | .release p =>
    match s.proc p with
    | some (i, .hold) => some ({ s with cache := bioRelease s.cache i }.setProc p none, none)
    | _ => none
  | .lateRead n =>
    match s.late[n]? with
    | some (i, second, sector) =>
      some ({ s.fill i second sector with late := s.late.eraseIdx n }, none)
    | none => none
  | .lateWrite sector x => some ({ s with disk := Function.update s.disk sector x }, none)

end Sys

/-- The condition on a step: a `bio_read` does not start on a block whose buffer another process is
filling, and the driver does not give up on a request. -/
def Exclusive (s : Sys S) : Act S → Prop
  | .read _ dev blockno => ∀ i < nbuf, (s.cache.buf i).isBlock dev blockno = true →
      (s.cache.buf i).refcnt ≠ 0 → (s.cache.buf i).valid = true
  | .fail _ timeout => timeout = false
  | _ => True

/-- Runs whose steps all satisfy `C`. -/
inductive Run (C : Sys S → Act S → Prop) : Sys S → Prop
  | init (data : Nat → S × S) (disk : Nat → S) : Run C (.init data disk)
  | step {s s' : Sys S} {a : Act S} {r : Option Nat} :
      Run C s → C s a → s.step a = some (s', r) → Run C s'

/-! ## The processes that use a buffer -/

section

variable (proc : Fin nproc → Option (Nat × Phase)) (p : Fin nproc)

/-- The processes that hold a reference on buffer `i`. -/
def users (i : Nat) : Finset (Fin nproc) :=
  Finset.univ.filter fun q => (proc q).map Prod.fst = some i

variable {proc p}

theorem mem_users {i : Nat} : p ∈ users proc i ↔ ∃ ph, proc p = some (i, ph) := by
  simp [users]

variable {ph : Phase}

theorem users_phase {i : Nat} {ph' : Phase} (h : proc p = some (i, ph)) (j : Nat) :
    users (update proc p (some (i, ph'))) j = users proc j := by
  ext q
  by_cases e : q = p
  · subst e
    simp [users, h]
  · simp [users, update_of_ne e]

theorem users_enter {i : Nat} (h : proc p = none) (j : Nat) :
    (users (update proc p (some (i, ph))) j).card =
      (users proc j).card + if j = i then 1 else 0 := by
  by_cases e : j = i
  · subst e
    have hnot : p ∉ users proc j := by simp [users, h]
    have hins : users (update proc p (some (j, ph))) j = insert p (users proc j) := by
      ext q
      by_cases eq : q = p
      · subst eq
        simp [users]
      · simp [users, eq]
    rw [hins, Finset.card_insert_of_notMem hnot, if_pos rfl]
  rw [if_neg e, Nat.add_zero]
  congr 1
  ext q
  by_cases eq : q = p
  · subst eq
    simp [users, h, Ne.symm e]
  · simp [users, update_of_ne eq]

theorem users_leave {i : Nat} (h : proc p = some (i, ph)) (j : Nat) :
    (users (update proc p none) j).card + (if j = i then 1 else 0) =
      (users proc j).card := by
  -- leaving is entering read backwards
  have hback : (users (update (update proc p none) p (some (i, ph))) j).card = _ :=
    users_enter (update_self p none proc) j
  rw [update_idem, ← h, update_eq_self] at hback
  exact hback.symm

end

theorem users_card_le (proc : Fin nproc → Option (Nat × Phase)) (i : Nat) :
    (users proc i).card ≤ nproc := by
  simpa using Finset.card_le_univ (users proc i)

/-- What holds in every state of a run whose steps are `Exclusive`: reference counts count users, a
process that fills a buffer is its only user, and a valid buffer has the contents it should have. -/
structure Inv (s : Sys S) : Prop where
  order : ∃ l, RingOrder s.cache l ∧ FirstOfBlock s.cache l
  refs : ∀ i < nbuf, (s.cache.buf i).refcnt = (users s.proc i).card
  used_lt : ∀ p i ph, s.proc p = some (i, ph) → i < nbuf
  filling : ∀ p i ph, s.proc p = some (i, ph) → ph.reading = true →
    (s.cache.buf i).valid = false ∧ ∀ q ph', s.proc q = some (i, ph') → q = p
  filled : ∀ p i ph, s.proc p = some (i, ph) → ph.reading = false → (s.cache.buf i).valid = true
  contents : ∀ i < nbuf, (s.cache.buf i).valid = true → s.logical i = some (s.cache.buf i).data
  empty : ∀ i < nbuf, (s.cache.buf i).valid = false → s.logical i = none
  late : s.late = []

section

variable {s : Sys S}

theorem inv_init (data : Nat → S × S) (disk : Nat → S) : Inv (Sys.init data disk) where
  order := by
    refine ⟨_, ringOrder_bioInit data, fun i _ hlive => ?_⟩
    rcases hlive with h | h
    · cases h
    · exact absurd rfl h
  refs i _ := by simp [Sys.init, bioInit, users]
  used_lt p i ph h := by cases h
  filling p i ph h := by cases h
  filled p i ph h := by cases h
  contents i _ h := by cases h
  empty i _ _ := rfl
  late := rfl

variable {ph : Phase}

/-- A process changes its phase without touching the cache. -/
theorem Inv.phase (h : Inv s) {p : Fin nproc} {i : Nat} {ph' : Phase}
    (hp : s.proc p = some (i, ph)) (hph : ph'.reading = ph.reading) (disk : Nat → S)
    (diskBusy : Bool) :
    Inv ({ s with disk := disk, diskBusy := diskBusy }.setProc p (some (i, ph'))) := by
  have hproc : ∀ q j x, update s.proc p (some (i, ph')) q = some (j, x) →
      ∃ y, s.proc q = some (j, y) ∧ y.reading = x.reading := by
    intro q j x hq
    by_cases e : q = p
    · subst e
      obtain ⟨rfl, rfl⟩ : i = j ∧ ph' = x := by simpa using hq
      exact ⟨ph, hp, hph.symm⟩
    · exact ⟨x, by simpa [update_of_ne e] using hq, rfl⟩
  refine ⟨h.order, ?_, ?_, ?_, ?_, h.contents, h.empty, h.late⟩
  · intro j hj
    exact (h.refs j hj).trans (congrArg Finset.card (users_phase hp j).symm)
  · intro q j x hq
    obtain ⟨y, hy, -⟩ := hproc q j x hq
    exact h.used_lt q j y hy
  · intro q j x hq hx
    obtain ⟨y, hy, hyx⟩ := hproc q j x hq
    obtain ⟨hval, honly⟩ := h.filling q j y hy (hyx.trans hx)
    refine ⟨hval, fun r z hr => ?_⟩
    obtain ⟨w, hw, -⟩ := hproc r j z hr
    exact honly r w hw
  · intro q j x hq hx
    obtain ⟨y, hy, hyx⟩ := hproc q j x hq
    exact h.filled q j y hy (hyx.trans hx)

/-- Rewriting the data of buffer `i`, with the contents it should have, when it is in use. -/
theorem Inv.setData (h : Inv s) {p : Fin nproc} {i : Nat} (hp : s.proc p = some (i, ph))
    (data : S × S) (logical : Option (S × S))
    (hvalid : (s.cache.buf i).valid = true → logical = some data)
    (hempty : (s.cache.buf i).valid = false → logical = none) :
    Inv { s with
      cache := s.cache.setBuf i { s.cache.buf i with data := data }
      logical := update s.logical i logical } := by
  have hi := h.used_lt p i ph hp
  have hbuf : ∀ j, ((s.cache.setBuf i { s.cache.buf i with data := data }).buf j).valid =
      (s.cache.buf j).valid ∧ ((s.cache.setBuf i { s.cache.buf i with data := data }).buf j).refcnt =
      (s.cache.buf j).refcnt := by
    intro j
    by_cases e : j = i
    · subst e
      simp [Bcache.setBuf]
    · simp [Bcache.setBuf, e]
  have href : (s.cache.buf i).refcnt ≠ 0 := by
    rw [h.refs i hi]
    exact Finset.card_ne_zero_of_mem (mem_users.2 ⟨ph, hp⟩)
  refine ⟨?_, ?_, h.used_lt, ?_, ?_, ?_, ?_, h.late⟩
  · obtain ⟨l, ho, hf⟩ := h.order
    exact ⟨l, ho.setBuf _ _, hf.setBuf rfl rfl (hf i hi (Or.inr href))⟩
  · intro j hj
    rw [(hbuf j).2]
    exact h.refs j hj
  · intro q j x hq hx
    rw [(hbuf j).1]
    exact h.filling q j x hq hx
  · intro q j x hq hx
    rw [(hbuf j).1]
    exact h.filled q j x hq hx
  · intro j hj hval
    rw [(hbuf j).1] at hval
    by_cases e : j = i
    · subst e
      simpa [Bcache.setBuf] using hvalid hval
    · simpa [Bcache.setBuf, e] using h.contents j hj hval
  intro j hj hval
  rw [(hbuf j).1] at hval
  by_cases e : j = i
  · subst e
    simpa using hempty hval
  · simpa [e] using h.empty j hj hval

/-- One sector arrives in a buffer that is being filled. -/
theorem Inv.fill (h : Inv s) {p : Fin nproc} {i : Nat} (hp : s.proc p = some (i, ph))
    (hph : ph.reading = true) (second : Bool) (sector : Nat) : Inv (s.fill i second sector) := by
  have hval := (h.filling p i ph hp hph).1
  have hnone := h.empty i (h.used_lt p i ph hp) hval
  have hset := h.setData hp (putHalf (s.cache.buf i).data second (s.disk sector)) none
    (fun ht => by rw [hval] at ht; cases ht) fun _ => rfl
  rw [← hnone, update_eq_self] at hset
  exact hset

/-- The holder may change the data. -/
theorem Inv.modify (h : Inv s) {p : Fin nproc} {i : Nat} (hp : s.proc p = some (i, .hold))
    (f : S × S → S × S) :
    Inv { s with
      cache := s.cache.setBuf i { s.cache.buf i with data := f (s.cache.buf i).data }
      logical := update s.logical i ((s.logical i).map f) } := by
  have hval := h.filled p i .hold hp rfl
  refine h.setData hp _ _ (fun _ => ?_) fun hf => by rw [hval] at hf; cases hf
  rw [h.contents i (h.used_lt p i _ hp) hval]
  rfl

/-- The end of a fill: the buffer becomes valid with what was read. -/
theorem Inv.finishRead (h : Inv s) {p : Fin nproc} {i : Nat}
    (hp : s.proc p = some (i, ph)) (hph : ph.reading = true) : Inv (s.finishRead p i) := by
  obtain ⟨hval, honly⟩ := h.filling p i ph hp hph
  have hi := h.used_lt p i ph hp
  have hnone := h.empty i hi hval
  have href : (s.cache.buf i).refcnt ≠ 0 := by
    rw [h.refs i hi]
    exact Finset.card_ne_zero_of_mem (mem_users.2 ⟨ph, hp⟩)
  -- another process uses another buffer
  have hproc : ∀ q j x, update s.proc p (some (i, .hold)) q = some (j, x) →
      (q = p ∧ j = i ∧ x = .hold) ∨ (q ≠ p ∧ j ≠ i ∧ s.proc q = some (j, x)) := by
    intro q j x hq
    by_cases e : q = p
    · subst e
      obtain ⟨rfl, rfl⟩ : i = j ∧ Phase.hold = x := by simpa using hq
      exact Or.inl ⟨rfl, rfl, rfl⟩
    have hq' : s.proc q = some (j, x) := by simpa [update_of_ne e] using hq
    refine Or.inr ⟨e, fun ej => ?_, hq'⟩
    subst ej
    exact e (honly q x hq')
  unfold Sys.finishRead
  rw [hnone]
  refine ⟨?_, ?_, ?_, ?_, ?_, ?_, ?_, h.late⟩
  · obtain ⟨l, ho, hf⟩ := h.order
    exact ⟨l, ho.setBuf _ _, hf.setBuf rfl rfl (hf i hi (Or.inr href))⟩
  · intro j hj
    simp only [users_phase hp]
    rw [← h.refs j hj]
    by_cases e : j = i
    · subst e
      simp [Bcache.setBuf]
    · simp [Bcache.setBuf, e]
  · intro q j x hq
    rcases hproc q j x hq with ⟨-, rfl, -⟩ | ⟨-, -, hq'⟩
    · exact hi
    · exact h.used_lt q j x hq'
  · intro q j x hq hx
    rcases hproc q j x hq with ⟨-, -, rfl⟩ | ⟨-, ej, hq'⟩
    · cases hx
    obtain ⟨hv, ho⟩ := h.filling q j x hq' hx
    refine ⟨by simpa [Bcache.setBuf, ej] using hv, fun r z hr => ?_⟩
    rcases hproc r j z hr with ⟨-, hcon, -⟩ | ⟨-, -, hr'⟩
    · exact absurd hcon ej
    · exact ho r z hr'
  · intro q j x hq hx
    rcases hproc q j x hq with ⟨-, rfl, -⟩ | ⟨-, ej, hq'⟩
    · simp [Bcache.setBuf]
    · simpa [Bcache.setBuf, ej] using h.filled q j x hq' hx
  · intro j hj hv
    by_cases e : j = i
    · subst e
      simp [Bcache.setBuf]
    · simpa [Bcache.setBuf, e] using h.contents j hj (by simpa [Bcache.setBuf, e] using hv)
  intro j hj hv
  by_cases e : j = i
  · subst e
    simp [Bcache.setBuf] at hv
  · simpa [e] using h.empty j hj (by simpa [Bcache.setBuf, e] using hv)

/-- A release keeps the invariant. -/
theorem Inv.leave (h : Inv s) {p : Fin nproc} {i : Nat} (hp : s.proc p = some (i, ph))
    (diskBusy : Bool) :
    Inv ({ s with cache := bioRelease s.cache i, diskBusy := diskBusy }.setProc p none) := by
  have hi := h.used_lt p i ph hp
  have href : (s.cache.buf i).refcnt ≠ 0 := by
    rw [h.refs i hi]
    exact Finset.card_ne_zero_of_mem (mem_users.2 ⟨ph, hp⟩)
  have hbuf : ∀ j, ((bioRelease s.cache i).buf j).valid = (s.cache.buf j).valid ∧
      ((bioRelease s.cache i).buf j).data = (s.cache.buf j).data := by
    intro j
    rw [bioRelease_buf]
    by_cases e : j = i
    · subst e
      simp
    · simp [e]
  have hproc : ∀ q j x, update s.proc p none q = some (j, x) → s.proc q = some (j, x) := by
    intro q j x hq
    by_cases e : q = p
    · subst e
      simp at hq
    · simpa [update_of_ne e] using hq
  refine ⟨?_, ?_, ?_, ?_, ?_, ?_, ?_, h.late⟩
  · obtain ⟨l, ho, hf⟩ := h.order
    exact firstOfBlock_bioRelease ho hf hi href
  · intro j hj
    have hcount := users_leave hp j
    rw [← h.refs j hj] at hcount
    simp only [Sys.setProc, bioRelease_buf]
    by_cases e : j = i
    · subst e
      rw [if_pos rfl] at hcount
      have hle := users_card_le s.proc j
      rw [← h.refs j hj] at hle
      simp only [update_self]
      unfold uintMod
      unfold nproc at hle
      omega
    · rw [if_neg e] at hcount
      rw [update_of_ne e]
      exact hcount.symm
  · exact fun q j x hq => h.used_lt q j x (hproc q j x hq)
  · intro q j x hq hx
    obtain ⟨hv, ho⟩ := h.filling q j x (hproc q j x hq) hx
    exact ⟨(hbuf j).1.trans hv, fun r z hr => ho r z (hproc r j z hr)⟩
  · exact fun q j x hq hx => (hbuf j).1.trans (h.filled q j x (hproc q j x hq) hx)
  · intro j hj hv
    simp only [Sys.setProc, (hbuf j).1, (hbuf j).2] at hv ⊢
    exact h.contents j hj hv
  · intro j hj hv
    simp only [Sys.setProc, (hbuf j).1] at hv
    exact h.empty j hj hv

/-- A process comes to hold a buffer, which may be one that another holds as well. -/
theorem Inv.enter (h : Inv s) {p : Fin nproc} {i : Nat} {c : Bcache S} {b : Buf S}
    {logical : Nat → Option (S × S)} (hp : s.proc p = none) (hi : i < nbuf)
    (hc : c = s.cache.setBuf i b) (horder : ∃ l, RingOrder c l ∧ FirstOfBlock c l)
    (hrefcnt : b.refcnt = (s.cache.buf i).refcnt + 1)
    (hother : ∀ j, j ≠ i → logical j = s.logical j)
    (hreading : ph.reading = !b.valid)
    (huser : ∀ q x, s.proc q = some (i, x) → b.valid = true ∧ x.reading = false)
    (hcontents : b.valid = true → logical i = some b.data)
    (hempty : b.valid = false → logical i = none) :
    Inv ({ s with cache := c, logical := logical }.setProc p (some (i, ph))) := by
  subst hc
  have hproc : ∀ q j x, update s.proc p (some (i, ph)) q = some (j, x) →
      (q = p ∧ j = i ∧ x = ph) ∨ (q ≠ p ∧ s.proc q = some (j, x)) := by
    intro q j x hq
    by_cases e : q = p
    · subst e
      obtain ⟨rfl, rfl⟩ : i = j ∧ ph = x := by simpa using hq
      exact Or.inl ⟨rfl, rfl, rfl⟩
    · exact Or.inr ⟨e, by simpa [update_of_ne e] using hq⟩
  refine ⟨horder, ?_, ?_, ?_, ?_, ?_, ?_, h.late⟩
  · intro j hj
    refine Eq.trans ?_ (users_enter hp j).symm
    rw [← h.refs j hj]
    by_cases e : j = i
    · subst e
      simpa [Sys.setProc, Bcache.setBuf] using hrefcnt
    · simp [Sys.setProc, Bcache.setBuf, e]
  · intro q j x hq
    rcases hproc q j x hq with ⟨-, rfl, -⟩ | ⟨-, hq'⟩
    · exact hi
    · exact h.used_lt q j x hq'
  · intro q j x hq hx
    rcases hproc q j x hq with ⟨rfl, rfl, rfl⟩ | ⟨hne, hq'⟩
    · have hval : b.valid = false := by simpa [hreading] using hx
      refine ⟨by simpa [Sys.setProc, Bcache.setBuf] using hval, fun r z hr => ?_⟩
      rcases hproc r j z hr with ⟨rfl, -⟩ | ⟨-, hr'⟩
      · rfl
      · have := (huser r z hr').1
        rw [hval] at this
        cases this
    have hji : j ≠ i := by
      intro e
      subst e
      have := (huser q x hq').2
      rw [hx] at this
      cases this
    obtain ⟨hv, ho⟩ := h.filling q j x hq' hx
    refine ⟨by simpa [Sys.setProc, Bcache.setBuf, hji] using hv, fun r z hr => ?_⟩
    rcases hproc r j z hr with ⟨-, e, -⟩ | ⟨-, hr'⟩
    · exact absurd e hji
    · exact ho r z hr'
  · intro q j x hq hx
    by_cases e : j = i
    · subst e
      rcases hproc q j x hq with ⟨-, -, rfl⟩ | ⟨-, hq'⟩
      · simpa [Sys.setProc, Bcache.setBuf, hreading] using hx
      · simpa [Sys.setProc, Bcache.setBuf] using (huser q x hq').1
    · rcases hproc q j x hq with ⟨-, e', -⟩ | ⟨-, hq'⟩
      · exact absurd e' e
      · simpa [Sys.setProc, Bcache.setBuf, e] using h.filled q j x hq' hx
  · intro j hj hv
    by_cases e : j = i
    · subst e
      simpa [Sys.setProc, Bcache.setBuf] using
        hcontents (by simpa [Sys.setProc, Bcache.setBuf] using hv)
    · simpa [Sys.setProc, Bcache.setBuf, e, hother j e] using
        h.contents j hj (by simpa [Sys.setProc, Bcache.setBuf, e] using hv)
  intro j hj hv
  by_cases e : j = i
  · subst e
    exact hempty (by simpa [Sys.setProc, Bcache.setBuf] using hv)
  · exact (hother j e).trans (h.empty j hj (by simpa [Sys.setProc, Bcache.setBuf, e] using hv))

theorem Inv.no_user (h : Inv s) {i : Nat} (hi : i < nbuf) (hzero : (s.cache.buf i).refcnt = 0)
    (q : Fin nproc) (x : Phase) : s.proc q ≠ some (i, x) := by
  intro hq
  have := Finset.card_pos.2 ⟨q, mem_users.2 ⟨x, hq⟩⟩
  rw [← h.refs i hi, hzero] at this
  exact Nat.lt_irrefl 0 this

/-- `bio_read` up to its first sleep keeps the invariant when nobody else is filling the block. -/
theorem Inv.startRead (h : Inv s) {p : Fin nproc} {dev blockno : Nat} (hp : s.proc p = none)
    (hex : Exclusive s (.read p dev blockno)) : Inv (s.startRead p dev blockno).1 := by
  obtain ⟨l, ho, hf⟩ := h.order
  obtain ⟨ho', hf', -⟩ := firstOfBlock_bget ho hf dev blockno
  unfold Sys.startRead
  rcases bget_cases ho dev blockno with ⟨i, hfind, hget⟩ | ⟨i, hi, hzero, hmiss, hget⟩ | ⟨-, hget⟩
  · have hblk := List.find?_some hfind
    have hi := ho.mem_iff.1 (List.mem_of_find?_eq_some hfind)
    have hcount : ((s.cache.buf i).refcnt + 1) % uintMod = (s.cache.buf i).refcnt + 1 := by
      have := users_card_le s.proc i
      rw [← h.refs i hi] at this
      unfold uintMod
      unfold nproc at this
      omega
    have huser : ∀ q x, s.proc q = some (i, x) →
        (s.cache.buf i).valid = true ∧ x.reading = false := by
      intro q x hq
      have hval := hex i hi hblk fun hz => h.no_user hi hz q x hq
      refine ⟨hval, ?_⟩
      by_contra hx
      have := (h.filling q i x hq (by simpa using hx)).1
      rw [hval] at this
      cases this
    rw [hget] at ho' hf' ⊢
    simp only [hblk, if_true]
    have key : ∀ ph : Phase, ph.reading = !(s.cache.buf i).valid →
        Inv ({ s with
          cache := s.cache.setBuf i
            { s.cache.buf i with refcnt := ((s.cache.buf i).refcnt + 1) % uintMod }
          logical := s.logical }.setProc p (some (i, ph))) := fun ph hph =>
      h.enter hp hi rfl ⟨l, ho', hf'⟩ hcount (fun _ _ => rfl) hph huser
        (h.contents i hi) (h.empty i hi)
    split
    · rename_i hv
      have hv' : (s.cache.buf i).valid = true := by simpa [Bcache.setBuf] using hv
      exact key .hold (by rw [hv']; rfl)
    · rename_i hv
      have hv' : (s.cache.buf i).valid = false := by simpa [Bcache.setBuf] using hv
      exact key (.readWait blockno) (by rw [hv']; rfl)
  · rw [hget] at ho' hf' ⊢
    simp only [hmiss i hi, Bcache.setBuf, update_self, Bool.false_eq_true, if_false]
    refine h.enter hp hi rfl ⟨l, ho', hf'⟩ ?_ (fun j hj => ?_) rfl ?_ ?_ ?_
    · simp [hzero]
    · simp [hj]
    · exact fun q x hq => absurd hq (h.no_user hi hzero q x)
    · exact fun hv => by cases hv
    · simp
  · rw [hget]
    exact h

/-- Every step of any process keeps the invariant, while no block has two holders. -/
theorem Inv.step (h : Inv s) {a : Act S} (hex : Exclusive s a) {s' : Sys S} {r : Option Nat}
    (hs : s.step a = some (s', r)) : Inv s' := by
  cases a with
  | read p dev blockno =>
    simp only [Sys.step] at hs
    split at hs
    · rename_i hp
      have hst := h.startRead hp hex
      rw [some.inj hs] at hst
      exact hst
    · cases hs
  | acquire p =>
    simp only [Sys.step] at hs
    split at hs
    · cases hs
    split at hs
    · rename_i hp
      cases hs
      exact h.phase hp (by rfl) _ _
    · rename_i hp
      cases hs
      exact h.phase hp (by rfl) _ _
    · cases hs
  | complete p =>
    simp only [Sys.step] at hs
    split at hs
    · rename_i hp
      cases hs
      exact (h.fill hp rfl _ _).phase hp (by rfl) _ _
    · rename_i hp
      cases hs
      exact (h.fill hp rfl _ _).finishRead hp rfl
    · rename_i hp
      cases hs
      exact h.phase hp (by rfl) _ _
    · rename_i hp
      cases hs
      exact h.phase hp (by rfl) _ _
    · cases hs
  | fail p timeout =>
    obtain rfl : timeout = false := hex
    simp only [Sys.step] at hs
    split at hs
    · rename_i hp
      cases hs
      exact h.leave hp _
    · rename_i hp
      cases hs
      exact h.leave hp _
    · rename_i hp
      cases hs
      exact h.phase hp (by rfl) _ _
    · rename_i hp
      cases hs
      exact h.phase hp (by rfl) _ _
    · cases hs
  | modify p f =>
    simp only [Sys.step] at hs
    split at hs
    · rename_i hp
      cases hs
      exact h.modify hp f
    · cases hs
  | write p =>
    simp only [Sys.step] at hs
    split at hs
    · rename_i hp
      cases hs
      exact h.phase hp (by rfl) _ _
    · cases hs
  | release p =>
    simp only [Sys.step] at hs
    split at hs
    · rename_i hp
      cases hs
      exact h.leave hp _
    · cases hs
  | lateRead n =>
    simp [Sys.step, h.late] at hs
  | lateWrite sector x =>
    cases hs
    exact { h with }

/-- What `bget` or `bio_read` returns is valid. -/
theorem Inv.returned (h : Inv s) {a : Act S} {s' : Sys S} {i : Nat}
    (hs : s.step a = some (s', some i)) : i < nbuf ∧ (s'.cache.buf i).valid = true := by
  obtain ⟨l, ho, -⟩ := h.order
  cases a with
  | read p dev blockno =>
    simp only [Sys.step] at hs
    split at hs
    · simp only [some.injEq, Sys.startRead] at hs
      rcases bget_cases ho dev blockno with ⟨k, hfind, hget⟩ | ⟨k, hk, -, -, hget⟩ | ⟨-, hget⟩
      · rw [hget] at hs
        simp only at hs
        split at hs
        · rename_i hval
          cases hs
          exact ⟨ho.mem_iff.1 (List.mem_of_find?_eq_some hfind), hval⟩
        · cases hs
      · rw [hget] at hs
        simp only [Bcache.setBuf, update_self, Bool.false_eq_true, if_false] at hs
        cases hs
      · rw [hget] at hs
        cases hs
    · cases hs
  | complete p =>
    simp only [Sys.step] at hs
    split at hs
    · cases hs
    · rename_i k n hp
      cases hs
      exact ⟨h.used_lt p _ _ hp, by simp [Sys.finishRead, Bcache.setBuf]⟩
    all_goals cases hs
  | acquire p =>
    simp only [Sys.step] at hs
    repeat' split at hs
    all_goals cases hs
  | fail p timeout =>
    simp only [Sys.step] at hs
    split at hs <;> cases hs
  | modify p f =>
    simp only [Sys.step] at hs
    split at hs <;> cases hs
  | write p =>
    simp only [Sys.step] at hs
    split at hs <;> cases hs
  | release p =>
    simp only [Sys.step] at hs
    split at hs <;> cases hs
  | lateRead n =>
    simp only [Sys.step] at hs
    split at hs <;> cases hs
  | lateWrite sector x => cases hs

end

theorem run_inv {s : Sys S} (h : Run Exclusive s) : Inv s := by
  induction h with
  | init data disk => exact inv_init data disk
  | step _ hex hs ih => exact ih.step hex hs

/-- **No update is lost** along a run in which no `bio_read` starts on a block that another process
is filling and no request times out. A buffer that `bio_read` returns has the contents of its first
fill with every modification made since it was recycled, it is the only buffer of its block in use,
and a process that fills a buffer is alone on it, with no modification made yet. -/
theorem bio_no_lost_update {s : Sys S} (h : Run Exclusive s) :
    (∀ a s' i, Exclusive s a → s.step a = some (s', some i) →
      s'.logical i = some (s'.cache.buf i).data ∧
        ∀ j < nbuf, j ≠ i → (s'.cache.buf j).live →
          (s'.cache.buf j).isBlock (s'.cache.buf i).dev (s'.cache.buf i).blockno = false) ∧
      ∀ p i ph, s.proc p = some (i, ph) → ph.reading = true →
        s.logical i = none ∧ ∀ q ph', s.proc q = some (i, ph') → q = p := by
  have hinv := run_inv h
  refine ⟨?_, ?_⟩
  · intro a s' i hex hs
    have hinv' := hinv.step hex hs
    obtain ⟨hi, hval⟩ := hinv.returned hs
    obtain ⟨l, -, hf⟩ := hinv'.order
    refine ⟨hinv'.contents i hi hval, fun j hj hne hlive => ?_⟩
    by_contra hblk
    obtain ⟨hd, hn⟩ := Buf.isBlock_iff.1 (by simpa using hblk)
    exact hne (hf.eq_of_block hj hi hlive (Or.inl hval) hd hn)
  · intro p i ph hp hph
    obtain ⟨hval, honly⟩ := hinv.filling p i ph hp hph
    exact ⟨hinv.empty i (hinv.used_lt p i ph hp) hval, honly⟩

/-- Run a list of actions. -/
def Sys.runAll (s : Sys S) : List (Act S) → Option (Sys S)
  | [] => some s
  | a :: as => (s.step a).bind fun r => r.1.runAll as

theorem Run.runAll {C : Sys S → Act S → Prop} {as : List (Act S)} (hC : ∀ a ∈ as, ∀ s, C s a)
    {s s' : Sys S} (h : Run C s) (hs : s.runAll as = some s') : Run C s' := by
  induction as generalizing s with
  | nil =>
    obtain rfl := some.inj hs
    exact h
  | cons a as ih =>
    obtain ⟨⟨t, r⟩, ht, hrest⟩ := bind_eq_some_iff.1 hs
    exact ih (fun b hb => hC b (List.mem_cons_of_mem a hb))
      (h.step (hC a List.mem_cons_self s) ht) hrest

theorem step_read {s : Sys S} {p : Fin nproc} {dev blockno : Nat} (hp : s.proc p = none) :
    s.step (.read p dev blockno) =
      some ((s.startRead p dev blockno).1, (s.startRead p dev blockno).2) := by
  simp only [Sys.step, hp]

theorem exclusive_init (p : Fin nproc) (dev blockno : Nat) (data : Nat → S × S) (disk : Nat → S) :
    Exclusive (Sys.init data disk) (.read p dev blockno) := by
  intro i _ _ h
  exact absurd (show ((bioInit data).buf i).refcnt = 0 from rfl) h

/-- Process 0 reads block 5, stores `(7, 7)` and releases the buffer; process 1 then reads it. -/
theorem bio_no_lost_update_reread :
    ∃ s s' : Sys Nat, Run Exclusive s ∧ s.step (.read 1 0 5) = some (s', some 0) ∧
      (s'.cache.buf 0).data = (7, 7) ∧ s'.logical 0 = some (s'.cache.buf 0).data := by
  have h0 : Run Exclusive ((Sys.init (fun _ => (0, 0)) fun n => n).startRead 0 0 5).1 :=
    Run.step (Run.init _ _) (exclusive_init 0 0 5 _ _) (step_read rfl)
  have heval : ((((Sys.init (fun _ => (0, 0)) fun n => n).startRead 0 0 5).1.runAll
      [.acquire 0, .complete 0, .complete 0, .modify 0 fun _ => (7, 7), .release 0]).bind fun s =>
      (s.step (.read 1 0 5)).map fun r =>
        (decide (∀ i < nbuf, (s.cache.buf i).refcnt = 0), r.2, (r.1.cache.buf 0).data)) =
      some (true, some 0, (7, 7)) := by
    decide +kernel
  obtain ⟨s, hs, hmap⟩ := bind_eq_some_iff.1 heval
  obtain ⟨⟨s', r⟩, hs', hout⟩ := map_eq_some_iff.1 hmap
  simp only [Prod.mk.injEq] at hout
  obtain ⟨hidle, rfl, hdata⟩ := hout
  have hrun : Run Exclusive s := by
    refine Run.runAll (fun a ha t => ?_) h0 hs
    simp only [List.mem_cons, List.not_mem_nil, or_false] at ha
    rcases ha with rfl | rfl | rfl | rfl | rfl <;> trivial
  have hex : Exclusive s (.read 1 0 5) :=
    fun i hi _ hne => absurd (of_decide_eq_true hidle i hi) hne
  exact ⟨s, s', hrun, hs', hdata, ((bio_no_lost_update hrun).1 _ s' 0 hex hs').1⟩

/-- Two processes read block 5 at the same time. The first one stores `(7, 7)` in the buffer while
the second waits for the disk; the second fill then puts the old sectors back, and `bio_read` returns
them. -/
theorem bio_lost_update :
    ∃ s s' : Sys Nat, Run (fun _ _ => True) s ∧ s.step (.complete 1) = some (s', some 0) ∧
      s'.logical 0 = some (7, 7) ∧ (s'.cache.buf 0).data = (10, 11) := by
  have heval : (((Sys.init (fun _ => (0, 0)) fun n => n).runAll
      [.read 0 0 5, .read 1 0 5, .acquire 0, .complete 0, .complete 0, .modify 0 fun _ => (7, 7),
        .acquire 1, .complete 1]).bind fun s => (s.step (.complete 1)).map fun r =>
        (r.2, r.1.logical 0, (r.1.cache.buf 0).data)) =
      some (some 0, some (7, 7), (10, 11)) := by
    decide +kernel
  obtain ⟨s, hs, hmap⟩ := bind_eq_some_iff.1 heval
  obtain ⟨⟨s', r⟩, hs', hout⟩ := map_eq_some_iff.1 hmap
  simp only [Prod.mk.injEq] at hout
  obtain ⟨rfl, hlog, hdata⟩ := hout
  exact ⟨s, s', Run.runAll (fun _ _ _ => trivial) (Run.init _ _) hs, hs', hlog, hdata⟩

end Slopix.Bio.Interleaving
