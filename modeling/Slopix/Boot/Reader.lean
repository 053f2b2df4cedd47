import Mathlib.Data.List.Find
import Mathlib.Data.List.TakeWhile
import Slopix.Boot.Fs
import Slopix.Kernel.Run

/-!
# The boot loader reads what the image holds

On a consistent image without holes the functions of `boot/fs.c` return what `Fs.Image` says, as the
kernel's do, so `fs_read_file` finds the file that `fs_namei` and `fs_readi` find. A read into one of
the two block buffers leaves the superblock behind them alone.
-/

namespace Slopix.Boot

open Lib Fs Option FileSys Nat List

/-- A block of the disk, as both readers put it together from two sectors. -/
def deviceBlock (dev : Nat → Option Bytes) (b : Nat) : Fs.Block := fun k =>
  ((dev (b * 2 % uintMod + k / 512)).getD fun _ => 0) (k % 512)

/-- `struct superblock` in block 1. -/
def superblock (dev : Nat → Option Bytes) : Superblock where
  size := getLe 4 (deviceBlock dev 1) 4
  ninodes := getLe 4 (deviceBlock dev 1) 12
  inodestart := getLe 4 (deviceBlock dev 1) 16
  bmapstart := getLe 4 (deviceBlock dev 1) 20

/-- The disk has the first `n` blocks. -/
def Present (dev : Nat → Option Bytes) (n : Nat) : Prop := ∀ sector < 2 * n, (dev sector).isSome = true

/-- The superblock is in memory. -/
def Ready (dev : Nat → Option Bytes) (m : Bytes) : Prop := ∀ k < 1024, m (sbBuf + k) = deviceBlock dev 1 k

section

variable {dev : Nat → Option Bytes} {m m' : Bytes} {b p n : Nat}

/-- A number depends on its bytes only, not on where they are. -/
theorem getLe_shift {n o o' : Nat} {b b' : Bytes} (h : ∀ k < n, b (o + k) = b' (o' + k)) :
    getLe n b o = getLe n b' o' := by
  induction n generalizing o o' with
  | zero => rfl
  | succ n ih =>
    have htail : getLe n b (o + 1) = getLe n b' (o' + 1) := by
      apply ih
      intro k hk
      rw [add_assoc, add_assoc, add_comm 1 k]
      exact h (k + 1) (by omega)
    rw [getLe, getLe, htail, show b o = b' o' from h 0 (by omega)]

theorem getDinode_shift {o : Nat} (h : ∀ k < 64, m (o + k) = m' (o + k)) :
    getDinode m o = getDinode m' o := by
  have hfield : ∀ n q, q + n ≤ 64 → getLe n m (o + q) = getLe n m' (o + q) := fun n q hq =>
    getLe_shift fun k hk => by
      rw [add_assoc]
      exact h (q + k) (by omega)
  unfold getDinode
  simp only [Dinode.mk.injEq]
  refine ⟨hfield 2 0 (by omega), hfield 2 2 (by omega), hfield 2 4 (by omega), hfield 2 6 (by omega),
    hfield 4 8 (by omega), ?_⟩
  funext k
  by_cases hk : k < 13
  · rw [if_pos hk, if_pos hk, add_assoc]
    exact hfield 4 (12 + 4 * k) (by omega)
  · rw [if_neg hk, if_neg hk]

theorem readBlock_frame {k : Nat} (hk : k < p ∨ p + 1024 ≤ k) : (readBlock dev b p m).2 k = m k := by
  have hsector : ∀ s q (m : Bytes), (k < q ∨ q + 512 ≤ k) → (virtioRead dev s q m).2 k = m k := by
    intro s q m hq
    unfold virtioRead
    cases dev s with
    | none => rfl
    | some b => exact if_neg (by omega)
  unfold readBlock
  dsimp only
  have hfirst := hsector (b * 2 % uintMod) p m (by omega)
  rcases hres : virtioRead dev (b * 2 % uintMod) p m with ⟨_ | _, m1⟩ <;> rw [hres] at hfirst
  · exact hfirst
  · exact (hsector _ (p + 512) m1 (by omega)).trans hfirst

theorem readBlock_bytes (h : (readBlock dev b p m).1 = true) :
    ∀ k < 1024, (readBlock dev b p m).2 (p + k) = deviceBlock dev b k := by
  unfold readBlock virtioRead at h ⊢
  dsimp only at h ⊢
  cases hx : dev (b * 2 % uintMod) with
  | none =>
    rw [hx] at h
    cases h
  | some x =>
    rw [hx] at h
    cases hy : dev (b * 2 % uintMod + 1) with
    | none =>
      rw [hy] at h
      cases h
    | some y =>
      intro k hk
      unfold deviceBlock
      dsimp only
      by_cases hlow : k < 512
      · rw [if_neg (by omega), if_pos (by omega), Nat.add_sub_cancel_left, Nat.div_eq_of_lt hlow,
          Nat.mod_eq_of_lt hlow, Nat.add_zero, hx]
        rfl
      have hdiv : k / 512 = 1 := by omega
      have hrem : k % 512 = k - 512 := by omega
      rw [if_pos (by omega), hdiv, hrem, hy, show p + k - (p + 512) = k - 512 by omega]
      rfl

theorem readBlock_eq (hdev : Present dev n) (hn : n ≤ 2147483648) (hb : b < n) (p : Nat) (m : Bytes) :
    ∃ m', readBlock dev b p m = (true, m') ∧ ∀ k < 1024, m' (p + k) = deviceBlock dev b k := by
  have hmod : b * 2 % uintMod = b * 2 := mod_eq_of_lt (by unfold uintMod; omega)
  obtain ⟨x, hx⟩ := isSome_iff_exists.1 (hdev (b * 2) (by omega))
  obtain ⟨y, hy⟩ := isSome_iff_exists.1 (hdev (b * 2 + 1) (by omega))
  have hok : (readBlock dev b p m).1 = true := by
    unfold readBlock virtioRead
    rw [hmod]
    dsimp only
    rw [hx]
    rw [hy]
  exact ⟨(readBlock dev b p m).2, Prod.ext hok rfl, readBlock_bytes hok⟩

/-- Only the memory above the block buffers matters. -/
theorem Ready.frame (h : Ready dev m) (hsame : ∀ k, 2048 ≤ k → m' k = m k) : Ready dev m' := by
  intro k hk
  rw [hsame (sbBuf + k) (by unfold sbBuf; omega)]
  exact h k hk

theorem Ready.readBlock (h : Ready dev m) (hp : p ≤ 1024) : Ready dev (Boot.readBlock dev b p m).2 :=
  h.frame fun _ hk => readBlock_frame (by omega)

theorem fsInit_ready (hinit : fsInit dev m = (true, m')) : Ready dev m' := by
  unfold fsInit at hinit
  rcases hread : readBlock dev 1 sbBuf m with ⟨_ | _, m1⟩ <;> rw [hread] at hinit
  · cases hinit
  obtain ⟨-, rfl⟩ := Prod.mk.inj hinit
  have hbytes : ∀ k < 1024, (readBlock dev 1 sbBuf m).2 (sbBuf + k) = deviceBlock dev 1 k :=
    readBlock_bytes (by rw [hread])
  rw [hread] at hbytes
  exact hbytes

end

/-! ## Names -/

section

theorem streq_eq {a b : Nat → UInt8} {n k : Nat} {l name : List UInt8} (hl : l.length = n)
    (ha : ∀ j < n, a (k + j) = l.getD j 0) (hb : ∀ j ≤ n, b (k + j) = name.getD j 0)
    (hname : 0 ∉ name) (hlen : name.length < n) :
    streq a b n k = (l.takeWhile (· != 0) == name) := by
  induction n generalizing k l name with
  | zero => omega
  | succ n ih =>
    obtain ⟨x, l, rfl⟩ := exists_cons_of_length_eq_add_one hl
    have hx : a k = x := ha 0 (by omega)
    have hrest : ∀ j < n, a (k + 1 + j) = l.getD j 0 := fun j hj => by
      have h := ha (j + 1) (by omega)
      rw [add_assoc, add_comm 1 j]
      simpa using h
    rw [streq, hx]
    cases name with
    | nil =>
      have hzero : b k = 0 := hb 0 (by omega)
      rw [hzero, if_neg (by simp)]
      by_cases h0 : x = 0 <;> simp [h0]
    | cons c name =>
      have hc : b k = c := hb 0 (by omega)
      have hc0 : c ≠ 0 := fun e => hname (e ▸ mem_cons_self)
      rw [hc]
      by_cases h0 : x = 0
      · rw [if_neg fun h => h.1 h0, h0]
        simpa using fun e : 0 = c => hc0 e.symm
      by_cases hxc : x = c
      · rw [if_pos ⟨h0, hc0⟩, if_neg (not_not.2 hxc), ih (l := l) (by simpa using hl)
          hrest (fun j hj => ?_) (fun h => hname (mem_cons_of_mem c h)) (by simpa using hlen)]
        · simp [hxc, hc0]
        · have h := hb (j + 1) (by omega)
          rw [add_assoc, add_comm 1 j]
          simpa using h
      · rw [if_pos ⟨h0, hc0⟩, if_pos hxc]
        simp [h0, hxc]

/-- An absolute path whose names have at most 61 bytes, as a C string. -/
structure ShortPath where
  bytes : List UInt8
  absolute : bytes.head? = some slash
  noNul : 0 ∉ bytes
  short : ∀ w, w <:+: bytes → slash ∉ w → w.length ≤ 61

/-- The part of a path in front of the next slash is a part of the path without slashes. -/
theorem takeWhile_infix (path : List UInt8) :
    (path.dropWhile (· == slash)).takeWhile (· != slash) <:+: path ∧
      slash ∉ (path.dropWhile (· == slash)).takeWhile (· != slash) := by
  constructor
  · exact ( takeWhile_prefix _).isInfix.trans (dropWhile_suffix _).isInfix
  · intro h
    have hne := mem_takeWhile_imp h
    simp at hne

/-- Both readers take the same names off a path whose names are short. -/
theorem elems_eq {path : List UInt8} (fuel : Nat)
    (h : ∀ w, w <:+: path → slash ∉ w → w.length ≤ 61) (h0 : 0 ∉ path) :
    elems fuel path = pathElems fuel path ∧
      ∀ name ∈ pathElems fuel path, name.length ≤ 61 ∧ 0 ∉ name := by
  induction fuel generalizing path with
  | zero => exact ⟨rfl, fun name hname => absurd hname not_mem_nil⟩
  | succ fuel ih =>
    obtain ⟨hword, hslash⟩ := takeWhile_infix path
    have hlen := h _ hword hslash
    unfold elems pathElems skipelem Fs.skipelem
    cases hp : path.dropWhile (· == slash) with
    | nil => exact ⟨rfl, fun name hname => absurd hname not_mem_nil⟩
    | cons c rest =>
      rw [hp] at hword hlen
      have hrest : ((c :: rest).dropWhile (· != slash)).dropWhile (· == slash) <:+ path := by
        rw [← hp]
        exact ((dropWhile_suffix _).trans (dropWhile_suffix _)).trans
          (dropWhile_suffix _)
      obtain ⟨hsame, hnames⟩ := @ih (((c :: rest).dropWhile (· != slash)).dropWhile (· == slash))
        (fun w hw => h w (hw.trans hrest.isInfix)) (fun hmem => h0 (hrest.subset hmem))
      dsimp only
      rw [take_of_length_le hlen, take_of_length_le (by omega), hsame]
      refine ⟨rfl, fun name hname => ?_⟩
      rcases mem_cons.1 hname with rfl | hname
      · exact ⟨hlen, fun hmem => h0 (hword.subset hmem)⟩
      · exact hnames name hname

end

/-! ## Files and directories -/

section

variable {dev : Nat → Option Bytes} {m m' : Bytes} {d : Dinode} {n : Nat}

theorem asInt_of_lt {v : Nat} (h : v < 2147483648) : asInt v = v := if_pos h

theorem asUint_natCast {v : Nat} (h : v < 2147483648) : asUint (v : Int) = v := by
  unfold asUint
  omega

/-- A look at the map of blocks keeps the reader ready. -/
theorem Ready.bmap (h : Ready dev m) (bn : Nat) : Ready dev (Boot.bmap dev d bn m).2 := by
  have hbuf : indirectBuf ≤ 1024 := le_refl _
  unfold Boot.bmap
  by_cases hdirect : bn < 11
  · rw [if_pos hdirect]
    exact h
  rw [if_neg hdirect]
  have h1 := h.readBlock (b := d.addrs 11) hbuf
  have h2 := h.readBlock (b := d.addrs 12) hbuf
  split
  · rcases hres : Boot.readBlock dev (d.addrs 11) indirectBuf m with ⟨_ | _, m1⟩ <;> rw [hres] at h1 <;>
      exact h1
  rcases hres : Boot.readBlock dev (d.addrs 12) indirectBuf m with ⟨_ | _, m1⟩ <;> rw [hres] at h2
  · exact h2
  have h3 := Ready.readBlock (m := m1)
    (b := getLe 4 m1 (indirectBuf + 4 * ((bn - 267) / 256))) h2 hbuf
  dsimp only
  rcases hres' : Boot.readBlock dev (getLe 4 m1 (indirectBuf + 4 * ((bn - 267) / 256))) indirectBuf m1
    with ⟨_ | _, m2⟩ <;> rw [hres'] at h3 <;> exact h3

theorem index_eq {b j : Nat} (hbytes : ∀ k < 1024, m (indirectBuf + k) = deviceBlock dev b k)
    (hj : j < 256) : getLe 4 m (indirectBuf + 4 * j) = indexEntry (deviceBlock dev) b j :=
  getLe_shift fun k hk => by
    rw [add_assoc]
    exact hbytes (4 * j + k) (by omega)

theorem bmap_eq (hdev : Present dev n) (hn : n ≤ 2147483648) {bn : Nat} (hbn : bn < 65803)
    (h : ∀ b ∈ blockPath (deviceBlock dev) d bn, b < n) (m : Bytes) :
    (bmap dev d bn m).1 = blockAt (deviceBlock dev) d bn := by
  have hlt := h _ (blockAt_mem bn)
  rw [← asInt_of_lt (lt_of_lt_of_le hlt hn)]
  unfold bmap blockAt
  unfold blockPath at h ⊢
  by_cases hdirect : bn < 11
  · rw [if_pos hdirect, if_pos hdirect]
    rfl
  rw [if_neg hdirect] at h ⊢
  rw [if_neg hdirect]
  by_cases hsingle : bn - 11 < 256
  · rw [if_pos hsingle] at h ⊢
    rw [if_pos hsingle]
    obtain ⟨m1, hread, hbytes⟩ := readBlock_eq hdev hn (h _ mem_cons_self) indirectBuf m
    rw [hread]
    dsimp only
    rw [index_eq hbytes hsingle]
    rfl
  rw [if_neg hsingle] at h ⊢
  rw [if_neg hsingle]
  obtain ⟨m1, hread, hbytes⟩ := readBlock_eq hdev hn (h _ mem_cons_self) indirectBuf m
  have hfirst := index_eq hbytes (j := (bn - 267) / 256) (by omega)
  obtain ⟨m2, hread2, hbytes2⟩ := readBlock_eq hdev hn
    (h _ (mem_cons_of_mem _ mem_cons_self)) indirectBuf m1
  rw [hread]
  dsimp only
  rw [hfirst, hread2]
  dsimp only
  rw [index_eq hbytes2 (by omega)]
  rfl

theorem getD_getBytes {b : Bytes} {o n k : Nat} (hk : k < n) : (getBytes b o n).getD k 0 = b (o + k) := by
  unfold getBytes
  rw [getD_eq_getElem?_getD, getElem?_map, getElem?_range hk]
  rfl

theorem direntInum_getBytes {b : Fs.Block} {o o' : Nat} (h : ∀ k < 64, m (o + k) = b (o' + k)) :
    getLe 2 m o = direntInum (getBytes b o' 64) := by
  unfold direntInum
  rw [getD_getBytes (by omega), getD_getBytes (by omega), ← h 0 (by omega), ← h 1 (by omega)]
  simp [getLe]

theorem isEntry_getBytes {b : Fs.Block} {name : Name} {o o' : Nat} (hlen : name.length ≤ 61)
    (h0 : 0 ∉ name) (h : ∀ k < 64, m (o + k) = b (o' + k)) :
    (getLe 2 m o != 0 && streq (fun k => m (o + 2 + k)) (fun k => name.getD k 0) 62 0) =
      isEntry name (getBytes b o' 64) := by
  have hl : (((getBytes b o' 64).drop 2).take 62).length = 62 := by simp [length_getBytes]
  unfold isEntry direntName
  rw [direntInum_getBytes h, streq_eq hl (fun j hj => ?_) (fun j _ => by rw [zero_add]) h0 (by omega)]
  have hget : (((getBytes b o' 64).drop 2).take 62).getD j 0 = (getBytes b o' 64).getD (2 + j) 0 := by
    rw [getD_eq_getElem?_getD, getD_eq_getElem?_getD, getElem?_take_of_lt hj, getElem?_drop]
  rw [hget, getD_getBytes (by omega), zero_add, add_assoc]
  exact h (2 + j) (by omega)

theorem direntAt_eq {i j : Nat} (hj : j < 16) :
    direntAt (deviceBlock dev) d (16 * i + j) =
      getBytes (deviceBlock dev (blockAt (deviceBlock dev) d i)) (64 * j) 64 := by
  have hdiv : 64 * (16 * i + j) / 1024 = i := by omega
  have hmod : 64 * (16 * i + j) % 1024 = 64 * j := by omega
  unfold direntAt
  rw [bytesFrom_block (by omega), hdiv, hmod]

theorem findEntry_eq {name : Name} {i c : Nat} (hlen : name.length ≤ 61) (h0 : 0 ∉ name) (hc : c ≤ 16)
    (hbytes : ∀ k < 1024, m k = deviceBlock dev (blockAt (deviceBlock dev) d i) k) :
    (findEntry name c m).map (fun j => getLe 2 m (64 * j)) =
      (((List.range' (16 * i) c).map (direntAt (deviceBlock dev) d)).find?
        (isEntry name)).map direntInum := by
  have hmem : ∀ j < 16, ∀ k < 64, m (64 * j + k) =
      deviceBlock dev (blockAt (deviceBlock dev) d i) (64 * j + k) := fun j hj k hk =>
    hbytes (64 * j + k) (by omega)
  have hrange : List.range' (16 * i) c = (List.range c).map (16 * i + ·) := by
    rw [range_eq_range', map_add_range']
    simp
  have hfind : findEntry name c m = (range c).find?
      (isEntry name ∘ fun j => direntAt (deviceBlock dev) d (16 * i + j)) := by
    apply find?_congr
    intro j hj
    have hj' := mem_range.1 hj
    rw [Function.comp_apply, direntAt_eq (by omega)]
    exact isEntry_getBytes hlen h0 (hmem j (by omega))
  rw [hrange, List.map_map, List.find?_map, hfind]
  cases hres : (range c).find?
      (isEntry name ∘ fun j => direntAt (deviceBlock dev) d (16 * i + j)) with
  | none =>
    rw [show (isEntry name ∘ direntAt (deviceBlock dev) d ∘ fun x => 16 * i + x) =
      isEntry name ∘ fun j => direntAt (deviceBlock dev) d (16 * i + j) from rfl, hres]
    rfl
  | some j =>
    have hj := mem_range.1 (mem_of_find?_eq_some hres)
    rw [show (isEntry name ∘ direntAt (deviceBlock dev) d ∘ fun x => 16 * i + x) =
      isEntry name ∘ fun j => direntAt (deviceBlock dev) d (16 * i + j) from rfl, hres]
    simp only [map_some, Function.comp_apply]
    rw [direntAt_eq (by omega), direntInum_getBytes (hmem j (by omega))]

/-- The blocks of a file are blocks of the disk, and none is missing. -/
structure Mapped (dev : Nat → Option Bytes) (n : Nat) (d : Dinode) : Prop where
  size : d.size ≤ maxBytes
  solid : NoHoles (deviceBlock dev) d
  block : ∀ bn, bn * 1024 < d.size → ∀ b ∈ blockPath (deviceBlock dev) d bn, b < n

section

variable (hdev : Present dev n) (hn : n ≤ 2147483648) (hd : Mapped dev n d)

include hdev hn hd

theorem Mapped.read {bn : Nat} (hbn : bn * 1024 < d.size) (hready : Ready dev m) :
    0 < (Boot.bmap dev d bn m).1 ∧
      ∃ m', Boot.readBlock dev (asUint (Boot.bmap dev d bn m).1) 0 (Boot.bmap dev d bn m).2 = (true, m') ∧
        (∀ k < 1024, m' k = deviceBlock dev (blockAt (deviceBlock dev) d bn) k) ∧ Ready dev m' := by
  have hlt := hd.block bn hbn _ (blockAt_mem bn)
  have hpos := hd.solid.blockAt_ne hbn
  have hsize := hd.size
  unfold maxBytes at hsize
  have hmap := bmap_eq hdev hn (by omega) (hd.block bn hbn) m
  obtain ⟨m', hread, hbytes⟩ := readBlock_eq hdev hn hlt 0 (Boot.bmap dev d bn m).2
  have hready' := (hready.bmap (d := d) bn).readBlock (b := blockAt (deviceBlock dev) d bn) (zero_le 1024)
  rw [hread] at hready'
  rw [hmap]
  refine ⟨by omega, m', ?_, fun k hk => ?_, hready'⟩
  · rw [asUint_natCast (by omega)]
    exact hread
  · have hk' := hbytes k hk
    rw [zero_add] at hk'
    exact hk'

/-- The search in the blocks of a directory from block `i` on. -/
theorem dirlookupLoop_eq {name : Name} (hlen : name.length ≤ 61) (h0 : 0 ∉ name) {c i : Nat}
    (hc : i + c = d.size / 1024 + 1) (hready : Ready dev m) :
    Ready dev (dirlookupLoop dev d name (range' i c) m).2 ∧
      (dirlookupLoop dev d name (range' i c) m).1 =
        ((((range' (16 * i) (d.size / 64 - 16 * i)).map (direntAt (deviceBlock dev) d)).find?
          (isEntry name)).map direntInum).getD 0 := by
  induction c generalizing i m with
  | zero =>
    rw [show d.size / 64 - 16 * i = 0 by omega]
    exact ⟨hready, rfl⟩
  | succ c ih =>
    rw [range'_succ, dirlookupLoop]
    dsimp only
    by_cases hin : i * 1024 < d.size
    · obtain ⟨hpos, m', hread, hbytes, hready'⟩ := hd.read hdev hn hin hready
      rw [if_neg (by omega), if_neg (by omega), hread]
      dsimp only
      generalize hcount : (if i < d.size / 1024 then 1024 else d.size % 1024) / 64 = k
      have hk : k ≤ 16 ∧ d.size / 64 - 16 * i = k + (d.size / 64 - 16 * (i + 1)) ∧
          (d.size / 64 - 16 * (i + 1) = 0 ∨ k = 16) := by
        split at hcount <;> omega
      have hfind := findEntry_eq hlen h0 hk.1 hbytes
      obtain ⟨ihready, ihres⟩ := ih (i := i + 1) (m := m') (by omega) hready'
      -- the entries of this block, then the rest
      have hsplit : range' (16 * i) (d.size / 64 - 16 * i) = range' (16 * i) k ++
          range' (16 * (i + 1)) (d.size / 64 - 16 * (i + 1)) := by
        rw [hk.2.1]
        rcases hk.2.2 with hzero | hfull
        · rw [hzero]
          simp
        · rw [hfull, show 16 * (i + 1) = 16 * i + 16 by omega, ← range'_append_1]
      rw [hsplit, map_append, find?_append]
      cases hres : findEntry name k m' with
      | some j =>
        rw [hres, map_some, eq_comm] at hfind
        obtain ⟨de, hde, hnum⟩ := map_eq_some_iff.1 hfind
        rw [hde, some_or, map_some, getD_some]
        exact ⟨hready', hnum.symm⟩
      | none =>
        rw [hres, map_none, eq_comm, map_eq_none_iff] at hfind
        rw [hfind, none_or]
        exact ⟨ihready, ihres⟩
    -- behind the last block: whatever is read there, no entry is looked at
    obtain rfl : c = 0 := by omega
    have hcount : (if i < d.size / 1024 then 1024 else d.size % 1024) / 64 = 0 := by
      rw [if_neg (by omega)]
      omega
    have hmap := hready.bmap (d := d) i
    rw [show d.size / 64 - 16 * i = 0 by omega, hcount]
    by_cases hneg : (Boot.bmap dev d i m).1 < 0
    · rw [if_pos hneg]
      exact ⟨hmap, rfl⟩
    by_cases hhole : (Boot.bmap dev d i m).1 = 0
    · rw [if_neg hneg, if_pos hhole]
      exact ⟨hmap, rfl⟩
    have hblock := hmap.readBlock (b := asUint (Boot.bmap dev d i m).1) (zero_le 1024)
    rw [if_neg hneg, if_neg hhole]
    rcases hres : Boot.readBlock dev (asUint (Boot.bmap dev d i m).1) 0
      (Boot.bmap dev d i m).2 with ⟨_ | _, m1⟩ <;> rw [hres] at hblock
    · exact ⟨hblock, rfl⟩
    · exact ⟨hblock, rfl⟩

theorem dirlookup_eq {name : Name} (hlen : name.length ≤ 61) (h0 : 0 ∉ name) (hready : Ready dev m) :
    Ready dev (dirlookup dev d name m).2 ∧
      (dirlookup dev d name m).1 = (lookup (deviceBlock dev) d name).getD 0 := by
  have h := dirlookupLoop_eq hdev hn hd hlen h0 (i := 0) (c := d.size / 1024 + 1) (by omega) hready
  rw [← range_eq_range', Nat.mul_zero, Nat.sub_zero, ← range_eq_range'] at h
  exact h

end

theorem readLoop_eq (hdev : Present dev n) (hn : n ≤ 2147483648) (hd : Mapped dev n d) {fuel off : Nat}
    {dst : List UInt8} (hoff : off ≤ d.size) (hfuel : d.size - off ≤ fuel) (hready : Ready dev m) :
    readLoop dev d fuel off dst m =
      ((d.size : Int), dst ++ bytesFrom (deviceBlock dev) d off (d.size - off)) := by
  have hsize := hd.size
  unfold maxBytes at hsize
  have hint : asInt d.size = d.size := asInt_of_lt (by omega)
  induction fuel generalizing off dst m with
  | zero =>
    rw [show d.size - off = 0 by omega, readLoop, hint]
    simp [bytesFrom]
  | succ fuel ih =>
    rw [readLoop]
    by_cases hend : d.size ≤ off
    · rw [if_pos hend, show d.size - off = 0 by omega, hint]
      simp [bytesFrom]
    obtain ⟨hpos, m', hread, hbytes, hready'⟩ := hd.read hdev hn (show off / 1024 * 1024 < d.size by omega) hready
    rw [if_neg hend]
    rw [if_neg (by omega), hread]
    dsimp only
    have hmod : (off + (1024 - off % 1024)) % uintMod = off + (1024 - off % 1024) :=
      mod_eq_of_lt (by unfold uintMod; omega)
    rw [hmod]
    generalize hchunk : (if d.size < off + (1024 - off % 1024) then d.size - off
      else 1024 - off % 1024) = chunk
    have hc : 0 < chunk ∧ off % 1024 + chunk ≤ 1024 ∧ off + chunk ≤ d.size := by
      split at hchunk <;> omega
    have hmod' : (off + chunk) % uintMod = off + chunk :=
      mod_eq_of_lt (by unfold uintMod; omega)
    have hpart : getBytes m' (off % 1024) chunk = bytesFrom (deviceBlock dev) d off chunk := by
      rw [bytesFrom_block hc.2.1]
      apply map_congr_left
      intro k hk
      exact hbytes _ (by have := mem_range.1 hk; omega)
    rw [hmod', ih (by omega) (by omega) hready', hpart, append_assoc, ← bytesFrom_append,
      show chunk + (d.size - (off + chunk)) = d.size - off by omega]

end

/-! ## Paths -/

section

variable {dev : Nat → Option Bytes} {m m' : Bytes} {inum : Nat}

theorem readInode_eq (hdev : Present dev (superblock dev).size)
    (hcons : Consistent (deviceBlock dev) (superblock dev))
    (hused : (superblock dev).InUse (deviceBlock dev) inum) (hready : Ready dev m) :
    ∃ m', readInode dev inum m = (some ((superblock dev).inode (deviceBlock dev) inum), m') ∧
      Ready dev m' := by
  have hstart : getLe 4 m (sbBuf + 16) = (superblock dev).inodestart := getLe_shift fun k hk => by
    rw [add_assoc]
    exact hready (16 + k) (by omega)
  have htable := hcons.table inum hused.1
  have hsize := hcons.size
  have hmod : (inum / 16 + (superblock dev).inodestart) % uintMod =
      inum / 16 + (superblock dev).inodestart := mod_eq_of_lt (by unfold uintMod; omega)
  obtain ⟨m', hread, hbytes⟩ := readBlock_eq hdev hsize htable 0 m
  have hready' := hready.readBlock (b := inum / 16 + (superblock dev).inodestart) (zero_le 1024)
  unfold readInode Superblock.inode inodeAt
  rw [hread] at hready'
  rw [hstart, hmod]
  dsimp only
  rw [hread]
  refine ⟨m', ?_, hready'⟩
  dsimp only
  rw [getDinode_shift fun k hk => ?_]
  have hoff : inodeOff inum + k < 1024 := by
    unfold inodeOff
    omega
  have hk' := hbytes _ hoff
  rw [zero_add] at hk'
  exact hk'

/-- An inode in use of a consistent image without holes. -/
theorem mapped_of_consistent (hcons : Consistent (deviceBlock dev) (superblock dev))
    (hsolid : Solid (deviceBlock dev) (superblock dev))
    (hused : (superblock dev).InUse (deviceBlock dev) inum) :
    Mapped dev (superblock dev).size ((superblock dev).inode (deviceBlock dev) inum) where
  size := (hcons.inode inum hused).size
  solid := hsolid inum hused
  block bn hbn := (hcons.inode inum hused).block bn hbn (hsolid inum hused bn hbn)

theorem walk_eq (hdev : Present dev (superblock dev).size)
    (hcons : Consistent (deviceBlock dev) (superblock dev))
    (hsolid : Solid (deviceBlock dev) (superblock dev)) {names : List Name}
    (hnames : ∀ name ∈ names, name.length ≤ 61 ∧ 0 ∉ name)
    (hused : (superblock dev).InUse (deviceBlock dev) inum) (hready : Ready dev m) :
    Ready dev (walk dev names ((superblock dev).inode (deviceBlock dev) inum) m).2 ∧
      match resolve (deviceBlock dev) (superblock dev).inodestart inum names with
      | none => (walk dev names ((superblock dev).inode (deviceBlock dev) inum) m).1 = none
      | some last => (superblock dev).InUse (deviceBlock dev) last ∧
          (walk dev names ((superblock dev).inode (deviceBlock dev) inum) m).1 =
            some ((superblock dev).inode (deviceBlock dev) last) := by
  induction names generalizing inum m with
  | nil => exact ⟨hready, hused, rfl⟩
  | cons name rest ih =>
    rw [walk, resolve_cons]
    by_cases htype : ((superblock dev).inode (deviceBlock dev) inum).type = tDir
    · obtain ⟨hlen, h0⟩ := hnames name mem_cons_self
      obtain ⟨hready1, hfound⟩ := dirlookup_eq hdev hcons.size
        (mapped_of_consistent hcons hsolid hused) hlen h0 hready
      rw [if_neg (not_not.2 htype), if_pos htype]
      dsimp only
      rw [hfound]
      cases hl : lookup (deviceBlock dev) ((superblock dev).inode (deviceBlock dev) inum) name with
      | none =>
        exact ⟨hready1, rfl⟩
      | some next =>
        have hused' := (hcons.inode inum hused).lookup htype hl
        obtain ⟨m2, hread, hready2⟩ := readInode_eq hdev hcons hused' hready1
        rw [getD_some, if_neg (lookup_ne_zero hl), hread]
        exact ih (fun x hx => hnames x (mem_cons_of_mem name hx)) hused' hready2
    · rw [if_pos htype, if_neg htype]
      exact ⟨hready, rfl⟩

/-- What a reader returns for what a path leads to: the size and the bytes of a regular file that is
not too large, and a failure otherwise. -/
def readResult (maxSize : Nat) : Option (Nat × List UInt8) → Int × List UInt8
  | none => (-1, [])
  | some (type, bytes) =>
    if type = tFile ∧ bytes.length ≤ maxSize then (bytes.length, bytes) else (-1, [])

theorem fsReadFile_eq (hinit : fsInit dev m = (true, m')) (hdev : Present dev (superblock dev).size)
    (hcons : Consistent (deviceBlock dev) (superblock dev))
    (hsolid : Solid (deviceBlock dev) (superblock dev)) (path : ShortPath) (maxSize : Nat) :
    fsReadFile dev path.bytes maxSize m' =
      readResult maxSize (imagePath (superblock dev) (deviceBlock dev) path.bytes) := by
  obtain ⟨m1, hroot, hready⟩ := readInode_eq hdev hcons hcons.root (fsInit_ready hinit)
  obtain ⟨helems, hnames⟩ := elems_eq path.bytes.length path.short path.noNul
  obtain ⟨hready2, hwalk⟩ := walk_eq hdev hcons hsolid hnames hcons.root hready
  unfold fsReadFile imagePath
  rw [if_neg (not_not.2 path.absolute), hroot, helems]
  dsimp only
  rcases hres : walk dev (pathElems path.bytes.length path.bytes)
    ((superblock dev).inode (deviceBlock dev) rootino) m1 with ⟨r, m2⟩
  rw [hres] at hready2 hwalk
  cases hresolve : resolve (deviceBlock dev) (superblock dev).inodestart rootino
      (pathElems path.bytes.length path.bytes) with
  | none =>
    rw [hresolve] at hwalk
    rw [show r = none from hwalk]
    rfl
  | some last =>
    rw [hresolve] at hwalk
    obtain ⟨hused, hr⟩ := hwalk
    rw [show r = _ from hr]
    dsimp only [map_some, readResult]
    rw [length_fileBytes]
    by_cases htype : ((superblock dev).inode (deviceBlock dev) last).type = tFile
    · rw [if_neg (not_not.2 htype)]
      by_cases hmax : ((superblock dev).inode (deviceBlock dev) last).size ≤ maxSize
      · rw [if_neg (by omega), if_pos ⟨htype, hmax⟩, readLoop_eq hdev hcons.size
          (mapped_of_consistent hcons hsolid hused) (zero_le _) (by omega) hready2]
        rfl
      · rw [if_pos (by omega), if_neg fun h => hmax h.2]
    · rw [if_pos htype, if_neg fun h => htype h.1]


/-- The boot loader and the kernel agree on every file: `fs_read_file` returns the size and the bytes
that `fs_namei` and `fs_readi` find when the path leads to a regular file that is not too large, and
fails otherwise. -/
theorem fs_read_file_agrees (hinit : fsInit dev m = (true, m'))
    (hdev : Present dev (superblock dev).size)
    (hcons : Consistent (deviceBlock dev) (superblock dev))
    (hsolid : Solid (deviceBlock dev) (superblock dev)) (cwd : Option Nat) (path : ShortPath)
    (maxSize : Nat) :
    ∃ r s', readPath cwd path.bytes (Kernel.mount (superblock dev) (deviceBlock dev)) = .ok (r, s') ∧
      fsReadFile dev path.bytes maxSize m' = readResult maxSize r := by
  have hfresh : Fresh (superblock dev) (deviceBlock dev)
      (Kernel.mount (superblock dev) (deviceBlock dev)) := ⟨rfl, rfl, fun _ => rfl, fun _ => rfl⟩
  obtain ⟨s', hread⟩ := readPath_eq hcons hsolid hfresh cwd path.absolute
  exact ⟨_, s', hread, fsReadFile_eq hinit hdev hcons hsolid path maxSize⟩

end

/-! ## A small disk -/

/-- The file `/a` of a small disk. -/
def smallFile : List UInt8 := [104, 101, 108, 108, 111]

/-- The blocks of a disk with one file: the superblock, the inodes, the bitmap, the root directory and
the file. -/
def smallBlock : Nat → Fs.Block
  | 1 => putLe 4 (putLe 4 (putLe 4 (putLe 4 (putLe 4 (fun _ => 0) 0 fsMagic) 4 6) 12 16) 16 2) 20 3
  | 2 =>
    putDinode (putDinode (fun _ => 0) 64 ⟨tDir, 0, 0, 1, 192, fun k => if k = 0 then 4 else 0⟩) 128
      ⟨tFile, 0, 0, 1, 5, fun k => if k = 0 then 5 else 0⟩
  | 4 => putBytes (fun _ => 0) 0 (dirent 1 dot ++ dirent 1 dotdot ++ dirent 2 [97])
  | 5 => putBytes (fun _ => 0) 0 smallFile
  | _ => fun _ => 0

/-- Two sectors make a block. -/
def smallDev (sector : Nat) : Option Bytes := some fun k => smallBlock (sector / 2) (sector % 2 * 512 + k)

/-- The path `/a`. -/
def smallPath : ShortPath where
  bytes := [47, 97]
  absolute := rfl
  noNul := by decide
  short w hw _ := (List.IsInfix.length_le hw).trans (by decide)

theorem smallInUse {inum : Nat} (h : (superblock smallDev).InUse (deviceBlock smallDev) inum) :
    inum = 1 ∨ inum = 2 := by
  have hall : ∀ n < 16, ((superblock smallDev).inode (deviceBlock smallDev) n).type ≠ 0 →
      n = 1 ∨ n = 2 := by decide +kernel
  have hnum : (superblock smallDev).ninodes = 16 := by decide +kernel
  exact hall inum (hnum ▸ h.1) h.2

theorem small_solid : Solid (deviceBlock smallDev) (superblock smallDev) := by
  have hsize : ∀ n < 3, ((superblock smallDev).inode (deviceBlock smallDev) n).size ≤ 1024 ∧
      (1 ≤ n → 0 ∉ blockPath (deviceBlock smallDev)
        ((superblock smallDev).inode (deviceBlock smallDev) n) 0) := by decide +kernel
  intro inum hused bn hbn
  have hlt := smallInUse hused
  obtain ⟨hle, hpath⟩ := hsize inum (by omega)
  obtain rfl : bn = 0 := by omega
  exact hpath (by omega)

theorem small_consistent : Consistent (deviceBlock smallDev) (superblock smallDev) := by
  have hsize : (superblock smallDev).size = 6 := by decide +kernel
  have hnum : (superblock smallDev).ninodes = 16 := by decide +kernel
  have hstart : (superblock smallDev).inodestart = 2 := by decide +kernel
  have hinode : ∀ n < 3, 1 ≤ n →
      ((superblock smallDev).inode (deviceBlock smallDev) n).nlink ≠ 0 ∧
      ((superblock smallDev).inode (deviceBlock smallDev) n).size ≤ 1024 ∧
      (∀ b ∈ blockPath (deviceBlock smallDev)
        ((superblock smallDev).inode (deviceBlock smallDev) n) 0, b < 6) := by decide +kernel
  have hentry : ∀ de ∈ dirents (deviceBlock smallDev)
      ((superblock smallDev).inode (deviceBlock smallDev) 1), direntInum de < 16 ∧
        ((superblock smallDev).inode (deviceBlock smallDev) (direntInum de)).type ≠ 0 := by
    decide +kernel
  have hfile : ((superblock smallDev).inode (deviceBlock smallDev) 2).type ≠ tDir := by
    decide +kernel
  have hroot : ((superblock smallDev).inode (deviceBlock smallDev) 1).type = tDir := by
    decide +kernel
  constructor
  · rw [hsize]
    decide
  · intro inum hlt
    omega
  · refine ⟨by rw [hnum]; decide, ?_⟩
    decide
  · exact hroot
  intro inum hused
  have hlt := smallInUse hused
  obtain ⟨hnlink, hle, hblock⟩ := hinode inum (by omega) (by omega)
  refine ⟨hnlink, hle.trans (by decide), fun bn hbn _ => ?_, fun htype de hde _ => ?_⟩
  · obtain rfl : bn = 0 := by omega
    exact hblock
  rcases hlt with rfl | rfl
  · obtain ⟨hde1, hde2⟩ := hentry de hde
    exact ⟨by rw [hnum]; exact hde1, hde2⟩
  · exact absurd htype hfile

/-- A small volume, read by both. -/
theorem fs_read_file_agrees_small : ∃ m' r s', fsInit smallDev (fun _ => 0) = (true, m') ∧
    readPath none smallPath.bytes (Kernel.mount (superblock smallDev) (deviceBlock smallDev)) =
      .ok (r, s') ∧
    fsReadFile smallDev smallPath.bytes 4096 m' = readResult 4096 r := by
  have hinit : (fsInit smallDev fun _ => 0).1 = true := by decide +kernel
  obtain ⟨r, s', hrun, hsame⟩ := fs_read_file_agrees
    (show fsInit smallDev (fun _ => 0) = (true, (fsInit smallDev fun _ => 0).2) from
      Prod.ext hinit rfl) (fun _ _ => rfl) small_consistent small_solid none smallPath 4096
  exact ⟨_, r, s', Prod.ext hinit rfl, hrun, hsame⟩

/-- Both readers find the file. -/
example : fsReadFile smallDev smallPath.bytes 4096 (fsInit smallDev fun _ => 0).2 = (5, smallFile) := by
  decide +kernel

end Slopix.Boot
