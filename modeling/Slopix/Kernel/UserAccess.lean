import Slopix.Kernel.UserMem
import Slopix.Mm.Mapping

/-!
# Checked user pointers

`vmm_validate` of `kernel/vmm.c` and `vmm_copyinstr` with its kernel buffer. The bytes that a copy
needs are those up to the terminating zero or up to the end of the buffer; `Prefix` is the string
they form.
-/

namespace Slopix.Kernel

open Lib Mm Fs Ipc List Function Nat

/-- `entry & PTE_AP_RO_BIT`. -/
def pteReadOnly (e : Nat) : Bool := e &&& 0x80 != 0

/-- The check of one page in `vmm_validate`. -/
def validateEntry (m : PhysMem) (pagetable page : Nat) (write : Bool) : Bool :=
  match walkTables m (tableIndices page) pagetable with
  | none => false
  | some t =>
    pteValid (m.pte t (l3Index page)) && pteUser (m.pte t (l3Index page)) &&
      !(write && pteReadOnly (m.pte t (l3Index page)))

/-- The pages that `for (page = start; page <= end; page += PAGE_SIZE)` goes through. -/
def pagesThrough (start fin : Nat) : List Nat :=
  (List.range ((fin - start) / 4096 + 1)).map fun i => start + 4096 * i

/-- `vmm_validate`: every page of the range, from the one that `va` is in. -/
def vmmValidate (m : PhysMem) (pagetable va len : Nat) (write : Bool) : Int :=
  if len = 0 then 0
  else if (va + len) % ulongMod < va then -1
  else if userStack ≤ va ∨ userStack < (va + len) % ulongMod then -1
  else
    let start := va / 4096 * 4096
    let fin := (va + len - 1) % ulongMod / 4096 * 4096
    if (pagesThrough start fin).all fun page => validateEntry m pagetable page write then 0 else -1

/-- The loop of `vmm_copyinstr`, `copyinstrLoop` with the buffer: `i` at its end and what is written. -/
def copyinstrFill (m : PhysMem) (pagetable srcva : Nat) :
    Nat → Nat → Nat → Nat → Bytes → Option Nat × Bytes
  | 0, i, _, _, dst => (some i, Function.update dst i 0)
  | n + 1, i, page, pa, dst =>
    let addr := (srcva + i) % ulongMod
    let cur := if addr / 4096 * 4096 = page then some pa else validatePage m pagetable addr
    match cur with
    | none => (none, dst)
    | some pa =>
      let c := m.page pa (addr % 4096)
      if c = 0 then (some i, Function.update dst i c)
      else
        copyinstrFill m pagetable srcva n (i + 1) (addr / 4096 * 4096) pa
          (Function.update dst i c)

/-- `vmm_copyinstr` into the buffer `dst`. `max - 1` is unsigned and the count is returned as an
`int`. -/
def vmmCopyinstrTo (m : PhysMem) (pagetable : Nat) (dst : Bytes) (srcva max : Nat) : Int × Bytes :=
  match validatePage m pagetable srcva with
  | none => (-1, dst)
  | some pa =>
    match copyinstrFill m pagetable srcva ((max + ulongMod - 1) % ulongMod) 0
      (srcva / 4096 * 4096) pa dst with
    | (none, dst') => (-1, dst')
    | (some i, dst') => ((BitVec.ofNat 32 i).toInt, dst')

/-! ## What user code may access -/

/-- User code may read the byte at `a`, and write it when `write` is set. -/
def Accessible (m : PhysMem) (pagetable a : Nat) (write : Bool) : Prop :=
  a < userStack ∧ ∃ e, userEntry m pagetable a = some e ∧ pteUser e = true ∧
    (write = true → pteReadOnly e = false)

/-- The copy of at most `n` bytes from `va` needs byte `i`: there is room for it and no byte before it
ends the string. -/
def Needs (m : PhysMem) (pagetable va n i : Nat) : Prop :=
  i < n ∧ ∀ j < i, ∃ c, userByte m pagetable (va + j) = some c ∧ c ≠ 0

/-- `s` is the string at `va` or, when that is longer, its first `n` bytes. -/
structure Prefix (m : PhysMem) (pagetable va n : Nat) (s : List UInt8) : Prop where
  le : s.length ≤ n
  nonzero : 0 ∉ s
  byte : ∀ i < s.length, userByte m pagetable (va + i) = some (s.getD i 0)
  closed : s.length < n → userByte m pagetable (va + s.length) = some 0

/-- `vmm_copyinstr` succeeds when the bytes it needs are readable, it then writes the string with a
zero byte behind it, and it writes nothing from `dst[max]` on. -/
structure CopyinstrRight (m : PhysMem) (pagetable : Nat) (dst : Bytes) (srcva max : Nat) : Prop where
  success : 0 ≤ (vmmCopyinstrTo m pagetable dst srcva max).1 ↔
    ∀ i, Needs m pagetable srcva (max - 1) i → Accessible m pagetable (srcva + i) false
  copied : 0 ≤ (vmmCopyinstrTo m pagetable dst srcva max).1 →
    ∃ s, Prefix m pagetable srcva (max - 1) s ∧ s.length < max ∧
      (vmmCopyinstrTo m pagetable dst srcva max).2 = putBytes dst 0 (s ++ [0])
  within : ∀ i, max ≤ i → (vmmCopyinstrTo m pagetable dst srcva max).2 i = dst i

section

variable {m : PhysMem} {pt va w pa : Nat}

theorem pageNo_congr (h : va / 4096 = w / 4096) : pageNo va = pageNo w := by
  rw [pageNo, pageNo, h]

theorem userByte_isSome : (userByte m pt va).isSome = true ↔ Accessible m pt va false := by
  unfold userByte
  rw [Option.isSome_map, Option.isSome_iff_exists]
  constructor
  · rintro ⟨pa, hpa⟩
    obtain ⟨hlt, e, he, huser, -⟩ := validatePage_eq_some.1 hpa
    exact ⟨hlt, e, he, huser, nofun⟩
  · rintro ⟨hlt, e, he, huser, -⟩
    exact ⟨pteAddr e, validatePage_eq_some.2 ⟨hlt, e, he, huser, rfl⟩⟩

theorem validateEntry_iff {write : Bool} : validateEntry m pt va write = true ↔
    ∃ e, userEntry m pt va = some e ∧ pteUser e = true ∧ (write = true → pteReadOnly e = false) := by
  unfold validateEntry userEntry
  cases walkTables m (tableIndices va) pt with
  | none => simp
  | some t =>
    by_cases hv : pteValid (m.pte t (l3Index va)) = true
    · cases write <;> simp [hv]
    · simp [hv]

end

/-! ## Ranges -/

theorem mem_pagesThrough {start fin page : Nat} :
    page ∈ pagesThrough start fin ↔ ∃ k ≤ (fin - start) / 4096, page = start + 4096 * k := by
  unfold pagesThrough
  rw [mem_map]
  constructor
  · rintro ⟨k, hk, rfl⟩
    exact ⟨k, le_of_lt_succ (mem_range.1 hk), rfl⟩
  · rintro ⟨k, hk, rfl⟩
    exact ⟨k, mem_range.2 (lt_succ_of_le hk), rfl⟩

/-- `vmm_validate` accepts the ranges that user code may access as a whole. -/
theorem vmmValidate_iff {m : PhysMem} {pt va len : Nat} {write : Bool} (hva : va < ulongMod)
    (hlen : len < ulongMod) :
    vmmValidate m pt va len write = 0 ↔ len = 0 ∨ ∀ i < len, Accessible m pt (va + i) write := by
  have hstack : userStack < ulongMod := by decide
  -- a byte at or above the stack top spoils the range
  have hout : ∀ i < len, userStack ≤ va + i → ¬ ∀ i < len, Accessible m pt (va + i) write :=
    fun i hi hge hall => absurd (hall i hi).1 (not_lt.2 hge)
  unfold vmmValidate
  by_cases h0 : len = 0
  · simp [h0]
  by_cases hwrap : (va + len) % ulongMod < va
  · rw [if_pos hwrap]
    have hge : ulongMod ≤ va + len := by
      by_contra hlt
      rw [mod_eq_of_lt (not_le.1 hlt)] at hwrap
      omega
    simpa [h0] using hout (len - 1) (by omega) (by omega)
  have hsum : va + len < ulongMod := by
    by_contra hge
    apply hwrap
    rw [mod_eq_sub_mod (not_lt.1 hge), mod_eq_of_lt (by omega)]
    omega
  rw [if_neg hwrap, mod_eq_of_lt hsum, mod_eq_of_lt (by omega : va + len - 1 < ulongMod)]
  by_cases htop : userStack ≤ va ∨ userStack < va + len
  · rw [if_pos htop]
    simpa [h0] using hout (len - 1) (by omega) (by omega)
  rw [if_neg htop]
  have hpages : ((pagesThrough (va / 4096 * 4096) ((va + len - 1) / 4096 * 4096)).all fun page =>
      validateEntry m pt page write) = true ↔ ∀ i < len, Accessible m pt (va + i) write := by
    rw [all_eq_true]
    constructor
    · intro hall i hi
      have hentry := hall ((va + i) / 4096 * 4096)
        (mem_pagesThrough.2 ⟨(va + i) / 4096 - va / 4096, by omega, by omega⟩)
      obtain ⟨e, he, hrest⟩ := validateEntry_iff.1 hentry
      refine ⟨by omega, e, ?_, hrest⟩
      rwa [userEntry_pageNo (pageNo_congr (w := va + i) (by omega))] at he
    intro hall page hmem
    obtain ⟨k, hk, rfl⟩ := mem_pagesThrough.1 hmem
    -- the first byte of the range in this page
    obtain ⟨i, hi, hsame⟩ : ∃ i < len, (va + i) / 4096 = (va / 4096 * 4096 + 4096 * k) / 4096 :=
      ⟨va / 4096 * 4096 + 4096 * k - va, by omega, by omega⟩
    obtain ⟨-, e, he, hrest⟩ := hall i hi
    exact validateEntry_iff.2 ⟨e, (userEntry_pageNo (pageNo_congr hsame)).symm.trans he, hrest⟩
  dsimp only
  generalize ((pagesThrough (va / 4096 * 4096) ((va + len - 1) / 4096 * 4096)).all fun page =>
    validateEntry m pt page write) = ok at hpages ⊢
  cases ok with
  | true => simpa [h0] using hpages.1 rfl
  | false =>
    simpa [h0] using hpages

/-! ## Strings -/

section

variable {m : PhysMem} {pt va srcva n i page pa : Nat} {s : List UInt8} {dst : Bytes}

theorem prefix_zero : Prefix m pt va 0 s ↔ s = [] := by
  constructor
  · exact fun h => length_eq_zero_iff.1 (le_zero.1 h.le)
  · rintro rfl
    exact ⟨le_refl 0, not_mem_nil, nofun, nofun⟩

theorem prefix_succ : Prefix m pt va (n + 1) s ↔ ∃ c, userByte m pt va = some c ∧
    (c = 0 ∧ s = [] ∨ c ≠ 0 ∧ ∃ s', s = c :: s' ∧ Prefix m pt (va + 1) n s') := by
  constructor
  · intro h
    cases s with
    | nil => exact ⟨0, h.closed (succ_pos n), Or.inl ⟨rfl, rfl⟩⟩
    | cons c s =>
      have hne : c ≠ 0 := fun e => h.nonzero (e ▸ mem_cons_self)
      refine ⟨c, h.byte 0 (succ_pos _), Or.inr ⟨hne, s, rfl, ?_⟩⟩
      refine ⟨le_of_succ_le_succ h.le, fun hs => h.nonzero (mem_cons_of_mem c hs), ?_, ?_⟩
      · intro i hi
        have hbyte := h.byte (i + 1) (succ_lt_succ hi)
        rwa [getD_cons_succ, add_comm i 1, ← add_assoc] at hbyte
      · intro hlt
        have hclosed := h.closed (succ_lt_succ hlt)
        rwa [length_cons, add_comm s.length 1, ← add_assoc] at hclosed
  rintro ⟨c, hc, ⟨rfl, rfl⟩ | ⟨hne, s, rfl, h⟩⟩
  · exact ⟨zero_le _, not_mem_nil, nofun, fun _ => hc⟩
  refine ⟨succ_le_succ h.le, ?_, fun i hi => ?_, fun hlt => ?_⟩
  · rw [mem_cons]
    rintro (e | hs)
    · exact hne e.symm
    · exact h.nonzero hs
  · cases i with
    | zero => exact hc
    | succ i =>
      have hbyte := h.byte i (lt_of_succ_lt_succ hi)
      rwa [getD_cons_succ, add_comm i 1, ← add_assoc]
  · have hclosed := h.closed (lt_of_succ_lt_succ hlt)
    rwa [length_cons, add_comm s.length 1, ← add_assoc]

/-- There is a string to copy when the bytes that the copy needs are readable. -/
theorem prefixed_iff : (∃ s, Prefix m pt va n s) ↔
    ∀ i, Needs m pt va n i → Accessible m pt (va + i) false := by
  induction n generalizing va with
  | zero => exact ⟨fun _ i hi => absurd hi.1 (not_lt_zero i), fun _ => ⟨[], prefix_zero.2 rfl⟩⟩
  | succ n ih =>
    constructor
    · rintro ⟨s, hs⟩ i hi
      obtain ⟨c, hc, hcases⟩ := prefix_succ.1 hs
      cases i with
      | zero => exact userByte_isSome.1 (by simp [hc])
      | succ i =>
        obtain ⟨c', hc', hne⟩ := hi.2 0 (succ_pos i)
        rcases hcases with ⟨rfl, -⟩ | ⟨-, s', -, hs'⟩
        · exact absurd (Option.some.inj (hc.symm.trans hc')).symm hne
        rw [add_comm i 1, ← add_assoc]
        refine ih.1 ⟨s', hs'⟩ i ⟨lt_of_succ_lt_succ hi.1, fun j hj => ?_⟩
        have hbyte := hi.2 (j + 1) (succ_lt_succ hj)
        rwa [add_comm j 1, ← add_assoc] at hbyte
    intro hall
    have hfirst := userByte_isSome.2 (hall 0 ⟨succ_pos n, nofun⟩)
    obtain ⟨c, hc⟩ := Option.isSome_iff_exists.1 hfirst
    by_cases hne : c = 0
    · exact ⟨[], prefix_succ.2 ⟨c, hc, Or.inl ⟨hne, rfl⟩⟩⟩
    obtain ⟨s, hs⟩ := (@ih (va + 1)).2 fun i hi => by
      have hbyte := hall (i + 1) ⟨succ_lt_succ hi.1, fun j hj => ?_⟩
      · rwa [add_comm i 1, ← add_assoc] at hbyte
      cases j with
      | zero => exact ⟨c, hc, hne⟩
      | succ j =>
        rw [add_comm j 1, ← add_assoc]
        exact hi.2 j (lt_of_succ_lt_succ hj)
    exact ⟨c :: s, prefix_succ.2 ⟨c, hc, Or.inr ⟨hne, s, rfl, hs⟩⟩⟩

theorem copyinstrLoop_iff (hpage : ∀ a, a / 4096 * 4096 = page → validatePage m pt a = some pa)
    (hlt : srcva + i < ulongMod) :
    copyinstrLoop m pt srcva n i page pa = some s ↔ Prefix m pt (srcva + i) n s := by
  induction n generalizing i page pa s with
  | zero =>
    rw [prefix_zero]
    exact ⟨fun h => (Option.some.inj h).symm, fun h => h ▸ rfl⟩
  | succ n ih =>
    have hcur : (if (srcva + i) / 4096 * 4096 = page then some pa
        else validatePage m pt (srcva + i)) = validatePage m pt (srcva + i) := by
      split
      · rename_i hp
        exact (hpage _ hp).symm
      · rfl
    rw [copyinstrLoop, prefix_succ]
    rw [mod_eq_of_lt hlt, hcur]
    cases hval : validatePage m pt (srcva + i) with
    | none => simp [userByte, hval]
    | some pa' =>
      have hbyte : userByte m pt (srcva + i) = some (m.page pa' ((srcva + i) % 4096)) := by
        rw [userByte, hval]
        rfl
      have hnext : ∀ a, a / 4096 * 4096 = (srcva + i) / 4096 * 4096 →
          validatePage m pt a = some pa' := by
        intro a ha
        rw [validatePage_page (w := srcva + i) (by omega), hval]
      have hlt' : srcva + (i + 1) < ulongMod := by
        have hstack := (validatePage_eq_some.1 hval).1
        unfold userStack ulongMod at *
        omega
      simp only [hbyte, Option.some.injEq, exists_eq_left']
      by_cases hzero : m.page pa' ((srcva + i) % 4096) = 0
      · simp [hzero, eq_comm]
      rw [if_neg hzero, Option.map_eq_some_iff]
      simp only [ih hnext hlt', hzero, false_and, false_or, ne_eq, not_false_eq_true, true_and, add_assoc]
      exact exists_congr fun s' => ⟨fun h => ⟨h.2.symm, h.1⟩, fun h => ⟨h.2, h.1.symm⟩⟩

theorem putBytes_zero (dst : Bytes) (i : Nat) : putBytes dst i [0] = update dst i 0 := by
  funext k
  unfold putBytes
  by_cases hk : k = i
  · subst hk
    simp
  · rw [update_of_ne hk, if_neg (by simp only [length_singleton]; omega)]

theorem putBytes_cons (dst : Bytes) (i : Nat) (c : UInt8) (s : List UInt8) :
    putBytes (update dst i c) (i + 1) s = putBytes dst i (c :: s) := by
  funext k
  unfold putBytes
  rw [length_cons]
  by_cases hk : k = i
  · subst hk
    simp
  rw [update_of_ne hk]
  by_cases hin : i + 1 ≤ k ∧ k < i + 1 + s.length
  · rw [if_pos hin, if_pos (by omega), show k - i = (k - (i + 1)) + 1 by omega, getD_cons_succ]
  · rw [if_neg hin, if_neg (by omega)]

/-- The buffer of `vmm_copyinstr` gets the string that its loop reads. -/
theorem copyinstrFill_fst :
    (copyinstrFill m pt srcva n i page pa dst).1 =
      (copyinstrLoop m pt srcva n i page pa).map fun s => i + s.length := by
  induction n generalizing i page pa dst with
  | zero => rfl
  | succ n ih =>
    rw [copyinstrFill, copyinstrLoop]
    generalize (if (srcva + i) % ulongMod / 4096 * 4096 = page then some pa
      else validatePage m pt ((srcva + i) % ulongMod)) = cur
    cases cur with
    | none => rfl
    | some pa' =>
      dsimp only
      split
      · rfl
      rw [ih, Option.map_map]
      congr 1
      funext s
      exact add_right_comm i 1 s.length

theorem copyinstrFill_snd (h : copyinstrLoop m pt srcva n i page pa = some s) :
    (copyinstrFill m pt srcva n i page pa dst).2 = putBytes dst i (s ++ [0]) := by
  induction n generalizing i page pa s dst with
  | zero =>
    cases h
    exact (putBytes_zero dst i).symm
  | succ n ih =>
    rw [copyinstrLoop] at h
    rw [copyinstrFill]
    rcases hcur : (if (srcva + i) % ulongMod / 4096 * 4096 = page then some pa
        else validatePage m pt ((srcva + i) % ulongMod)) with _ | pa'
    · simp [hcur] at h
    simp only [hcur] at h ⊢
    split at h
    · rename_i hzero
      cases h
      rw [if_pos hzero, hzero]
      exact (putBytes_zero dst i).symm
    rename_i hne
    obtain ⟨s', hs', rfl⟩ := Option.map_eq_some_iff.1 h
    rw [if_neg hne, ih hs', putBytes_cons]
    rfl

/-- Nothing is written below the place reached and beyond the room left. -/
theorem copyinstrFill_within {k : Nat} (hk : k < i ∨ i + n < k) :
    (copyinstrFill m pt srcva n i page pa dst).2 k = dst k := by
  induction n generalizing i page pa dst with
  | zero => exact update_of_ne (by omega) _ _
  | succ n ih =>
    rw [copyinstrFill]
    dsimp only
    split
    · rfl
    · split
      · exact update_of_ne (by omega) _ _
      · rw [ih (by omega), update_of_ne (by omega)]

/-! ## Both checks -/

variable {max : Nat}

theorem vmmCopyinstrTo_unreadable (h : validatePage m pt srcva = none) :
    vmmCopyinstrTo m pt dst srcva max = (-1, dst) := by
  unfold vmmCopyinstrTo
  rw [h]

theorem vmmCopyinstrTo_readable (h : validatePage m pt srcva = some pa)
    (hroom : (max + ulongMod - 1) % ulongMod = n) :
    vmmCopyinstrTo m pt dst srcva max =
      (match copyinstrLoop m pt srcva n 0 (srcva / 4096 * 4096) pa with
        | none => -1
        | some s => (BitVec.ofNat 32 s.length).toInt,
      (copyinstrFill m pt srcva n 0 (srcva / 4096 * 4096) pa dst).2) := by
  have hcount : (copyinstrFill m pt srcva n 0 (srcva / 4096 * 4096) pa dst).1 = _ := copyinstrFill_fst
  unfold vmmCopyinstrTo
  rewrite [hroom, h]
  dsimp only
  rcases hfill : copyinstrFill m pt srcva n 0 (srcva / 4096 * 4096) pa dst with ⟨_ | k, dst'⟩ <;>
    rw [hfill] at hcount
  · rw [Option.map_eq_none_iff.1 hcount.symm]
  · obtain ⟨s, hs, hk⟩ := Option.map_eq_some_iff.1 hcount.symm
    rw [hs, ← hk, zero_add]

theorem room_of_pos (hpos : 1 ≤ max) (hmax : max < ulongMod) :
    (max + ulongMod - 1) % ulongMod = max - 1 := by
  rw [show max + ulongMod - 1 = max - 1 + ulongMod by omega, add_mod_right,
    mod_eq_of_lt (by omega)]

/-- The loop that starts behind a check of the first page finds the string. -/
theorem copyinstrLoop_first (h : validatePage m pt srcva = some pa) :
    copyinstrLoop m pt srcva n 0 (srcva / 4096 * 4096) pa = some s ↔ Prefix m pt srcva n s := by
  have hstack := (validatePage_eq_some.1 h).1
  refine copyinstrLoop_iff (fun a ha => ?_) ?_
  · rw [validatePage_page (w := srcva) (by omega), h]
  · unfold userStack ulongMod at *
    omega

theorem zero_le_toInt_ofNat (k : Nat) : 0 ≤ (BitVec.ofNat 32 k).toInt ↔ k % 2 ^ 32 < 2 ^ 31 := by
  rw [BitVec.toInt_eq_toNat_cond, BitVec.toNat_ofNat]
  split <;> omega

/-- `vmm_copyinstr` does what it should unless the buffer has no byte, or has one and the page of the
string is unreadable, or the count turns negative as an `int`. -/
theorem copyinstr_iff (hmax : max < ulongMod) :
    CopyinstrRight m pt dst srcva max ↔ 1 ≤ max ∧ (max = 1 → Accessible m pt srcva false) ∧
      ∀ s, Prefix m pt srcva (max - 1) s → s.length % 2 ^ 32 < 2 ^ 31 := by
  have hfirst : 2 ≤ max → (∀ i, Needs m pt srcva (max - 1) i → Accessible m pt (srcva + i) false) →
      Accessible m pt srcva false := fun h2 hall => hall 0 ⟨by omega, nofun⟩
  have hfail : ¬ (0 : Int) ≤ -1 := by decide
  constructor
  · intro hr
    -- with no room at all there is nothing to need, and no string fits
    have hpos : 1 ≤ max := by
      by_contra h0
      obtain ⟨s, -, hlt, -⟩ := hr.copied (hr.success.2 fun i hi => absurd hi.1 (by omega))
      omega
    have hread : 0 ≤ (vmmCopyinstrTo m pt dst srcva max).1 → ∃ pa, validatePage m pt srcva = some pa := by
      intro hret
      cases hval : validatePage m pt srcva with
      | none =>
        rw [vmmCopyinstrTo_unreadable hval] at hret
        exact absurd hret hfail
      | some pa => exact ⟨pa, rfl⟩
    refine ⟨hpos, fun h1 => ?_, fun s hs => ?_⟩
    · obtain ⟨pa, hpa⟩ := hread (hr.success.2 fun i hi => absurd hi.1 (by omega))
      exact userByte_isSome.1 (by simp [userByte, hpa])
    have hret := hr.success.2 (prefixed_iff.1 ⟨s, hs⟩)
    obtain ⟨pa, hpa⟩ := hread hret
    rw [vmmCopyinstrTo_readable hpa (room_of_pos hpos hmax), (copyinstrLoop_first hpa).2 hs] at hret
    exact (zero_le_toInt_ofNat _).1 hret
  rintro ⟨hpos, hone, hcount⟩
  cases hval : validatePage m pt srcva with
  | none =>
    have hbad : ¬ Accessible m pt srcva false := fun h => by
      have hsome := userByte_isSome.2 h
      simp [userByte, hval] at hsome
    have hsmall : max ≠ 1 := fun h => hbad (hone h)
    have hret : ¬ 0 ≤ (vmmCopyinstrTo m pt dst srcva max).1 := by
      rw [vmmCopyinstrTo_unreadable hval]
      exact hfail
    refine ⟨⟨fun h => absurd h hret, fun h => absurd (hfirst (by omega) h) hbad⟩,
      fun h => absurd h hret, fun i _ => ?_⟩
    rw [vmmCopyinstrTo_unreadable hval]
  | some pa =>
    have heq : vmmCopyinstrTo m pt dst srcva max = _ :=
      vmmCopyinstrTo_readable hval (room_of_pos hpos hmax)
    have hwithin : ∀ i, max ≤ i → (vmmCopyinstrTo m pt dst srcva max).2 i = dst i := by
      intro i hi
      rw [heq]
      exact copyinstrFill_within (by omega)
    cases hloop : copyinstrLoop m pt srcva (max - 1) 0 (srcva / 4096 * 4096) pa with
    | none =>
      have hret : ¬ 0 ≤ (vmmCopyinstrTo m pt dst srcva max).1 := by
        rw [heq, hloop]
        exact hfail
      refine ⟨⟨fun h => absurd h hret, fun h => ?_⟩, fun h => absurd h hret, hwithin⟩
      obtain ⟨s, hs⟩ := prefixed_iff.2 h
      rw [(copyinstrLoop_first hval).2 hs] at hloop
      cases hloop
    | some s =>
      have hs := (copyinstrLoop_first hval).1 hloop
      have hret : 0 ≤ (vmmCopyinstrTo m pt dst srcva max).1 := by
        rw [heq, hloop]
        exact (zero_le_toInt_ofNat _).2 (hcount s hs)
      refine ⟨⟨fun _ => prefixed_iff.1 ⟨s, hs⟩, fun _ => hret⟩, fun _ => ⟨s, hs, ?_, ?_⟩, hwithin⟩
      · have hle := hs.le
        omega
      · rw [heq]
        exact copyinstrFill_snd hloop

/-- User pointers are checked exactly. -/
theorem user_access_exact {va len : Nat} {write : Bool} (hva : va < ulongMod) (hlen : len < ulongMod)
    (hmax : max < ulongMod) :
    (vmmValidate m pt va len write = 0 ↔ len = 0 ∨ ∀ i < len, Accessible m pt (va + i) write) ∧
      (CopyinstrRight m pt dst srcva max ↔ 1 ≤ max ∧ (max = 1 → Accessible m pt srcva false) ∧
        ∀ s, Prefix m pt srcva (max - 1) s → s.length % 2 ^ 32 < 2 ^ 31) :=
  ⟨vmmValidate_iff hva hlen, copyinstr_iff hmax⟩

end

/-- A memory with the string "/a" in a page mapped at 0. -/
def pathSpace : PhysMem :=
  let free := [ramBase + 0x1000, ramBase + 0x2000, ramBase + 0x3000, ramBase + 0x4000]
  (newPage ⟨fun _ _ => 0, free⟩ ramBase 0 true false).2.setPage (ramBase + 0x1000)
    (putBytes (fun _ => 0) 0 [47, 97])

theorem pathSpace_page : validatePage pathSpace ramBase 0 = some (ramBase + 0x1000) := by
  decide +kernel

/-- Two bytes of that page, and the copy of the path into a buffer of 128 bytes. -/
theorem user_access_exact_path :
    (vmmValidate pathSpace ramBase 0 2 true = 0 ↔
      2 = 0 ∨ ∀ i < 2, Accessible pathSpace ramBase (0 + i) true) ∧
      CopyinstrRight pathSpace ramBase (fun _ => 0) 0 128 := by
  have h : (vmmValidate pathSpace ramBase 0 2 true = 0 ↔ _) ∧
      (CopyinstrRight pathSpace ramBase (fun _ => 0) 0 128 ↔ _) :=
    user_access_exact (show 0 < ulongMod by decide) (show 2 < ulongMod by decide) (by decide)
  refine ⟨h.1, h.2.2 ⟨by decide, fun e => absurd e (by decide), fun s hs => ?_⟩⟩
  have hle := hs.le
  omega

/-- With `max` 0 the bound `max - 1` wraps, and the string goes into a buffer that has no byte. -/
theorem copyinstr_overruns :
    (vmmCopyinstrTo pathSpace ramBase (fun _ => 0) 0 0).1 = 2 ∧
      (vmmCopyinstrTo pathSpace ramBase (fun _ => 0) 0 0).2 0 = 47 ∧
      ¬ CopyinstrRight pathSpace ramBase (fun _ => 0) 0 0 := by
  obtain ⟨n, hroom⟩ : ∃ n, (0 + ulongMod - 1) % ulongMod = n := ⟨_, rfl⟩
  have hn : 2 < n := by
    rw [← hroom]
    decide
  have hpath : Prefix pathSpace ramBase 0 n [47, 97] := by
    refine ⟨by simp only [length_cons, length_nil]; omega, by decide, ?_, fun _ => ?_⟩
    · decide +kernel
    · decide +kernel
  have hloop := (copyinstrLoop_first pathSpace_page).2 hpath
  have hrun : vmmCopyinstrTo pathSpace ramBase (fun _ => 0) 0 0 = _ :=
    vmmCopyinstrTo_readable pathSpace_page hroom
  have hfirst : (vmmCopyinstrTo pathSpace ramBase (fun _ => 0) 0 0).2 0 = 47 := by
    rw [hrun]
    rw [copyinstrFill_snd hloop]
    rfl
  refine ⟨?_, hfirst, fun hr => ?_⟩
  · rw [hrun, hloop]
    rfl
  · have hwithin := hr.within 0 (Nat.le_refl 0)
    rw [hfirst] at hwithin
    exact absurd hwithin (by decide)

end Slopix.Kernel
