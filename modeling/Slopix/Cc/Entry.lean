import Slopix.Cc.Call

/-!
# The entry of a function

What a function writes before its body: the frame record, the parameters that are in registers, and for a
variadic function the argument registers and its `va_list`. All of it is one list of writes to the memory.
-/

namespace Slopix.Cc

open Function List

/-! ## Writes -/

/-- Bytes of a value at an address. -/
structure Write where
  addr : Int
  size : Nat
  val : BitVec 64

/-- Writes in order. -/
def Mem.puts (mem : Mem) (ws : List Write) : Mem := ws.foldl (fun mem w => mem.put w.addr w.size w.val) mem

/-- Two writes to different addresses. -/
def Write.Apart (w w' : Write) : Prop := w.addr + w.size ≤ w'.addr ∨ w'.addr + w'.size ≤ w.addr

section

variable {mem : Mem} {ws ws' : List Write} {w : Write} {b : Int}

theorem Mem.puts_append : mem.puts (ws ++ ws') = (mem.puts ws).puts ws' := foldl_append

theorem Mem.puts_of_not (h : ∀ w ∈ ws, ¬ (w.addr ≤ b ∧ b < w.addr + w.size)) : mem.puts ws b = mem b := by
  induction ws generalizing mem with
  | nil => rfl
  | cons w ws ih =>
    show (mem.put w.addr w.size w.val).puts ws b = mem b
    rw [ih fun w' hw' => h w' (mem_cons_of_mem _ hw')]
    exact Mem.put_of_not (h w mem_cons_self)

theorem Mem.holds_puts (h : ws.Pairwise Write.Apart) (hw : w ∈ ws) : (mem.puts ws).Holds w.addr w.size w.val := by
  induction ws generalizing mem with
  | nil => cases hw
  | cons w0 ws ih =>
    rw [pairwise_cons] at h
    rcases mem_cons.1 hw with rfl | hw
    · refine (Mem.holds_put mem w.addr w.size w.val).keep fun b hlo hhi => ?_
      show (mem.put w.addr w.size w.val).puts ws b = _
      refine Mem.puts_of_not fun w' hw' => ?_
      rcases h.1 w' hw' with hle | hle <;> omega
    · exact ih h.2 hw

end

/-! ## Stores to the frame -/

/-- The code of a function may write anywhere in its frame. -/
def anywhere : Mach → Int → Prop := fun _ _ => False

/-- A state with the frame pointer, the saved registers and the stack of another one; the scratch registers
may differ, and the memory has the writes. -/
structure Wrote (m : Mach) (ws : List Write) (m' : Mach) : Prop where
  sp : m'.sp = m.sp
  x : ∀ r, r ≠ 9 → r ≠ 10 → m'.x r = m.x r
  d : m'.d = m.d
  mem : m'.mem = m.mem.puts ws

section

variable {m m1 m' : Mach} {B off : Int} {ws ws' : List Write} {is : List Insn} {r size : Nat} {Q : Mach → Prop}

theorem Wrote.trans (h : Wrote m ws m1) (h' : Wrote m1 ws' m') : Wrote m (ws ++ ws') m' where
  sp := h'.sp.trans h.sp
  x r h9 h10 := (h'.x r h9 h10).trans (h.x r h9 h10)
  d := h'.d.trans h.d
  mem := by rw [h'.mem, h.mem, Mem.puts_append]

theorem Wrote.refl (m : Mach) : Wrote m [] m := ⟨rfl, fun _ _ _ => rfl, rfl, rfl⟩

theorem toNat_addr (hlo : 0 ≤ B + off) (hhi : B + off < 2 ^ 64) :
    ((BitVec.ofInt 64 B + BitVec.ofInt 64 off).toNat : Int) = B + off := by
  rw [← BitVec.ofInt_add, BitVec.toNat_ofInt]
  have hmod : (B + off) % (2 ^ 64 : Nat) = B + off := Int.emod_eq_of_lt hlo (by exact_mod_cast hhi)
  rw [hmod]
  exact Int.toNat_of_nonneg hlo

theorem wp_localAddr (hr : r ≠ 29) (hr' : r ≠ 31) (hfp : m.x 29 = BitVec.ofInt 64 B) (hlo : -2 ^ 31 < off)
    (hhi : off < 2 ^ 31) (h : ∀ pc, Q { m with pc := pc, x := update m.x r (BitVec.ofInt 64 (B + off)) }) :
    Wp anywhere (localAddr r off) Q m := by
  have hreg : m.reg 29 = BitVec.ofInt 64 B := hfp
  have hsub : BitVec.ofInt 64 B - BitVec.ofInt 64 (-off) = BitVec.ofInt 64 (B + off) := by
    rw [BitVec.ofInt_neg, BitVec.sub_neg, ← BitVec.ofInt_add]
  unfold localAddr
  split
  · intro m1 hdoes
    rw [hdoes.value_eq ⟨rfl, rfl⟩ rfl, hreg, ← BitVec.ofInt_add]
    exact h _
  split
  · intro m1 hdoes
    rw [hdoes.value_eq ⟨rfl, rfl⟩ rfl, hreg, hsub]
    exact h _
  split
  · obtain ⟨n, rfl⟩ := Int.eq_ofNat_of_zero_le (by assumption : 0 ≤ off)
    refine Wp.append (wp_loadConst hr' (by omega) fun pc m1 hdoes => ?_)
    rw [hdoes.value_eq ⟨rfl, rfl⟩ rfl]
    simp only [Mach.reg, if_neg hr', update_self, update_of_ne (Ne.symm hr),
      update_idem, if_neg (show ¬ 29 = 31 by decide), hfp]
    have hadd : BitVec.ofInt 64 B + BitVec.ofNat 64 n = BitVec.ofInt 64 (B + n) := by
      rw [BitVec.ofInt_add, BitVec.ofInt_natCast]
    rw [hadd]
    exact h _
  obtain ⟨n, hn⟩ := Int.eq_ofNat_of_zero_le (show 0 ≤ -off by omega)
  rw [hn]
  refine Wp.append (wp_loadConst hr' (by omega) fun pc m1 hdoes => ?_)
  rw [hdoes.value_eq ⟨rfl, rfl⟩ rfl]
  simp only [Mach.reg, if_neg hr', update_self, update_of_ne (Ne.symm hr),
    update_idem, if_neg (show ¬ 29 = 31 by decide), hfp]
  have hval : BitVec.ofInt 64 B - BitVec.ofNat 64 n = BitVec.ofInt 64 (B + off) := by
    rw [← hsub, hn, BitVec.ofInt_natCast]
  rw [hval]
  exact h _

/-- The bytes that `store_gp` writes for a type of this size. -/
def gpBytes (size : Nat) : Nat := if size = 1 then 1 else if size = 2 then 2 else if size = 4 then 4 else 8

/-- The bytes that `store_fp` writes. -/
def fpBytes (size : Nat) : Nat := if size = 4 then 4 else 8

/-- An address that the frame may have. -/
structure InFrame (B off : Int) : Prop where
  lo : -2 ^ 31 < off
  hi : off < 2 ^ 31
  nonneg : 0 ≤ B + off
  fits : B + off < 2 ^ 64

theorem InFrame.toNat_x9 {pc : Nat} (h : InFrame B off) :
    ((Mach.reg { m with pc := pc, x := update m.x 9 (BitVec.ofInt 64 (B + off)) } 9 +
      BitVec.ofInt 64 0).toNat : Int) = B + off := by
  have hzero := @toNat_addr (B + off) 0 (by simpa using h.nonneg) (by simpa using h.fits)
  simpa [Mach.reg] using hzero

theorem wp_storeGp (hr : r < 8) (hfp : m.x 29 = BitVec.ofInt 64 B) (hoff : InFrame B off) :
    Wp anywhere (storeGp r off size) (Wrote m [⟨B + off, gpBytes size, m.x r⟩]) m := by
  have hsize : (if size = 1 then StoreOp.strb else if size = 2 then .strh else
      if size = 4 then .strW else .strX).size = gpBytes size := by
    unfold gpBytes
    repeat' split
    all_goals rfl
  have hreg : m.reg r = m.x r := if_neg (by omega)
  unfold storeGp
  dsimp only
  split
  · intro m1 hdoes
    cases hdoes with
    | set hset _ => cases hset.1
    | @store _ _ _ _ a _ ha _ =>
      have haddr : a = B + off := by
        rw [ha, show m.reg 29 = BitVec.ofInt 64 B from hfp, toNat_addr hoff.nonneg hoff.fits]
      rw [haddr, hsize, hreg]
      exact ⟨rfl, fun _ _ _ => rfl, rfl, rfl⟩
  refine Wp.append (wp_localAddr (by decide) (by decide) hfp hoff.lo hoff.hi fun pc m1 hdoes => ?_)
  cases hdoes with
  | set hset _ => cases hset.1
  | @store _ _ _ _ a _ ha _ =>
    have haddr : a = B + off := by rw [ha, hoff.toNat_x9]
    have hval : Mach.reg { m with pc := pc, x := update m.x 9 (BitVec.ofInt 64 (B + off)) } r = m.x r := by
      simp [Mach.reg, show r ≠ 31 by omega, show r ≠ 9 by omega]
    rw [haddr, hsize, hval]
    exact ⟨rfl, fun q h9 _ => update_of_ne h9 _ _, rfl, rfl⟩

theorem wp_storeFp (hfp : m.x 29 = BitVec.ofInt 64 B) (hoff : InFrame B off) :
    Wp anywhere (storeFp r off size) (Wrote m [⟨B + off, fpBytes size, m.d r⟩]) m := by
  have hsize : (if size = 4 then Prec.s else .d).size = fpBytes size := by
    unfold fpBytes
    split <;> rfl
  unfold storeFp
  dsimp only
  split
  · intro m1 hdoes
    cases hdoes with
    | set hset _ => cases hset.1
    | fp hne => exact absurd rfl (hne _ _ _ _)
    | @storef _ _ _ _ a _ ha _ =>
      have haddr : a = B + off := by
        rw [ha, show m.reg 29 = BitVec.ofInt 64 B from hfp, toNat_addr hoff.nonneg hoff.fits]
      rw [haddr, hsize]
      exact ⟨rfl, fun _ _ _ => rfl, rfl, rfl⟩
  refine Wp.append (wp_localAddr (by decide) (by decide) hfp hoff.lo hoff.hi fun pc m1 hdoes => ?_)
  cases hdoes with
  | set hset _ => cases hset.1
  | fp hne => exact absurd rfl (hne _ _ _ _)
  | @storef _ _ _ _ a _ ha _ =>
    have haddr : a = B + off := by rw [ha, hoff.toNat_x9]
    rw [haddr, hsize]
    exact ⟨rfl, fun q h9 _ => update_of_ne h9 _ _, rfl, rfl⟩

/-- Lines that write to the frame at `B`, values that they take from argument registers. -/
structure Writes (B : Int) (is : List Insn) (f : Mach → List Write) : Prop where
  wp : ∀ m, m.x 29 = BitVec.ofInt 64 B → Wp anywhere is (Wrote m (f m)) m
  same : ∀ m m' : Mach, (∀ r, r < 8 → m'.x r = m.x r) → m'.d = m.d → f m' = f m

theorem Writes.nil : Writes B [] fun _ => [] := ⟨fun m _ => Wrote.refl m, fun _ _ _ _ => rfl⟩

theorem Writes.append {is' : List Insn} {f f' : Mach → List Write} (h : Writes B is f) (h' : Writes B is' f') :
    Writes B (is ++ is') fun m => f m ++ f' m where
  wp m hm := by
    refine Wp.append ((h.wp m hm).mono fun m1 hw => ?_)
    have hm1 : m1.x 29 = BitVec.ofInt 64 B := (hw.x 29 (by decide) (by decide)).trans hm
    refine (h'.wp m1 hm1).mono fun m2 hw' => ?_
    rw [h'.same m m1 (fun r hr => hw.x r (by omega) (by omega)) hw.d] at hw'
    exact hw.trans hw'
  same m m' hx hd := by rw [h.same m m' hx hd, h'.same m m' hx hd]

theorem writes_storeGp (hr : r < 8) (hoff : InFrame B off) :
    Writes B (storeGp r off size) fun m => [⟨B + off, gpBytes size, m.x r⟩] :=
  ⟨fun _ hm => wp_storeGp hr hm hoff, fun m m' hx _ => by rw [hx r hr]⟩

theorem writes_storeFp (hoff : InFrame B off) :
    Writes B (storeFp r off size) fun m => [⟨B + off, fpBytes size, m.d r⟩] :=
  ⟨fun _ hm => wp_storeFp hm hoff, fun m m' _ hd => by rw [hd]⟩

/-- Stores one behind the other write their bytes in that order. -/
theorem Writes.flatMap {f : Nat → List Insn} {g : Nat → Mach → Write} (ks : List Nat)
    (h : ∀ i ∈ ks, Writes B (f i) fun m => [g i m]) :
    Writes B (ks.flatMap f) fun m => ks.map (g · m) := by
  induction ks with
  | nil => exact .nil
  | cons k ks ih =>
    exact (h k mem_cons_self).append (ih fun i hi => h i (mem_cons_of_mem _ hi))

theorem wp_store10 {op : StoreOp} (hfp : m.x 29 = BitVec.ofInt 64 B) (hoff : InFrame B off) :
    Wp anywhere (localAddr 9 off ++ [.store op 10 9 0]) (Wrote m [⟨B + off, op.size, m.x 10⟩]) m := by
  refine Wp.append (wp_localAddr (by decide) (by decide) hfp hoff.lo hoff.hi fun pc m1 hdoes => ?_)
  cases hdoes with
  | set hset _ => cases hset.1
  | @store _ _ _ _ a _ ha _ =>
    have haddr : a = B + off := by rw [ha, hoff.toNat_x9]
    have hval : Mach.reg { m with pc := pc, x := update m.x 9 (BitVec.ofInt 64 (B + off)) } 10 = m.x 10 := by
      simp [Mach.reg]
    rw [haddr, hval]
    exact ⟨rfl, fun q h9 _ => update_of_ne h9 _ _, rfl, rfl⟩

theorem writes_store10 {i : Insn} {op : StoreOp} {v : BitVec 64} (hset : i.Sets 10)
    (hval : ∀ m : Mach, m.x 29 = BitVec.ofInt 64 B → i.value m = some v) (hoff : InFrame B off) :
    Writes B ([i] ++ (localAddr 9 off ++ [.store op 10 9 0])) fun _ => [⟨B + off, op.size, v⟩] where
  wp m hm := by
    intro m1 hdoes
    rw [hdoes.value_eq hset (hval m hm)]
    refine (wp_store10 (by simpa using hm) hoff).mono fun m2 hw => ?_
    have hw10 := hw.mem
    refine ⟨hw.sp, fun r h9 h10 => ?_, hw.d, hw10⟩
    rw [hw.x r h9 h10]
    exact update_of_ne h10 _ _
  same _ _ _ _ := rfl

theorem writes_storeVaPtr {target : Int} (htarget : InFrame B target) (hoff : InFrame B off) :
    Writes B (Fn.storeVaPtr target off) fun _ => [⟨B + off, 8, BitVec.ofInt 64 (B + target)⟩] where
  wp m hm := by
    unfold Fn.storeVaPtr
    rw [append_assoc, append_assoc]
    refine Wp.append (wp_localAddr (by decide) (by decide) hm htarget.lo htarget.hi fun pc m1 hdoes => ?_)
    rw [hdoes.value_eq ⟨rfl, rfl⟩ rfl]
    refine (wp_store10 (by simpa using hm) hoff).mono fun m2 hw => ?_
    have hw10 := hw.mem
    refine ⟨hw.sp, fun r h9 h10 => ?_, hw.d, hw10⟩
    rw [hw.x r h9 h10]
    exact (update_of_ne h10 _ _).trans (update_of_ne h9 _ _)
  same _ _ _ _ := rfl

end

/-! ## The writes of a function -/

namespace Fn

variable (fn : Fn) (B : Int)

/-- The write of a parameter that is in a register. -/
def placeWrite (m : Mach) : Nat × Place → Option Write
  | (i, .reg n) => some ⟨B + fn.offset i, gpBytes (fn.varTy i).size, m.x n⟩
  | (i, .freg n) => some ⟨B + fn.offset i, fpBytes (fn.varTy i).size, m.d n⟩
  | (_, .slot _) => none

/-- The writes of the parameters, with the counters of the arguments before them. -/
def paramWrites (ps : List Nat) (gp fp st : Nat) (m : Mach) : List Write :=
  (ps.zip (places (ps.map fn.varTy) gp fp st)).filterMap (fn.placeWrite B m)

/-- What the prologue of a variadic function stores: the argument registers and the fields of `va_area`. -/
def vaWrites (area : Nat) (m : Mach) : List Write :=
  (List.range 8).map (fun i : Nat => ⟨B + (fn.offset area + 32 + i * 16), 8, m.d i⟩) ++
    (List.range 8).map (fun i : Nat => ⟨B + (fn.offset area + 32 + 128 + i * 8), 8, m.x i⟩) ++
    [⟨B + fn.offset area, 8, BitVec.ofInt 64 (B + 16)⟩] ++
    [⟨B + (fn.offset area + 8), 8, BitVec.ofInt 64 (B + (fn.offset area + 32 + 128 + 64))⟩] ++
    [⟨B + (fn.offset area + 16), 8, BitVec.ofInt 64 (B + (fn.offset area + 32 + 128))⟩] ++
    [⟨B + (fn.offset area + 24), 4, (BitVec.ofInt 32 (-(8 - (fn.namedParams.1 : Int)) * 8)).setWidth 64⟩] ++
    [⟨B + (fn.offset area + 28), 4, (BitVec.ofInt 32 (-(8 - (fn.namedParams.2 : Int)) * 16)).setWidth 64⟩]

variable {fn B}

/-- Parameters in registers are copied to their variables. -/
theorem writes_storeParams (ps : List Nat) (gp fp st : Nat) (hagg : ∀ i ∈ ps, (fn.varTy i).isAggregate = false)
    (hin : ∀ i p, (i, p) ∈ ps.zip (places (ps.map fn.varTy) gp fp st) → (∀ k, p ≠ .slot k) →
      InFrame B (fn.offset i)) :
    Writes B (fn.storeParams ps (min gp 8) (min fp 8)) (fn.paramWrites B ps gp fp st) := by
  induction ps generalizing gp fp st with
  | nil => exact .nil
  | cons i is ih =>
    have hty : ¬ (fn.varTy i).isAggregate = true := by simp [hagg i mem_cons_self]
    have hrest := fun j hj => hagg j (mem_cons_of_mem _ hj)
    unfold paramWrites
    rw [storeParams, map_cons]
    rw [map_cons] at hin
    simp only [places] at hin ⊢
    by_cases hfp : (fn.varTy i).isFlonum
    · by_cases hlt : fp < 8
      · have hmin : min fp 8 = fp := by omega
        have hmin' : min (fp + 1) 8 = fp + 1 := by omega
        simp only [hty, hfp, hlt, if_true, if_false, hmin, Bool.false_eq_true] at hin ⊢
        have hhead := @writes_storeFp B (fn.offset i) fp (fn.varTy i).size
          (hin i _ mem_cons_self fun k h => by cases h)
        have htail := ih gp (fp + 1) st hrest fun j p hj => hin j p (mem_cons_of_mem _ hj)
        rw [hmin'] at htail
        exact hhead.append htail
      have hmin : min (fp + 1) 8 = min fp 8 := by omega
      have hnot : ¬ min fp 8 < 8 := by omega
      simp only [hty, hfp, hlt, hnot, if_true, if_false, Bool.false_eq_true] at hin ⊢
      have htail := ih gp (fp + 1) (st + 1) hrest fun j p hj => hin j p (mem_cons_of_mem _ hj)
      rw [hmin] at htail
      exact htail
    by_cases hlt : gp < 8
    · have hmin : min gp 8 = gp := by omega
      have hmin' : min (gp + 1) 8 = gp + 1 := by omega
      simp only [hty, hfp, hlt, if_true, if_false, hmin, Bool.false_eq_true] at hin ⊢
      have hhead := @writes_storeGp B (fn.offset i) gp (fn.varTy i).size hlt
        (hin i _ mem_cons_self fun k h => by cases h)
      have htail := ih (gp + 1) fp st hrest fun j p hj => hin j p (mem_cons_of_mem _ hj)
      rw [hmin'] at htail
      exact hhead.append htail
    have hmin : min (gp + 1) 8 = min gp 8 := by omega
    have hnot : ¬ min gp 8 < 8 := by omega
    simp only [hty, hfp, hlt, hnot, if_false, Bool.false_eq_true] at hin ⊢
    have htail := ih (gp + 1) fp (st + 1) hrest fun j p hj => hin j p (mem_cons_of_mem _ hj)
    rw [hmin] at htail
    exact htail

theorem writes_saveVarargs {area : Nat} (hvar : fn.isVariadic = true) (harea : fn.vaArea = some area)
    (hin : ∀ k : Int, 0 ≤ k → k ≤ 224 → InFrame B (fn.offset area + k)) :
    Writes B fn.saveVarargs (fn.vaWrites B area) := by
  have hin' : ∀ a : Int, fn.offset area ≤ a → a ≤ fn.offset area + 224 → InFrame B a := fun a hlo hhi => by
    have h := hin (a - fn.offset area) (by omega) (by omega)
    rwa [show fn.offset area + (a - fn.offset area) = a by omega] at h
  have hstack : ∀ m : Mach, m.x 29 = BitVec.ofInt 64 B →
      Insn.value m (.aluImm .add .x 10 29 16) = some (BitVec.ofInt 64 (B + 16)) := fun m hm => by
    have hreg : m.reg 29 = BitVec.ofInt 64 B := hm
    rw [Insn.value, hreg, ← BitVec.ofInt_add]
  unfold saveVarargs vaWrites
  rw [hvar, harea]
  refine Writes.append (Writes.append (Writes.append (Writes.append (Writes.append (Writes.append ?_ ?_) ?_) ?_) ?_)
    ?_) ?_
  · refine Writes.flatMap (List.range 8) fun i hi => writes_storeFp ?_
    rw [mem_range] at hi
    exact hin' _ (by omega) (by omega)
  · refine Writes.flatMap (List.range 8) fun i hi => ?_
    rw [mem_range] at hi
    exact writes_storeGp hi (hin' _ (by omega) (by omega))
  · rw [append_assoc]
    exact writes_store10 ⟨rfl, rfl⟩ hstack (hin' _ (by omega) (by omega))
  · exact writes_storeVaPtr (hin' _ (by omega) (by omega)) (hin' _ (by omega) (by omega))
  · exact writes_storeVaPtr (hin' _ (by omega) (by omega)) (hin' _ (by omega) (by omega))
  · rw [append_assoc]
    exact writes_store10 ⟨rfl, rfl⟩ (fun _ _ => rfl) (hin' _ (by omega) (by omega))
  · rw [append_assoc]
    exact writes_store10 ⟨rfl, rfl⟩ (fun _ _ => rfl) (hin' _ (by omega) (by omega))

end Fn

end Slopix.Cc
