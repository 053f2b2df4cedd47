import Slopix.Cc.Discipline

/-!
# Operands

The evaluation of an operand is a run from its first line to the line behind it. It ends with `sp` where it
was, and with the temporaries as they were that had been pushed before.
-/

namespace Slopix.Cc

open List

/-- Addresses of the temporaries of a function, which are below its variables. -/
def temporaries (lo top : Int) : Mach → Int → Prop := fun _ b => lo ≤ b ∧ b < top

/-- The lines of an operand are run from the first one to the one behind the last: no jump leaves the operand,
and every jump inside it is level. -/
structure Evaluates (code : List Item) (top : Int) (l : List Item) (m m' : Mach) : Prop where
  placed : l <+: code.drop m.pc
  run : ∃ (σ : Nat → Mach) (n : Nat), σ 0 = m ∧ σ n = m' ∧ ∀ k, k < n →
    (m.pc ≤ (σ k).pc ∧ (σ k).pc < m.pc + l.length) ∧
    Step (temporaries m.sp top) code (σ k) (σ (k + 1)) ∧ LevelStep code (σ k) (σ (k + 1))
  arrived : m'.pc = m.pc + l.length

section

variable {code l l' : List Item} {p e : Nat} {i : Item}

theorem get_placed (h : l <+: code.drop p) (he : e < l.length) : code[p + e]? = l[e]? := by
  obtain ⟨t, ht⟩ := h
  rw [← List.getElem?_drop, ← ht, List.getElem?_append_left he]

theorem prefix_left (h : l ++ l' <+: code.drop p) : l <+: code.drop p :=
  (prefix_append l l').trans h

theorem prefix_right (h : l ++ l' <+: code.drop p) : l' <+: code.drop (p + l.length) := by
  obtain ⟨t, ht⟩ := h
  refine ⟨t, ?_⟩
  rw [← drop_drop, ← ht, append_assoc, drop_left]

theorem head_placed (h : i :: l <+: code.drop p) : code[p]? = some i :=
  get_placed h (Nat.zero_lt_succ _)

end

section

variable {code l : List Item} {top : Int} {m m' : Mach} {o : Own} {d : Int} {n n' : Nat}

theorem Block.jump_level {d' : Int} {i j : Item} {lab : Label} (h : Block o d d' n n' l) (hi : i ∈ l)
    (hj : j ∈ l) (ht : i.insn.target = some lab) (hl : j.insn = .label lab)
    (hlevel : (∀ k c, lab ≠ .counted k c) → i.depth = j.depth) : i.depth = j.depth := by
  by_cases hcount : ∃ k c, lab = .counted k c
  · obtain ⟨k, c, rfl⟩ := hcount
    obtain ⟨f, -, hf⟩ := h.level
    have hj' := (hf j hj k c (by rw [hl]; rfl)).1
    exact (hf i hi k c (Insn.mentions_of_target ht)).1.trans hj'.symm
  · exact hlevel fun k c hkc => hcount ⟨k, c, hkc⟩

/-- An operand gives `sp`, the frame pointer and the temporaries back. -/
theorem Evaluates.frame (h : Evaluates code top l m m') (hblock : Block o d d n n' l) (hfloor : o.floor = d)
    (hafter : ∀ j, code[m.pc + l.length]? = some j → j.insn.mentions = none) :
    m'.sp = m.sp ∧ m'.x 29 = m.x 29 ∧ ∀ b, m.sp ≤ b → b < top → m'.mem b = m.mem b := by
  obtain ⟨σ, N, hstart, hend, hrun⟩ := h.run
  have hinv : ∀ k, k ≤ N → (σ k).x 29 = m.x 29 ∧ (∀ b, m.sp ≤ b → b < top → (σ k).mem b = m.mem b) ∧
      ∃ e, (σ k).pc = m.pc + e ∧ (σ k).sp = m.sp - 16 * (depthAt l d e - d) := by
    intro k
    induction k with
    | zero =>
      intro _
      rw [hstart]
      refine ⟨rfl, fun _ _ _ => rfl, 0, rfl, ?_⟩
      rw [hblock.threaded.depth_zero]
      simp
    | succ k ih =>
      intro hk
      obtain ⟨hx, hmem, e, hpc, hsp⟩ := ih (Nat.le_of_succ_le hk)
      obtain ⟨⟨-, hin⟩, hstep, hlevel⟩ := hrun k hk
      have he : e < l.length := by omega
      have hget : code[(σ k).pc]? = l[e]? := by rw [hpc, get_placed h.placed he]
      have hitem : l[e]? = some l[e] := List.getElem?_eq_getElem he
      rw [hitem] at hget
      rw [depthAt_of_get hitem] at hsp
      have hdeep := hblock.floor _ (getElem_mem he)
      obtain ⟨hmove, hfp⟩ := hblock.threaded.get hitem
      revert hlevel
      generalize hnext : σ (k + 1) = m1 at hstep
      intro hlevel
      cases hstep with
      | @next _ i hi hdoes =>
        obtain rfl : l[e] = i := Option.some.inj (hget.symm.trans hi)
        obtain ⟨hsp', hx', hmem'⟩ := hdoes.frame hmove hfp
        refine ⟨hx'.trans hx, fun b hlo hhi => ?_, e + 1, ?_, by omega⟩
        · rw [hmem' b ⟨hlo, hhi⟩ (by omega), hmem b hlo hhi]
        · rw [hdoes.pc, hpc, add_assoc]
      | @jump i j lab q hi ht hj hl =>
        obtain rfl : l[e] = i := Option.some.inj (hget.symm.trans hi)
        have hmention : j.insn.mentions = some lab := by rw [hl]; rfl
        -- the label is inside the operand
        have hq : m.pc ≤ q ∧ q < m.pc + l.length := by
          rcases lt_or_ge (k + 1) N with hlt | hge
          · have hin' := (hrun (k + 1) hlt).1
            rw [hnext] at hin'
            exact hin'
          obtain rfl : k + 1 = N := le_antisymm hk hge
          have hq : q = m.pc + l.length := by
            rw [← h.arrived, ← hend, hnext]
          rw [hq] at hj
          rw [hafter j hj] at hmention
          cases hmention
        obtain ⟨f, rfl⟩ := Nat.exists_eq_add_of_le hq.1
        have hf : f < l.length := by omega
        have hjget : l[f]? = some j := by rw [← hj, get_placed h.placed hf]
        have hdepth := hblock.jump_level (getElem_mem he) (mem_of_getElem? hjget) ht hl
          fun hnot => hlevel _ _ _ hget ht hnot hj hl
        refine ⟨hx, hmem, f, rfl, ?_⟩
        rw [depthAt_of_get hjget, ← hdepth]
        exact hsp
  obtain ⟨hx, hmem, e, hpc, hsp⟩ := hinv N (le_refl N)
  rw [hend] at hx hmem hpc hsp
  have he : e = l.length := by
    have := h.arrived
    omega
  have hlast : depthAt l d e = d := by
    rw [he, depthAt, List.getElem?_eq_none (le_refl _)]
    rfl
  refine ⟨?_, hx, hmem⟩
  rw [hsp, hlast]
  simp

end

/-- What an expression without aggregate arguments prints is a block on top of what has been pushed. -/
theorem block_genExpr {offset : Nat → Int} {e : Expr} {s s' : GenState} {l : List Item}
    (h : genExpr offset e s = some ((), s', l)) (hleft : e.leftover = 0) (hnext : 0 < s.next) :
    s'.depth = s.depth ∧ 0 < s'.next ∧ Block ⟨0, 0, s.depth⟩ s.depth s.depth s.next s'.next l := by
  obtain ⟨hdepth, hle, -, hblock⟩ := nodeOk_genExpr offset e ⟨0, 0, s.depth⟩ True s.depth
    (fun _ => ⟨Int.le_refl _, hleft⟩) s () s' l h rfl hnext
  rw [hleft] at hdepth hblock
  have hzero : s.depth + (0 : Nat) = s.depth := by simp
  rw [hzero] at hdepth hblock
  exact ⟨hdepth, lt_of_lt_of_le hnext hle, hblock trivial⟩

end Slopix.Cc
