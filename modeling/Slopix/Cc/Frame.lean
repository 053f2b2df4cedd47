import Slopix.Cc.Straight

/-!
# The code of a function

`emit_text` prints straight lines that make a frame, a block that ends at the label of the epilogue, and
straight lines that give the caller's registers back.
-/

namespace Slopix.Cc

open Gen List Insn

section

variable {α β : Type} {s s' : GenState} {l : List Item} {is : List Insn}

/-- Lines that are only printed leave the state of the generator as it is. -/
theorem emits_eq (is : List Insn) (s : GenState) : emits is s = some ((), s, is.map (Item.mk s.depth)) := by
  induction is with
  | nil => rfl
  | cons i is ih =>
    show (emit i >>= fun _ => emits is) s = _
    simp [bind, emit, ih]

/-- The lines of a sequence follow each other. -/
theorem bind_some {g : Gen α} {f : α → Gen β} {s s'' : GenState} {a : α} {b : β}
    {l l' : List Item} (h : g s = some (a, s', l)) (h' : f a s' = some (b, s'', l')) :
    (g >>= f) s = some (b, s'', l ++ l') := by
  simp [bind, h, h']

theorem emits_bind {f : Unit → Gen β} {b : β} (h : (emits is >>= f) s = some (b, s', l)) :
    ∃ l', f () s = some (b, s', l') ∧ l = is.map (Item.mk s.depth) ++ l' := by
  obtain ⟨_, t, l1, l2, hm, hf, rfl⟩ := bind_eq_some h
  rw [emits_eq] at hm
  obtain ⟨rfl, rfl⟩ : s = t ∧ is.map (Item.mk s.depth) = l1 := by simpa using hm
  exact ⟨l2, hf, rfl⟩

end

/-! ## Lines around the body -/

/-- A line that does not jump, is no label and does not return. -/
def Insn.Plain (i : Insn) : Prop := i.mentions = none ∧ i ≠ .ret

namespace Fn

variable (fn : Fn)

theorem quiet_storeParams (ps : List Nat) (gp fp : Nat) :
    (fn.storeParams ps gp fp).all isQuiet = true := by
  induction ps generalizing gp fp with
  | nil => rfl
  | cons i is ih =>
    rw [storeParams]
    split
    · exact ih gp fp
    split
    · split
      · rw [all_append, quiet_storeFp, ih]
        rfl
      · exact ih gp fp
    split
    · rw [all_append, quiet_storeGp, ih]
      rfl
    · exact ih gp fp

theorem quiet_saveVarargs : fn.saveVarargs.all isQuiet = true := by
  have haddr : ∀ off, (localAddr 9 off).all isQuiet = true := quiet_localAddr (by decide)
  have hptr : ∀ target field, (storeVaPtr target field).all isQuiet = true := fun target field => by
    rw [storeVaPtr, all_append, all_append, all_append, haddr, haddr]
    rfl
  unfold saveVarargs
  split
  · simp only [all_append, all_flatMap, haddr, hptr, quiet_storeFp, quiet_storeGp]
    simp [isQuiet, dest, spMove, mentions]
  · rfl

/-- The lines before the body. -/
def prologue : List Insn := [.stpFrame, .movFp] ++ fn.makeFrame

/-- The lines between the label of the epilogue and the return. -/
def epilogue : List Insn := fn.dropFrame ++ [.ldpFrame]

theorem plain_loadConst (n : Nat) : ∀ i ∈ loadConst 9 n, i.Plain := fun i hi => by
  have hquiet := quiet_of_isQuiet (all_eq_true.1 (quiet_loadConst (by decide) n) i hi)
  refine ⟨hquiet.mute, ?_⟩
  rintro rfl
  cases hquiet.still

theorem plain_prologue : ∀ i ∈ fn.prologue, i.Plain := by
  have hconst := plain_loadConst fn.stackSize
  unfold prologue makeFrame
  split
  · split
    · simp [Insn.Plain, mentions]
    · simpa [or_imp, forall_and, Insn.Plain, mentions] using hconst
  · simp [Insn.Plain, mentions]

theorem plain_epilogue : ∀ i ∈ fn.epilogue, i.Plain := by
  have hconst := plain_loadConst fn.stackSize
  unfold epilogue dropFrame
  split
  · split
    · simp [Insn.Plain, mentions]
    · simpa [or_imp, forall_and, Insn.Plain, mentions] using hconst
  · simp [Insn.Plain, mentions]

/-! ## The pieces of the code -/

variable {fn} {s s' : GenState} {code l : List Item}

theorem assertLevel_eq {r : Unit} (h : assertLevel s = some (r, s', l)) : s.depth = 0 := by
  obtain ⟨d, t, l1, l2, hd, hw, -⟩ := bind_eq_some h
  obtain ⟨rfl, rfl, -⟩ : s.depth = d ∧ s = t ∧ [] = l1 := by simpa [getDepth] using hd
  unfold Gen.when at hw
  split at hw
  · cases hw
  · rename_i hne
    exact Decidable.of_not_not hne

theorem emits_assertLevel {o : Own} {d : Int} : Emits o True d d (fun _ => True) assertLevel := by
  refine emits_getDepth ?_
  unfold Gen.when
  split
  · exact emits_fail
  · exact emits_pure trivial

/-- The body pops what it pushes, or the assertion fails. -/
theorem leftover_eq_zero (h : fn.genBody s = some ((), s', l)) (hd : s.depth = 0) (hn : 0 < s.next) :
    fn.body.leftover = 0 := by
  obtain ⟨l1, h, -⟩ := emits_bind h
  obtain ⟨_, t, l2, l3, hbody, h, -⟩ := bind_eq_some h
  obtain ⟨_, t', l4, l5, hlevel, -⟩ := bind_eq_some h
  obtain ⟨hdepth, -⟩ := nodeOk_genStmt fn.offset fn.body ⟨0, 0, 0⟩ False 0 (fun h => h.elim) s () t l2 hbody hd hn
  have hzero := assertLevel_eq hlevel
  omega

/-- The lines between the frame and the epilogue are a block. -/
theorem block_genBody (h : fn.genBody s = some ((), s', l)) (hd : s.depth = 0) (hn : 0 < s.next) :
    s'.depth = 0 ∧ Block ⟨0, 0, 0⟩ 0 0 s.next s'.next l := by
  have hleft := leftover_eq_zero h hd hn
  have hbody : Emits ⟨0, 0, 0⟩ True 0 0 (fun _ => True) (genStmt fn.offset fn.body) := by
    refine (nodeOk_genStmt fn.offset fn.body ⟨0, 0, 0⟩ True 0 fun _ => ⟨Int.le_refl 0, hleft⟩).cast rfl ?_
    rw [hleft]
    rfl
  have hquiet : (fn.storeParams fn.params 0 0 ++ fn.saveVarargs).all isQuiet = true := by
    rw [all_append, quiet_storeParams, quiet_saveVarargs]
    rfl
  have hmain : Emits ⟨0, 0, 0⟩ True 0 0 (fun _ => True) (when fn.isMain (emit (.movImm .x 0 0))) := by
    unfold Gen.when
    split
    · exact emits_insn (fun _ => Int.le_refl 0) (quiet_of_isQuiet rfl)
    · exact emits_pure trivial
  have hall : Emits ⟨0, 0, 0⟩ True 0 0 (fun _ => True) fn.genBody :=
    (emits_list (fun _ => Int.le_refl 0) hquiet).seq (hbody.seq (emits_assertLevel.seq hmain))
  obtain ⟨hdepth, -, -, hblock⟩ := hall s () s' l h hd hn
  exact ⟨hdepth, hblock trivial⟩

/-- The body and the label of the epilogue. -/
def levelled (body : List Item) : List Item := body ++ [⟨0, .label .ret⟩]

/-- The code of a function, in its parts. -/
structure Parts (fn : Fn) (code body : List Item) (n n' : Nat) : Prop where
  eq : code = fn.prologue.map (Item.mk 0) ++
    (levelled body ++ (fn.epilogue.map (Item.mk 0) ++ [⟨0, .ret⟩]))
  block : Block ⟨0, 0, 0⟩ 0 0 n n' body

theorem parts_emitText (h : fn.emitText s = some ((), s', code)) (hd : s.depth = 0) (hn : 0 < s.next) :
    ∃ body n', fn.Parts code body s.next n' := by
  obtain ⟨l, hrest, rfl⟩ := emits_bind h
  obtain ⟨_, t, body, l2, hbody, hend, rfl⟩ := bind_eq_some hrest
  obtain ⟨hdepth, hblock⟩ := block_genBody hbody hd hn
  rw [emits_eq, hdepth] at hend
  obtain ⟨rfl, rfl⟩ : t = s' ∧
      ([label .ret] ++ fn.dropFrame ++ [ldpFrame, ret]).map (Item.mk 0) = l2 := by simpa using hend
  refine ⟨body, t.next, ?_, hblock⟩
  rw [hd]
  simp [prologue, epilogue, levelled]

end Fn

end Slopix.Cc
