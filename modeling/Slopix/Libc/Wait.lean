import Slopix.Kernel.Progress

/-!
# From the end of a child to `WEXITSTATUS`

What `wait` and `waitpid` of `libc/stdlib.c` and the macros of `sys/wait.h` make of the value the
kernel returns. `Fits` says for which pids and ends of a child they tell the truth: the pid has 15
bits, an exit status does not reach into the pid and is not taken for a signal, and the child did
not end in the kill check of `exception.c`, which stores -1 for a `SIGKILL`.
-/

namespace Slopix.Libc

open Lib Mm Fs Kernel BitVec Exec

/-- `__syscall_ret`: an error becomes -1. -/
def syscallRet (x0 : Int) : Int := if 0 ≤ x0 then x0 else -1

/-- `wait` and `waitpid`: the pid and the status; `none` is the return value -1. -/
def wait (x0 : Int) : Option (BitVec 32 × BitVec 32) :=
  let ret := BitVec.ofInt 32 (syscallRet x0)
  if ret.slt 0 then none else some (ret.sshiftRight 16, ret &&& 0xffff)

/-- `WIFEXITED`. -/
def wifexited (s : BitVec 32) : Bool := s &&& 0x7f == 0

/-- `WEXITSTATUS`. -/
def wexitstatus (s : BitVec 32) : BitVec 32 := s.sshiftRight 8 &&& 0xff

/-- `WIFSTOPPED`. -/
def wifstopped (s : BitVec 32) : Bool := s &&& 0xff == 0x7f

/-- `WSTOPSIG`. -/
def wstopsig (s : BitVec 32) : BitVec 32 := s.sshiftRight 8 &&& 0xff

/-- `WIFSIGNALED`. -/
def wifsignaled (s : BitVec 32) : Bool := s &&& 0x7f != 0 && s &&& 0x7f != 0x7f

/-- `WTERMSIG`. -/
def wtermsig (s : BitVec 32) : BitVec 32 := s &&& 0x7f

/-- How a child ended or stopped: `exit(status)`, a signal below `NSIG` that `proc_check_signals`
takes, or the `SIGKILL` of a fault or behind a stop, which the kill check of `exception.c` takes. -/
inductive Ending where
  | exited (status : BitVec 32)
  | signaled (sig : Fin 32) (h : sig ≠ 0)
  | killed
  | stopped (sig : Fin 32) (h : sig ≠ 0)

/-- What the kernel keeps of an end in the slot of the child: `proc_cleanup(status)` of an exit,
`proc_cleanup(-sig)` of a signal, `proc_cleanup(-1)` of the kill check. -/
def Ending.Of (x : Proc) : Ending → Prop
  | .exited status => x.state = .zombie ∧ BitVec.ofInt 32 x.exitStatus = status
  | .signaled sig _ => x.state = .zombie ∧ x.exitStatus = -(sig.val : Int)
  | .killed => x.state = .zombie ∧ x.exitStatus = -1
  | .stopped sig _ => x.state = .stopped ∧ x.stopSignal = sig.val

/-- A status from which the macros read this end and no other. -/
def Ending.Seen (s : BitVec 32) : Ending → Prop
  | .exited status => wifexited s = true ∧ wifsignaled s = false ∧ wifstopped s = false ∧
      wexitstatus s = status &&& 0xff
  | .signaled sig _ => wifexited s = false ∧ wifsignaled s = true ∧ wifstopped s = false ∧
      wtermsig s = BitVec.ofNat 32 sig.val
  | .killed => wifexited s = false ∧ wifsignaled s = true ∧ wifstopped s = false ∧
      wtermsig s = 9
  | .stopped sig _ => wifexited s = false ∧ wifsignaled s = false ∧ wifstopped s = true ∧
      wstopsig s = BitVec.ofNat 32 sig.val

/-- `wait` tells the truth about a child: the value is not negative, the pid is its pid and the status
shows its end. -/
def Ending.Told (r : Int) (pid : BitVec 32) (e : Ending) : Prop :=
  0 ≤ r ∧ ∃ s, wait r = some (pid, s) ∧ e.Seen s

/-- The pid has 15 bits; an exit status has no bits of its own where the pid is, and if it is negative
its low byte is 0; the -1 of the kill check is taken for signal 1. -/
def Ending.Fits (pid : BitVec 32) : Ending → Prop
  | .exited status => pid.toNat < 32768 ∧
      if status.slt 0 then status &&& 0xff = 0
      else pid.toNat ||| status.toNat / 256 % 65536 = pid.toNat
  | .killed => False
  | _ => pid.toNat < 32768

/-! ## Unpacking -/

section

variable {pid w ret : BitVec 32}

theorem slt_zero_iff (x : BitVec 32) : x.slt 0 = true ↔ 2147483648 ≤ x.toNat := by
  show x.slt 0#32 = true ↔ _
  rw [slt_zero_eq_msb, msb_eq_decide, decide_eq_true_iff]

/-- The value of a call that is not negative comes back unchanged. -/
theorem wait_toInt (ret : BitVec 32) : wait ret.toInt =
    if ret.toNat < 2147483648 then some (ret.sshiftRight 16, ret &&& 0xffff) else none := by
  unfold wait syscallRet
  by_cases h : ret.toNat < 2147483648
  · have hint : ret.toInt = ret.toNat := toInt_eq_toNat_of_lt (by omega)
    have hslt : ret.slt 0 = false := by
      rw [Bool.eq_false_iff]
      intro hs
      have := (slt_zero_iff ret).1 hs
      omega
    have hnonneg : 0 ≤ ret.toInt := by
      rw [hint]
      exact Int.natCast_nonneg _
    rw [if_pos h, if_pos hnonneg, ofInt_toInt]
    dsimp only
    rw [hslt]
    rfl
  have hneg : ¬ 0 ≤ ret.toInt := by
    rw [toInt_eq_toNat_cond]
    split
    · omega
    · omega
  rw [if_neg h, if_neg hneg]
  decide

/-- What `wait` returns for a packed value: the pid of the child exactly when the upper half is the
pid and has 15 bits, and the lower half as the status. -/
theorem wait_pack {s : BitVec 32} :
    (0 ≤ (pid <<< 16 ||| w).toInt ∧ wait (pid <<< 16 ||| w).toInt = some (pid, s)) ↔
      pid.toNat < 32768 ∧ pid.toNat ||| w.toNat / 65536 = pid.toNat ∧
        s = BitVec.ofNat 32 (w.toNat % 65536) := by
  have hval := toNat_shiftLeft_or pid w
  have hlt := or_lt_65536 pid w
  generalize hhigh : pid.toNat % 65536 ||| w.toNat / 65536 = high at hval hlt
  generalize hret : pid <<< 16 ||| w = ret at hval
  have hstatus : ret &&& 0xffff = BitVec.ofNat 32 (w.toNat % 65536) := by
    apply eq_of_toNat_eq
    rw [toNat_and, toNat_ofNat, hval]
    show (high * 65536 + w.toNat % 65536) &&& (2 ^ 16 - 1) = _
    rw [Nat.and_two_pow_sub_one_eq_mod]
    omega
  rw [wait_toInt]
  by_cases h : high < 32768
  · have hint : ret.toInt = ret.toNat := toInt_eq_toNat_of_lt (by omega)
    have hshift : (ret.sshiftRight 16).toNat = high := by
      have hmsb : ret.msb = false := by
        rw [msb_eq_decide, decide_eq_false_iff_not]
        omega
      rw [sshiftRight_eq_of_msb_false hmsb, toNat_ushiftRight, Nat.shiftRight_eq_div_pow, hval]
      omega
    rw [if_pos (by omega), hstatus, Option.some.injEq, Prod.mk.injEq]
    constructor
    · rintro ⟨-, rfl, rfl⟩
      rw [hshift] at hhigh ⊢
      rw [Nat.mod_eq_of_lt hlt] at hhigh
      exact ⟨h, hhigh, rfl⟩
    rintro ⟨hpid, hor, rfl⟩
    rw [Nat.mod_eq_of_lt (by omega), hor] at hhigh
    refine ⟨by omega, eq_of_toNat_eq ?_, rfl⟩
    rw [hshift, hhigh]
  rw [if_neg (by omega)]
  constructor
  · rintro ⟨-, e⟩
    cases e
  · rintro ⟨hpid, hor, -⟩
    rw [Nat.mod_eq_of_lt (by omega), hor] at hhigh
    omega

/-- The truth about a packed value, in terms of its two halves. -/
theorem told_pack {e : Ending} : e.Told (pid <<< 16 ||| w).toInt pid ↔
    pid.toNat < 32768 ∧ pid.toNat ||| w.toNat / 65536 = pid.toNat ∧
      e.Seen (BitVec.ofNat 32 (w.toNat % 65536)) := by
  constructor
  · rintro ⟨hr, s, hwait, hseen⟩
    obtain ⟨hpid, hor, rfl⟩ := wait_pack.1 ⟨hr, hwait⟩
    exact ⟨hpid, hor, hseen⟩
  · rintro ⟨hpid, hor, hseen⟩
    obtain ⟨hr, hwait⟩ := wait_pack.2 ⟨hpid, hor, rfl⟩
    exact ⟨hr, _, hwait, hseen⟩

/-- A value whose lower half is all that is added to the pid. -/
theorem told_pack_low {e : Ending} (hw : w.toNat < 65536) :
    e.Told (pid <<< 16 ||| w).toInt pid ↔ pid.toNat < 32768 ∧ e.Seen w := by
  rw [told_pack, Nat.div_eq_of_lt hw, Nat.or_zero, Nat.mod_eq_of_lt hw, ofNat_toNat, setWidth_eq]
  exact ⟨fun h => ⟨h.1, h.2.2⟩, fun h => ⟨h.1, rfl, h.2⟩⟩

end

/-! ## The four ends -/

section

variable (pid : BitVec 32)

theorem seen_exited (status : BitVec 32) :
    (Ending.exited status).Seen (BitVec.ofNat 32 (status.toNat % 256 * 256)) := by
  have hbyte : ∀ v : Fin 256,
      wifexited (BitVec.ofNat 32 (v.val * 256)) = true ∧
      wifsignaled (BitVec.ofNat 32 (v.val * 256)) = false ∧
      wifstopped (BitVec.ofNat 32 (v.val * 256)) = false ∧
      wexitstatus (BitVec.ofNat 32 (v.val * 256)) = BitVec.ofNat 32 v.val := by decide +kernel
  have hlow : status &&& 0xff = BitVec.ofNat 32 (status.toNat % 256) := by
    apply eq_of_toNat_eq
    rw [toNat_and, toNat_ofNat]
    show status.toNat &&& (2 ^ 8 - 1) = _
    rw [Nat.and_two_pow_sub_one_eq_mod]
    omega
  have h := hbyte ⟨status.toNat % 256, Nat.mod_lt _ (by decide)⟩
  rw [← hlow] at h
  exact h

/-- A negative status is taken for a signal, unless its low byte is 0. -/
theorem told_exited_neg {status : BitVec 32} (hneg : status.slt 0 = true) :
    (Ending.exited status).Told (packExit pid status).toInt pid ↔
      pid.toNat < 32768 ∧ status &&& 0xff = 0 := by
  have hmask : (-status &&& 0x7f).toNat = (4294967296 - status.toNat) % 128 := by
    show (4294967296 - status.toNat) % 4294967296 &&& (2 ^ 7 - 1) = _
    rw [Nat.and_two_pow_sub_one_eq_mod]
    omega
  have hw : -status &&& 0x7f = BitVec.ofNat 32 ((4294967296 - status.toNat) % 128) := by
    apply eq_of_toNat_eq
    rw [hmask, toNat_ofNat]
    omega
  have hlow : status &&& 0xff = 0 → status.toNat % 256 = 0 := by
    intro h
    have hnat := congrArg BitVec.toNat h
    rw [toNat_and] at hnat
    rw [← Nat.and_two_pow_sub_one_eq_mod _ 8]
    exact hnat
  have hsmall : ∀ v : Fin 128, wexitstatus (BitVec.ofNat 32 v.val) = 0 := by decide +kernel
  unfold packExit
  rw [if_pos hneg, told_pack_low (by omega), hw]
  refine and_congr_right fun _ => ⟨?_, fun hzero => ?_⟩
  · rintro ⟨-, -, -, hstatus⟩
    rw [← hstatus]
    exact hsmall ⟨_, Nat.mod_lt _ (by decide)⟩
  have hmod := hlow hzero
  have hnull : (4294967296 - status.toNat) % 128 = 0 := by omega
  rw [hnull]
  refine ⟨rfl, rfl, rfl, ?_⟩
  rw [hzero]
  rfl

/-- The bits of the status above the low byte are combined with the pid. -/
theorem told_exited_nonneg {status : BitVec 32} (hneg : ¬ status.slt 0 = true) :
    (Ending.exited status).Told (packExit pid status).toInt pid ↔
      pid.toNat < 32768 ∧ pid.toNat ||| status.toNat / 256 % 65536 = pid.toNat := by
  have hw : (status <<< 8).toNat = status.toNat * 256 % 4294967296 := by
    rw [toNat_shiftLeft, Nat.shiftLeft_eq]
  have hhigh : status.toNat * 256 % 4294967296 / 65536 = status.toNat / 256 % 65536 := by omega
  have hlow : status.toNat * 256 % 4294967296 % 65536 = status.toNat % 256 * 256 := by omega
  unfold packExit
  rw [if_neg hneg, told_pack, hw, hhigh, hlow]
  exact ⟨fun h => ⟨h.1, h.2.1⟩, fun h => ⟨h.1, h.2, seen_exited status⟩⟩

theorem told_exited (status : BitVec 32) :
    (Ending.exited status).Told (packExit pid status).toInt pid ↔ (Ending.exited status).Fits pid := by
  unfold Ending.Fits
  dsimp only
  by_cases hneg : status.slt 0 = true
  · rw [told_exited_neg pid hneg, if_pos hneg]
  · rw [told_exited_nonneg pid hneg, if_neg hneg]

theorem told_signaled (sig : Fin 32) (h : sig ≠ 0) :
    (Ending.signaled sig h).Told (packExit pid (BitVec.ofInt 32 (-(sig.val : Int)))).toInt pid ↔
      pid.toNat < 32768 := by
  have hcode : ∀ sig : Fin 32, sig ≠ 0 → (BitVec.ofInt 32 (-(sig.val : Int))).slt 0 = true ∧
      -BitVec.ofInt 32 (-(sig.val : Int)) &&& 0x7f = BitVec.ofNat 32 sig.val ∧
      wifexited (BitVec.ofNat 32 sig.val) = false ∧ wifsignaled (BitVec.ofNat 32 sig.val) = true ∧
      wifstopped (BitVec.ofNat 32 sig.val) = false ∧
      wtermsig (BitVec.ofNat 32 sig.val) = BitVec.ofNat 32 sig.val := by decide +kernel
  obtain ⟨hneg, hmask, hseen⟩ := hcode sig h
  unfold packExit
  rw [if_pos hneg, hmask, told_pack_low (by rw [toNat_ofNat]; omega)]
  exact ⟨fun h => h.1, fun h => ⟨h, hseen⟩⟩

theorem not_told_killed : ¬ Ending.killed.Told (packExit pid (BitVec.ofInt 32 (-1))).toInt pid := by
  show ¬ Ending.killed.Told (pid <<< 16 ||| 1#32).toInt pid
  rw [told_pack_low (by decide)]
  rintro ⟨-, -, -, -, hsig⟩
  exact absurd hsig (by decide)

theorem told_stopped (sig : Fin 32) (h : sig ≠ 0) :
    (Ending.stopped sig h).Told (packStop pid (BitVec.ofNat 32 sig.val)).toInt pid ↔
      pid.toNat < 32768 := by
  have hcode : ∀ sig : Fin 32, sig ≠ 0 → (BitVec.ofNat 32 sig.val <<< 8 ||| 0x7f).toNat < 65536 ∧
      wifexited (BitVec.ofNat 32 sig.val <<< 8 ||| 0x7f) = false ∧
      wifsignaled (BitVec.ofNat 32 sig.val <<< 8 ||| 0x7f) = false ∧
      wifstopped (BitVec.ofNat 32 sig.val <<< 8 ||| 0x7f) = true ∧
      wstopsig (BitVec.ofNat 32 sig.val <<< 8 ||| 0x7f) = BitVec.ofNat 32 sig.val := by decide +kernel
  obtain ⟨hlt, hseen⟩ := hcode sig h
  unfold packStop
  rw [BitVec.or_assoc, told_pack_low hlt]
  exact ⟨fun h => h.1, fun h => ⟨h, hseen⟩⟩

end

/-! ## The calls -/

/-- The child that a call reports: a dead one, or for `waitpid` with `WUNTRACED` the last stopped
one. -/
def reported (k : Kern) (p : Nat) : Kernel.Call → Option Nat
  | .wait _ => (List.range nproc).find? fun c => k.isChild p c && (k.procs c).state == .zombie
  | .waitpid pid options _ =>
    let mine := fun c => k.isChild p c && (decide (pid ≤ 0) || decide ((k.procs c).pid = pid))
    match (List.range nproc).find? fun c => mine c && (k.procs c).state == .zombie with
    | some c => some c
    | none => ((List.range nproc).filter fun c =>
      mine c && options.testBit 1 && (k.procs c).state == .stopped).getLast?
  | _ => none

section

variable {k k' : Kern} {p c : Nat} {r : Int}

theorem encodeWaitStatus_value {l : Kern} (h : encodeWaitStatus c k = .ok (r, l)) :
    r = (packExit (BitVec.ofNat 32 (k.procs c).pid) (BitVec.ofInt 32 (k.procs c).exitStatus)).toInt := by
  have hvalue : Holds (encodeWaitStatus c k) (fun r _ => r =
      (packExit (BitVec.ofNat 32 (k.procs c).pid) (BitVec.ofInt 32 (k.procs c).exitStatus)).toInt)
      fun _ => True := by
    apply holds_gets_bind
    have htrue : ∀ {α : Type} (r : Except Stop (α × Kern)), Holds r (fun _ _ => True) fun _ => True :=
      fun r => ⟨fun _ _ _ => trivial, fun _ _ => trivial⟩
    refine (htrue _).bind fun _ _ _ => (htrue _).bind fun _ _ _ => ?_
    exact holds_modify_bind (holds_pure rfl)
  exact hvalue.ok r l h

/-- The result of a wait that reports a child. -/
theorem syscall_reported {call : Kernel.Call} (hc : reported k p call = some c)
    (hrun : syscall p call k = .ok (r, k')) :
    ((k.procs c).state = .zombie ∧ r =
      (packExit (BitVec.ofNat 32 (k.procs c).pid) (BitVec.ofInt 32 (k.procs c).exitStatus)).toInt) ∨
    ((k.procs c).state = .stopped ∧ r = (packStop (BitVec.ofNat 32 (k.procs c).pid) (BitVec.ofNat 32
      (if (k.procs c).stopSignal ≠ 0 then (k.procs c).stopSignal else 20))).toInt) := by
  cases call with
  | wait intr =>
    dsimp only [reported] at hc
    have hz := List.find?_some hc
    rw [Bool.and_eq_true] at hz
    refine Or.inl ⟨eq_of_beq hz.2, encodeWaitStatus_value (l := k') ?_⟩
    have hwait : sysWait p intr k = encodeWaitStatus c k := by
      unfold sysWait
      rw [bind_ok (b := k) (t := k) rfl, hc]
    rw [← hwait]
    exact hrun
  | waitpid pid options intr =>
    dsimp only [reported] at hc
    cases hfind : (List.range nproc).find? fun c => (k.isChild p c &&
        (decide (pid ≤ 0) || decide ((k.procs c).pid = pid))) && (k.procs c).state == .zombie with
    | some c' =>
      rw [hfind] at hc
      obtain rfl := Option.some.inj hc
      have hz := List.find?_some hfind
      rw [Bool.and_eq_true] at hz
      refine Or.inl ⟨eq_of_beq hz.2, encodeWaitStatus_value (l := k') ?_⟩
      have hwait : sysWaitpid p pid options intr k = encodeWaitStatus c' k := by
        unfold sysWaitpid
        rw [bind_ok (b := k) (t := k) rfl]
        rw [hfind]
      rw [← hwait]
      exact hrun
    | none =>
      rw [hfind] at hc
      dsimp only at hc
      have hmem := List.mem_of_getLast? hc
      rw [List.mem_filter, Bool.and_eq_true] at hmem
      refine Or.inr ⟨eq_of_beq hmem.2.2, ?_⟩
      have hwait : sysWaitpid p pid options intr k = .ok ((packStop
          (BitVec.ofNat 32 (k.procs c).pid) (BitVec.ofNat 32 (if (k.procs c).stopSignal ≠ 0
            then (k.procs c).stopSignal else 20))).toInt, k) := by
        unfold sysWaitpid
        rw [bind_ok (b := k) (t := k) rfl]
        rw [hfind]
        rw [hc]
        rfl
      have hpair := (hwait.symm.trans hrun)
      injection hpair with hpair
      injection hpair with hr
      exact hr.symm
  | _ => cases hc

/-- The status of a child: whatever the state, a `wait` or `waitpid` that reports a child tells the
truth about its pid and its end exactly when they fit. -/
theorem wait_status_iff {call : Kernel.Call} {e : Ending} (hc : reported k p call = some c)
    (hrun : syscall p call k = .ok (r, k')) (he : e.Of (k.procs c)) :
    e.Told r (BitVec.ofNat 32 (k.procs c).pid) ↔ e.Fits (BitVec.ofNat 32 (k.procs c).pid) := by
  rcases syscall_reported hc hrun with ⟨hstate, rfl⟩ | ⟨hstate, rfl⟩
  · cases e with
    | exited status =>
      rw [he.2]
      exact told_exited _ status
    | signaled sig h =>
      rw [he.2]
      exact told_signaled _ sig h
    | killed =>
      rw [he.2]
      exact iff_of_false (not_told_killed _) id
    | stopped sig h =>
      have hstop := he.1
      rw [hstate] at hstop
      cases hstop
  cases e with
  | exited status =>
    have hdead := he.1
    rw [hstate] at hdead
    cases hdead
  | signaled sig h =>
    have hdead := he.1
    rw [hstate] at hdead
    cases hdead
  | killed =>
    have hdead := he.1
    rw [hstate] at hdead
    cases hdead
  | stopped sig h =>
    have hsig : (k.procs c).stopSignal ≠ 0 := by
      rw [he.2]
      exact fun e => h (Fin.ext e)
    rw [if_pos hsig, he.2]
    exact told_stopped _ sig h

end

/-! ## A child of the first process -/

section

/-- On the small machine the first process forks, the child exits with any status and is waited
for. -/
theorem small_wait (status : Int) : ∃ k k' c r, smallMachine.Reachable (fun _ _ => True) k ∧
    reported k 0 (.wait false) = some c ∧ (k.procs c).pid = 2 ∧
    (k.procs c).state = .zombie ∧ (k.procs c).exitStatus = status ∧
    syscall 0 (.wait false) k = .ok (r, k') := by
  obtain ⟨k0, k, c, hboot, -, hcalls, -, hfind, hpid, hzombie, hstatus⟩ := small_exit status
  obtain ⟨r, k', hwait, -⟩ := @sysWait_found _ _ _ false hfind
  exact ⟨k, k', c, r, hcalls.reached hboot, hfind, hpid, hzombie, hstatus, hwait⟩

/-- A child that has called `exit(3)`. -/
theorem wait_status_small : ∃ k k' c r, smallMachine.Reachable (fun _ _ => True) k ∧
    reported k 0 (.wait false) = some c ∧ syscall 0 (.wait false) k = .ok (r, k') ∧
    (Ending.exited 3).Of (k.procs c) ∧ (Ending.exited 3).Told r (BitVec.ofNat 32 (k.procs c).pid) := by
  obtain ⟨k, k', c, r, hk, hc, hpid, hstate, hstatus, hrun⟩ := small_wait 3
  have he : (Ending.exited 3).Of (k.procs c) := ⟨hstate, by rw [hstatus]; rfl⟩
  refine ⟨k, k', c, r, hk, hc, hrun, he, (wait_status_iff hc hrun he).2 ?_⟩
  rw [hpid]
  exact ⟨by decide, by decide⟩

/-- A child with the pid 2 that calls `exit(-1)` is reported as killed by signal 1. -/
theorem wait_status_wrong : ∃ k k' c r, smallMachine.Reachable (fun _ _ => True) k ∧
    reported k 0 (.wait false) = some c ∧ syscall 0 (.wait false) k = .ok (r, k') ∧
    (Ending.exited (-1)).Of (k.procs c) ∧
    ¬ (Ending.exited (-1)).Told r (BitVec.ofNat 32 (k.procs c).pid) := by
  obtain ⟨k, k', c, r, hk, hc, hpid, hstate, hstatus, hrun⟩ := small_wait (-1)
  refine ⟨k, k', c, r, hk, hc, hrun, ⟨hstate, by rw [hstatus]; rfl⟩, ?_⟩
  rcases syscall_reported hc hrun with ⟨-, rfl⟩ | ⟨hstop, -⟩
  · rw [hpid, hstatus]
    exact fun h => absurd ((told_exited _ _).1 h).2 (by decide)
  · rw [hstate] at hstop
    cases hstop

end

end Slopix.Libc
