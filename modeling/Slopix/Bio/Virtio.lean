import Mathlib.Data.List.Nodup

/-!
# The disk driver

`virtio_disk_rw` of `kernel/virtio.c` and a device that follows the virtio queue protocol. The driver
runs one step between two of its accesses to what it shares with the device: the descriptors, the
available ring, the index of the used ring, the one header and the one status byte. The device takes
an entry of the available ring at any time, moves the data of a request it has taken at any later
time, and completes it at any time after that, or never. Calls of `virtio_disk_rw` follow each other,
since `bio.c` makes them with `disk_busy` set.

A run records which call each entry of the available ring is for, what the device has completed, and
what each call has returned.
-/

namespace Slopix.Bio.Virtio

open Function List Option

/-! ## The queue -/

/-- `VIRTIO_QUEUE_SIZE`. -/
def queueSize : Nat := 8

/-- The end of the list of free descriptors. -/
def noDesc : Nat := 0xFFFF

/-- `VIRTIO_TIMEOUT_TICKS`. -/
def timeoutTicks : Nat := 100

/-- `VIRTIO_TIMEOUT_NOPS`. -/
def timeoutNops : Nat := 100000000

/-- `VIRTIO_E_OK`, `VIRTIO_E_IOERR`, `VIRTIO_E_UNSUPP`, `VIRTIO_E_TIMEOUT` and `VIRTIO_E_RESET`. -/
inductive Code where
  | ok
  | ioerr
  | unsupp
  | timeout
  | reset
deriving DecidableEq, Repr

/-- `VIRTIO_BLK_S_OK`, `VIRTIO_BLK_S_IOERR` and `VIRTIO_BLK_S_UNSUPP`. -/
inductive Status where
  | ok
  | ioerr
  | unsupp
deriving DecidableEq, Repr

/-- The byte that the device writes. -/
def Status.byte : Status → Nat
  | .ok => 0
  | .ioerr => 1
  | .unsupp => 2

/-- What a descriptor points to: `blk_hdr`, `blk_status` or a buffer. -/
inductive Loc where
  | hdr
  | status
  | buf (addr : Nat)
deriving DecidableEq, Repr

/-- `struct virtq_desc`; the flags are `VIRTQ_DESC_F_NEXT` and `VIRTQ_DESC_F_WRITE`. -/
structure Desc where
  addr : Loc
  len : Nat
  hasNext : Bool
  writes : Bool
  next : Nat

/-- `struct virtio_blk_outhdr`; `out` is `type == VIRTIO_BLK_T_OUT`. -/
structure Header where
  out : Bool
  sector : Nat

/-- What a request asks for. -/
structure Order where
  out : Bool
  sector : Nat
  buf : Nat
deriving DecidableEq, Repr

/-- A request that the device has taken: the call it is for, and whether its data has been moved. -/
structure Req where
  id : Nat
  order : Order
  moved : Bool

/-- How long a call goes on waiting. -/
inductive Timeout where
  | deadline (tick : Nat)
  | nops (left : Nat)

/-- The wait has lasted too long, when the call looks at it once more. -/
def Timeout.expired (ticks : Nat) : Timeout → Bool
  | .deadline tick => tick ≤ ticks
  | .nops left => left - 1 == 0

/-- The wait behind one more look. -/
def Timeout.again : Timeout → Timeout
  | .deadline tick => .deadline tick
  | .nops left => .nops (left - 1)

/-- A call of `virtio_disk_rw` with its local variables. -/
structure Call where
  id : Nat
  order : Order
  process : Bool
  idx0 : Nat
  idx1 : Nat
  idx2 : Nat
  lastUsed : BitVec 16
  timeout : Timeout

/-- What the driver does next. -/
inductive Phase where
  | idle
  | prepare (c : Call)
  | publish (c : Call)
  | mark (c : Call)
  | wait (c : Call)
  | late (c : Call)
  | collect (c : Call)

/-- The call that the driver is in. -/
def Phase.call : Phase → Option Call
  | .idle => none
  | .prepare c | .publish c | .mark c | .wait c | .late c | .collect c => some c

/-- The driver, what it shares with the device, the device, and the record of the run. -/
structure Sys where
  driverOk : Bool
  desc : Nat → Desc
  freeHead : Nat
  availIdx : BitVec 16
  availRing : Nat → Nat
  usedIdx : BitVec 16
  blkHdr : Header
  blkStatus : Nat
  mem : Nat → UInt8
  ticks : Nat
  phase : Phase
  seen : BitVec 16
  inflight : List Req
  disk : Nat → Nat → UInt8
  nextId : Nat
  owner : Nat → Nat
  completed : Nat → Option (Order × Status)
  result : Nat → Option Code

/-! ## The driver -/

/-- `alloc_desc`: the head of the list of free descriptors. -/
def Sys.allocDesc (s : Sys) : Option (Nat × Sys) :=
  if s.freeHead = noDesc then none
  else some (s.freeHead, { s with freeHead := (s.desc s.freeHead).next })

/-- `free_desc`. -/
def Sys.freeDesc (s : Sys) (i : Nat) : Sys :=
  { s with
    desc := Function.update s.desc i { s.desc i with next := s.freeHead }
    freeHead := i }

/-- The call returns. -/
def Sys.ret (s : Sys) (id : Nat) (code : Code) : Sys :=
  { s with phase := .idle, result := Function.update s.result id (some code) }

@[simp] theorem Sys.ret_result (s : Sys) (id : Nat) (code : Code) :
    (s.ret id code).result id = some code := update_self ..

/-- The three descriptors of a call go back, in the order of the source. -/
def Sys.freeDescs (s : Sys) (c : Call) : Sys :=
  ((s.freeDesc c.idx0).freeDesc c.idx1).freeDesc c.idx2

/-- `virtio_disk_rw`, up to the three descriptors. -/
def Sys.begin (s : Sys) (id : Nat) (order : Order) (process : Bool) : Sys :=
  if !s.driverOk then s.ret id .reset
  else
    match s.allocDesc with
    | none => s.ret id .ioerr
    | some (idx0, s) =>
      match s.allocDesc with
      | none => (s.freeDesc idx0).ret id .ioerr
      | some (idx1, s) =>
        match s.allocDesc with
        | none => ((s.freeDesc idx0).freeDesc idx1).ret id .ioerr
        | some (idx2, s) =>
          { s with
            phase := .prepare ⟨id, order, process, idx0, idx1, idx2, 0, .nops timeoutNops⟩ }

/-- The header, the three descriptors and the status byte of a call. -/
def Sys.fill (s : Sys) (c : Call) : Sys :=
  { s with
    blkHdr := ⟨c.order.out, c.order.sector⟩
    desc :=
      Function.update
        (Function.update
          (Function.update s.desc c.idx0 ⟨.hdr, 16, true, false, c.idx1⟩)
          c.idx1 ⟨.buf c.order.buf, 512, true, !c.order.out, c.idx2⟩)
        c.idx2 ⟨.status, 1, false, true, 0⟩
    blkStatus := 0xFF }

/-- The code of a status byte. -/
def codeOf (blkStatus : Nat) : Code :=
  if blkStatus = Status.ok.byte then .ok
  else if blkStatus = Status.unsupp.byte then .unsupp
  else .ioerr

/-- The wait of a call is over without a completion. -/
def Sys.giveUp (s : Sys) (c : Call) : Sys := (s.freeDescs c).ret c.id .timeout

/-- The next step of `virtio_disk_rw`. -/
def Sys.advance (s : Sys) : Sys :=
  match s.phase with
  | .idle => s
  | .prepare c => { s.fill c with phase := .publish c }
  | .publish c =>
    { s with
      availRing := Function.update s.availRing (s.availIdx.toNat % queueSize) c.idx0
      owner := Function.update s.owner (s.availIdx.toNat % queueSize) c.id
      availIdx := s.availIdx + 1
      phase := .mark c }
  | .mark c =>
    let timeout := if c.process then .deadline (s.ticks + timeoutTicks) else .nops timeoutNops
    { s with phase := .wait { c with lastUsed := s.usedIdx, timeout := timeout } }
  | .wait c => { s with phase := if s.usedIdx = c.lastUsed then .late c else .collect c }
  | .late c =>
    -- A process sleeps until it is woken or the deadline has come, and looks again.
    if c.timeout.expired s.ticks then s.giveUp c
    else { s with phase := .wait { c with timeout := c.timeout.again } }
  | .collect c => (s.freeDescs c).ret c.id (codeOf s.blkStatus)

/-! ## The device -/

/-- The request that a chain of descriptors asks for, as it stands when the device reads it. -/
def Sys.parse (s : Sys) (head : Nat) : Option Order :=
  let d0 := s.desc head
  let d1 := s.desc d0.next
  let d2 := s.desc d1.next
  match d0.addr, d1.addr, d2.addr with
  | .hdr, .buf buf, .status =>
    if d0.hasNext && d1.hasNext && !d2.hasNext && d1.len == 512 && d1.writes == !s.blkHdr.out then
      some ⟨s.blkHdr.out, s.blkHdr.sector, buf⟩
    else none
  | _, _, _ => none

/-- The device takes the next entry of the available ring. -/
def Sys.fetch (s : Sys) : Option Sys :=
  if s.seen = s.availIdx then none
  else
    let slot := s.seen.toNat % queueSize
    (s.parse (s.availRing slot)).map fun order =>
      { s with seen := s.seen + 1, inflight := s.inflight ++ [⟨s.owner slot, order, false⟩] }

/-- The data of a request is moved. -/
def Sys.move (s : Sys) (order : Order) : Sys :=
  if order.out then
    { s with
      disk := Function.update s.disk order.sector fun k => s.mem (order.buf + k) }
  else
    { s with
      mem := fun a =>
        if order.buf ≤ a ∧ a < order.buf + 512 then s.disk order.sector (a - order.buf) else s.mem a }

/-- The device moves the data of a request it has taken. -/
def Sys.transfer (s : Sys) (i : Nat) : Option Sys :=
  s.inflight[i]?.map fun r =>
    { s.move r.order with inflight := s.inflight.set i { r with moved := true } }

/-- The device completes a request: with `VIRTIO_BLK_S_OK` only if the data has been moved. -/
def Sys.complete (s : Sys) (i : Nat) (status : Status) : Option Sys :=
  s.inflight[i]?.bind fun r =>
    if status = .ok ∧ r.moved = false then none
    else
      some { s with
        inflight := s.inflight.eraseIdx i
        blkStatus := status.byte
        usedIdx := s.usedIdx + 1
        completed := Function.update s.completed r.id (some (r.order, status)) }

/-! ## Runs -/

/-- What can happen next. -/
inductive Event where
  /-- `virtio_disk_rw` is called, by a process or before there is one. -/
  | call (order : Order) (process : Bool)
  /-- The driver goes on. -/
  | run
  /-- The timer ticks. -/
  | tick (n : Nat)
  /-- Other code writes a byte, not in the buffer of the call in progress. -/
  | poke (addr : Nat) (byte : UInt8)
  /-- The device takes an entry. -/
  | fetch
  /-- The device moves data. -/
  | transfer (i : Nat)
  /-- The device completes a request. -/
  | complete (i : Nat) (status : Status)

/-- The address is in the buffer of the call in progress. -/
def Sys.inBuffer (s : Sys) (addr : Nat) : Bool :=
  match s.phase.call with
  | some c => c.order.buf ≤ addr && addr < c.order.buf + 512
  | none => false

/-- What an event does, when it can happen. -/
def step (s : Sys) : Event → Option Sys
  | .call order process =>
    match s.phase with
    | .idle => some ({ s with nextId := s.nextId + 1 }.begin s.nextId order process)
    | _ => none
  | .run => some s.advance
  | .tick n => some { s with ticks := s.ticks + n }
  | .poke addr byte =>
    if s.inBuffer addr then none else some { s with mem := Function.update s.mem addr byte }
  | .fetch => s.fetch
  | .transfer i => s.transfer i
  | .complete i status => s.complete i status

/-- The state behind `virtio_init`. -/
structure Start (s : Sys) : Prop where
  desc : ∀ i < queueSize, (s.desc i).next = if i + 1 = queueSize then noDesc else i + 1
  freeHead : s.freeHead = 0
  seen : s.seen = s.availIdx
  inflight : s.inflight = []
  phase : s.phase = .idle
  fresh : ∀ id, s.result id = none ∧ s.completed id = none

/-- What a run reaches whose steps all meet a condition. -/
inductive Reach (ok : Sys → Event → Prop) : Sys → Prop where
  | start {s : Sys} (h : Start s) : Reach ok s
  | step {s s' : Sys} {e : Event} (h : Reach ok s) (hok : ok s e) (hs : step s e = some s') :
      Reach ok s'

/-- A run from `s` on. -/
def runFrom (s : Sys) : List Event → Option Sys
  | [] => some s
  | e :: es => (step s e).bind fun s' => runFrom s' es

/-! ## What is claimed -/

/-- The request that the device works on in an event. -/
def Sys.served (s : Sys) : Event → Option Req
  | .transfer i | .complete i _ => s.inflight[i]?
  | _ => none

/-- What holds at a step. -/
structure Proper (s : Sys) (e : Event) (s' : Sys) : Prop where
  /-- A call returns `VIRTIO_E_OK` only if the device has completed its request with `OK`, and then
  the buffer of a read holds the sector. -/
  ok : ∀ c, s.phase.call = some c → s'.result c.id = some .ok →
    s'.completed c.id = some (c.order, .ok) ∧
      (c.order.out = false → ∀ k < 512, s'.mem (c.order.buf + k) = s'.disk c.order.sector k)
  /-- The device moves data and completes only for the call in progress. -/
  quiet : ∀ r, s.served e = some r → ∃ c, s.phase.call = some c ∧ c.id = r.id ∧ r.order = c.order

/-- No call gives up a request that the device has not completed. -/
def Patient (s : Sys) : Event → Prop
  | .run => ∀ c, s.phase = .late c → c.timeout.expired s.ticks = true → s.completed c.id ≠ none
  | _ => True

/-! ## The invariant -/

/-- The list of free descriptors. -/
def Free (desc : Nat → Desc) : Nat → List Nat → Prop
  | head, [] => head = noDesc
  | head, i :: l => head = i ∧ i ≠ noDesc ∧ Free desc (desc i).next l

/-- The descriptors of the call in progress. -/
def Phase.held (phase : Phase) : List Nat :=
  match phase.call with
  | some c => [c.idx0, c.idx1, c.idx2]
  | none => []

/-- The device has nothing to do. -/
def Rest (s : Sys) : Prop := s.inflight = [] ∧ s.seen = s.availIdx

/-- The call has been made and has not returned. -/
def Called (s : Sys) (c : Call) : Prop := c.id < s.nextId ∧ s.result c.id = none

/-- The buffer of a read holds the sector. -/
def Filled (s : Sys) (order : Order) : Prop :=
  order.out = false → ∀ k < 512, s.mem (order.buf + k) = s.disk order.sector k

/-- The request of the call is in the available ring or with the device, and there is no other. -/
inductive Flight (s : Sys) (c : Call) : Prop where
  | posted (hseen : s.availIdx = s.seen + 1) (hinflight : s.inflight = [])
      (hring : s.availRing (s.seen.toNat % queueSize) = c.idx0)
      (howner : s.owner (s.seen.toNat % queueSize) = c.id)
      (hparse : s.parse c.idx0 = some c.order) (hnone : s.completed c.id = none)
  | taken (moved : Bool) (hseen : s.seen = s.availIdx)
      (hinflight : s.inflight = [⟨c.id, c.order, moved⟩])
      (hmoved : moved = true → Filled s c.order) (hnone : s.completed c.id = none)

/-- The device has completed the request of the call. -/
def Done (s : Sys) (c : Call) : Prop :=
  Rest s ∧ ∃ status, s.completed c.id = some (c.order, status) ∧ s.blkStatus = status.byte ∧
    (status = .ok → Filled s c.order)

/-- Where the driver and the device are. -/
def Stage (s : Sys) : Prop :=
  match s.phase with
  | .idle => Rest s
  | .prepare c => Rest s ∧ Called s c ∧ s.completed c.id = none
  | .publish c => Rest s ∧ Called s c ∧ s.completed c.id = none ∧ s.parse c.idx0 = some c.order
  | .mark c => Called s c ∧ (Flight s c ∨ Done s c)
  | .wait c | .late c => Called s c ∧ (Flight s c ∧ s.usedIdx = c.lastUsed ∨ Done s c)
  | .collect c => Called s c ∧ Done s c

/-- What holds in a patient run. -/
structure Inv (s : Sys) : Prop where
  fresh : ∀ id, s.nextId ≤ id → s.result id = none ∧ s.completed id = none
  free : ∃ l, Free s.desc s.freeHead l ∧ (s.phase.held ++ l).Nodup ∧ ∀ i ∈ s.phase.held, i ≠ noDesc
  stage : Stage s

section

variable {s : Sys} {desc desc' : Nat → Desc} {head i : Nat} {l : List Nat}

theorem Free.congr (h : Free desc head l) (hl : ∀ i ∈ l, (desc' i).next = (desc i).next) :
    Free desc' head l := by
  induction l generalizing head with
  | nil => exact h
  | cons i l ih =>
    obtain ⟨hhead, hne, hrest⟩ := h
    refine ⟨hhead, hne, ?_⟩
    rw [hl i mem_cons_self]
    exact ih hrest fun j hj => hl j (mem_cons_of_mem _ hj)

theorem allocDesc_free (h : Free s.desc s.freeHead l) :
    match l with
    | [] => s.allocDesc = none
    | i :: l => ∃ head, s.allocDesc = some (i, { s with freeHead := head }) ∧ Free s.desc head l ∧
        i ≠ noDesc := by
  cases l with
  | nil => exact if_pos h
  | cons i l =>
    obtain ⟨rfl, hne, hrest⟩ := h
    exact ⟨_, if_neg hne, hrest, hne⟩

theorem freeDesc_free (h : Free s.desc s.freeHead l) (hi : i ∉ l) (hne : i ≠ noDesc) :
    Free (s.freeDesc i).desc (s.freeDesc i).freeHead (i :: l) := by
  refine ⟨rfl, hne, ?_⟩
  dsimp only [Sys.freeDesc]
  rw [update_self]
  refine h.congr fun j hj => ?_
  rw [update_of_ne]
  rintro rfl
  exact hi hj

theorem freeDescs_free {c : Call} (h : Free s.desc s.freeHead l)
    (hnodup : ([c.idx0, c.idx1, c.idx2] ++ l).Nodup)
    (hne : ∀ i ∈ [c.idx0, c.idx1, c.idx2], i ≠ noDesc) :
    ∃ l', Free (s.freeDescs c).desc (s.freeDescs c).freeHead l' ∧ l'.Nodup := by
  simp only [cons_append, nil_append, nodup_cons, mem_cons, not_or] at hnodup
  obtain ⟨⟨h01, h02, h0⟩, ⟨h12, h1⟩, h2, hl⟩ := hnodup
  have hfree0 := freeDesc_free h h0 (hne _ (by simp))
  have hfree1 := freeDesc_free (i := c.idx1) hfree0 (by simp [Ne.symm h01, h1]) (hne _ (by simp))
  have hfree2 := freeDesc_free (i := c.idx2) hfree1 (by simp [Ne.symm h02, Ne.symm h12, h2])
    (hne _ (by simp))
  refine ⟨_, hfree2, ?_⟩
  simp only [nodup_cons, mem_cons, not_or]
  exact ⟨⟨Ne.symm h12, Ne.symm h02, h2⟩, ⟨Ne.symm h01, h1⟩, h0, hl⟩

theorem fill_parse {c : Call} (h01 : c.idx0 ≠ c.idx1) (h02 : c.idx0 ≠ c.idx2)
    (h12 : c.idx1 ≠ c.idx2) : (s.fill c).parse c.idx0 = some c.order := by
  have hd0 : (s.fill c).desc c.idx0 = ⟨.hdr, 16, true, false, c.idx1⟩ := by
    dsimp only [Sys.fill]
    rw [update_of_ne h02, update_of_ne h01, update_self]
  have hd1 : (s.fill c).desc c.idx1 = ⟨.buf c.order.buf, 512, true, !c.order.out, c.idx2⟩ := by
    dsimp only [Sys.fill]
    rw [update_of_ne h12, update_self]
  have hd2 : (s.fill c).desc c.idx2 = ⟨.status, 1, false, true, 0⟩ := by
    dsimp only [Sys.fill]
    rw [update_self]
  unfold Sys.parse
  simp only [hd0, hd1, hd2]
  simp [Sys.fill]

end

section

variable {s s' : Sys} {c : Call}

/-- A call returns with its descriptors on the list again and nothing left with the device. -/
theorem Inv.ret {id : Nat} {code : Code} (hfresh : ∀ id, s.nextId ≤ id → s.result id = none ∧
    s.completed id = none) (hid : id < s.nextId)
    (hfree : ∃ l, Free s.desc s.freeHead l ∧ l.Nodup) (hrest : Rest s) : Inv (s.ret id code) := by
  constructor
  · intro j hj
    have hne : j ≠ id := fun e => absurd hid (by rw [← e]; exact Nat.not_lt.2 hj)
    refine ⟨?_, (hfresh j hj).2⟩
    dsimp only [Sys.ret]
    rw [update_of_ne hne]
    exact (hfresh j hj).1
  · obtain ⟨l, hl, hnodup⟩ := hfree
    exact ⟨l, hl, hnodup, fun i hi => absurd hi (by simp [Sys.ret, Phase.held, Phase.call])⟩
  · exact hrest

/-- A new call finds three descriptors, or it returns at once. -/
theorem Inv.begin {id : Nat} {order : Order} {process : Bool} {l : List Nat}
    (hfresh : ∀ id, s.nextId ≤ id → s.result id = none ∧ s.completed id = none)
    (hid : Called s ⟨id, order, process, 0, 0, 0, 0, .nops 0⟩) (hnew : s.completed id = none)
    (hl : Free s.desc s.freeHead l) (hnodup : l.Nodup) (hrest : Rest s) :
    Inv (s.begin id order process) := by
  -- The list has no descriptor, one, two or at least three.
  unfold Sys.begin
  split
  · exact Inv.ret hfresh hid.1 ⟨l, hl, hnodup⟩ hrest
  cases l with
  | nil =>
    rw [allocDesc_free hl]
    exact Inv.ret hfresh hid.1 ⟨[], hl, hnodup⟩ hrest
  | cons i l =>
    obtain ⟨head1, halloc1, hl1, hi⟩ := allocDesc_free hl
    rw [halloc1]
    generalize hs1 : ({ s with freeHead := head1 } : Sys) = s1
    replace hl1 : Free s1.desc s1.freeHead l := by rw [← hs1]; exact hl1
    obtain ⟨hi_notin, hnodup1⟩ := nodup_cons.1 hnodup
    cases l with
    | nil =>
      dsimp only
      rw [allocDesc_free hl1]
      subst hs1
      exact Inv.ret hfresh hid.1 ⟨_, freeDesc_free hl1 hi_notin hi, hnodup⟩ hrest
    | cons j l =>
      obtain ⟨head2, halloc2, hl2, hj⟩ := allocDesc_free hl1
      dsimp only
      rw [halloc2]
      generalize hs2 : ({ s1 with freeHead := head2 } : Sys) = s2
      replace hl2 : Free s2.desc s2.freeHead l := by rw [← hs2]; exact hl2
      cases l with
      | nil =>
        dsimp only
        rw [allocDesc_free hl2]
        have hfree := freeDesc_free (i := i) hl2 not_mem_nil hi
        subst hs2 hs1
        refine Inv.ret hfresh hid.1 ⟨_, freeDesc_free (i := j) hfree ?_ hj, ?_⟩ hrest
        · rw [mem_singleton]
          rintro rfl
          exact hi_notin mem_cons_self
        · simpa [eq_comm] using hnodup
      | cons k l =>
        obtain ⟨head3, halloc3, hl3, hk⟩ := allocDesc_free hl2
        dsimp only
        rw [halloc3]
        subst hs2 hs1
        constructor
        · exact hfresh
        · refine ⟨l, hl3, hnodup, fun m hm => ?_⟩
          simp only [Phase.held, Phase.call, mem_cons, not_mem_nil, or_false] at hm
          rcases hm with rfl | rfl | rfl
          · exact hi
          · exact hj
          · exact hk
        · exact ⟨hrest, hid, hnew⟩

/-- The driver goes on to a phase that holds the same descriptors. -/
theorem Inv.go {phase : Phase} (h : Inv s) (hheld : phase.held = s.phase.held)
    (hstage : Stage { s with phase := phase }) : Inv { s with phase := phase } := by
  refine ⟨h.fresh, ?_, hstage⟩
  rw [hheld]
  exact h.free

/-- The driver goes on, and with it the locals of the call. -/
theorem Flight.go {phase : Phase} {lastUsed : BitVec 16} {timeout : Timeout} (h : Flight s c) :
    Flight { s with phase := phase } { c with lastUsed := lastUsed, timeout := timeout } := by
  cases h with
  | posted hseen hinflight hring howner hparse hnone =>
    exact .posted hseen hinflight hring howner hparse hnone
  | taken moved hseen hinflight hmoved hnone => exact .taken moved hseen hinflight hmoved hnone

/-- The driver goes on, and gives up only what the device has completed. -/
theorem Inv.advance (h : Inv s) (hok : Patient s .run) : Inv s.advance := by
  have hstage := h.stage
  obtain ⟨l, hl, hnodup, hne⟩ := h.free
  have hret : ∀ {c : Call} {code : Code}, s.phase.call = some c → Called s c → Rest s →
      Inv ((s.freeDescs c).ret c.id code) := by
    intro c code hc hcalled hrest
    rw [Phase.held, hc] at hnodup hne
    exact Inv.ret h.fresh hcalled.1 (freeDescs_free hl hnodup hne) hrest
  unfold Sys.advance
  cases hphase : s.phase with
  | idle => exact h
  | prepare c =>
    rw [Stage, hphase] at hstage
    obtain ⟨hrest, hcalled, hnone⟩ := hstage
    rw [Phase.held, hphase] at hnodup hne
    have hdistinct := hnodup
    simp only [Phase.call, cons_append, nil_append, nodup_cons, mem_cons, not_or] at hdistinct
    obtain ⟨⟨h01, h02, h0⟩, ⟨h12, h1⟩, h2, -⟩ := hdistinct
    refine ⟨h.fresh, ⟨l, hl.congr fun i hi => ?_, hnodup, hne⟩, hrest, hcalled, hnone,
      fill_parse h01 h02 h12⟩
    -- The descriptors of the call are not on the list.
    dsimp only [Sys.fill]
    rw [update_of_ne, update_of_ne, update_of_ne]
    · rintro rfl
      exact h0 hi
    · rintro rfl
      exact h1 hi
    · rintro rfl
      exact h2 hi
  | publish c =>
    rw [Stage, hphase] at hstage
    obtain ⟨hrest, hcalled, hnone, hparse⟩ := hstage
    refine ⟨h.fresh, ⟨l, hl, ?_, ?_⟩, hcalled, Or.inl ?_⟩
    · rw [hphase] at hnodup
      exact hnodup
    · rw [hphase] at hne
      exact hne
    apply Flight.posted
    · dsimp only
      rw [hrest.2]
    · exact hrest.1
    · dsimp only
      rw [hrest.2, update_self]
    · dsimp only
      rw [hrest.2, update_self]
    · exact hparse
    · exact hnone
  | mark c =>
    rw [Stage, hphase] at hstage
    refine h.go (by rw [hphase]; rfl) ⟨hstage.1, hstage.2.imp (fun hf => ?_) id⟩
    exact ⟨hf.go, rfl⟩
  | wait c =>
    rw [Stage, hphase] at hstage
    dsimp only
    split
    · exact h.go (by rw [hphase]; rfl) ⟨hstage.1, hstage.2.imp (fun hf => ⟨hf.1.go, hf.2⟩) id⟩
    · rename_i hused
      exact h.go (by rw [hphase]; rfl) ⟨hstage.1, hstage.2.resolve_left fun hf => hused hf.2⟩
  | late c =>
    rw [Stage, hphase] at hstage
    dsimp only
    split
    · rename_i hexpired
      -- The device has completed the request, so it is not with the device any more.
      have hdone : Done s c := by
        refine hstage.2.resolve_left fun hf => hok c hphase hexpired ?_
        cases hf.1 with
        | posted _ _ _ _ _ hnone => exact hnone
        | taken _ _ _ _ hnone => exact hnone
      exact hret (by rw [hphase]; rfl) hstage.1 hdone.1
    · exact h.go (by rw [hphase]; rfl) ⟨hstage.1, hstage.2.imp (fun hf => ⟨hf.1.go, hf.2⟩) id⟩
  | collect c =>
    rw [Stage, hphase] at hstage
    exact hret (by rw [hphase]; rfl) hstage.1 hstage.2.1

/-- The device has something to do: it is the request of the call in progress. -/
theorem Inv.flight (h : Inv s) (hwork : s.seen ≠ s.availIdx ∨ s.inflight ≠ []) :
    ∃ c, Flight s c ∧ (s.phase = .mark c ∨
      (s.phase = .wait c ∨ s.phase = .late c) ∧ s.usedIdx = c.lastUsed) := by
  have hrest : ¬ Rest s := fun hr => hwork.elim (fun hs => hs hr.2) fun hi => hi hr.1
  have hstage := h.stage
  cases hphase : s.phase with
  | idle =>
    rw [Stage, hphase] at hstage
    exact absurd hstage hrest
  | prepare c =>
    rw [Stage, hphase] at hstage
    exact absurd hstage.1 hrest
  | publish c =>
    rw [Stage, hphase] at hstage
    exact absurd hstage.1 hrest
  | mark c =>
    rw [Stage, hphase] at hstage
    exact ⟨c, hstage.2.resolve_right fun hd => hrest hd.1, Or.inl rfl⟩
  | wait c =>
    rw [Stage, hphase] at hstage
    obtain ⟨hf, hused⟩ := hstage.2.resolve_right fun hd => hrest hd.1
    exact ⟨c, hf, Or.inr ⟨Or.inl rfl, hused⟩⟩
  | late c =>
    rw [Stage, hphase] at hstage
    obtain ⟨hf, hused⟩ := hstage.2.resolve_right fun hd => hrest hd.1
    exact ⟨c, hf, Or.inr ⟨Or.inr rfl, hused⟩⟩
  | collect c =>
    rw [Stage, hphase] at hstage
    exact absurd hstage.2.1 hrest

/-- A step of the device: the request stays with it, or it is completed. -/
theorem Inv.device {c : Call} (h : Inv s) (hphase : s.phase = .mark c ∨
      (s.phase = .wait c ∨ s.phase = .late c) ∧ s.usedIdx = c.lastUsed)
    (hdesc : s'.desc = s.desc) (hfree : s'.freeHead = s.freeHead) (hsame : s'.phase = s.phase)
    (hid : s'.nextId = s.nextId) (hresult : s'.result = s.result)
    (hcompleted : ∀ id, id ≠ c.id → s'.completed id = s.completed id)
    (hnext : Flight s' c ∧ s'.usedIdx = s.usedIdx ∨ Done s' c) : Inv s' := by
  have hcalled : Called s c := by
    have hstage := h.stage
    rcases hphase with hp | ⟨hp | hp, -⟩ <;> (rw [Stage, hp] at hstage; exact hstage.1)
  refine ⟨fun id hle => ?_, ?_, ?_⟩
  · rw [hid] at hle
    rw [hresult, hcompleted id fun e => absurd hcalled.1 (by rw [← e]; exact Nat.not_lt.2 hle)]
    exact h.fresh id hle
  · rw [hdesc, hfree, hsame]
    exact h.free
  have hcalled' : Called s' c := by rw [Called, hid, hresult]; exact hcalled
  unfold Stage
  rw [hsame]
  rcases hphase with hp | ⟨hp | hp, hused⟩
  · rw [hp]
    exact ⟨hcalled', hnext.imp And.left id⟩
  · rw [hp]
    exact ⟨hcalled', hnext.imp (fun hf => ⟨hf.1, hf.2.trans hused⟩) id⟩
  · rw [hp]
    exact ⟨hcalled', hnext.imp (fun hf => ⟨hf.1, hf.2.trans hused⟩) id⟩

theorem Inv.fetch (h : Inv s) (hs : s.fetch = some s') : Inv s' := by
  unfold Sys.fetch at hs
  split at hs
  · cases hs
  rename_i hseen
  obtain ⟨c, hflight, hphase⟩ := h.flight (Or.inl hseen)
  cases hflight with
  | posted hposted hinflight hring howner hparse hnone =>
    dsimp only at hs
    rw [hring, hparse, howner] at hs
    obtain rfl := some.inj hs
    refine h.device hphase rfl rfl rfl rfl rfl (fun _ _ => rfl) (Or.inl ⟨?_, rfl⟩)
    refine .taken false hposted.symm ?_ (fun e => by cases e) hnone
    dsimp only
    rw [hinflight, nil_append]
  | taken _ hseen' _ _ _ => exact absurd hseen' hseen

/-- The request that the device works on is the one of the call in progress. -/
theorem Inv.served {i : Nat} {r : Req} (h : Inv s) (hr : s.inflight[i]? = some r) :
    ∃ c moved, s.phase.call = some c ∧ i = 0 ∧ s.inflight = [⟨c.id, c.order, moved⟩] ∧
      r = ⟨c.id, c.order, moved⟩ ∧ s.seen = s.availIdx ∧ (moved = true → Filled s c.order) ∧
      s.completed c.id = none ∧ (s.phase = .mark c ∨
        (s.phase = .wait c ∨ s.phase = .late c) ∧ s.usedIdx = c.lastUsed) := by
  have hne : s.inflight ≠ [] := by
    intro e
    rw [e] at hr
    cases hr
  obtain ⟨c, hflight, hphase⟩ := h.flight (Or.inr hne)
  have hcall : s.phase.call = some c := by
    rcases hphase with hp | ⟨hp | hp, -⟩ <;> (rw [hp]; rfl)
  cases hflight with
  | posted _ hinflight _ _ _ _ => exact absurd hinflight hne
  | taken moved hseen hinflight hmoved hnone =>
    rw [hinflight] at hr
    cases i with
    | zero => exact ⟨c, moved, hcall, rfl, hinflight, (some.inj hr).symm, hseen, hmoved, hnone, hphase⟩
    | succ i => cases hr

/-- The data of a read is in the buffer when it has been moved. -/
theorem move_filled (s : Sys) (order : Order) : Filled (s.move order) order := by
  intro hout k hk
  unfold Sys.move
  rw [hout, if_neg Bool.false_ne_true]
  dsimp only
  rw [if_pos ⟨Nat.le_add_right _ _, Nat.add_lt_add_left hk _⟩, Nat.add_sub_cancel_left]

/-- The device serves a request that was made available. -/
theorem Inv.transfer {i : Nat} (h : Inv s) (hs : s.transfer i = some s') : Inv s' := by
  unfold Sys.transfer at hs
  rw [map_eq_some_iff] at hs
  obtain ⟨r, hr, rfl⟩ := hs
  obtain ⟨c, moved, -, rfl, hinflight, rfl, hseen, -, hnone, hphase⟩ := h.served hr
  have hsame : ∀ order, (s.move order).desc = s.desc ∧ (s.move order).freeHead = s.freeHead ∧
      (s.move order).phase = s.phase ∧ (s.move order).nextId = s.nextId ∧
      (s.move order).result = s.result ∧ (s.move order).completed = s.completed ∧
      (s.move order).usedIdx = s.usedIdx ∧ (s.move order).seen = s.seen ∧
      (s.move order).availIdx = s.availIdx := by
    intro order
    unfold Sys.move
    split
    · exact ⟨rfl, rfl, rfl, rfl, rfl, rfl, rfl, rfl, rfl⟩
    · exact ⟨rfl, rfl, rfl, rfl, rfl, rfl, rfl, rfl, rfl⟩
  obtain ⟨hdesc, hfree, hphase', hid, hresult, hcompleted, hused, hseen', havail⟩ := hsame c.order
  refine h.device hphase hdesc hfree hphase' hid hresult (fun id _ => by dsimp only; rw [hcompleted])
    (Or.inl ⟨.taken true ?_ ?_ (fun _ => move_filled s c.order) ?_, hused⟩)
  · dsimp only
    rw [hseen', havail, hseen]
  · dsimp only
    rw [hinflight]
    rfl
  · dsimp only
    rw [hcompleted, hnone]

/-- The device completes the request of the call in progress. -/
theorem Inv.complete {i : Nat} {status : Status} (h : Inv s) (hs : s.complete i status = some s') :
    Inv s' := by
  unfold Sys.complete at hs
  rw [bind_eq_some_iff] at hs
  obtain ⟨r, hr, hs⟩ := hs
  obtain ⟨c, moved, -, rfl, hinflight, rfl, hseen, hmoved, hnone, hphase⟩ := h.served hr
  split at hs
  · cases hs
  rename_i hok
  obtain rfl := some.inj hs
  refine h.device hphase rfl rfl rfl rfl rfl (fun id hid => update_of_ne hid ..)
    (Or.inr ⟨⟨?_, hseen⟩, status, update_self .., rfl, fun hstatus => ?_⟩)
  · dsimp only
    rw [hinflight]
    rfl
  refine hmoved ?_
  cases hm : moved with
  | true => rfl
  | false => exact absurd ⟨hstatus, hm⟩ hok

/-- The clock and the memory outside of the buffer of the call do not matter. -/
theorem Inv.aside {mem : Nat → UInt8} {ticks : Nat} (h : Inv s)
    (hmem : ∀ c, s.phase.call = some c → ∀ k < 512,
      mem (c.order.buf + k) = s.mem (c.order.buf + k)) :
    Inv { s with mem := mem, ticks := ticks } := by
  refine ⟨h.fresh, h.free, ?_⟩
  generalize hs' : ({ s with mem := mem, ticks := ticks } : Sys) = s'
  have hphase' : s'.phase = s.phase := by rw [← hs']
  have hfilled : ∀ {c : Call}, s.phase.call = some c → Filled s c.order → Filled s' c.order := by
    intro c hc hf hout k hk
    rw [← hs']
    exact (hmem c hc k hk).trans (hf hout k hk)
  have hflight : ∀ {c : Call}, s.phase.call = some c → Flight s c → Flight s' c := by
    intro c hc hf
    cases hf with
    | posted hseen hinflight hring howner hparse hnone =>
      subst hs'
      exact .posted hseen hinflight hring howner hparse hnone
    | taken moved hseen hinflight hmoved hnone =>
      have hmoved' := fun hm => hfilled hc (hmoved hm)
      subst hs'
      exact .taken moved hseen hinflight hmoved' hnone
  have hdone : ∀ {c : Call}, s.phase.call = some c → Done s c → Done s' c := by
    rintro c hc ⟨hrest, status, hcompleted, hbyte, hf⟩
    have hf' := fun hok => hfilled hc (hf hok)
    subst hs'
    exact ⟨hrest, status, hcompleted, hbyte, hf'⟩
  have hused : s'.usedIdx = s.usedIdx := by rw [← hs']
  have hcalled : ∀ {c : Call}, Called s c → Called s' c := by
    intro c hc
    rw [← hs']
    exact hc
  have hstage := h.stage
  unfold Stage at hstage ⊢
  rw [hphase']
  cases hphase : s.phase with
  | idle =>
    rw [hphase] at hstage
    rw [← hs']
    exact hstage
  | prepare c =>
    rw [hphase] at hstage
    rw [← hs']
    exact hstage
  | publish c =>
    rw [hphase] at hstage
    rw [← hs']
    exact hstage
  | mark c =>
    have hc : s.phase.call = some c := by rw [hphase]; rfl
    rw [hphase] at hstage
    exact ⟨hcalled hstage.1, hstage.2.imp (hflight hc) (hdone hc)⟩
  | wait c =>
    have hc : s.phase.call = some c := by rw [hphase]; rfl
    rw [hphase] at hstage
    exact ⟨hcalled hstage.1, hstage.2.imp (And.imp (hflight hc) hused.trans) (hdone hc)⟩
  | late c =>
    have hc : s.phase.call = some c := by rw [hphase]; rfl
    rw [hphase] at hstage
    exact ⟨hcalled hstage.1, hstage.2.imp (And.imp (hflight hc) hused.trans) (hdone hc)⟩
  | collect c =>
    have hc : s.phase.call = some c := by rw [hphase]; rfl
    rw [hphase] at hstage
    exact ⟨hcalled hstage.1, hdone hc hstage.2⟩

/-- Every event keeps the invariant, while no wait is given up early. -/
theorem Inv.step {e : Event} (h : Inv s) (hok : Patient s e) (hs : step s e = some s') : Inv s' := by
  cases e with
  | call order process =>
    rw [Virtio.step] at hs
    split at hs
    · rename_i hidle
      obtain rfl := some.inj hs
      have hstage := h.stage
      obtain ⟨l, hl, hnodup, -⟩ := h.free
      have hnew := h.fresh s.nextId (Nat.le_refl _)
      rw [Stage, hidle] at hstage
      rw [hidle] at hnodup
      exact Inv.begin (fun id hid => h.fresh id (Nat.le_of_succ_le hid))
        ⟨Nat.lt_succ_self _, hnew.1⟩ hnew.2 hl hnodup hstage
    · cases hs
  | run =>
    obtain rfl := some.inj hs
    exact h.advance hok
  | tick n =>
    obtain rfl := some.inj hs
    exact h.aside fun _ _ _ _ => rfl
  | poke addr byte =>
    rw [Virtio.step] at hs
    split at hs
    · cases hs
    rename_i haddr
    obtain rfl := some.inj hs
    refine h.aside fun c hc k hk => update_of_ne ?_ ..
    rintro rfl
    unfold Sys.inBuffer at haddr
    rw [hc] at haddr
    simp [hk] at haddr
  | fetch => exact h.fetch hs
  | transfer i => exact h.transfer hs
  | complete i status => exact h.complete hs

theorem Start.inv (h : Start s) : Inv s := by
  refine ⟨fun id _ => h.fresh id, ⟨[0, 1, 2, 3, 4, 5, 6, 7], ?_, ?_, ?_⟩, ?_⟩
  · have hnext := h.desc
    simp [Free, h.freeHead, noDesc]
    exact ⟨hnext 0 (by decide), hnext 1 (by decide), hnext 2 (by decide), hnext 3 (by decide),
      hnext 4 (by decide), hnext 5 (by decide), hnext 6 (by decide), hnext 7 (by decide)⟩
  · rw [h.phase]
    decide
  · rw [h.phase]
    exact fun i hi => absurd hi not_mem_nil
  · unfold Stage
    rw [h.phase]
    exact ⟨h.inflight, h.seen⟩

theorem Reach.inv (h : Reach Patient s) : Inv s := by
  induction h with
  | start hs => exact hs.inv
  | step _ hok hs ih => exact ih.step hok hs

theorem codeOf_eq_ok {status : Status} (h : codeOf status.byte = .ok) : status = .ok := by
  cases status with
  | ok => rfl
  | ioerr => cases h
  | unsupp => cases h

theorem Inv.called (h : Inv s) (hc : s.phase.call = some c) : Called s c := by
  have hstage := h.stage
  unfold Stage at hstage
  cases hphase : s.phase <;> rw [hphase] at hstage hc
  case idle => cases hc
  case prepare c' => exact some.inj hc ▸ hstage.2.1
  case publish c' => exact some.inj hc ▸ hstage.2.1
  all_goals exact some.inj hc ▸ hstage.1

/-- What the driver returns: a call that ends with `VIRTIO_E_OK` has been collected. -/
theorem Inv.advance_ok (h : Inv s) (hc : s.phase.call = some c)
    (hok : s.advance.result c.id = some .ok) :
    s.phase = .collect c ∧ codeOf s.blkStatus = .ok := by
  have hnone := (h.called hc).2
  unfold Sys.advance at hok
  cases hphase : s.phase <;> rw [hphase] at hok hc <;> cases hc
  case late =>
      dsimp only at hok
      split at hok
      · rw [Sys.giveUp, Sys.ret_result] at hok
        cases hok
      · cases hnone.symm.trans hok
  case collect =>
      rw [Sys.ret_result] at hok
      exact ⟨rfl, some.inj hok⟩
  all_goals cases hnone.symm.trans hok

/-- The disk driver: in a run in which no call gives up a request that the device has not completed,
a call returns `VIRTIO_E_OK` only if the device has completed that very request with `OK`, with the
sector in the buffer of a read, and the device moves data and completes requests only on behalf of the
call in progress. -/
theorem disk_rw_proper {e : Event} (h : Reach Patient s) (hok : Patient s e)
    (hs : step s e = some s') : Proper s e s' := by
  have hinv := h.inv
  constructor
  · intro c hc hresult
    have hnone := (hinv.called hc).2
    cases e with
    | run =>
      obtain rfl := Option.some.inj hs
      obtain ⟨hphase, hcode⟩ := hinv.advance_ok hc hresult
      have hstage := hinv.stage
      rw [Stage, hphase] at hstage
      obtain ⟨-, -, status, hcompleted, hbyte, hfilled⟩ := hstage
      rw [hbyte] at hcode
      obtain rfl := codeOf_eq_ok hcode
      have hadvance : s.advance = (s.freeDescs c).ret c.id (codeOf s.blkStatus) := by
        rw [Sys.advance, hphase]
      rw [hadvance]
      exact ⟨hcompleted, hfilled rfl⟩
    | call order process =>
      rw [step] at hs
      split at hs
      · rename_i hidle
        rw [hidle] at hc
        cases hc
      · cases hs
    | tick n =>
      obtain rfl := Option.some.inj hs
      cases hnone.symm.trans hresult
    | poke addr byte =>
      rw [step] at hs
      split at hs
      · cases hs
      · obtain rfl := Option.some.inj hs
        cases hnone.symm.trans hresult
    | fetch =>
      rw [step, Sys.fetch] at hs
      split at hs
      · cases hs
      · obtain ⟨order, -, rfl⟩ := Option.map_eq_some_iff.1 hs
        cases hnone.symm.trans hresult
    | transfer i =>
      obtain ⟨r, -, rfl⟩ := Option.map_eq_some_iff.1 hs
      dsimp only [Sys.move] at hresult
      split at hresult
      · cases hnone.symm.trans hresult
      · cases hnone.symm.trans hresult
    | complete i status =>
      obtain ⟨r, -, hs⟩ := Option.bind_eq_some_iff.1 hs
      split at hs
      · cases hs
      · obtain rfl := Option.some.inj hs
        cases hnone.symm.trans hresult
  intro r hr
  cases e with
  | transfer i =>
    obtain ⟨c, moved, hc, -, -, rfl, -⟩ := hinv.served hr
    exact ⟨c, hc, rfl, rfl⟩
  | complete i status =>
    obtain ⟨c, moved, hc, -, -, rfl, -⟩ := hinv.served hr
    exact ⟨c, hc, rfl, rfl⟩
  | _ => cases hr

end

/-- The state behind `virtio_init`, with a disk whose sectors all hold `1`. -/
def booted : Sys :=
  { driverOk := true
    desc := fun i => ⟨.hdr, 0, false, false, if i + 1 = queueSize then noDesc else i + 1⟩
    freeHead := 0
    availIdx := 0
    availRing := fun _ => 0
    usedIdx := 0
    blkHdr := ⟨false, 0⟩
    blkStatus := 0
    mem := fun _ => 0
    ticks := 0
    phase := .idle
    seen := 0
    inflight := []
    disk := fun _ _ => 1
    nextId := 0
    owner := fun _ => 0
    completed := fun _ => none
    result := fun _ => none }

theorem booted_start : Start booted where
  desc _ _ := rfl
  freeHead := rfl
  seen := rfl
  inflight := rfl
  phase := rfl
  fresh _ := ⟨rfl, rfl⟩

/-- A process reads sector 3, and the device completes the request before the deadline. -/
theorem disk_rw_proper_read : ∃ s s', runFrom booted [.call ⟨false, 3, 4096⟩ true, .run, .run, .run,
      .fetch, .transfer 0, .complete 0 .ok, .run] = some s ∧ step s .run = some s' ∧
    s'.result 0 = some .ok ∧ s'.mem 4096 = 1 ∧ Proper s .run s' := by
  have hrun : ∀ {s s' : Sys} {e : Event}, Reach Patient s → step s e = some s' →
      (∀ c, s.phase ≠ .late c) → Reach Patient s' := by
    intro s s' e h hs hlate
    refine h.step ?_ hs
    cases e with
    | run => exact fun c hc _ => absurd hc (hlate c)
    | _ => trivial
  have h₀ : Reach Patient booted := .start booted_start
  have h₁ := hrun (e := .call ⟨false, 3, 4096⟩ true) h₀ rfl (fun _ e => by cases e)
  have h₂ := hrun (e := .run) h₁ rfl (fun _ e => by cases e)
  have h3 := hrun (e := .run) h₂ rfl (fun _ e => by cases e)
  have h4 := hrun (e := .run) h3 rfl (fun _ e => by cases e)
  have h5 := hrun (e := .fetch) h4 rfl (fun _ e => by cases e)
  have h6 := hrun (e := .transfer 0) h5 rfl (fun _ e => by cases e)
  have h7 := hrun (e := .complete 0 .ok) h6 rfl (fun _ e => by cases e)
  have h8 := hrun (e := .run) h7 rfl (fun _ e => by cases e)
  exact ⟨_, _, rfl, rfl, rfl, rfl, disk_rw_proper h8 (fun c hc _ => by cases hc) rfl⟩

/-- A read of sector 3 times out while the device has it. Then the device moves its data into the
buffer of the call that has returned; and when it completes it after a second call has begun, for
sector 4, that call returns `VIRTIO_E_OK` although its own request has not even been taken. -/
theorem disk_rw_wrong :
    (∃ s s', runFrom booted [.call ⟨false, 3, 4096⟩ true, .run, .run, .run, .fetch, .run, .tick 100,
        .run] = some s ∧ s.result 0 = some .timeout ∧ step s (.transfer 0) = some s' ∧
      s.mem 4096 = 0 ∧ s'.mem 4096 = 1 ∧ ¬ Proper s (.transfer 0) s') ∧
    ∃ s s', runFrom booted [.call ⟨false, 3, 4096⟩ true, .run, .run, .run, .fetch, .run, .tick 100,
        .run, .call ⟨false, 4, 8192⟩ true, .run, .run, .run, .transfer 0, .complete 0 .ok, .run] =
          some s ∧ step s .run = some s' ∧ s'.result 1 = some .ok ∧ s'.completed 1 = none ∧
      s'.mem 8192 = 0 ∧ ¬ Proper s .run s' := by
  constructor
  · refine ⟨_, _, rfl, rfl, rfl, rfl, rfl, fun h => ?_⟩
    obtain ⟨c, hc, -⟩ := h.quiet _ rfl
    cases hc
  · refine ⟨_, _, rfl, rfl, rfl, rfl, rfl, fun h => ?_⟩
    cases (h.ok _ rfl rfl).1

end Slopix.Bio.Virtio
