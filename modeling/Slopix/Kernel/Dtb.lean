import Slopix.Lib.DeviceTree

/-!
# The device tree

`dtb_init` scans the structure block of the flattened device tree for three properties of `/chosen`. It does not
count levels: one flag is set by every node named `chosen` and cleared by every end of a node.
-/

namespace Slopix.Dtb

open Lib List Option

/-! ## The scan -/

/-- `be32_to_cpu`. -/
def be32ToCpu (be : Nat) : Nat :=
  (be &&& 0xff) <<< 24 ||| (be &&& 0xff00) <<< 8 ||| (be &&& 0xff0000) >>> 8 ||| (be &&& 0xff000000) >>> 24

/-- `unsigned int` counts modulo this. -/
def uintMod : Nat := 2 ^ 32

/-- A length rounded up to a multiple of 4, on 32 bits. -/
def align4 (val : Nat) : Nat := (val + 3) % uintMod / 4 * 4

/-- The big-endian number at `o` of the blob; nothing behind its end. -/
def be32 (blob : List UInt8) (o : Nat) : Option Nat :=
  if o + 4 ≤ blob.length then some (be32ToCpu (getLe 4 (fileBytesOf blob) o)) else none

/-- `strlen`; nothing when there is no NUL. -/
def strlen (blob : List UInt8) (o : Nat) : Option Nat :=
  if 0 ∈ blob.drop o then some (cstrAt blob o).length else none

/-- Whether `strcmp` returns 0 for the string at `o` and a string of the program. -/
def strcmpZero (blob : List UInt8) : List UInt8 → Nat → Option Bool
  | [], o => blob[o]?.map (· == 0)
  | a :: s, o => (blob[o]?).bind fun c => if c = a then strcmpZero blob s (o + 1) else some false

/-- `"chosen"` -/
def chosenName : List UInt8 := [99, 104, 111, 115, 101, 110]

/-- `"bootargs"` -/
def bootargsName : List UInt8 := [98, 111, 111, 116, 97, 114, 103, 115]

/-- `"linux,initrd-start"` -/
def initrdStartName : List UInt8 :=
  [108, 105, 110, 117, 120, 44, 105, 110, 105, 116, 114, 100, 45, 115, 116, 97, 114, 116]

/-- `"linux,initrd-end"` -/
def initrdEndName : List UInt8 := [108, 105, 110, 117, 120, 44, 105, 110, 105, 116, 114, 100, 45, 101, 110, 100]

/-- The variables of `kernel/dtb.c`. `bootargs` is an offset in the blob, or nothing for a null pointer. -/
structure Chosen where
  bootargs : Option Nat
  initrdStart : Nat
  initrdEnd : Nat
  deriving DecidableEq

/-- `in_chosen && strcmp(propname, s) == 0` -/
def wanted (blob : List UInt8) (inChosen : Bool) (propname : Nat) (s : List UInt8) : Option Bool :=
  if inChosen then strcmpZero blob s propname else some false

/-- The number in a property: two cells or one. -/
def readCells (blob : List UInt8) (len propdata : Nat) : Option Nat :=
  if len = 8 then
    (be32 blob propdata).bind fun hi => (be32 blob (propdata + 4)).map fun lo => hi <<< 32 ||| lo
  else be32 blob propdata

/-- A number that a property may replace. -/
def initrdCell (blob : List UInt8) (hit : Bool) (len propdata old : Nat) : Option Nat :=
  if hit then readCells blob len propdata else some old

/-- What the scan does with a property. -/
def takeProp (blob : List UInt8) (inChosen : Bool) (propname len propdata : Nat) (d : Chosen) : Option Chosen := do
  let isBootargs ← wanted blob inChosen propname bootargsName
  let isStart ← wanted blob inChosen propname initrdStartName
  let initrdStart ← initrdCell blob isStart len propdata d.initrdStart
  let isEnd ← wanted blob inChosen propname initrdEndName
  let initrdEnd ← initrdCell blob isEnd len propdata d.initrdEnd
  some { bootargs := if isBootargs then some propdata else d.bootargs, initrdStart, initrdEnd }

/-- The loop of `dtb_init`, with a bound on its passes. Nothing is a read behind the blob, or more passes. -/
def scan (blob : List UInt8) (strings : Nat) : Nat → Nat → Bool → Chosen → Option Chosen
  | 0, _, _, _ => none
  | fuel + 1, p, inChosen, d =>
    (be32 blob p).bind fun token =>
      if token = fdtBeginNode then
        (strlen blob (p + 4)).bind fun namelen =>
          (strcmpZero blob chosenName (p + 4)).bind fun hit =>
            scan blob strings fuel (p + 4 + align4 ((namelen + 1) % uintMod)) (inChosen || hit) d
      else if token = fdtEndNode then scan blob strings fuel (p + 4) false d
      else if token = fdtProp then
        (be32 blob (p + 4)).bind fun len => (be32 blob (p + 8)).bind fun nameoff =>
          (takeProp blob inChosen (strings + nameoff) len (p + 12) d).bind fun d' =>
            scan blob strings fuel (p + 12 + align4 len) inChosen d'
      else if token = fdtNop then scan blob strings fuel (p + 4) inChosen d
      else if token = fdtEnd then some d
      else some d

/-- The variables at first. -/
def Chosen.zero : Chosen := { bootargs := none, initrdStart := 0, initrdEnd := 0 }

/-- `dtb_init` for a blob, or for a null pointer. A token takes four bytes, so there are no more passes than
bytes. -/
def dtbInit : Option (List UInt8) → Option Chosen
  | none => some Chosen.zero
  | some blob =>
    (be32 blob 0).bind fun magic =>
      if magic ≠ fdtMagic then some Chosen.zero
      else
        (be32 blob 8).bind fun offDtStruct => (be32 blob 12).bind fun offDtStrings =>
          scan blob offDtStrings blob.length offDtStruct false Chosen.zero

/-! ## Reading the blob -/

section

variable {blob rest s name : List UInt8} {o v : Nat}

theorem and_byte (x s : Nat) : x &&& 0xff <<< s = (x >>> s % 256) <<< s := by
  apply Nat.eq_of_testBit_eq
  intro i
  rw [show (256 : Nat) = 2 ^ 8 from rfl, show (0xff : Nat) = 2 ^ 8 - 1 from rfl, Nat.testBit_and,
    Nat.testBit_shiftLeft, Nat.testBit_shiftLeft, Nat.testBit_mod_two_pow, Nat.testBit_shiftRight,
    Nat.testBit_two_pow_sub_one]
  by_cases hi : s ≤ i
  · simp [hi, Bool.and_comm]
  · simp [hi]

theorem be32ToCpu_eq (a b c d : UInt8) :
    be32ToCpu (a.toNat + 256 * (b.toNat + 256 * (c.toNat + 256 * d.toNat))) = beNat [a, b, c, d] := by
  have ha := a.toNat_lt
  have hb := b.toNat_lt
  have hc := c.toNat_lt
  have hd := d.toNat_lt
  generalize hx : a.toNat + 256 * (b.toNat + 256 * (c.toNat + 256 * d.toNat)) = x
  have h₀ : x &&& 0xff = a.toNat := by
    have h := and_byte x 0
    simp only [Nat.shiftLeft_zero, Nat.shiftRight_zero] at h
    omega
  have h1 : (x &&& 0xff00) <<< 8 = b.toNat <<< 16 := by
    have h := and_byte x 8
    rw [show (0xff00 : Nat) = 0xff <<< 8 from rfl, h, ← Nat.shiftLeft_add, Nat.shiftRight_eq_div_pow]
    congr 1
    omega
  have h2 : (x &&& 0xff0000) >>> 8 = c.toNat <<< 8 := by
    have h := and_byte x 16
    rw [show (0xff0000 : Nat) = 0xff <<< 16 from rfl, h, Nat.shiftRight_eq_div_pow x, Nat.shiftRight_eq_div_pow,
      Nat.shiftLeft_eq, Nat.shiftLeft_eq]
    omega
  have h3 : (x &&& 0xff000000) >>> 24 = d.toNat := by
    have h := and_byte x 24
    rw [show (0xff000000 : Nat) = 0xff <<< 24 from rfl, h, Nat.shiftRight_eq_div_pow x, Nat.shiftRight_eq_div_pow,
      Nat.shiftLeft_eq]
    omega
  unfold be32ToCpu
  rw [h₀, h1, h2, h3, Nat.or_assoc, Nat.or_assoc, ← Nat.shiftLeft_add_eq_or_of_lt (by omega) c.toNat,
    ← Nat.shiftLeft_add_eq_or_of_lt (by rw [Nat.shiftLeft_eq]; omega) b.toNat,
    ← Nat.shiftLeft_add_eq_or_of_lt (by simp only [Nat.shiftLeft_eq]; omega) a.toNat]
  simp only [Nat.shiftLeft_eq, beNat, List.foldl]
  omega

theorem be32_of_remains {bs : List UInt8} (h : Remains blob o (bs ++ rest)) (hlen : bs.length = 4) :
    be32 blob o = some (beNat bs) := by
  obtain ⟨a, b, c, d, rfl⟩ : ∃ a b c d, bs = [a, b, c, d] := by
    match bs, hlen with
    | [a, b, c, d], _ => exact ⟨a, b, c, d, rfl⟩
  obtain ⟨pre, rfl, rfl⟩ := h
  have hbound : pre.length + 4 ≤ (pre ++ ([a, b, c, d] ++ rest)).length := by
    simp only [length_append, length_cons, length_nil]
    omega
  have hnum := getLe_append (n := 4) pre ([a, b, c, d] ++ rest) 0
  unfold be32
  rw [if_pos hbound, ← add_zero pre.length, hnum]
  exact congrArg some (be32ToCpu_eq a b c d)

theorem be32_beBytes (h : Remains blob o (beBytes v ++ rest)) (hv : v < 2 ^ 32) : be32 blob o = some v := by
  rw [be32_of_remains h rfl, beNat_beBytes hv]

theorem strlen_of_remains (h : Remains blob o (name ++ 0 :: rest)) (hname : 0 ∉ name) :
    strlen blob o = some name.length := by
  obtain ⟨pre, rfl, rfl⟩ := h
  unfold strlen
  rw [cstrAt_middle pre rest hname, drop_left, if_pos (by simp)]

theorem strcmpZero_of_remains (h : Remains blob o (name ++ 0 :: rest)) (hname : 0 ∉ name) (hs : 0 ∉ s) :
    strcmpZero blob s o = some (decide (name = s)) := by
  induction s generalizing o name with
  | nil =>
    cases name with
    | nil => simp [strcmpZero, h.head]
    | cons c name =>
      have hc : c ≠ 0 := fun e => hname (e ▸ mem_cons_self)
      simp [strcmpZero, h.head, hc]
  | cons a s ih =>
    have ha : a ≠ 0 := fun e => hs (e ▸ mem_cons_self)
    cases name with
    | nil => simp [strcmpZero, h.head, ha.symm]
    | cons c name =>
      have hcons : Remains blob o ([c] ++ (name ++ 0 :: rest)) := h
      have hnext := ih (hcons.skip (o + 1) rfl) (fun h0 => hname (mem_cons_of_mem c h0))
        (fun h0 => hs (mem_cons_of_mem a h0))
      rw [strcmpZero, h.head, bind_some]
      by_cases hca : c = a
      · rw [if_pos hca, hnext, hca]
        simp
      · rw [if_neg hca]
        simp [hca]

theorem align4_padded (h : s.length + 3 < 2 ^ 32) : align4 s.length = (padded s).length := by
  unfold align4 padded uintMod
  rw [length_append, length_replicate]
  omega

end

/-! ## What the scan comes to -/

/-- A property that the scan takes, with the bytes of the blob from its value on. -/
structure Taken where
  prop : Property
  tail : List UInt8

/-- The number read from a property. -/
def Taken.cells (t : Taken) : Nat :=
  if t.prop.value.length = 8 then beNat (t.tail.take 8) else beNat (t.tail.take 4)

/-- The properties that stand between the name of a node named `chosen` and the next end of a node; the flag says
whether there was such a name in front of the body. -/
def taken (flag : Bool) : Body → List UInt8 → List Taken
  | .done, _ => []
  | .nop rest, after => taken flag rest after
  | .prop p rest, after =>
    if flag then { prop := p, tail := padded p.value ++ rest.encode after } :: taken flag rest after
    else taken flag rest after
  | .node name body rest, after =>
    taken (flag || decide (name.bytes = chosenName)) body (beBytes fdtEndNode ++ rest.encode after) ++
      taken false rest after

/-- The last one taken under the name. -/
def lastNamed (name : List UInt8) (ts : List Taken) : Option Taken :=
  ts.reverse.find? fun t => decide (t.prop.name.bytes = name)

/-- The variables after taking the properties `ts`. -/
structure Shows (blob : List UInt8) (ts : List Taken) (d : Chosen) : Prop where
  bootargs : Option.Rel (Remains blob) d.bootargs ((lastNamed bootargsName ts).map Taken.tail)
  initrdStart : d.initrdStart = ((lastNamed initrdStartName ts).map Taken.cells).getD 0
  initrdEnd : d.initrdEnd = ((lastNamed initrdEndName ts).map Taken.cells).getD 0

section

variable {blob after tail : List UInt8} {o strings fuel : Nat} {d : Chosen} {ts : List Taken} {t : Taken} {p : Property}
  {flag : Bool} {b : Body}

theorem lastNamed_append (name : List UInt8) (ts : List Taken) (t : Taken) :
    lastNamed name (ts ++ [t]) = if t.prop.name.bytes = name then some t else lastNamed name ts := by
  unfold lastNamed
  split <;> simp_all

/-- One cell or two of a property that stands whole in the blob. -/
theorem readCells_eq (h : Remains blob o t.tail) (hlen : 4 ≤ t.tail.length)
    (htail : t.prop.value.length ≤ t.tail.length) :
    readCells blob t.prop.value.length o = some t.cells := by
  have hsplit : ∀ n, Remains blob o (t.tail.take n ++ t.tail.drop n) := fun n => by
    rwa [take_append_drop]
  unfold readCells Taken.cells
  by_cases h8 : t.prop.value.length = 8
  · have hhi := be32_of_remains (hsplit 4) (by rw [length_take]; omega)
    have hnext := (hsplit 4).skip (o + 4) (by rw [length_take]; omega)
    rw [← take_append_drop 4 (t.tail.drop 4)] at hnext
    have hlo := be32_of_remains hnext (by rw [length_take, length_drop]; omega)
    have hlt := beNat_lt ((t.tail.drop 4).take 4)
    rw [length_take, length_drop, min_eq_left (by omega),
      show (256 : Nat) ^ 4 = 2 ^ 32 from rfl] at hlt
    rw [if_pos h8, if_pos h8, hhi, hlo, bind_some, map_some,
      ← Nat.shiftLeft_add_eq_or_of_lt (i := 32) hlt, Nat.shiftLeft_eq, take_add (i := 4) (j := 4),
      beNat_append, length_take, length_drop, min_eq_left (by omega)]
    rfl
  · rw [if_neg h8, if_neg h8]
    exact be32_of_remains (hsplit 4) (by rw [length_take]; omega)

theorem wanted_eq (flag : Bool) {propname : Nat} {s : List UInt8} (hname : StandsAt blob propname (p.name.bytes ++ [0]))
    (hs : 0 ∉ s) : wanted blob flag propname s = some (flag && decide (p.name.bytes = s)) := by
  obtain ⟨rest, hrem⟩ := hname.remains
  rw [append_assoc, singleton_append] at hrem
  unfold wanted
  rw [strcmpZero_of_remains hrem p.name.noNul hs]
  cases flag <;> rfl

theorem takeProp_spec (flag : Bool) {propname : Nat} (hname : StandsAt blob propname (t.prop.name.bytes ++ [0]))
    (h : Remains blob o t.tail) (hlen : 4 ≤ t.tail.length) (htail : t.prop.value.length ≤ t.tail.length)
    (hd : Shows blob ts d) :
    ∃ d', takeProp blob flag propname t.prop.value.length o d = some d' ∧
      Shows blob (if flag then ts ++ [t] else ts) d' := by
  have hboot := wanted_eq flag hname (s := bootargsName) (by decide)
  have hstart := wanted_eq flag hname (s := initrdStartName) (by decide)
  have hend := wanted_eq flag hname (s := initrdEndName) (by decide)
  have hcell : ∀ hit old, initrdCell blob hit t.prop.value.length o old = some (if hit then t.cells else old) := by
    intro hit old
    unfold initrdCell
    rw [readCells_eq h hlen htail]
    cases hit <;> rfl
  unfold takeProp
  simp only [hboot, hstart, hend, hcell, bind_eq_bind, bind_some]
  refine ⟨_, rfl, ?_⟩
  cases flag with
  | false => simpa using hd
  | true =>
    simp only [Bool.true_and, decide_eq_true_eq, if_true]
    constructor
    · simp only [lastNamed_append]
      split
      · exact Option.Rel.some h
      · exact hd.bootargs
    · simp only [lastNamed_append]
      split
      · rfl
      · exact hd.initrdStart
    simp only [lastNamed_append]
    split
    · rfl
    · exact hd.initrdEnd

/-- Over a body the scan takes what stands between a name `chosen` and the next end of a node. -/
theorem scan_body (fuel : Nat) (flag : Bool) (h : Remains blob o (b.encode after)) (hafter : 4 ≤ after.length) (hsize : blob.length < 2 ^ 32)
    (hstrings : ∀ p ∈ b.properties, StandsAt blob (strings + p.nameoff) (p.name.bytes ++ [0]))
    (hd : Shows blob ts d) :
    ∃ d' o' flag', Shows blob (ts ++ taken flag b after) d' ∧ Remains blob o' after ∧
      scan blob strings (fuel + b.tokens) o flag d = scan blob strings fuel o' flag' d' := by
  induction b generalizing o flag d ts after fuel with
  | done => exact ⟨d, o, flag, by simpa [taken] using hd, h, rfl⟩
  | nop rest ih =>
    have htoken := be32_beBytes h (by decide)
    obtain ⟨d', o', flag', hd', hrem, hscan⟩ := ih fuel flag (h.skip (o + 4) rfl) hafter
      hstrings hd
    refine ⟨d', o', flag', hd', hrem, ?_⟩
    rw [← hscan]
    change scan blob strings (fuel + rest.tokens + 1) o flag d = _
    rw [scan, htoken]
    rfl
  | prop p rest ih =>
    have hfits := h.length_eq
    have hvalue := length_le_padded p.value
    have hrest := rest.tokens_le after
    have hname := (hstrings p mem_cons_self).bound
    simp only [Body.encode, length_append, length_beBytes] at hfits
    have hlen : p.value.length + 3 < 2 ^ 32 := by omega
    have hoff : p.nameoff < 2 ^ 32 := by omega
    have htoken := be32_beBytes h (by decide)
    have h1 := h.skip (o + 4) rfl
    have hnum := be32_beBytes h1 (by omega)
    have h2 := h1.skip (o + 8) rfl
    have hnameoff := be32_beBytes h2 hoff
    have h3 := h2.skip (o + 12) rfl
    obtain ⟨d1, htake, hd1⟩ := takeProp_spec flag
      (t := { prop := p, tail := padded p.value ++ rest.encode after })
      (hstrings p mem_cons_self) h3 (by rw [length_append]; omega)
      (by rw [length_append]; exact Nat.le_trans hvalue (Nat.le_add_right _ _)) hd
    obtain ⟨d', o', flag', hd', hrem, hscan⟩ := ih fuel flag
      (h3.skip (o + 12 + align4 p.value.length) (by rw [align4_padded hlen])) hafter
      (fun q hq => hstrings q (mem_cons_of_mem p hq)) hd1
    refine ⟨d', o', flag', ?_, hrem, ?_⟩
    · cases flag <;> simpa [taken] using hd'
    rw [← hscan]
    change scan blob strings (fuel + rest.tokens + 1) o flag d = _
    rw [scan, htoken, bind_some, if_neg (by decide), if_neg (by decide), if_pos rfl, hnum,
      bind_some, hnameoff, bind_some, htake]
    rfl
  | node name body rest ihbody ihrest =>
    have hfits := h.length_eq
    have hpad := length_le_padded (name.bytes ++ [0])
    have hbody := body.tokens_le (beBytes fdtEndNode ++ rest.encode after)
    simp only [Body.encode, length_append, length_beBytes, length_singleton] at hfits hpad hbody
    have htoken := be32_beBytes h (by decide)
    have h1 := h.skip (o + 4) rfl
    have h2 := h1.skip (o + 4 + align4 (name.bytes ++ [0]).length) (by
      rw [align4_padded (by rw [length_append, length_singleton]; omega)])
    have hstr : Remains blob (o + 4) (name.bytes ++ 0 :: (List.replicate
        (((name.bytes ++ [0]).length + 3) / 4 * 4 - (name.bytes ++ [0]).length) 0 ++
          body.encode (beBytes fdtEndNode ++ rest.encode after))) := by
      simpa only [padded, append_assoc, cons_append, nil_append] using h1
    have hlen := strlen_of_remains hstr name.noNul
    have hcmp := strcmpZero_of_remains (s := chosenName) hstr name.noNul (by decide)
    -- the body is scanned with the flag of its name, and its end clears the flag
    obtain ⟨d1, o1, flag1, hd1, hrem1, hscan1⟩ := ihbody (fuel + rest.tokens + 1)
      (flag || decide (name.bytes = chosenName)) h2 (by simp)
      (fun p hp => hstrings p (mem_append_left _ hp)) hd
    have hend := be32_beBytes hrem1 (by decide)
    obtain ⟨d', o', flag', hd', hrem, hscan⟩ := ihrest fuel false
      (hrem1.skip (o1 + 4) rfl) hafter (fun p hp => hstrings p (mem_append_right _ hp)) hd1
    refine ⟨d', o', flag', ?_, hrem, ?_⟩
    · rwa [taken, ← append_assoc]
    rw [← hscan]
    have hfuel : fuel + (Body.node name body rest).tokens = fuel + rest.tokens + 1 + body.tokens + 1 := by
      simp only [Body.tokens, add_assoc]
    have hmod : (name.bytes.length + 1) % uintMod = (name.bytes ++ [0]).length := by
      rw [length_append, length_singleton]
      exact Nat.mod_eq_of_lt (by unfold uintMod; omega)
    rw [hfuel, scan, htoken, bind_some, if_pos rfl, hlen, bind_some, hcmp, bind_some, hmod, hscan1,
      scan, hend]
    rfl

end

/-! ## The whole tree -/

/-- What `dtb_init` is to leave: the values of the properties of `/chosen`. -/
structure Describes (blob : List UInt8) (t : DeviceTree) (d : Chosen) : Prop where
  bootargs : Option.Rel (StandsAt blob) d.bootargs ((t.property? chosenName bootargsName).map Property.value)
  initrdStart : d.initrdStart =
    ((t.property? chosenName initrdStartName).map fun p => beNat p.value).getD 0
  initrdEnd : d.initrdEnd = ((t.property? chosenName initrdEndName).map fun p => beNat p.value).getD 0

/-- The trees in which the last of the properties `ts` has, for each name, the value of that of `/chosen`. -/
structure Undisturbed (t : DeviceTree) (ts : List Taken) : Prop where
  bootargs : Option.Rel (fun tail value => value <+: tail) ((lastNamed bootargsName ts).map Taken.tail)
    ((t.property? chosenName bootargsName).map Property.value)
  initrdStart : ((lastNamed initrdStartName ts).map Taken.cells).getD 0 =
    ((t.property? chosenName initrdStartName).map fun p => beNat p.value).getD 0
  initrdEnd : ((lastNamed initrdEndName ts).map Taken.cells).getD 0 =
    ((t.property? chosenName initrdEndName).map fun p => beNat p.value).getD 0

/-- The properties of a node in front of its first sub-node, then those of that sub-node in front of its own
first sub-node, and so on. -/
def leading : Body → List UInt8 → List Taken
  | .done, _ => []
  | .nop rest, after => leading rest after
  | .prop p rest, after => { prop := p, tail := padded p.value ++ rest.encode after } :: leading rest after
  | .node _ body rest, after => leading body (beBytes fdtEndNode ++ rest.encode after)

/-- The leading properties of every node named `chosen`, wherever it stands, in the order of the nodes. -/
def leadingChosen : Body → List UInt8 → List Taken
  | .done, _ => []
  | .nop rest, after => leadingChosen rest after
  | .prop _ rest, after => leadingChosen rest after
  | .node name body rest, after =>
    (if name.bytes = chosenName then leading body (beBytes fdtEndNode ++ rest.encode after) else []) ++
      leadingChosen body (beBytes fdtEndNode ++ rest.encode after) ++ leadingChosen rest after

/-- The leading properties of the nodes named `chosen` in a tree in front of `after`. -/
def takenFrom (t : DeviceTree) (after : List UInt8) : List Taken :=
  leadingChosen t.nodes (beBytes fdtEnd ++ after)

section

variable {blob after : List UInt8} {t : DeviceTree} {d : Chosen} {ts : List Taken}

theorem Shows.describes_iff (h : Shows blob ts d) : Describes blob t d ↔ Undisturbed t ts := by
  have hboot : Option.Rel (StandsAt blob) d.bootargs ((t.property? chosenName bootargsName).map Property.value) ↔
      Option.Rel (fun tail value => value <+: tail) ((lastNamed bootargsName ts).map Taken.tail)
        ((t.property? chosenName bootargsName).map Property.value) := by
    have hptr := h.bootargs
    generalize d.bootargs = x, (lastNamed bootargsName ts).map Taken.tail = y,
      (t.property? chosenName bootargsName).map Property.value = z at hptr ⊢
    cases hptr with
    | none => constructor <;> rintro ⟨⟩ <;> exact Option.Rel.none
    | some hrem =>
      constructor
      · rintro (hv | -)
        exact Option.Rel.some (hrem.standsAt_iff.1 hv)
      · rintro (hv | -)
        exact Option.Rel.some (hrem.standsAt_iff.2 hv)
  constructor
  · rintro ⟨h1, h2, h3⟩
    exact ⟨hboot.1 h1, h.initrdStart ▸ h2, h.initrdEnd ▸ h3⟩
  · rintro ⟨h1, h2, h3⟩
    exact ⟨hboot.2 h1, h.initrdStart.trans h2, h.initrdEnd.trans h3⟩

theorem lastNamed_join (name : List UInt8) (ts ts' : List Taken) :
    lastNamed name (ts ++ ts') = (lastNamed name ts').or (lastNamed name ts) := by
  unfold lastNamed
  rw [reverse_append, find?_append]

/-- The flag of the scan amounts to the leading properties of the nodes named `chosen`. When one such node leads
another, what the two have in common is the end of the first. -/
theorem lastNamed_taken (name : List UInt8) (flag : Bool) (b : Body) (after : List UInt8) :
    lastNamed name (taken flag b after) =
      lastNamed name ((if flag then leading b after else []) ++ leadingChosen b after) := by
  induction b generalizing flag after with
  | done => cases flag <;> rfl
  | nop rest ih => exact ih flag after
  | prop p rest ih =>
    have hrest := ih flag after
    cases flag with
    | false => exact hrest
    | true =>
      rw [taken, leading, leadingChosen, if_pos rfl, if_pos rfl, cons_append, ← singleton_append,
        lastNamed_join, hrest, if_pos rfl, ← lastNamed_join, singleton_append]
  | node n body rest ihbody ihrest =>
    have hrest := ihrest false after
    rw [if_neg (by simp), nil_append] at hrest
    rw [taken, leading, leadingChosen, lastNamed_join, hrest, ihbody, append_assoc, ← append_assoc]
    simp only [lastNamed_join, Option.or_assoc]
    congr 2
    by_cases hn : n.bytes = chosenName <;> cases flag <;> simp [hn, lastNamed]

theorem Shows.congr {ts' : List Taken} (h : Shows blob ts d) (hlast : ∀ name, lastNamed name ts' = lastNamed name ts) :
    Shows blob ts' d := by
  obtain ⟨hboot, hstart, hend⟩ := h
  rw [← hlast] at hboot hstart hend
  exact ⟨hboot, hstart, hend⟩

theorem dtbInit_shows (h : Flattened blob t after) :
    ∃ d, dtbInit (some blob) = some d ∧ Shows blob (takenFrom t after) d := by
  obtain ⟨soff, hsoff, hsword, hrem⟩ := h.structs
  obtain ⟨noff, hnoff, hnword, hstrings⟩ := h.strings
  obtain ⟨_, hmagic⟩ := h.magic.remains
  obtain ⟨_, hsrem⟩ := hsword.remains
  obtain ⟨_, hnrem⟩ := hnword.remains
  have hzero : Shows blob [] Chosen.zero := ⟨Option.Rel.none, rfl, rfl⟩
  -- one pass for each token, and one for the last
  have htokens := t.nodes.tokens_le (beBytes fdtEnd ++ after)
  have hfits := hrem.length_eq
  rw [length_append, length_beBytes] at htokens
  obtain ⟨fuel, hfuel⟩ : ∃ fuel, blob.length = fuel + 1 + t.nodes.tokens :=
    ⟨blob.length - 1 - t.nodes.tokens, by omega⟩
  obtain ⟨d, o, flag, hshows, hend, hscan⟩ := scan_body (fuel + 1) false hrem
    (by simp) h.size hstrings hzero
  refine ⟨d, ?_, hshows.congr fun name => (lastNamed_taken name false _ _).symm⟩
  unfold dtbInit
  simp only [be32_beBytes hmagic (by decide), be32_beBytes hsrem hsoff, be32_beBytes hnrem hnoff, bind_some,
    ne_eq, not_true_eq_false, if_false]
  rw [hfuel, hscan, scan, be32_beBytes hend (by decide)]
  rfl

/-- `dtb_init` ends on every tree, and is right exactly when no leading property of another node named `chosen`,
or of the first node below one, stands in for that of `/chosen`. -/
theorem dtb_init_exact (h : Flattened blob t after) :
    ∃ d, dtbInit (some blob) = some d ∧ (Describes blob t d ↔ Undisturbed t (takenFrom t after)) := by
  obtain ⟨d, hrun, hshows⟩ := dtbInit_shows h
  exact ⟨d, hrun, hshows.describes_iff⟩

/-- `linux,initrd-start` with the value 1. -/
def startProperty : Property := { name := ⟨initrdStartName, by decide⟩, nameoff := 0, value := beBytes 1 }

/-- The strings block with that name. -/
def startNames : List UInt8 := initrdStartName ++ [0]

/-- `/chosen` with the property, and a node with the same property. -/
def plainTree : DeviceTree where
  root := .node ⟨chosenName, by decide⟩ (.prop startProperty .done)
    (.node ⟨[120], by decide⟩ (.prop startProperty .done) .done)
  leading := 0
  trailing := 1

/-- `/chosen` without properties, and the property in the node `x` of it. -/
def nestedTree : DeviceTree where
  root := .node ⟨chosenName, by decide⟩ (.node ⟨[120], by decide⟩ (.prop startProperty .done) .done) .done
  leading := 0
  trailing := 0

theorem startProperty_stands {p : Property} (h : p = startProperty) :
    StandsAt startNames p.nameoff (p.name.bytes ++ [0]) := by
  subst h
  exact ⟨[], [], rfl, rfl⟩

/-- A tree with the two addresses of the initramfs. -/
theorem dtb_init_exact_plain :
    ∃ d, dtbInit (some (plainTree.blob startNames)) = some d ∧
      Describes (plainTree.blob startNames) plainTree d := by
  have hflat : Flattened (plainTree.blob startNames) plainTree startNames :=
    DeviceTree.flattened_blob (by decide) fun p hp => startProperty_stands (by
      rcases mem_cons.1 hp with h | h
      · exact h
      · exact mem_singleton.1 h)
  obtain ⟨d, hrun, hexact⟩ := dtb_init_exact hflat
  exact ⟨d, hrun, hexact.2 ⟨Option.Rel.none, by decide, by decide⟩⟩

/-- A property of a node below `/chosen` is taken for one of `/chosen`. -/
theorem dtb_init_takes_nested :
    Flattened (nestedTree.blob startNames) nestedTree startNames ∧
      ∃ d, dtbInit (some (nestedTree.blob startNames)) = some d ∧
        ¬ Describes (nestedTree.blob startNames) nestedTree d := by
  have hflat : Flattened (nestedTree.blob startNames) nestedTree startNames :=
    DeviceTree.flattened_blob (by decide) fun p hp => startProperty_stands (mem_singleton.1 hp)
  obtain ⟨d, hrun, hshows⟩ := dtbInit_shows hflat
  refine ⟨hflat, d, hrun, fun h => ?_⟩
  have hstart := (hshows.describes_iff.1 h).initrdStart
  revert hstart
  decide

end

end Slopix.Dtb
