import Mathlib.Data.List.Induction
import Slopix.Lib.Record

/-!
# Flattened device trees

A device tree as its flattened form has it: a structure block of big-endian tokens, in which a node is
bracketed by its name and an end token, and a strings block with the names of the properties. A tree is encoded
in front of the bytes that follow it, so that what stands behind a property is at hand.
-/

namespace Slopix.Lib

open List

/-! ## Big-endian numbers -/

/-- The four bytes of a number, most significant first. -/
def beBytes (v : Nat) : List UInt8 :=
  [UInt8.ofNat (v / 2 ^ 24), UInt8.ofNat (v / 2 ^ 16), UInt8.ofNat (v / 2 ^ 8), UInt8.ofNat v]

/-- The number that bytes stand for, most significant first. -/
def beNat (bs : List UInt8) : Nat := bs.foldl (fun n c => n * 256 + c.toNat) 0

theorem beNat_beBytes {v : Nat} (hv : v < 2 ^ 32) : beNat (beBytes v) = v := by
  simp only [beNat, beBytes, List.foldl, UInt8.toNat_ofNat']
  omega

theorem beNat_append (as bs : List UInt8) : beNat (as ++ bs) = beNat as * 256 ^ bs.length + beNat bs := by
  induction bs using List.reverseRecOn with
  | nil => simp [beNat]
  | append_singleton bs c ih =>
    have hsnoc : ∀ l : List UInt8, beNat (l ++ [c]) = beNat l * 256 + c.toNat := fun l => by
      unfold beNat
      rw [foldl_append]
      rfl
    rw [← append_assoc, hsnoc, hsnoc, ih, length_append, length_singleton, pow_succ]
    ring

theorem beNat_lt (bs : List UInt8) : beNat bs < 256 ^ bs.length := by
  induction bs with
  | nil => decide
  | cons c bs ih =>
    have hc := c.toNat_lt
    rw [← singleton_append, beNat_append, length_append, length_singleton, pow_add, pow_one]
    calc beNat [c] * 256 ^ bs.length + beNat bs < c.toNat * 256 ^ bs.length + 256 ^ bs.length := by
          simp only [beNat, List.foldl, Nat.zero_mul, Nat.zero_add] at ih ⊢
          omega
      _ = (c.toNat + 1) * 256 ^ bs.length := by ring
      _ ≤ 256 * 256 ^ bs.length := Nat.mul_le_mul_right _ (by omega)

@[simp] theorem length_beBytes (v : Nat) : (beBytes v).length = 4 := rfl

/-! ## Trees -/

/-- A name: a string without a NUL. -/
structure TreeName where
  bytes : List UInt8
  noNul : 0 ∉ bytes
  deriving DecidableEq

/-- A property. Its name stands at `nameoff` in the strings block. -/
structure Property where
  name : TreeName
  nameoff : Nat
  value : List UInt8

/-- What stands inside a node: properties, nodes and NOP tokens. -/
inductive Body where
  | done
  | nop (rest : Body)
  | prop (p : Property) (rest : Body)
  | node (name : TreeName) (body rest : Body)

/-- A device tree: the inside of the root node, and the NOP tokens around the root. -/
structure DeviceTree where
  root : Body
  leading : Nat
  trailing : Nat

/-- `FDT_MAGIC`. -/
def fdtMagic : Nat := 0xd00dfeed

/-- `FDT_BEGIN_NODE`. -/
def fdtBeginNode : Nat := 1

/-- `FDT_END_NODE`. -/
def fdtEndNode : Nat := 2

/-- `FDT_PROP`. -/
def fdtProp : Nat := 3

/-- `FDT_NOP`. -/
def fdtNop : Nat := 4

/-- `FDT_END`. -/
def fdtEnd : Nat := 9

/-- Bytes and the zeros up to the next multiple of four. -/
def padded (bs : List UInt8) : List UInt8 := bs ++ List.replicate ((bs.length + 3) / 4 * 4 - bs.length) 0

theorem length_le_padded (bs : List UInt8) : bs.length ≤ (padded bs).length := by
  unfold padded
  rw [length_append]
  exact Nat.le_add_right _ _

namespace Body

/-- NOP tokens in front of a body. -/
def nops : Nat → Body → Body
  | 0, rest => rest
  | n + 1, rest => nop (nops n rest)

/-- The bytes of a body in front of `after`. -/
def encode : Body → List UInt8 → List UInt8
  | done, after => after
  | nop rest, after => beBytes fdtNop ++ rest.encode after
  | prop p rest, after => beBytes fdtProp ++ (beBytes p.value.length ++ (beBytes p.nameoff ++
      (padded p.value ++ rest.encode after)))
  | node name body rest, after => beBytes fdtBeginNode ++ (padded (name.bytes ++ [0]) ++
      body.encode (beBytes fdtEndNode ++ rest.encode after))

/-- All properties of a body and of the nodes in it. -/
def properties : Body → List Property
  | done => []
  | nop rest => rest.properties
  | prop p rest => p :: rest.properties
  | node _ body rest => body.properties ++ rest.properties

/-- The first node of a name. -/
def child? (name : List UInt8) : Body → Option Body
  | done => none
  | nop rest => rest.child? name
  | prop _ rest => rest.child? name
  | node n body rest => if n.bytes = name then some body else rest.child? name

/-- The first property of a name, nodes left out. -/
def property? (name : List UInt8) : Body → Option Property
  | done => none
  | nop rest => rest.property? name
  | prop p rest => if p.name.bytes = name then some p else rest.property? name
  | node _ _ rest => rest.property? name

/-- The number of tokens of a body. -/
def tokens : Body → Nat
  | done => 0
  | nop rest => rest.tokens + 1
  | prop _ rest => rest.tokens + 1
  | node _ body rest => rest.tokens + 1 + body.tokens + 1

theorem tokens_le (b : Body) (after : List UInt8) : b.tokens + after.length ≤ (b.encode after).length := by
  induction b generalizing after with
  | done => simp [tokens, encode]
  | nop rest ih =>
    have hrest := ih after
    simp only [tokens, encode, length_append, length_beBytes]
    omega
  | prop p rest ih =>
    have hrest := ih after
    simp only [tokens, encode, length_append, length_beBytes]
    omega
  | node name body rest ihbody ihrest =>
    have hrest := ihrest after
    have hbody := ihbody (beBytes fdtEndNode ++ rest.encode after)
    simp only [tokens, encode, length_append, length_beBytes] at hbody ⊢
    omega

end Body

namespace DeviceTree

/-- The tree as the structure block has it. -/
def nodes (t : DeviceTree) : Body := .nops t.leading (.node ⟨[], not_mem_nil⟩ t.root (.nops t.trailing .done))

/-- A property of a node right below the root. -/
def property? (t : DeviceTree) (node name : List UInt8) : Option Property :=
  (t.root.child? node).bind (Body.property? name)

end DeviceTree

/-- A flattened tree in memory: the two blocks stand where the header says. `after` stands behind the structure
block. -/
structure Flattened (blob : List UInt8) (t : DeviceTree) (after : List UInt8) : Prop where
  size : blob.length < 2 ^ 32
  magic : StandsAt blob 0 (beBytes fdtMagic)
  structs : ∃ off < 2 ^ 32, StandsAt blob 8 (beBytes off) ∧
    Remains blob off (t.nodes.encode (beBytes fdtEnd ++ after))
  strings : ∃ off < 2 ^ 32, StandsAt blob 12 (beBytes off) ∧
    ∀ p ∈ t.nodes.properties, StandsAt blob (off + p.nameoff) (p.name.bytes ++ [0])

section

variable {blob tail piece : List UInt8} {off : Nat}

theorem Remains.standsAt_iff (h : Remains blob off tail) : StandsAt blob off piece ↔ piece <+: tail := by
  obtain ⟨pre, rfl, rfl⟩ := h
  constructor
  · rintro ⟨pre', post, heq, hlen⟩
    obtain ⟨-, htail⟩ := append_inj heq hlen.symm
    exact ⟨post, htail.symm⟩
  · rintro ⟨post, rfl⟩
    exact ⟨pre, post, rfl, rfl⟩

theorem StandsAt.remains (h : StandsAt blob off piece) : ∃ rest, Remains blob off (piece ++ rest) := by
  obtain ⟨pre, post, rfl, rfl⟩ := h
  exact ⟨post, pre, rfl, rfl⟩

theorem StandsAt.bound (h : StandsAt blob off piece) : off + piece.length ≤ blob.length := by
  obtain ⟨pre, post, rfl, rfl⟩ := h
  simp only [length_append]
  omega

theorem Remains.head {c : UInt8} (h : Remains blob off (c :: tail)) : blob[off]? = some c := by
  obtain ⟨pre, rfl, rfl⟩ := h
  rw [List.getElem?_append_right (Nat.le_refl _), Nat.sub_self]
  rfl

theorem Remains.length_eq (h : Remains blob off tail) : off + tail.length = blob.length := by
  obtain ⟨pre, rfl, rfl⟩ := h
  rw [length_append]

end

/-! ## Building a blob -/

theorem Body.encode_append (b : Body) (after more : List UInt8) :
    b.encode after ++ more = b.encode (after ++ more) := by
  induction b generalizing after with
  | done => rfl
  | nop rest ih => rw [encode, encode, append_assoc, ih]
  | prop p rest ih => simp only [encode, append_assoc, ih]
  | node name body rest ihbody ihrest => simp only [encode, append_assoc, ihbody, ihrest]

namespace DeviceTree

variable {t : DeviceTree} {names : List UInt8}

/-- The block of tokens. -/
def structs (t : DeviceTree) : List UInt8 := t.nodes.encode (beBytes fdtEnd)

/-- The ten numbers of the header, for a blob of version 17. -/
def header (t : DeviceTree) (names : List UInt8) : List Nat :=
  [fdtMagic, 56 + t.structs.length + names.length, 56, 56 + t.structs.length, 40, 17, 16, 0, names.length,
    t.structs.length]

/-- A blob of the tree: the header, an empty table of reserved memory, the structure block and the names. -/
def blob (t : DeviceTree) (names : List UInt8) : List UInt8 :=
  (t.header names).flatMap beBytes ++ (List.replicate 16 0 ++ (t.structs ++ names))

theorem length_blob (t : DeviceTree) (names : List UInt8) :
    (t.blob names).length = 56 + t.structs.length + names.length := by
  unfold blob header
  simp only [flatMap_cons, flatMap_nil, append_nil, length_append, length_beBytes, length_replicate]
  omega

/-- Every tree has a flattened form, as long as its names are among `names` and the whole is not too long. -/
theorem flattened_blob (hsize : 56 + t.structs.length + names.length < 2 ^ 32)
    (hnames : ∀ p ∈ t.nodes.properties, StandsAt names p.nameoff (p.name.bytes ++ [0])) :
    Flattened (t.blob names) t names := by
  have hlen := length_blob t names
  have h := Remains.start (t.blob names)
  generalize hblob : t.blob names = img at h hlen ⊢
  have h : Remains img 0 (t.blob names) := hblob ▸ h
  unfold blob header at h
  simp only [flatMap_cons, flatMap_nil, append_nil, append_assoc] at h
  have h4 := h.skip 4 rfl
  have h8 := h4.skip 8 rfl
  have h12 := h8.skip 12 rfl
  have h40 := ((((((h12.skip 16 rfl).skip 20 rfl).skip 24 rfl).skip 28 rfl).skip 32 rfl).skip 36 rfl).skip 40 rfl
  have hstructs := h40.skip 56 rfl
  have hnamesAt := hstructs.skip (56 + t.structs.length) rfl
  refine ⟨by rwa [hlen], h.part, ⟨56, by decide, h8.part, ?_⟩,
    ⟨56 + t.structs.length, by omega, h12.part, ?_⟩⟩
  · rwa [structs, Body.encode_append] at hstructs
  intro p hp
  obtain ⟨pre, post, heq, hlen⟩ := hnames p hp
  rw [heq] at hnamesAt
  exact (hnamesAt.skip _ (by rw [hlen])).part

end DeviceTree

end Slopix.Lib
