/-
# X86.Memory — bytes at addresses

Memory is what it held at the start together with the bytes stored since,
so that a run shows which addresses it stored to.  Words are little-endian,
and addresses wrap.
-/
import PixelPipeline.Bytes

namespace PixelPipeline.X86

/-- An address. -/
abbrev Address := BitVec 64

/-- Contents at the start and the bytes stored since, last one first. -/
structure Memory where
  initial : Address → Byte
  stores : List (Address × Byte) := []

namespace Memory

/-- The byte at an address. -/
def read (m : Memory) (a : Address) : Byte := (m.stores.lookup a).getD (m.initial a)

/-- Store a byte. -/
def write (m : Memory) (a : Address) (v : Byte) : Memory := { m with stores := (a, v) :: m.stores }

/-- Store bytes at ascending addresses. -/
def writeAll (m : Memory) (a : Address) : List Byte → Memory
  | [] => m
  | v :: rest => (m.write a v).writeAll (a + 1) rest

theorem read_write (m : Memory) (a : Address) (v : Byte) (b : Address) :
    (m.write a v).read b = if b = a then v else m.read b := by
  unfold read write
  rw [List.lookup_cons]
  by_cases h : b = a
  · simp [h]
  · simp [h, beq_eq_false_iff_ne.mpr h]

/-! ## Words -/

/-- The 16-bit word at an address. -/
def read16 (m : Memory) (a : Address) : BitVec 16 := word16 (m.read a) (m.read (a + 1))

/-- The 32-bit word at an address. -/
def read32 (m : Memory) (a : Address) : BitVec 32 :=
  word32 (m.read a) (m.read (a + 1)) (m.read (a + 2)) (m.read (a + 3))

/-- The 64-bit word at an address. -/
def read64 (m : Memory) (a : Address) : BitVec 64 :=
  word64 (m.read a) (m.read (a + 1)) (m.read (a + 2)) (m.read (a + 3))
    (m.read (a + 4)) (m.read (a + 5)) (m.read (a + 6)) (m.read (a + 7))

/-- Store a 16-bit word. -/
def write16 (m : Memory) (a : Address) (v : BitVec 16) : Memory := m.writeAll a (le16 v)

/-- Store a 32-bit word. -/
def write32 (m : Memory) (a : Address) (v : BitVec 32) : Memory := m.writeAll a (le32 v)

/-- Store a 64-bit word. -/
def write64 (m : Memory) (a : Address) (v : BitVec 64) : Memory := m.writeAll a (le64 v)

end Memory

end PixelPipeline.X86
