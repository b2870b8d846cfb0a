/-
# Code.Padding — instructions that do nothing

Code is padded with the longest do-nothing instructions that fit, of one to
eight bytes each, so that padding can be run through.
-/
import PixelPipeline.Code.Buffer

namespace PixelPipeline

namespace Padding

/-- The pieces of one do-nothing instruction of `n` bytes, at most eight. -/
def unit : Nat → List (List Byte)
  | 0 => []
  | 1 => [[0x90]]
  | 2 => [[0x66], [0x90]]
  | 3 => [[0x0F], [0x1F], [0x00]]
  | 4 => [[0x0F], [0x1F], [0x40], [0x00]]
  | 5 => [[0x0F], [0x1F], [0x44], [0x00], [0x00]]
  | 6 => [[0x66], [0x0F], [0x1F], [0x44], [0x00], [0x00]]
  | 7 => [[0x0F], [0x1F], [0x80], le32 0]
  | _ + 8 => [[0x0F], [0x1F], [0x84], [0x00], le32 0]

theorem length_unit (n : Nat) : (unit n).flatten.length = min n 8 := by
  unfold unit
  split <;> simp [le32]

/-- The bytes of `n` bytes of padding. -/
def bytes (n : Nat) : List Byte :=
  if n = 0 then [] else (unit n).flatten ++ bytes (n - min n 8)
termination_by n

theorem length_bytes (n : Nat) : (bytes n).length = n := by
  induction n using bytes.induct with
  | case1 => simp [bytes]
  | case2 n h ih =>
    rw [bytes, if_neg h, List.length_append, length_unit, ih]
    omega

/-- Write `n` bytes of padding. -/
def emit (n : Nat) : CodeBuffer.Action Unit :=
  if n = 0 then pure ()
  else do
    CodeBuffer.emitAll (unit n)
    emit (n - min n 8)
termination_by n

/-- Bytes from an offset to the next multiple of `align`, a power of two:
the two's complement of the offset under the mask below `align`. -/
def distance (offset align : Nat) : Nat :=
  (-BitVec.ofNat 64 offset &&& (BitVec.ofNat 64 align - 1)).toNat

/-- Pad to the next multiple of `align`. -/
def emitAlign (align : Nat) : CodeBuffer.Action Unit := do
  if align = 0 then throw .violation
  let b ← get
  emit (distance b.offset align)

end Padding

end PixelPipeline
