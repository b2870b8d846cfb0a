/-
# VectorPool — constants of the vector stages

Each constant fills a vector register with one 16-bit value.  The pool lies
at a multiple of sixteen, as vector operands in memory must.
-/
import PixelPipeline.Bytes

namespace PixelPipeline

namespace VectorPool

/-- Offset of the greatest byte, 255. -/
def byteMaxAt : Nat := 0

/-- Offset of `0x8081`: the high half of a product with it, shifted right by
seven, divides a 16-bit value by 255. -/
def by255At : Nat := 16

/-- Offset of one half in 11.4 fixed point. -/
def halfAt : Nat := 32

/-- Offset of 255 in 11.4 fixed point. -/
def invertAt : Nat := 48

/-- The constants in order. -/
def values : List (BitVec 16) := [0x00FF, 0x8081, 0x0008, 0x0FF0]

/-- The pool as it lies in memory. -/
def bytes : List Byte := values.flatMap fun v => (List.replicate 8 v).flatMap le16

end VectorPool

end PixelPipeline
