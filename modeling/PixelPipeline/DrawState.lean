/-
# DrawState — registers read while a pixel is drawn

Part of the pipeline's state is fixed when a function is compiled, and part
is read by the function each time it runs.  The second part is a block of
registers in memory with a fixed layout: two buffer addresses, then the
fields in order, little-endian, with no gaps before the last field.  The
alpha byte of a fixed color means nothing.
-/
import PixelPipeline.RasterOp
import PixelPipeline.Bytes

namespace PixelPipeline

/-- Color test function, read from the register block at run time. -/
inductive ColorTest where
  | never | always | equal | notEqual
deriving DecidableEq

/-- The byte that stands for a color test in the register block. -/
def ColorTest.code : ColorTest → BitVec 8
  | never => 0
  | always => 1
  | equal => 2
  | notEqual => 3

instance : Named ColorTest where
  members := [.never, .always, .equal, .notEqual]
  spelling
    | .never => "Never"
    | .always => "Always"
    | .equal => "Equal"
    | .notEqual => "NotEqual"
  mem_members := by intro a; cases a <;> simp

/-- A four by four table of signed biases, row by row. -/
abbrev DitherMatrix := Vector (BitVec 8) 16

/-- The usual ordered dither. -/
def standardDither : DitherMatrix :=
  #v[-4, 0, -3, 1, 2, -2, 3, -1, -3, 1, -4, 0, 3, -1, 2, -2]

/-- Linear stride, in pixels, that lets code shift instead of multiply. -/
def standardStride : BitVec 16 := 512

/-- The registers of a draw.  Mask bits that are set protect what they cover. -/
structure DrawState where
  fbStride : BitVec 16 := standardStride
  depthStride : BitVec 16 := standardStride
  minZ : BitVec 16 := 0
  maxZ : BitVec 16 := 0xFFFF
  fogColor : BitVec 32 := 0
  blendFixA : BitVec 32 := 0
  blendFixB : BitVec 32 := 0
  colorTestRef : BitVec 32 := 0
  colorTestMask : BitVec 32 := 0x00FFFFFF
  colorWriteMask : BitVec 32 := 0
  colorTest : ColorTest := .always
  alphaTestMask : BitVec 8 := 0xFF
  stencilRef : BitVec 8 := 0
  stencilMask : BitVec 8 := 0xFF
  alphaWriteMask : BitVec 8 := 0
  rasterOp : RasterOp := .copy
  dither : DitherMatrix := standardDither

namespace DrawState

/-- Both strides are the standard one. -/
def hasStandardStride (s : DrawState) : Bool :=
  s.fbStride == standardStride && s.depthStride == standardStride

/-! ## Layout in memory

Byte offsets of the fields that compiled code reads. -/

def fbBaseAt : Nat := 0
def depthBaseAt : Nat := 8
def fbStrideAt : Nat := 16
def depthStrideAt : Nat := 18
def minZAt : Nat := 20
def maxZAt : Nat := 22
def fogColorAt : Nat := 24
def blendFixAAt : Nat := 28
def blendFixBAt : Nat := 32
def colorTestRefAt : Nat := 36
def colorTestMaskAt : Nat := 40
def colorWriteMaskAt : Nat := 44
def colorTestAt : Nat := 48
def alphaTestMaskAt : Nat := 49
def stencilRefAt : Nat := 50
def stencilMaskAt : Nat := 51
def alphaWriteMaskAt : Nat := 52
def rasterOpAt : Nat := 53
def ditherAt : Nat := 54

/-- The register block, with the addresses of the two buffers. -/
def bytes (s : DrawState) (fbBase depthBase : BitVec 64) : List Byte :=
  le64 fbBase ++ le64 depthBase ++
  le16 s.fbStride ++ le16 s.depthStride ++ le16 s.minZ ++ le16 s.maxZ ++
  le32 s.fogColor ++ le32 s.blendFixA ++ le32 s.blendFixB ++
  le32 s.colorTestRef ++ le32 s.colorTestMask ++ le32 s.colorWriteMask ++
  [s.colorTest.code, s.alphaTestMask, s.stencilRef, s.stencilMask, s.alphaWriteMask,
   s.rasterOp.code.setWidth 8] ++ s.dither.toList

end DrawState

end PixelPipeline
