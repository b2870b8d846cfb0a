/-
# Key — what selects a compiled function

A key is the packed word of a pipeline's features together with constants
that compiled code reads through its key argument.  The word alone decides
which function is compiled, so the word alone identifies a key.
-/
import PixelPipeline.Key.Word
import PixelPipeline.Key.Description

namespace PixelPipeline

/-- Per-key constants: a dither table, and the protected bits of a stored
pixel. -/
structure KeyConstants where
  dither : DitherMatrix := Vector.replicate 16 0
  writeMask : BitVec 32 := 0
deriving DecidableEq

/-- A pipeline's packed features and constants. -/
structure Key where
  word : BitVec 64
  constants : KeyConstants

namespace Key

/-- The key of a configuration drawn with the given registers. -/
def ofConfig (c : Config) (s : DrawState) : Key :=
  let f := Features.ofConfig c s
  { word := f.pack
    constants :=
      { dither := if f.dither then s.dither else Vector.replicate 16 0
        writeMask := Features.writeMask c s } }

/-- The features the word stands for. -/
def features (k : Key) : Features := .unpack k.word

/-- The description of the pipeline. -/
def describe (k : Key) : String := k.features.describe

/-- Diagnostic text: the word and the description. -/
def text (k : Key) : String :=
  "PixelKey(0x" ++ lowerHex 16 k.word.toNat ++ " " ++ k.describe ++ ")"

/-- Keys are the same when their words are. -/
def same (a b : Key) : Bool := a.word == b.word

/-! ## Layout in memory

The word comes first, then the dither table, then the write mask. -/

/-- Byte offset of the dither table. -/
def ditherAt : Nat := 8

/-- Byte offset of the write mask. -/
def writeMaskAt : Nat := 24

/-- A key as compiled code finds it. -/
def bytes (k : Key) : List Byte :=
  le64 k.word ++ k.constants.dither.toList ++ le32 k.constants.writeMask

end Key

end PixelPipeline
