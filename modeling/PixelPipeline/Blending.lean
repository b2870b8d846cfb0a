/-
# Blending — equations and factors

A blend joins the working color with the stored one.  Three equations scale
both by factors first; the other three act on the bytes as they are, and
their factors mean nothing.
-/
import PixelPipeline.Named

namespace PixelPipeline

/-- How the source and destination colors are joined. -/
inductive BlendEquation where
  | add | subtract | reverseSubtract | min | max | absDiff
deriving DecidableEq

namespace BlendEquation

/-- The three bits that stand for an equation in a key. -/
def code : BlendEquation → BitVec 3
  | add => 0
  | subtract => 1
  | reverseSubtract => 2
  | min => 3
  | max => 4
  | absDiff => 5

/-- The equation three key bits stand for; the two unused codes add. -/
def ofCode : BitVec 3 → BlendEquation
  | 1 => subtract
  | 2 => reverseSubtract
  | 3 => min
  | 4 => max
  | 5 => absDiff
  | _ => add

theorem ofCode_code (e : BlendEquation) : ofCode e.code = e := by
  cases e <;> rfl

/-- Whether the equation scales its inputs by factors. -/
def usesFactors : BlendEquation → Bool
  | add | subtract | reverseSubtract => true
  | min | max | absDiff => false

/-- Form used in key descriptions. -/
def tag : BlendEquation → String
  | add => "ADD"
  | subtract => "SUB"
  | reverseSubtract => "RSUB"
  | min => "MIN"
  | max => "MAX"
  | absDiff => "ABSDIFF"

end BlendEquation

/-- What a color is scaled by.  `otherColor` is the destination color as the
source factor and the source color as the destination factor; `zero` and
`one` replace `fixed` when the fixed color is all zeros or all ones. -/
inductive BlendFactor where
  | otherColor | invOtherColor
  | srcAlpha | invSrcAlpha | dstAlpha | invDstAlpha
  | doubleSrcAlpha | doubleInvSrcAlpha | doubleDstAlpha | doubleInvDstAlpha
  | fixed | zero | one
deriving DecidableEq

namespace BlendFactor

/-- The four bits that stand for a factor in a key. -/
def code : BlendFactor → BitVec 4
  | otherColor => 0
  | invOtherColor => 1
  | srcAlpha => 2
  | invSrcAlpha => 3
  | dstAlpha => 4
  | invDstAlpha => 5
  | doubleSrcAlpha => 6
  | doubleInvSrcAlpha => 7
  | doubleDstAlpha => 8
  | doubleInvDstAlpha => 9
  | fixed => 10
  | zero => 11
  | one => 12

/-- The factor four key bits stand for; the three unused codes are zero. -/
def ofCode : BitVec 4 → BlendFactor
  | 0 => otherColor
  | 1 => invOtherColor
  | 2 => srcAlpha
  | 3 => invSrcAlpha
  | 4 => dstAlpha
  | 5 => invDstAlpha
  | 6 => doubleSrcAlpha
  | 7 => doubleInvSrcAlpha
  | 8 => doubleDstAlpha
  | 9 => doubleInvDstAlpha
  | 10 => fixed
  | 12 => one
  | _ => zero

theorem ofCode_code (f : BlendFactor) : ofCode f.code = f := by
  cases f <;> rfl

/-- Zero and one are compiled away instead of multiplied. -/
def isTrivial : BlendFactor → Bool
  | zero | one => true
  | _ => false

/-- The factor reads the source alpha. -/
def readsSrcAlpha : BlendFactor → Bool
  | srcAlpha | invSrcAlpha | doubleSrcAlpha | doubleInvSrcAlpha => true
  | _ => false

/-- The factor reads the destination alpha. -/
def readsDstAlpha : BlendFactor → Bool
  | dstAlpha | invDstAlpha | doubleDstAlpha | doubleInvDstAlpha => true
  | _ => false

/-- The factor reads the lanes of the other color. -/
def readsOtherColor : BlendFactor → Bool
  | otherColor | invOtherColor => true
  | _ => false

/-- The factor is one minus a value. -/
def isInverse : BlendFactor → Bool
  | invOtherColor | invSrcAlpha | invDstAlpha | doubleInvSrcAlpha | doubleInvDstAlpha => true
  | _ => false

/-- The value is doubled before use. -/
def isDouble : BlendFactor → Bool
  | doubleSrcAlpha | doubleInvSrcAlpha | doubleDstAlpha | doubleInvDstAlpha => true
  | _ => false

/-- Fold a fixed factor whose color is all zeros or all ones. -/
def fold (f : BlendFactor) (color : BitVec 32) : BlendFactor :=
  match f with
  | fixed =>
      let rgb := color &&& 0x00FFFFFF
      if rgb = 0 then zero else if rgb = 0x00FFFFFF then one else fixed
  | f => f

/-- Form used in key descriptions. -/
def tag : BlendFactor → String
  | otherColor => "OC"
  | invOtherColor => "IOC"
  | srcAlpha => "SA"
  | invSrcAlpha => "ISA"
  | dstAlpha => "DA"
  | invDstAlpha => "IDA"
  | doubleSrcAlpha => "2SA"
  | doubleInvSrcAlpha => "2ISA"
  | doubleDstAlpha => "2DA"
  | doubleInvDstAlpha => "2IDA"
  | fixed => "FIX"
  | zero => "0"
  | one => "1"

end BlendFactor

instance : Named BlendEquation where
  members := [.add, .subtract, .reverseSubtract, .min, .max, .absDiff]
  spelling
    | .add => "Add"
    | .subtract => "Subtract"
    | .reverseSubtract => "ReverseSubtract"
    | .min => "Min"
    | .max => "Max"
    | .absDiff => "AbsDiff"
  mem_members := by intro a; cases a <;> simp

instance : Named BlendFactor where
  members :=
    [.otherColor, .invOtherColor, .srcAlpha, .invSrcAlpha, .dstAlpha, .invDstAlpha,
     .doubleSrcAlpha, .doubleInvSrcAlpha, .doubleDstAlpha, .doubleInvDstAlpha,
     .fixed, .zero, .one]
  spelling
    | .otherColor => "OtherColor"
    | .invOtherColor => "InvOtherColor"
    | .srcAlpha => "SrcAlpha"
    | .invSrcAlpha => "InvSrcAlpha"
    | .dstAlpha => "DstAlpha"
    | .invDstAlpha => "InvDstAlpha"
    | .doubleSrcAlpha => "DoubleSrcAlpha"
    | .doubleInvSrcAlpha => "DoubleInvSrcAlpha"
    | .doubleDstAlpha => "DoubleDstAlpha"
    | .doubleInvDstAlpha => "DoubleInvDstAlpha"
    | .fixed => "Fix"
    | .zero => "Zero"
    | .one => "One"
  mem_members := by intro a; cases a <;> simp

end PixelPipeline
