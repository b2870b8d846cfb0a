/-
# RasterOp — bitwise combination of a new and a stored pixel

The sixteen truth tables of two bits, applied to every bit position.
-/
import PixelPipeline.Named

namespace PixelPipeline

/-- Bitwise combination of a source and a destination value. -/
inductive RasterOp where
  | clear | and | andReverse | copy | andInverted | noop | xor | or
  | nor | equiv | inverted | orReverse | copyInverted | orInverted | nand | set
deriving DecidableEq

namespace RasterOp

/-- Every operation, each at the index that is its code. -/
def all : List RasterOp :=
  [clear, and, andReverse, copy, andInverted, noop, xor, or,
   nor, equiv, inverted, orReverse, copyInverted, orInverted, nand, set]

/-- The four bits that stand for an operation. -/
def code : RasterOp → BitVec 4
  | clear => 0
  | and => 1
  | andReverse => 2
  | copy => 3
  | andInverted => 4
  | noop => 5
  | xor => 6
  | or => 7
  | nor => 8
  | equiv => 9
  | inverted => 10
  | orReverse => 11
  | copyInverted => 12
  | orInverted => 13
  | nand => 14
  | set => 15

/-- The operation four bits stand for. -/
def ofCode : BitVec 4 → RasterOp
  | 0 => clear
  | 1 => and
  | 2 => andReverse
  | 3 => copy
  | 4 => andInverted
  | 5 => noop
  | 6 => xor
  | 7 => or
  | 8 => nor
  | 9 => equiv
  | 10 => inverted
  | 11 => orReverse
  | 12 => copyInverted
  | 13 => orInverted
  | 14 => nand
  | _ => set

theorem ofCode_code (op : RasterOp) : ofCode op.code = op := by
  cases op <;> rfl

theorem all_getElem?_code (op : RasterOp) : all[op.code.toNat]? = some op := by
  cases op <;> rfl

/-- The truth table applied to every bit. -/
def apply (op : RasterOp) (src dst : BitVec 32) : BitVec 32 :=
  match op with
  | clear => 0
  | and => src &&& dst
  | andReverse => src &&& ~~~dst
  | copy => src
  | andInverted => ~~~src &&& dst
  | noop => dst
  | xor => src ^^^ dst
  | or => src ||| dst
  | nor => ~~~(src ||| dst)
  | equiv => ~~~(src ^^^ dst)
  | inverted => ~~~dst
  | orReverse => src ||| ~~~dst
  | copyInverted => ~~~src
  | orInverted => ~~~src ||| dst
  | nand => ~~~(src &&& dst)
  | set => 0xFFFFFFFF

end RasterOp

instance : Named RasterOp where
  members := RasterOp.all
  spelling
    | .clear => "Clear"
    | .and => "And"
    | .andReverse => "AndReverse"
    | .copy => "Copy"
    | .andInverted => "AndInverted"
    | .noop => "Noop"
    | .xor => "Xor"
    | .or => "Or"
    | .nor => "Nor"
    | .equiv => "Equiv"
    | .inverted => "Inverted"
    | .orReverse => "OrReverse"
    | .copyInverted => "CopyInverted"
    | .orInverted => "OrInverted"
    | .nand => "Nand"
    | .set => "Set"
  mem_members := by intro a; cases a <;> simp [RasterOp.all]

end PixelPipeline
