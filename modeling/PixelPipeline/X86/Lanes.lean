/-
# X86.Lanes — vectors of eight words

A vector register is eight 16-bit lanes.  Operations on bytes take each lane
as a high and a low byte.
-/
import PixelPipeline.X86.Instruction

namespace PixelPipeline.X86

/-- The contents of a vector register, lowest lane first. -/
abbrev Lanes := Vector (BitVec 16) 8

namespace Lanes

/-- All lanes zero. -/
def zero : Lanes := Vector.replicate 8 0

/-- The low byte of a word. -/
def low (v : BitVec 16) : BitVec 8 := v.extractLsb' 0 8

/-- The high byte of a word. -/
def high (v : BitVec 16) : BitVec 8 := v.extractLsb' 8 8

/-- An operation on bytes applied to both bytes of a lane. -/
def bytewise (f : BitVec 8 → BitVec 8 → BitVec 8) (a b : BitVec 16) : BitVec 16 :=
  f (high a) (high b) ++ f (low a) (low b)

/-- A lane by its number, taken modulo eight. -/
def lane (v : Lanes) (i : BitVec 3) : BitVec 16 := v.get i.toFin

/-- A vector from its lanes. -/
def ofFn (f : BitVec 3 → BitVec 16) : Lanes := Vector.ofFn fun i => f (.ofFin i)

/-- The byte at a position from 0 to 15. -/
def byteAt (v : Lanes) (i : BitVec 4) : BitVec 8 :=
  let w := v.lane (i.extractLsb' 1 3)
  if i.getLsbD 0 then high w else low w

/-! ## Saturating arithmetic -/

/-- A difference cut at zero. -/
def subSat {w : Nat} (a b : BitVec w) : BitVec w := if a.ult b then 0 else a - b

/-- A sum cut at the greatest value. -/
def addSat {w : Nat} (a b : BitVec w) : BitVec w := if (a + b).ult a then .allOnes w else a + b

/-- A signed sum cut at both ends. -/
def addSignedSat (a b : BitVec 16) : BitVec 16 :=
  let s := a.toInt + b.toInt
  if s < -0x8000 then 0x8000 else if 0x7FFF < s then 0x7FFF else a + b

/-- A signed word cut to an unsigned byte. -/
def toByteSat (v : BitVec 16) : BitVec 8 :=
  if v.msb then 0 else if (0xFF : BitVec 16).ult v then 0xFF else low v

/-- The high half of an unsigned product. -/
def mulHigh (a b : BitVec 16) : BitVec 16 := (a.setWidth 32 * b.setWidth 32).extractLsb' 16 16

/-! ## Packed operations -/

/-- Two neighbouring lanes equal as one value, told for the lower of them. -/
def equalPair (a b : Lanes) (i : BitVec 3) : Bool :=
  let even := i &&& 6
  a.lane even == b.lane even && a.lane (even + 1) == b.lane (even + 1)

/-- The result of a packed operation. -/
def packed (op : PackedOp) (dst src : Lanes) : Lanes :=
  match op with
  | .punpcklbw => ofFn fun i => src.byteAt (i.setWidth 4) ++ dst.byteAt (i.setWidth 4)
  | .packuswb => ofFn fun i =>
      let source := if i.getLsbD 2 then src else dst
      let first := (i <<< 1 : BitVec 3)
      toByteSat (source.lane (first + 1)) ++ toByteSat (source.lane first)
  | .movdqa => src
  | .pcmpeqd => ofFn fun i => if equalPair dst src i then 0xFFFF else 0
  | .pmullw => Vector.zipWith (· * ·) dst src
  | .psubusb => Vector.zipWith (bytewise subSat) dst src
  | .psubusw => Vector.zipWith subSat dst src
  | .pminub => Vector.zipWith (bytewise fun a b => if a.ult b then a else b) dst src
  | .paddusw => Vector.zipWith addSat dst src
  | .pmaxub => Vector.zipWith (bytewise fun a b => if a.ult b then b else a) dst src
  | .pmulhuw => Vector.zipWith mulHigh dst src
  | .por => Vector.zipWith (· ||| ·) dst src
  | .paddsw => Vector.zipWith addSignedSat dst src
  | .pxor => Vector.zipWith (· ^^^ ·) dst src

/-- Every lane shifted; by sixteen or more nothing but the sign is left. -/
def shift (op : LaneShift) (v : Lanes) (imm : BitVec 8) : Lanes :=
  match op with
  | .srl => Vector.map (fun w : BitVec 16 => w >>> imm.toNat) v
  | .sra => Vector.map (fun w : BitVec 16 => w.sshiftRight imm.toNat) v
  | .sll => Vector.map (fun w : BitVec 16 => w <<< imm.toNat) v

/-- The four low lanes in the order given by two bits each, the rest copied. -/
def shuffleLow (v : Lanes) (imm : BitVec 8) : Lanes :=
  ofFn fun i =>
    if i.getLsbD 2 then v.lane i else v.lane ((imm >>> (2 * i.toNat)).setWidth 2 |>.setWidth 3)

/-- A word and seven lanes, its lane replaced. -/
def insertLane (v : Lanes) (i : BitVec 3) (w : BitVec 16) : Lanes :=
  ofFn fun j => if j = i then w else v.lane j

/-- A 32-bit value in the two low lanes, the rest zero. -/
def ofWord32 (v : BitVec 32) : Lanes :=
  ofFn fun i => if i = 0 then v.extractLsb' 0 16 else if i = 1 then v.extractLsb' 16 16 else 0

/-- The 32-bit value in the two low lanes. -/
def toWord32 (v : Lanes) : BitVec 32 := v.lane 1 ++ v.lane 0

end Lanes

end PixelPipeline.X86
