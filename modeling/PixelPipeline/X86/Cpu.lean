/-
# X86.Cpu — registers, flags and memory under one instruction

`Cpu.exec` is the effect of every instruction that does not branch.  A
32-bit result clears the upper half of its register; narrower results leave
the rest of it alone.
-/
import PixelPipeline.X86.Flags
import PixelPipeline.X86.Lanes
import PixelPipeline.X86.Memory

namespace PixelPipeline.X86

/-- The state of the machine but for the place of the next instruction. -/
structure Cpu where
  general : Vector (BitVec 64) 16
  vector : Vector Lanes 16
  flags : Flags
  mem : Memory

namespace Cpu

/-! ## Registers -/

/-- A general register. -/
def reg (c : Cpu) (r : Reg) : BitVec 64 := c.general.get r.num.toFin

/-- The low half of a general register. -/
def reg32 (c : Cpu) (r : Reg) : BitVec 32 := (c.reg r).setWidth 32

/-- The low word of a general register. -/
def reg16 (c : Cpu) (r : Reg) : BitVec 16 := (c.reg r).setWidth 16

/-- The low byte of a general register. -/
def reg8 (c : Cpu) (r : Reg) : BitVec 8 := (c.reg r).setWidth 8

/-- A vector register. -/
def vec (c : Cpu) (x : Xmm) : Lanes := c.vector.get x.num.toFin

/-- Set a general register. -/
def setReg (c : Cpu) (r : Reg) (v : BitVec 64) : Cpu :=
  { c with general := c.general.set r.num.toNat v r.num.isLt }

/-- Set the low half of a register and clear the rest. -/
def setReg32 (c : Cpu) (r : Reg) (v : BitVec 32) : Cpu := c.setReg r (v.setWidth 64)

/-- Set the low word of a register. -/
def setReg16 (c : Cpu) (r : Reg) (v : BitVec 16) : Cpu :=
  c.setReg r ((c.reg r).extractLsb' 16 48 ++ v)

/-- Set the low byte of a register. -/
def setReg8 (c : Cpu) (r : Reg) (v : BitVec 8) : Cpu :=
  c.setReg r ((c.reg r).extractLsb' 8 56 ++ v)

/-- Set a vector register. -/
def setVec (c : Cpu) (x : Xmm) (v : Lanes) : Cpu :=
  { c with vector := c.vector.set x.num.toNat v x.num.isLt }

/-- Set the flags. -/
def setFlags (c : Cpu) (f : Flags) : Cpu := { c with flags := f }

/-- Set the memory. -/
def setMem (c : Cpu) (m : Memory) : Cpu := { c with mem := m }

/-! ## Operands in memory -/

/-- The address of an operand. -/
def address (c : Cpu) : MemOperand → Address
  | .based base disp => c.reg base + disp.signExtend 64
  | .indexed base index scale disp =>
      c.reg base + (c.reg index <<< scale.toNat) + disp.signExtend 64

/-- The eight lanes at an address. -/
def lanesAt (m : Memory) (a : Address) : Lanes :=
  Lanes.ofFn fun i => m.read16 (a + (i.setWidth 64 <<< 1))

/-- A multiple of sixteen. -/
def aligned (a : Address) : Bool := a.extractLsb' 0 4 == 0

/-! ## Instructions -/

/-- A two-operand operation; a comparison keeps only the flags. -/
def alu {w : Nat} (c : Cpu) (op : AluOp) (a b : BitVec w) (keep : Cpu → BitVec w → Cpu) : Cpu :=
  let (r, f) := op.eval a b c.flags
  (if op = .cmp then c else keep c r).setFlags f

/-- A two-operand operation of a register and a value. -/
def aluReg (c : Cpu) (op : AluOp) (wide : Bool) (dst : Reg) (v : BitVec 64) : Cpu :=
  if wide then c.alu op (c.reg dst) v fun c r => c.setReg dst r
  else c.alu op (c.reg32 dst) (v.setWidth 32) fun c r => c.setReg32 dst r

/-- A two-operand operation of memory and a value. -/
def aluMem (c : Cpu) (op : AluOp) (size : OpSize) (a : Address) (v : BitVec 64) : Cpu :=
  match size with
  | .byte => c.alu op (c.mem.read a) (v.setWidth 8) fun c r => c.setMem (c.mem.write a r)
  | .word => c.alu op (c.mem.read16 a) (v.setWidth 16) fun c r => c.setMem (c.mem.write16 a r)
  | .dword => c.alu op (c.mem.read32 a) (v.setWidth 32) fun c r => c.setMem (c.mem.write32 a r)
  | .qword => c.alu op (c.mem.read64 a) v fun c r => c.setMem (c.mem.write64 a r)

/-- A two-operand operation of a register and memory. -/
def aluRegMem (c : Cpu) (op : AluOp) (size : OpSize) (dst : Reg) (a : Address) : Cpu :=
  match size with
  | .byte => c.alu op (c.reg8 dst) (c.mem.read a) fun c r => c.setReg8 dst r
  | .word => c.alu op (c.reg16 dst) (c.mem.read16 a) fun c r => c.setReg16 dst r
  | .dword => c.alu op (c.reg32 dst) (c.mem.read32 a) fun c r => c.setReg32 dst r
  | .qword => c.alu op (c.reg dst) (c.mem.read64 a) fun c r => c.setReg dst r

/-- A shift of a register; the count is taken modulo the width. -/
def shiftReg (c : Cpu) (op : ShiftOp) (wide : Bool) (dst : Reg) (imm : BitVec 8) : Cpu :=
  if wide then
    let (r, f) := op.eval (c.reg dst) (imm.toNat % 64) c.flags
    (c.setReg dst r).setFlags f
  else
    let (r, f) := op.eval (c.reg32 dst) (imm.toNat % 32) c.flags
    (c.setReg32 dst r).setFlags f

/-- A store of a register. -/
def storeReg (c : Cpu) (size : OpSize) (a : Address) (src : Reg) : Cpu :=
  match size with
  | .byte => c.setMem (c.mem.write a (c.reg8 src))
  | .word => c.setMem (c.mem.write16 a (c.reg16 src))
  | .dword => c.setMem (c.mem.write32 a (c.reg32 src))
  | .qword => c.setMem (c.mem.write64 a (c.reg src))

/-- A narrow value extended to 32 bits. -/
def extended (m : Memory) (ext : Extension) (a : Address) : BitVec 32 :=
  match ext with
  | .zeroByte => (m.read a).setWidth 32
  | .zeroWord => (m.read16 a).setWidth 32
  | .signByte => (m.read a).signExtend 32

/-- Set a register to a 64-bit value or to its low half. -/
def setSized (c : Cpu) (wide : Bool) (r : Reg) (v : BitVec 64) : Cpu :=
  if wide then c.setReg r v else c.setReg32 r (v.setWidth 32)

/-- The effect of an instruction that does not branch, with the address of the
one after it.  There is none for a branch, nor for a vector operand that is not
aligned. -/
def exec (c : Cpu) (next : Address) : Instr → Option Cpu
  | .alu op wide dst src => some (c.aluReg op wide dst (c.reg src))
  | .aluImm op wide dst imm => some (c.aluReg op wide dst (imm.signExtend 64))
  | .aluStore op size dst src => some (c.aluMem op size (c.address dst) (c.reg src))
  | .aluLoad op size dst src => some (c.aluRegMem op size dst (c.address src))
  | .aluStoreImm op size dst imm => some (c.aluMem op size (c.address dst) (imm.signExtend 64))
  | .not wide dst => some (c.setSized wide dst (~~~(c.reg dst)))
  | .test wide a b =>
      some (if wide then c.setFlags (bitwise (c.reg a &&& c.reg b)).2
        else c.setFlags (bitwise (c.reg32 a &&& c.reg32 b)).2)
  | .shift op wide dst imm => some (c.shiftReg op wide dst imm)
  | .mov wide dst src => some (c.setSized wide dst (c.reg src))
  | .zero dst => some (c.aluReg .xor false dst (c.reg dst))
  | .movImm32 dst imm => some (c.setReg32 dst imm)
  | .movImm64 dst imm => some (c.setReg dst imm)
  | .load wide dst src =>
      let a := c.address src
      some (if wide then c.setReg dst (c.mem.read64 a) else c.setReg32 dst (c.mem.read32 a))
  | .loadExt ext dst src => some (c.setReg32 dst (extended c.mem ext (c.address src)))
  | .store size src dst => some (c.storeReg size (c.address dst) src)
  | .lea wide dst src => some (c.setSized wide dst (c.address src))
  | .leaRip dst disp => some (c.setReg dst (next + disp.signExtend 64))
  | .imul wide dst src =>
      some (if wide then
        let (r, f) := mulSigned (c.reg dst) (c.reg src) c.flags
        (c.setReg dst r).setFlags f
      else
        let (r, f) := mulSigned (c.reg32 dst) (c.reg32 src) c.flags
        (c.setReg32 dst r).setFlags f)
  | .nop => some c
  | .packed op dst src => some (c.setVec dst (Lanes.packed op (c.vec dst) (c.vec src)))
  | .packedLoad op dst src =>
      let a := c.address src
      if aligned a then some (c.setVec dst (Lanes.packed op (c.vec dst) (lanesAt c.mem a)))
      else none
  | .movdToVec dst src => some (c.setVec dst (Lanes.ofWord32 (c.reg32 src)))
  | .movdToReg dst src => some (c.setReg32 dst (c.vec src).toWord32)
  | .movdLoad dst src => some (c.setVec dst (Lanes.ofWord32 (c.mem.read32 (c.address src))))
  | .laneShift op dst imm => some (c.setVec dst (Lanes.shift op (c.vec dst) imm))
  | .pshuflw dst src imm => some (c.setVec dst ((c.vec src).shuffleLow imm))
  | .pextrw dst src i =>
      some (c.setReg32 dst (((c.vec src).lane (i.setWidth 3)).setWidth 32))
  | .pinsrw dst src i =>
      some (c.setVec dst ((c.vec dst).insertLane (i.setWidth 3) (c.reg16 src)))
  | .jump _ | .jumpIf .. | .jumpMem _ | .ret => none

end Cpu

end PixelPipeline.X86
