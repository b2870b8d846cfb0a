/-
# X86.Instruction — the instructions that pixel functions are made of

One constructor per operation and operand shape.  Where the machine has
several encodings of one operation the encoder picks one, and the decoder
gives back the operation.
-/
import PixelPipeline.X86.Register

namespace PixelPipeline.X86

/-- Two-operand integer operation; `cmp` keeps only the flags. -/
inductive AluOp where
  | add | or | adc | sbb | and | sub | xor | cmp
deriving DecidableEq

/-- The operation's place among the eight. -/
def AluOp.code : AluOp → BitVec 3
  | add => 0
  | or => 1
  | adc => 2
  | sbb => 3
  | and => 4
  | sub => 5
  | xor => 6
  | cmp => 7

/-- The operation at a place among the eight. -/
def AluOp.ofCode : BitVec 3 → AluOp
  | 0 => add
  | 1 => or
  | 2 => adc
  | 3 => sbb
  | 4 => and
  | 5 => sub
  | 6 => xor
  | _ => cmp

theorem AluOp.ofCode_code (op : AluOp) : ofCode op.code = op := by
  cases op <;> rfl

/-- Shift or rotation by a constant. -/
inductive ShiftOp where
  | rol | ror | shl | shr | sar
deriving DecidableEq

/-- The operation's place in its group. -/
def ShiftOp.code : ShiftOp → BitVec 3
  | rol => 0
  | ror => 1
  | shl => 4
  | shr => 5
  | sar => 7

/-- The operation at a place in the group. -/
def ShiftOp.ofCode? : BitVec 3 → Option ShiftOp
  | 0 => some rol
  | 1 => some ror
  | 4 => some shl
  | 5 => some shr
  | 7 => some sar
  | _ => none

theorem ShiftOp.ofCode?_code (op : ShiftOp) : ofCode? op.code = some op := by
  cases op <;> rfl

/-- Shift of packed words by a constant. -/
inductive LaneShift where
  | srl | sra | sll
deriving DecidableEq

/-- The operation's place in its group. -/
def LaneShift.code : LaneShift → BitVec 3
  | srl => 2
  | sra => 4
  | sll => 6

/-- The operation at a place in the group. -/
def LaneShift.ofCode? : BitVec 3 → Option LaneShift
  | 2 => some srl
  | 4 => some sra
  | 6 => some sll
  | _ => none

theorem LaneShift.ofCode?_code (op : LaneShift) : ofCode? op.code = some op := by
  cases op <;> rfl

/-- Width of an operand in memory. -/
inductive OpSize where
  | byte | word | dword | qword
deriving DecidableEq

/-- The condition of a jump. -/
inductive Cond where
  | o | no | b | ae | e | ne | be | a | s | ns | p | np | l | ge | le | g
deriving DecidableEq

/-- The four bits that stand for a condition. -/
def Cond.code : Cond → BitVec 4
  | o => 0
  | no => 1
  | b => 2
  | ae => 3
  | e => 4
  | ne => 5
  | be => 6
  | a => 7
  | s => 8
  | ns => 9
  | p => 10
  | np => 11
  | l => 12
  | ge => 13
  | le => 14
  | g => 15

/-- The condition four bits stand for. -/
def Cond.ofCode : BitVec 4 → Cond
  | 0 => o
  | 1 => no
  | 2 => b
  | 3 => ae
  | 4 => e
  | 5 => ne
  | 6 => be
  | 7 => a
  | 8 => s
  | 9 => ns
  | 10 => p
  | 11 => np
  | 12 => l
  | 13 => ge
  | 14 => le
  | _ => g

theorem Cond.ofCode_code (c : Cond) : ofCode c.code = c := by
  cases c <;> rfl

/-- The condition that holds when `c` does not: its code with the low bit
flipped. -/
def Cond.invert (c : Cond) : Cond := .ofCode (c.code ^^^ 1)

theorem Cond.invert_invert (c : Cond) : c.invert.invert = c := by
  cases c <;> rfl

/-- Packed operation on vector registers. -/
inductive PackedOp where
  | punpcklbw | packuswb | movdqa | pcmpeqd | pmullw | psubusb | psubusw
  | pminub | paddusw | pmaxub | pmulhuw | por | paddsw | pxor
deriving DecidableEq

/-- Last opcode byte of a packed operation. -/
def PackedOp.code : PackedOp → BitVec 8
  | punpcklbw => 0x60
  | packuswb => 0x67
  | movdqa => 0x6F
  | pcmpeqd => 0x76
  | pmullw => 0xD5
  | psubusb => 0xD8
  | psubusw => 0xD9
  | pminub => 0xDA
  | paddusw => 0xDD
  | pmaxub => 0xDE
  | pmulhuw => 0xE4
  | por => 0xEB
  | paddsw => 0xED
  | pxor => 0xEF

/-- The packed operation with a last opcode byte. -/
def PackedOp.ofCode? : BitVec 8 → Option PackedOp
  | 0x60 => some punpcklbw
  | 0x67 => some packuswb
  | 0x6F => some movdqa
  | 0x76 => some pcmpeqd
  | 0xD5 => some pmullw
  | 0xD8 => some psubusb
  | 0xD9 => some psubusw
  | 0xDA => some pminub
  | 0xDD => some paddusw
  | 0xDE => some pmaxub
  | 0xE4 => some pmulhuw
  | 0xEB => some por
  | 0xED => some paddsw
  | 0xEF => some pxor
  | _ => none

theorem PackedOp.ofCode?_code (op : PackedOp) : ofCode? op.code = some op := by
  cases op <;> rfl

/-- How a narrow load fills a 32-bit register. -/
inductive Extension where
  | zeroByte | zeroWord | signByte
deriving DecidableEq

/-- Last opcode byte of an extending load. -/
def Extension.code : Extension → BitVec 8
  | zeroByte => 0xB6
  | zeroWord => 0xB7
  | signByte => 0xBE

/-- An operand in memory: a base register, a signed displacement, and
perhaps an index register scaled by a power of two. -/
inductive MemOperand where
  | based (base : Reg) (disp : BitVec 32)
  | indexed (base index : Reg) (scale : BitVec 2) (disp : BitVec 32)
deriving DecidableEq

/-- A machine instruction.  `wide` picks 64-bit operands over 32-bit ones;
32-bit immediates and displacements are extended by their sign. -/
inductive Instr where
  /-- `dst := dst op src`. -/
  | alu (op : AluOp) (wide : Bool) (dst src : Reg)
  /-- `dst := dst op imm`. -/
  | aluImm (op : AluOp) (wide : Bool) (dst : Reg) (imm : BitVec 32)
  /-- `[dst] := [dst] op src`. -/
  | aluStore (op : AluOp) (size : OpSize) (dst : MemOperand) (src : Reg)
  /-- `dst := dst op [src]`. -/
  | aluLoad (op : AluOp) (size : OpSize) (dst : Reg) (src : MemOperand)
  /-- `[dst] := [dst] op imm`, the immediate cut to the operand width. -/
  | aluStoreImm (op : AluOp) (size : OpSize) (dst : MemOperand) (imm : BitVec 32)
  /-- `dst := ~dst`, flags kept. -/
  | not (wide : Bool) (dst : Reg)
  /-- Flags of `a & b`. -/
  | test (wide : Bool) (a b : Reg)
  /-- `dst := dst shifted by imm`. -/
  | shift (op : ShiftOp) (wide : Bool) (dst : Reg) (imm : BitVec 8)
  /-- `dst := src`. -/
  | mov (wide : Bool) (dst src : Reg)
  /-- `dst := 0` in the shortest form, by an exclusive or. -/
  | zero (dst : Reg)
  /-- `dst := imm`, the upper half cleared. -/
  | movImm32 (dst : Reg) (imm : BitVec 32)
  /-- `dst := imm`. -/
  | movImm64 (dst : Reg) (imm : BitVec 64)
  /-- `dst := [src]`. -/
  | load (wide : Bool) (dst : Reg) (src : MemOperand)
  /-- `dst := [src]`, a narrow value extended to 32 bits. -/
  | loadExt (ext : Extension) (dst : Reg) (src : MemOperand)
  /-- `[dst] := src`. -/
  | store (size : OpSize) (src : Reg) (dst : MemOperand)
  /-- `dst :=` the address of `src`. -/
  | lea (wide : Bool) (dst : Reg) (src : MemOperand)
  /-- `dst :=` the address `disp` bytes after the next instruction. -/
  | leaRip (dst : Reg) (disp : BitVec 32)
  /-- `dst := dst * src`. -/
  | imul (wide : Bool) (dst src : Reg)
  /-- Go to `disp` bytes after the next instruction. -/
  | jump (disp : BitVec 32)
  /-- Go there if the condition holds. -/
  | jumpIf (cond : Cond) (disp : BitVec 32)
  /-- Go to the address stored in memory. -/
  | jumpMem (target : MemOperand)
  /-- Return to the caller. -/
  | ret
  /-- Do nothing. -/
  | nop
  /-- `dst := dst op src` on vectors. -/
  | packed (op : PackedOp) (dst src : Xmm)
  /-- `dst := dst op [src]` on vectors; the address must be a multiple of 16. -/
  | packedLoad (op : PackedOp) (dst : Xmm) (src : MemOperand)
  /-- Low 32 bits of a vector from a general register, the rest zero. -/
  | movdToVec (dst : Xmm) (src : Reg)
  /-- A general register from the low 32 bits of a vector. -/
  | movdToReg (dst : Reg) (src : Xmm)
  /-- Low 32 bits of a vector from memory, the rest zero. -/
  | movdLoad (dst : Xmm) (src : MemOperand)
  /-- Every word of a vector shifted. -/
  | laneShift (op : LaneShift) (dst : Xmm) (imm : BitVec 8)
  /-- The four low words of `src` in the order `imm` gives, the high ones copied. -/
  | pshuflw (dst src : Xmm) (imm : BitVec 8)
  /-- One word of a vector, zero-extended. -/
  | pextrw (dst : Reg) (src : Xmm) (lane : BitVec 8)
  /-- One word of a vector replaced. -/
  | pinsrw (dst : Xmm) (src : Reg) (lane : BitVec 8)
deriving DecidableEq

namespace Instr

/-- `dst := value` in the shortest form.  A zero is made by an exclusive or,
which also sets the flags. -/
def movConst (wide : Bool) (dst : Reg) (value : BitVec 64) : Instr :=
  if value = 0 then zero dst
  else if !wide || value.ule 0xFFFFFFFF then movImm32 dst (value.setWidth 32)
  else movImm64 dst value

end Instr

/-! ## Spellings -/

instance : Named AluOp where
  members := [.add, .or, .adc, .sbb, .and, .sub, .xor, .cmp]
  spelling
    | .add => "Add"
    | .or => "Or"
    | .adc => "Adc"
    | .sbb => "Sbb"
    | .and => "And"
    | .sub => "Sub"
    | .xor => "Xor"
    | .cmp => "Cmp"
  mem_members := by intro a; cases a <;> simp

instance : Named ShiftOp where
  members := [.rol, .ror, .shl, .shr, .sar]
  spelling
    | .rol => "Rol"
    | .ror => "Ror"
    | .shl => "Shl"
    | .shr => "Shr"
    | .sar => "Sar"
  mem_members := by intro a; cases a <;> simp

instance : Named LaneShift where
  members := [.srl, .sra, .sll]
  spelling
    | .srl => "Srl"
    | .sra => "Sra"
    | .sll => "Sll"
  mem_members := by intro a; cases a <;> simp

instance : Named OpSize where
  members := [.byte, .word, .dword, .qword]
  spelling
    | .byte => "Byte"
    | .word => "Word"
    | .dword => "Dword"
    | .qword => "Qword"
  mem_members := by intro a; cases a <;> simp

instance : Named Cond where
  members := [.o, .no, .b, .ae, .e, .ne, .be, .a, .s, .ns, .p, .np, .l, .ge, .le, .g]
  spelling
    | .o => "Jo"
    | .no => "Jno"
    | .b => "Jb"
    | .ae => "Jae"
    | .e => "Je"
    | .ne => "Jne"
    | .be => "Jbe"
    | .a => "Ja"
    | .s => "Js"
    | .ns => "Jns"
    | .p => "Jp"
    | .np => "Jnp"
    | .l => "Jl"
    | .ge => "Jge"
    | .le => "Jle"
    | .g => "Jg"
  mem_members := by intro cond; cases cond <;> simp

end PixelPipeline.X86
