/-
# X86.Encoding — instructions as bytes

An instruction is a row of pieces: legacy prefixes, the prefix that carries
the high bits of register numbers, the opcode, the operand byte, a scale
and index byte, a displacement and an immediate.  A piece is written as a
whole or not at all, so an instruction that does not fit leaves its first
pieces behind.
-/
import PixelPipeline.Bytes
import PixelPipeline.X86.Instruction

namespace PixelPipeline.X86

/-- Bytes that are written together. -/
abbrev Piece := List Byte

/-- An opcode with the prefixes it asks for. -/
structure Opcode where
  byte : Byte
  /-- The opcode is in the second map, behind `0F`. -/
  escape : Bool := false
  /-- Prefix `66`. -/
  data16 : Bool := false
  /-- Prefix `F3`. -/
  repeats : Bool := false
  /-- Prefix `F2`, unless `F3` is asked for too. -/
  repeatsNot : Bool := false
  /-- 64-bit operands. -/
  wide : Bool := false
  /-- The register field names a byte register. -/
  byteReg : Bool := false
  /-- The register-or-memory field names a byte register. -/
  byteRM : Bool := false

namespace Opcode

/-- The four payload bits of the register prefix: width, then the high bits
of the register, index and base numbers. -/
def rexBits (o : Opcode) (reg rm index : BitVec 4) : BitVec 4 :=
  BitVec.ofBool o.wide ++ BitVec.ofBool reg.msb ++ BitVec.ofBool index.msb ++ BitVec.ofBool rm.msb

/-- The byte registers above `bl` are reached only behind a register prefix. -/
def needsRex (o : Opcode) (reg rm index : BitVec 4) : Bool :=
  o.rexBits reg rm index != 0 || (o.byteReg && (4 : BitVec 4).ule reg) ||
    (o.byteRM && (4 : BitVec 4).ule rm)

/-- Prefixes and opcode; unused register fields are zero. -/
def pieces (o : Opcode) (reg rm index : BitVec 4) : List Piece :=
  (if o.data16 then [[0x66]] else []) ++
  (if o.repeats then [[0xF3]] else if o.repeatsNot then [[0xF2]] else []) ++
  (if o.needsRex reg rm index then [[(4 : BitVec 4) ++ o.rexBits reg rm index]] else []) ++
  (if o.escape then [[0x0F]] else []) ++
  [[o.byte]]

end Opcode

/-- The operand byte: a mode, a register field, and a register-or-memory
field. -/
def modRM (mode : BitVec 2) (reg rm : BitVec 3) : Byte := mode ++ reg ++ rm

/-- The byte of a scaled index. -/
def scaledIndex (scale : BitVec 2) (index base : BitVec 3) : Byte := scale ++ index ++ base

/-- The displacement can be stored in one byte. -/
def fitsByte (disp : BitVec 32) : Bool := (disp.setWidth 8).signExtend 32 == disp

/-- Mode bits and displacement bytes.  No displacement is stored when it is
zero, except beside the base numbers whose mode 0 means something else. -/
def displacement (base : BitVec 3) (disp : BitVec 32) : BitVec 2 × List Piece :=
  if disp == 0 && base != 5 then (0, [])
  else if fitsByte disp then (1, [[disp.setWidth 8]])
  else (2, [le32 disp])

/-- Opcode and operand byte of two registers. -/
def withReg (o : Opcode) (reg rm : BitVec 4) : List Piece :=
  o.pieces reg rm 0 ++ [[modRM 3 (reg.setWidth 3) (rm.setWidth 3)]]

/-- Opcode, operand byte and the rest of an operand in memory.  A base whose
low number is that of `rsp` needs a scaled-index byte without an index. -/
def withMem (o : Opcode) (reg : BitVec 4) : MemOperand → List Piece
  | .based base disp =>
      let (mode, rest) := displacement base.low disp
      o.pieces reg base.num 0 ++
        (if base.low = 4 then [[modRM mode (reg.setWidth 3) 4], [0x24]]
         else [[modRM mode (reg.setWidth 3) base.low]]) ++ rest
  | .indexed base index scale disp =>
      let (mode, rest) := displacement base.low disp
      o.pieces reg base.num index.num ++
        [[modRM mode (reg.setWidth 3) 4], [scaledIndex scale index.low base.low]] ++ rest

/-! ## Opcodes -/

/-- An opcode whose operand has the given size. -/
def Opcode.sized (byte : Byte) : OpSize → Opcode
  | .byte => { byte := byte, byteReg := true }
  | .word => { byte := byte, data16 := true }
  | .dword => { byte := byte }
  | .qword => { byte := byte, wide := true }

/-- Opcode of a two-operand operation, by its place in a block of eight. -/
def aluOpcode (op : AluOp) (form : BitVec 3) : Byte := (0 : BitVec 2) ++ op.code ++ form

/-- A vector operation behind `66 0F`. -/
def packedOpcode (byte : Byte) : Opcode := { byte := byte, escape := true, data16 := true }

/-- A group member's place as a register field. -/
def groupField (place : BitVec 3) : BitVec 4 := place.setWidth 4

/-! ## Instructions -/

/-- Immediate operation on memory: byte operands have their own opcode, and
others use the one-byte form of the immediate when it fits. -/
def encodeStoreImm (op : AluOp) (size : OpSize) (dst : MemOperand) (imm : BitVec 32) :
    List Piece :=
  let field := groupField op.code
  match size with
  | .byte => withMem { byte := 0x80 } field dst ++ [[imm.setWidth 8]]
  | .word =>
      let short := imm.setWidth 16
      if fitsByte (short.signExtend 32) then
        withMem { byte := 0x83, data16 := true } field dst ++ [[imm.setWidth 8]]
      else withMem { byte := 0x81, data16 := true } field dst ++ [le16 short]
  | .dword | .qword =>
      let wide := size == .qword
      if fitsByte imm then
        withMem { byte := 0x83, wide := wide } field dst ++ [[imm.setWidth 8]]
      else withMem { byte := 0x81, wide := wide } field dst ++ [le32 imm]

/-- Opcode of a register move with the register in its low bits. -/
def movOpcode (wide : Bool) (dst : Reg) : Opcode :=
  { byte := (0x17 : BitVec 5) ++ dst.low, wide := wide }

/-- The pieces of an instruction. -/
def Instr.encode : Instr → List Piece
  | alu op wide dst src => withReg { byte := aluOpcode op 3, wide := wide } dst.num src.num
  | aluImm op wide dst imm =>
      if fitsByte imm then
        withReg { byte := 0x83, wide := wide } (groupField op.code) dst.num ++ [[imm.setWidth 8]]
      else withReg { byte := 0x81, wide := wide } (groupField op.code) dst.num ++ [le32 imm]
  | aluStore op size dst src =>
      withMem (.sized (aluOpcode op (if size = .byte then 0 else 1)) size) src.num dst
  | aluLoad op size dst src =>
      withMem (.sized (aluOpcode op (if size = .byte then 2 else 3)) size) dst.num src
  | aluStoreImm op size dst imm => encodeStoreImm op size dst imm
  | not wide dst => withReg { byte := 0xF7, wide := wide } 2 dst.num
  | test wide a b => withReg { byte := 0x85, wide := wide } b.num a.num
  | shift op wide dst imm =>
      if imm = 1 then withReg { byte := 0xD1, wide := wide } (groupField op.code) dst.num
      else withReg { byte := 0xC1, wide := wide } (groupField op.code) dst.num ++ [[imm]]
  | mov wide dst src => withReg { byte := 0x89, wide := wide } src.num dst.num
  | zero dst => withReg { byte := 0x31 } dst.num dst.num
  | movImm32 dst imm => (movOpcode false dst).pieces 0 dst.num 0 ++ [le32 imm]
  | movImm64 dst imm => (movOpcode true dst).pieces 0 dst.num 0 ++ [le64 imm]
  | load wide dst src => withMem { byte := 0x8B, wide := wide } dst.num src
  | loadExt ext dst src => withMem { byte := ext.code, escape := true } dst.num src
  | store size src dst => withMem (.sized (if size = .byte then 0x88 else 0x89) size) src.num dst
  | lea wide dst src => withMem { byte := 0x8D, wide := wide } dst.num src
  | leaRip dst disp =>
      Opcode.pieces { byte := 0x8D, wide := true } dst.num 0 0 ++ [[modRM 0 dst.low 5], le32 disp]
  | imul wide dst src => withReg { byte := 0xAF, escape := true, wide := wide } dst.num src.num
  | jump disp => [[0xE9], le32 disp]
  | jumpIf cond disp => [[0x0F], [(8 : BitVec 4) ++ cond.code], le32 disp]
  | jumpMem target => withMem { byte := 0xFF } 4 target
  | ret => [[0xC3]]
  | nop => [[0x90]]
  | packed op dst src => withReg (packedOpcode op.code) dst.num src.num
  | packedLoad op dst src => withMem (packedOpcode op.code) dst.num src
  | movdToVec dst src => withReg (packedOpcode 0x6E) dst.num src.num
  | movdToReg dst src => withReg (packedOpcode 0x7E) src.num dst.num
  | movdLoad dst src => withMem (packedOpcode 0x6E) dst.num src
  | laneShift op dst imm => withReg (packedOpcode 0x71) (groupField op.code) dst.num ++ [[imm]]
  | pshuflw dst src imm =>
      withReg { byte := 0x70, escape := true, repeatsNot := true } dst.num src.num ++ [[imm]]
  | pextrw dst src lane => withReg (packedOpcode 0xC5) dst.num src.num ++ [[lane]]
  | pinsrw dst src lane => withReg (packedOpcode 0xC4) dst.num src.num ++ [[lane]]

/-- The bytes of an instruction. -/
def Instr.bytes (i : Instr) : List Byte := i.encode.flatten

/-- The length of an instruction in bytes. -/
def Instr.size (i : Instr) : Nat := i.bytes.length

end PixelPipeline.X86
