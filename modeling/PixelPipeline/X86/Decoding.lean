/-
# X86.Decoding — instructions from bytes

Bytes are read as the machine reads them: legacy prefixes, the register
prefix right before the opcode, the opcode map, the operand byte with its
scaled index and displacement, and the immediate.  What the machine would
read as an instruction outside this library's set is not decoded.
-/
import PixelPipeline.X86.Encoding

namespace PixelPipeline.X86

namespace Decoding

/-- Prefixes in front of an opcode. -/
structure Prefixes where
  data16 : Bool := false
  repeats : Bool := false
  repeatsNot : Bool := false
  rexW : Bool := false
  rexR : Bool := false
  rexX : Bool := false
  rexB : Bool := false
  /-- A register prefix is there, if only an empty one. -/
  hasRex : Bool := false

/-- Read legacy prefixes. -/
def legacy (p : Prefixes) : List Byte → Prefixes × List Byte
  | [] => (p, [])
  | b :: rest =>
      if b = 0x66 then legacy { p with data16 := true } rest
      else if b = 0xF3 then legacy { p with repeats := true } rest
      else if b = 0xF2 then legacy { p with repeatsNot := true } rest
      else (p, b :: rest)

/-- Read the register prefix. -/
def register (p : Prefixes) : List Byte → Prefixes × List Byte
  | [] => (p, [])
  | b :: rest =>
      if b.extractLsb' 4 4 = 4 then
        ({ p with hasRex := true, rexW := b.getLsbD 3, rexR := b.getLsbD 2
                  rexX := b.getLsbD 1, rexB := b.getLsbD 0 }, rest)
      else (p, b :: rest)

/-! ## Fixed-size fields -/

/-- An immediate of one byte. -/
def imm8 : List Byte → Option (BitVec 8 × List Byte)
  | b :: rest => some (b, rest)
  | _ => none

/-- An immediate of two bytes. -/
def imm16 : List Byte → Option (BitVec 16 × List Byte)
  | b₀ :: b₁ :: rest => some (word16 b₀ b₁, rest)
  | _ => none

/-- An immediate or displacement of four bytes. -/
def imm32 : List Byte → Option (BitVec 32 × List Byte)
  | b₀ :: b₁ :: b₂ :: b₃ :: rest => some (word32 b₀ b₁ b₂ b₃, rest)
  | _ => none

/-- An immediate of eight bytes. -/
def imm64 : List Byte → Option (BitVec 64 × List Byte)
  | b₀ :: b₁ :: b₂ :: b₃ :: b₄ :: b₅ :: b₆ :: b₇ :: rest =>
      some (word64 b₀ b₁ b₂ b₃ b₄ b₅ b₆ b₇, rest)
  | _ => none

/-! ## Operands -/

/-- What the register-or-memory field names. -/
inductive Operand where
  | reg (num : BitVec 4)
  | mem (m : MemOperand)
  | rip (disp : BitVec 32)

/-- The displacement that a mode asks for. -/
def readDisp (mode : BitVec 2) (bs : List Byte) : Option (BitVec 32 × List Byte) :=
  if mode = 0 then some (0, bs)
  else if mode = 1 then (imm8 bs).map fun (d, rest) => (d.signExtend 32, rest)
  else imm32 bs

/-- A register number from its high bit and its low bits. -/
def number (high : Bool) (low : BitVec 3) : BitVec 4 := BitVec.ofBool high ++ low

/-- The scaled-index byte and the displacement behind it.  Index number 4 means
that there is no index. -/
def readScaled (p : Prefixes) (mode : BitVec 2) : List Byte → Option (Operand × List Byte)
  | [] => none
  | b :: rest =>
      let base := b.extractLsb' 0 3
      if mode = 0 ∧ base = 5 then none
      else
        let index := number p.rexX (b.extractLsb' 3 3)
        (readDisp mode rest).map fun (disp, rest) =>
          if index = 4 then (.mem (.based ⟨number p.rexB base⟩ disp), rest)
          else
            (.mem (.indexed ⟨number p.rexB base⟩ ⟨index⟩ (b.extractLsb' 6 2) disp), rest)

/-- The operand byte and what belongs to it: the register field and the operand. -/
def readOperands (p : Prefixes) : List Byte → Option (BitVec 4 × Operand × List Byte)
  | [] => none
  | b :: rest =>
      let mode := b.extractLsb' 6 2
      let reg := number p.rexR (b.extractLsb' 3 3)
      let rm := b.extractLsb' 0 3
      if mode = 3 then some (reg, .reg (number p.rexB rm), rest)
      else if rm = 4 then (readScaled p mode rest).map fun (o, rest) => (reg, o, rest)
      else if mode = 0 ∧ rm = 5 then (imm32 rest).map fun (d, rest) => (reg, .rip d, rest)
      else (readDisp mode rest).map fun (d, rest) =>
        (reg, .mem (.based ⟨number p.rexB rm⟩ d), rest)

/-- Size of operands that are not bytes. -/
def opSize (p : Prefixes) : OpSize :=
  if p.rexW then .qword else if p.data16 then .word else .dword

/-- The number names the low byte of a register, and not one of the four high
bytes that are reached without a register prefix. -/
def isLowByte (p : Prefixes) (num : BitVec 4) : Bool := p.hasRex || num.ult 4

/-- No operand-size prefix, or one without effect. -/
def notWord (p : Prefixes) : Bool := p.rexW || !p.data16

/-- The low three bits of a register field, a place in a group. -/
def groupPlace (reg : BitVec 4) : BitVec 3 := reg.setWidth 3

/-! ## Opcodes of the first map -/

/-- The eight two-operand operations in their four forms. -/
def aluForm (p : Prefixes) (op : AluOp) (form : BitVec 3) (bs : List Byte) :
    Option (Instr × List Byte) := do
  let (reg, operand, rest) ← readOperands p bs
  let r : Reg := ⟨reg⟩
  match form, operand with
  | 0, .mem m => if isLowByte p reg then some (.aluStore op .byte m r, rest) else none
  | 1, .mem m => some (.aluStore op (opSize p) m r, rest)
  | 2, .mem m => if isLowByte p reg then some (.aluLoad op .byte r m, rest) else none
  | 3, .mem m => some (.aluLoad op (opSize p) r m, rest)
  | 1, .reg d => if notWord p then some (.alu op p.rexW ⟨d⟩ r, rest) else none
  | 3, .reg s => if notWord p then some (.alu op p.rexW r ⟨s⟩, rest) else none
  | _, _ => none

/-- Immediate operations on bytes. -/
def immByteForm (p : Prefixes) (bs : List Byte) : Option (Instr × List Byte) := do
  let (reg, operand, rest) ← readOperands p bs
  let op := AluOp.ofCode (groupPlace reg)
  match operand with
  | .mem m =>
      let (v, rest) ← imm8 rest
      some (.aluStoreImm op .byte m (v.signExtend 32), rest)
  | _ => none

/-- Immediate operations with a full immediate. -/
def immFullForm (p : Prefixes) (bs : List Byte) : Option (Instr × List Byte) := do
  let (reg, operand, rest) ← readOperands p bs
  let op := AluOp.ofCode (groupPlace reg)
  match operand, opSize p with
  | .reg d, .dword | .reg d, .qword =>
      let (v, rest) ← imm32 rest
      some (.aluImm op p.rexW ⟨d⟩ v, rest)
  | .mem m, .word =>
      let (v, rest) ← imm16 rest
      some (.aluStoreImm op .word m (v.signExtend 32), rest)
  | .mem m, size =>
      let (v, rest) ← imm32 rest
      some (.aluStoreImm op size m v, rest)
  | _, _ => none

/-- Immediate operations with an immediate of one byte. -/
def immShortForm (p : Prefixes) (bs : List Byte) : Option (Instr × List Byte) := do
  let (reg, operand, rest) ← readOperands p bs
  let op := AluOp.ofCode (groupPlace reg)
  let (v, rest) ← imm8 rest
  match operand with
  | .reg d => if notWord p then some (.aluImm op p.rexW ⟨d⟩ (v.signExtend 32), rest) else none
  | .mem m => some (.aluStoreImm op (opSize p) m (v.signExtend 32), rest)
  | .rip _ => none

/-- Shifts and rotations, by one or by an immediate. -/
def shiftForm (p : Prefixes) (byOne : Bool) (bs : List Byte) : Option (Instr × List Byte) := do
  let (reg, operand, rest) ← readOperands p bs
  let op ← ShiftOp.ofCode? (groupPlace reg)
  let (n, rest) ← if byOne then some (1, rest) else imm8 rest
  match operand with
  | .reg d => if notWord p then some (.shift op p.rexW ⟨d⟩ n, rest) else none
  | _ => none

/-- Moves, tests, address loads and the groups of the first map. -/
def operandForm (p : Prefixes) (opcode : Byte) (bs : List Byte) : Option (Instr × List Byte) := do
  let (reg, operand, rest) ← readOperands p bs
  let r : Reg := ⟨reg⟩
  match opcode, operand with
  | 0x85, .reg a => if notWord p then some (.test p.rexW ⟨a⟩ r, rest) else none
  | 0x88, .mem m => if isLowByte p reg then some (.store .byte r m, rest) else none
  | 0x89, .mem m => some (.store (opSize p) r m, rest)
  | 0x89, .reg d => if notWord p then some (.mov p.rexW ⟨d⟩ r, rest) else none
  | 0x8B, .mem m => if notWord p then some (.load p.rexW r m, rest) else none
  | 0x8B, .reg s => if notWord p then some (.mov p.rexW r ⟨s⟩, rest) else none
  | 0x8D, .mem m => if notWord p then some (.lea p.rexW r m, rest) else none
  | 0x8D, .rip d => if p.rexW then some (.leaRip r d, rest) else none
  | 0xF7, .reg d =>
      if groupPlace reg = 2 ∧ notWord p then some (.not p.rexW ⟨d⟩, rest) else none
  | 0xFF, .mem m => if groupPlace reg = 4 ∧ !p.data16 then some (.jumpMem m, rest) else none
  | _, _ => none

/-- Loads of a constant, with the register in the opcode. -/
def movConstForm (p : Prefixes) (opcode : Byte) (bs : List Byte) : Option (Instr × List Byte) :=
  let r : Reg := ⟨number p.rexB (opcode.extractLsb' 0 3)⟩
  if p.rexW then (imm64 bs).map fun (v, rest) => (.movImm64 r v, rest)
  else if p.data16 then none
  else (imm32 bs).map fun (v, rest) => (.movImm32 r v, rest)

/-- An opcode of the first map. -/
def firstMap (p : Prefixes) (opcode : Byte) (bs : List Byte) : Option (Instr × List Byte) :=
  if opcode.extractLsb' 6 2 = 0 then
    aluForm p (.ofCode (opcode.extractLsb' 3 3)) (opcode.extractLsb' 0 3) bs
  else if opcode.extractLsb' 3 5 = 0x17 then movConstForm p opcode bs
  else
    match opcode with
    | 0x80 => immByteForm p bs
    | 0x81 => immFullForm p bs
    | 0x83 => immShortForm p bs
    | 0x90 => if p.rexB then none else some (.nop, bs)
    | 0xC1 => shiftForm p false bs
    | 0xC3 => some (.ret, bs)
    | 0xD1 => shiftForm p true bs
    | 0xE9 => if p.data16 then none else (imm32 bs).map fun (d, rest) => (.jump d, rest)
    | opcode => operandForm p opcode bs

/-! ## Opcodes of the second map -/

/-- An extending load. -/
def extension? : Byte → Option Extension
  | 0xB6 => some .zeroByte
  | 0xB7 => some .zeroWord
  | 0xBE => some .signByte
  | _ => none

/-- Opcodes without a vector prefix. -/
def secondMap (p : Prefixes) (opcode : Byte) (bs : List Byte) : Option (Instr × List Byte) := do
  if opcode.extractLsb' 4 4 = 8 then
    let (d, rest) ← imm32 bs
    some (.jumpIf (.ofCode (opcode.extractLsb' 0 4)) d, rest)
  else
    let (reg, operand, rest) ← readOperands p bs
    match opcode, operand with
    | 0x1F, .mem _ => if groupPlace reg = 0 then some (.nop, rest) else none
    | 0xAF, .reg s => some (.imul p.rexW ⟨reg⟩ ⟨s⟩, rest)
    | opcode, .mem m =>
        let ext ← extension? opcode
        if p.rexW then none else some (.loadExt ext ⟨reg⟩ m, rest)
    | _, _ => none

/-- Opcodes behind `66`. -/
def vectorMap (p : Prefixes) (opcode : Byte) (bs : List Byte) : Option (Instr × List Byte) := do
  let (reg, operand, rest) ← readOperands p bs
  if opcode = 0x1F then
    match operand with
    | .mem _ => if groupPlace reg = 0 then some (.nop, rest) else none
    | _ => none
  else if p.rexW then none
  else
    match opcode, operand with
    | 0x6E, .reg s => some (.movdToVec ⟨reg⟩ ⟨s⟩, rest)
    | 0x6E, .mem m => some (.movdLoad ⟨reg⟩ m, rest)
    | 0x7E, .reg d => some (.movdToReg ⟨d⟩ ⟨reg⟩, rest)
    | 0x71, .reg d =>
        let op ← LaneShift.ofCode? (groupPlace reg)
        let (n, rest) ← imm8 rest
        some (.laneShift op ⟨d⟩ n, rest)
    | 0xC4, .reg s =>
        let (n, rest) ← imm8 rest
        some (.pinsrw ⟨reg⟩ ⟨s⟩ n, rest)
    | 0xC5, .reg s =>
        let (n, rest) ← imm8 rest
        some (.pextrw ⟨reg⟩ ⟨s⟩ n, rest)
    | opcode, .reg s => (PackedOp.ofCode? opcode).map fun op => (.packed op ⟨reg⟩ ⟨s⟩, rest)
    | opcode, .mem m => (PackedOp.ofCode? opcode).map fun op => (.packedLoad op ⟨reg⟩ m, rest)
    | _, _ => none

/-- The one opcode behind `F2`. -/
def shuffleMap (p : Prefixes) (opcode : Byte) (bs : List Byte) : Option (Instr × List Byte) := do
  let (reg, operand, rest) ← readOperands p bs
  let (n, rest) ← imm8 rest
  match opcode, operand with
  | 0x70, .reg s => some (.pshuflw ⟨reg⟩ ⟨s⟩ n, rest)
  | _, _ => none

/-- The opcode and its operands behind prefixes. -/
def afterPrefixes (p : Prefixes) : List Byte → Option (Instr × List Byte)
  | 0x0F :: opcode :: rest =>
      if p.repeats then none
      else if p.repeatsNot then if p.data16 then none else shuffleMap p opcode rest
      else if p.data16 then vectorMap p opcode rest
      else secondMap p opcode rest
  | opcode :: rest => if p.repeats || p.repeatsNot then none else firstMap p opcode rest
  | [] => none

end Decoding

/-- The instruction at the front of some bytes, and the bytes after it. -/
def decode (bs : List Byte) : Option (Instr × List Byte) :=
  let (p, bs) := Decoding.legacy {} bs
  let (p, bs) := Decoding.register p bs
  Decoding.afterPrefixes p bs

end PixelPipeline.X86
