/-
# Proofs.Decoding — the decoder reads back what the encoder wrote

`decode_bytes` is the statement: whatever follows an instruction in memory,
decoding its bytes gives the instruction and leaves the rest.  Three
instructions come back in another form with the same effect, which
`Instr.decoded` names: a zero is an exclusive or, and the immediate of a byte
or word operation on memory comes back extended by its sign.

The proof has three layers, as the encoding has: prefixes and opcode
(`decode_pieces`), the operand byte and what belongs to it
(`readOperands_reg`, `readOperands_mem`), and one case for each instruction.
-/
import PixelPipeline.X86.Machine

namespace PixelPipeline.X86

/-- The index register is not `rsp`, whose number means that there is none. -/
def MemOperand.encodable : MemOperand → Bool
  | .based _ _ => true
  | .indexed _ index _ _ => index ≠ .rsp

/-- The operands of the instruction can be written down. -/
def Instr.encodable : Instr → Bool
  | .aluStore _ _ m _ | .aluLoad _ _ _ m | .aluStoreImm _ _ m _ | .load _ _ m
  | .loadExt _ _ m | .store _ _ m | .lea _ _ m | .jumpMem m | .packedLoad _ _ m
  | .movdLoad _ m => m.encodable
  | _ => true

/-- The form in which an instruction comes back from its bytes. -/
def Instr.decoded : Instr → Instr
  | .zero dst => .alu .xor false dst dst
  | .aluStoreImm op .byte m imm => .aluStoreImm op .byte m ((imm.setWidth 8).signExtend 32)
  | .aluStoreImm op .word m imm => .aluStoreImm op .word m ((imm.setWidth 16).signExtend 32)
  | i => i

namespace Decoding

/-! ## Prefixes and opcode -/

/-- The prefixes that an opcode and its registers put in front of it. -/
def prefixesOf (o : Opcode) (reg rm index : BitVec 4) : Prefixes where
  data16 := o.data16
  repeats := o.repeats
  repeatsNot := !o.repeats && o.repeatsNot
  rexW := o.wide
  rexR := reg.msb
  rexX := index.msb
  rexB := rm.msb
  hasRex := o.needsRex reg rm index

/-- The byte is not taken for a prefix. -/
def Opens (b : Byte) : Prop := b ≠ 0x66 ∧ b ≠ 0xF3 ∧ b ≠ 0xF2 ∧ b.extractLsb' 4 4 ≠ 4

instance (b : Byte) : Decidable (Opens b) :=
  inferInstanceAs (Decidable (_ ∧ _ ∧ _ ∧ _))

/-- A byte that can be checked to open an instruction. -/
theorem opens (b : Byte) (h : Opens b := by decide) : Opens b := h

/-- Behind the escape any byte will do. -/
theorem escaped {o : Opcode} (h : o.escape = true) : o.escape = false → Opens o.byte :=
  fun e => absurd (h.symm.trans e) (by decide)

theorem legacy_opens {b : Byte} (h : b ≠ 0x66 ∧ b ≠ 0xF3 ∧ b ≠ 0xF2) (p : Prefixes)
    (rest : List Byte) : legacy p (b :: rest) = (p, b :: rest) := by
  rw [legacy, if_neg h.1, if_neg h.2.1, if_neg h.2.2]

theorem rexByte_opens (bits : BitVec 4) :
    (4 : BitVec 4) ++ bits ≠ (0x66 : Byte) ∧ (4 : BitVec 4) ++ bits ≠ (0xF3 : Byte) ∧
      (4 : BitVec 4) ++ bits ≠ (0xF2 : Byte) := by
  revert bits; decide

theorem register_rexByte (p : Prefixes) (w r x b : Bool) (rest : List Byte) :
    register p (((4 : BitVec 4) ++ (BitVec.ofBool w ++ BitVec.ofBool r ++ BitVec.ofBool x ++
        BitVec.ofBool b)) :: rest) =
      ({ p with hasRex := true, rexW := w, rexR := r, rexX := x, rexB := b }, rest) := by
  cases w <;> cases r <;> cases x <;> cases b <;> rfl

theorem register_opens {b : Byte} (h : b.extractLsb' 4 4 ≠ 4) (p : Prefixes) (rest : List Byte) :
    register p (b :: rest) = (p, b :: rest) := by
  rw [register, if_neg h]

/-- Without a register prefix every bit it would carry is zero. -/
theorem rexBits_eq_zero {o : Opcode} {reg rm index : BitVec 4}
    (h : o.needsRex reg rm index = false) :
    o.wide = false ∧ reg.msb = false ∧ index.msb = false ∧ rm.msb = false := by
  simp only [Opcode.needsRex, Bool.or_eq_false_iff, bne_eq_false_iff_eq] at h
  have bits := h.1.1
  rw [Opcode.rexBits] at bits
  revert bits
  generalize o.wide = w
  generalize reg.msb = r
  generalize index.msb = x
  generalize rm.msb = b
  cases w <;> cases r <;> cases x <;> cases b <;> decide

/-- The opcode byte and the escape in front of it. -/
def opcodeBytes (o : Opcode) : List Byte := if o.escape then [0x0F, o.byte] else [o.byte]

theorem register_opcodeBytes {o : Opcode} (h : o.escape = false → Opens o.byte) (p : Prefixes)
    (rest : List Byte) : register p (opcodeBytes o ++ rest) = (p, opcodeBytes o ++ rest) := by
  cases e : o.escape with
  | true => simp only [opcodeBytes, e]; rfl
  | false =>
    simp only [opcodeBytes, e]
    exact register_opens (h e).2.2.2 p rest

theorem legacy_opcodeBytes {o : Opcode} (h : o.escape = false → Opens o.byte) (p : Prefixes)
    (rest : List Byte) : legacy p (opcodeBytes o ++ rest) = (p, opcodeBytes o ++ rest) := by
  cases e : o.escape with
  | true => simp only [opcodeBytes, e]; rfl
  | false =>
    simp only [opcodeBytes, e]
    have := h e
    exact legacy_opens ⟨this.1, this.2.1, this.2.2.1⟩ p rest

/-- The register prefix, if one is needed. -/
def rexBytes (o : Opcode) (reg rm index : BitVec 4) : List Byte :=
  if o.needsRex reg rm index then [(4 : BitVec 4) ++ o.rexBits reg rm index] else []

/-- The legacy prefixes. -/
def legacyBytes (o : Opcode) : List Byte :=
  (if o.data16 then [0x66] else []) ++
    (if o.repeats then [0xF3] else if o.repeatsNot then [0xF2] else [])

theorem pieces_flatten (o : Opcode) (reg rm index : BitVec 4) :
    (o.pieces reg rm index).flatten =
      legacyBytes o ++ (rexBytes o reg rm index ++ opcodeBytes o) := by
  simp only [Opcode.pieces, legacyBytes, rexBytes, opcodeBytes]
  cases o.data16 <;> cases o.repeats <;> cases o.repeatsNot <;>
    cases o.needsRex reg rm index <;> cases o.escape <;> rfl

theorem legacy_legacyBytes (o : Opcode) (rest : List Byte)
    (h : ∀ p, legacy p rest = (p, rest)) :
    legacy {} (legacyBytes o ++ rest) =
      ({ data16 := o.data16, repeats := o.repeats, repeatsNot := !o.repeats && o.repeatsNot },
        rest) := by
  simp only [legacyBytes]
  cases o.data16 <;> cases o.repeats <;> cases o.repeatsNot <;>
    simp [legacy, h]

/-- Prefixes and opcode are read back, and the operands are left. -/
theorem decode_pieces {o : Opcode} (h : o.escape = false → Opens o.byte)
    (reg rm index : BitVec 4) (rest : List Byte) :
    decode ((o.pieces reg rm index).flatten ++ rest) =
      afterPrefixes (prefixesOf o reg rm index) (opcodeBytes o ++ rest) := by
  rw [pieces_flatten, List.append_assoc, List.append_assoc, decode]
  cases hr : o.needsRex reg rm index with
  | false =>
    obtain ⟨hw, hreg, hindex, hrm⟩ := rexBits_eq_zero hr
    simp only [rexBytes, hr, if_false, List.nil_append, Bool.false_eq_true]
    rw [legacy_legacyBytes _ _ (fun p => legacy_opcodeBytes h p rest)]
    simp only [register_opcodeBytes h]
    rw [prefixesOf, hw, hreg, hindex, hrm, hr]
  | true =>
    simp only [rexBytes, hr, if_true, List.cons_append, List.nil_append]
    rw [legacy_legacyBytes _ _ (fun p => legacy_opens (rexByte_opens _) p _)]
    simp only [Opcode.rexBits, register_rexByte]
    rw [prefixesOf, hr]

/-! ## Operands -/

@[simp] theorem number_msb (r : BitVec 4) : number r.msb (r.setWidth 3) = r := by
  revert r; decide

@[simp] theorem number_low (r : Reg) : number r.num.msb r.low = r.num := number_msb r.num

theorem modRM_fields (mode : BitVec 2) (reg rm : BitVec 3) :
    (modRM mode reg rm).extractLsb' 6 2 = mode ∧ (modRM mode reg rm).extractLsb' 3 3 = reg ∧
      (modRM mode reg rm).extractLsb' 0 3 = rm := by
  revert mode reg rm; decide

theorem scaledIndex_fields (scale : BitVec 2) (index base : BitVec 3) :
    (scaledIndex scale index base).extractLsb' 6 2 = scale ∧
      (scaledIndex scale index base).extractLsb' 3 3 = index ∧
      (scaledIndex scale index base).extractLsb' 0 3 = base :=
  modRM_fields scale index base

/-- A register operand is read back. -/
theorem readOperands_reg {p : Prefixes} {reg rm : BitVec 4} (hR : p.rexR = reg.msb)
    (hB : p.rexB = rm.msb) (rest : List Byte) :
    readOperands p (modRM 3 (reg.setWidth 3) (rm.setWidth 3) :: rest) =
      some (reg, .reg rm, rest) := by
  obtain ⟨hmode, hreg, hrm⟩ := modRM_fields 3 (reg.setWidth 3) (rm.setWidth 3)
  simp only [readOperands, hmode, hreg, hrm, if_true, hR, hB, number_msb]

theorem imm32_le32 (v : BitVec 32) (rest : List Byte) : imm32 (le32 v ++ rest) = some (v, rest) := by
  simp only [le32, List.cons_append, List.nil_append, imm32, word32_le32]

theorem imm16_le16 (v : BitVec 16) (rest : List Byte) : imm16 (le16 v ++ rest) = some (v, rest) := by
  simp only [le16, List.cons_append, List.nil_append, imm16, word16_le16]

theorem imm64_le64 (v : BitVec 64) (rest : List Byte) : imm64 (le64 v ++ rest) = some (v, rest) := by
  simp only [le64, List.cons_append, List.nil_append, imm64, word64_le64]

/-- A displacement is read back under the mode it was written with, and that mode
is not the one of a register. -/
theorem readDisp_displacement (base : BitVec 3) (disp : BitVec 32) (rest : List Byte) :
    readDisp (displacement base disp).1 ((displacement base disp).2.flatten ++ rest) =
        some (disp, rest) ∧
      (displacement base disp).1 ≠ 3 ∧ ((displacement base disp).1 = 0 → base ≠ 5) := by
  unfold displacement
  split
  · rename_i h
    simp only [Bool.and_eq_true, beq_iff_eq, bne_iff_ne] at h
    exact ⟨by simp [readDisp, h.1], by decide, fun _ => h.2⟩
  · split
    · rename_i h
      rw [fitsByte, beq_iff_eq] at h
      exact ⟨by simp [readDisp, imm8, h], by simp, by simp⟩
    · exact ⟨by simp [readDisp, imm32_le32], by simp, by simp⟩

/-- The number of the base register of an operand. -/
def baseNum : MemOperand → BitVec 4
  | .based base _ => base.num
  | .indexed base _ _ _ => base.num

/-- The number of the index register, zero if there is none. -/
def indexNum : MemOperand → BitVec 4
  | .based _ _ => 0
  | .indexed _ index _ _ => index.num

/-- The bytes of an operand in memory behind the opcode. -/
def operandBytes (reg : BitVec 4) : MemOperand → List Byte
  | .based base disp =>
      let d := displacement base.low disp
      (if base.low = 4 then [modRM d.1 (reg.setWidth 3) 4, 0x24]
       else [modRM d.1 (reg.setWidth 3) base.low]) ++ d.2.flatten
  | .indexed base index scale disp =>
      let d := displacement base.low disp
      [modRM d.1 (reg.setWidth 3) 4, scaledIndex scale index.low base.low] ++ d.2.flatten

theorem withMem_flatten (o : Opcode) (reg : BitVec 4) (m : MemOperand) :
    (withMem o reg m).flatten =
      (o.pieces reg (baseNum m) (indexNum m)).flatten ++ operandBytes reg m := by
  cases m with
  | based base disp =>
    simp only [withMem, baseNum, indexNum, operandBytes, List.flatten_append, List.append_assoc]
    split <;> rfl
  | indexed base index scale disp =>
    simp only [withMem, baseNum, indexNum, operandBytes, List.flatten_append, List.append_assoc]
    rfl

theorem index_ne_four {index : Reg} (h : index ≠ .rsp) : index.num ≠ 4 :=
  fun e => h (by cases index; exact congrArg Reg.mk e)

/-- An operand in memory is read back. -/
theorem readOperands_mem {p : Prefixes} {reg : BitVec 4} {m : MemOperand} (hm : m.encodable = true)
    (hR : p.rexR = reg.msb) (hB : p.rexB = (baseNum m).msb) (hX : p.rexX = (indexNum m).msb)
    (rest : List Byte) :
    readOperands p (operandBytes reg m ++ rest) = some (reg, .mem m, rest) := by
  cases m with
  | based base disp =>
    obtain ⟨hread, hmode, hzero⟩ := readDisp_displacement base.low disp rest
    simp only [operandBytes, baseNum, indexNum] at hB hX ⊢
    by_cases hlow : base.low = 4
    · rw [if_pos hlow]
      obtain ⟨f₁, f₂, f₃⟩ := modRM_fields (displacement base.low disp).1 (reg.setWidth 3) 4
      have hbase : number base.num.msb 4 = base.num := by rw [← hlow, number_low]
      have hx : p.rexX = false := hX
      simp only [List.cons_append, List.nil_append, readOperands, f₁, f₂, f₃, hmode, if_false,
        if_true, readScaled, hR, number_msb]
      rw [if_neg (fun h => absurd h.2 (by decide)), hread]
      simp only [Option.map_some, hB, hx]
      rw [if_pos (by decide), show (0x24 : Byte).extractLsb' 0 3 = 4 from rfl, hbase]
    · rw [if_neg hlow]
      obtain ⟨f₁, f₂, f₃⟩ := modRM_fields (displacement base.low disp).1 (reg.setWidth 3) base.low
      simp only [List.cons_append, List.nil_append, readOperands, f₁, f₂, f₃, hmode, if_false,
        hlow, hR, hB, number_msb, number_low]
      rw [if_neg (fun h => hzero h.1 h.2), hread]
      rfl
  | indexed base index scale disp =>
    obtain ⟨hread, hmode, hzero⟩ := readDisp_displacement base.low disp rest
    have hne := index_ne_four (of_decide_eq_true hm)
    simp only [operandBytes, baseNum, indexNum] at hB hX ⊢
    obtain ⟨f₁, f₂, f₃⟩ := modRM_fields (displacement base.low disp).1 (reg.setWidth 3) 4
    obtain ⟨s₁, s₂, s₃⟩ := scaledIndex_fields scale index.low base.low
    simp only [List.cons_append, List.nil_append, readOperands, f₁, f₂, f₃, hmode, if_false,
      if_true, readScaled, hR, number_msb, s₁, s₂, s₃]
    rw [if_neg (fun h => hzero h.1 h.2), hread]
    simp only [Option.map_some, hX, hB, number_low, if_neg hne]

/-! ## Whole instructions

`decode_withReg` and `decode_withMem` say what is left to do behind an opcode:
the map of the opcode is applied to operands that will be read back. -/

theorem decode_withReg {o : Opcode} (h : o.escape = false → Opens o.byte) (reg rm : BitVec 4)
    (rest : List Byte) :
    decode ((withReg o reg rm).flatten ++ rest) =
      afterPrefixes (prefixesOf o reg rm 0)
        (opcodeBytes o ++ modRM 3 (reg.setWidth 3) (rm.setWidth 3) :: rest) := by
  rw [withReg, List.flatten_append, List.append_assoc, decode_pieces h]
  rfl

theorem decode_withMem {o : Opcode} (h : o.escape = false → Opens o.byte) (reg : BitVec 4)
    (m : MemOperand) (rest : List Byte) :
    decode ((withMem o reg m).flatten ++ rest) =
      afterPrefixes (prefixesOf o reg (baseNum m) (indexNum m))
        (opcodeBytes o ++ (operandBytes reg m ++ rest)) := by
  rw [withMem_flatten, List.append_assoc, decode_pieces h]

theorem readOperands_prefixesOf_reg (o : Opcode) (reg rm : BitVec 4) (rest : List Byte) :
    readOperands (prefixesOf o reg rm 0) (modRM 3 (reg.setWidth 3) (rm.setWidth 3) :: rest) =
      some (reg, .reg rm, rest) :=
  readOperands_reg rfl rfl rest

theorem readOperands_prefixesOf_mem (o : Opcode) (reg : BitVec 4) {m : MemOperand}
    (hm : m.encodable = true) (rest : List Byte) :
    readOperands (prefixesOf o reg (baseNum m) (indexNum m)) (operandBytes reg m ++ rest) =
      some (reg, .mem m, rest) :=
  readOperands_mem hm rfl rfl rfl rest

@[simp] theorem groupPlace_groupField (c : BitVec 3) : groupPlace (groupField c) = c := by
  revert c; decide

theorem opens_aluOpcode (op : AluOp) (form : BitVec 3) (h : form.ult 4 = true) :
    Opens (aluOpcode op form) := by
  revert form; cases op <;> decide

theorem aluOpcode_fields (op : AluOp) (form : BitVec 3) :
    (aluOpcode op form).extractLsb' 6 2 = 0 ∧
      AluOp.ofCode ((aluOpcode op form).extractLsb' 3 3) = op ∧
      (aluOpcode op form).extractLsb' 0 3 = form := by
  revert form; cases op <;> decide

theorem firstMap_alu (p : Prefixes) (op : AluOp) (form : BitVec 3) (bs : List Byte) :
    firstMap p (aluOpcode op form) bs = aluForm p op form bs := by
  obtain ⟨f₁, f₂, f₃⟩ := aluOpcode_fields op form
  unfold firstMap
  rw [if_pos f₁, f₂, f₃]

theorem afterPrefixes_alu {o : Opcode} {op : AluOp} {n : BitVec 3} {reg rm index : BitVec 4}
    (hbyte : o.byte = aluOpcode op n) (h : n.ult 4 = true) (he : o.escape = false)
    (hr : o.repeats = false) (hn : o.repeatsNot = false) (rest : List Byte) :
    afterPrefixes (prefixesOf o reg rm index) (opcodeBytes o ++ rest) =
      aluForm (prefixesOf o reg rm index) op n rest := by
  have hb : aluOpcode op n ≠ 0x0F := by
    clear hbyte
    revert n
    cases op <;> decide
  simp only [opcodeBytes, he, hbyte, Bool.false_eq_true, if_false, List.singleton_append]
  rw [← firstMap_alu, afterPrefixes]
  · simp [prefixesOf, hr, hn]
  · exact fun _ _ e => absurd e hb

/-- A byte register is named with a prefix if its number asks for one. -/
theorem isLowByte_prefixesOf {o : Opcode} (h : o.byteReg = true) (reg rm index : BitVec 4) :
    isLowByte (prefixesOf o reg rm index) reg = true := by
  simp only [isLowByte, prefixesOf, Opcode.needsRex, h, Bool.true_and]
  cases hlt : reg.ult 4 with
  | true => simp
  | false =>
    have hle : (4 : BitVec 4).ule reg = true := by
      revert hlt; revert reg; decide
    rw [hle]
    simp

/-- Reading back an immediate of one byte and writing it in full agree. -/
theorem signExtend_of_fitsByte {imm : BitVec 32} (h : fitsByte imm = true) :
    (imm.setWidth 8).signExtend 32 = imm := by
  rwa [fitsByte, beq_iff_eq] at h

/-- The immediate of a word operation, from the one byte that it fits into. -/
theorem signExtend_of_fitsByte_word {imm : BitVec 32}
    (h : fitsByte ((imm.setWidth 16).signExtend 32) = true) :
    (imm.setWidth 8).signExtend 32 = (imm.setWidth 16).signExtend 32 := by
  rw [fitsByte, beq_iff_eq] at h
  rw [← h]
  congr 1
  apply BitVec.eq_of_getLsbD_eq
  intro i hi
  have hword : i < 16 := by omega
  have hfull : i < 32 := by omega
  simp only [BitVec.getLsbD_setWidth, BitVec.getLsbD_signExtend, hi, hword, hfull, decide_true,
    Bool.true_and, if_true]

end Decoding

open Decoding

theorem decode_aluStore (op : AluOp) (size : OpSize) {m : MemOperand} (hm : m.encodable = true)
    (src : Reg) (rest : List Byte) :
    decode ((Instr.aluStore op size m src).bytes ++ rest) = some (.aluStore op size m src, rest) := by
  cases size with
  | byte =>
    rw [Instr.bytes, Instr.encode, decode_withMem (fun _ => opens_aluOpcode op 0 rfl)]
    rw [afterPrefixes_alu (n := 0) rfl rfl rfl rfl rfl, aluForm,
      readOperands_prefixesOf_mem _ _ hm]
    exact if_pos (isLowByte_prefixesOf rfl _ _ _)
  | _ =>
    rw [Instr.bytes, Instr.encode, decode_withMem (fun _ => opens_aluOpcode op 1 rfl)]
    rw [afterPrefixes_alu (n := 1) rfl rfl rfl rfl rfl, aluForm,
      readOperands_prefixesOf_mem _ _ hm]
    rfl

theorem decode_aluLoad (op : AluOp) (size : OpSize) {m : MemOperand} (hm : m.encodable = true)
    (dst : Reg) (rest : List Byte) :
    decode ((Instr.aluLoad op size dst m).bytes ++ rest) = some (.aluLoad op size dst m, rest) := by
  cases size with
  | byte =>
    rw [Instr.bytes, Instr.encode, decode_withMem (fun _ => opens_aluOpcode op 2 rfl)]
    rw [afterPrefixes_alu (n := 2) rfl rfl rfl rfl rfl, aluForm,
      readOperands_prefixesOf_mem _ _ hm]
    exact if_pos (isLowByte_prefixesOf rfl _ _ _)
  | _ =>
    rw [Instr.bytes, Instr.encode, decode_withMem (fun _ => opens_aluOpcode op 3 rfl)]
    rw [afterPrefixes_alu (n := 3) rfl rfl rfl rfl rfl, aluForm,
      readOperands_prefixesOf_mem _ _ hm]
    rfl

theorem decode_aluImm (op : AluOp) (wide : Bool) (dst : Reg) (imm : BitVec 32)
    (rest : List Byte) :
    decode ((Instr.aluImm op wide dst imm).bytes ++ rest) = some (.aluImm op wide dst imm, rest) := by
  rw [Instr.bytes, Instr.encode]
  split
  · rename_i h
    rw [List.flatten_append, List.append_assoc, decode_withReg (fun _ => opens 0x83)]
    cases wide <;>
    · show immShortForm (prefixesOf _ _ _ _) (modRM _ _ _ :: _) = _
      rw [immShortForm, readOperands_prefixesOf_reg]
      simp [imm8, notWord, prefixesOf, signExtend_of_fitsByte h, AluOp.ofCode_code]
  · rw [List.flatten_append, List.append_assoc, decode_withReg (fun _ => opens 0x81)]
    cases wide <;>
    · show immFullForm (prefixesOf _ _ _ _) (modRM _ _ _ :: _) = _
      rw [immFullForm, readOperands_prefixesOf_reg]
      simp [imm32_le32, opSize, prefixesOf, AluOp.ofCode_code]

theorem decode_aluStoreImm (op : AluOp) (size : OpSize) {m : MemOperand} (hm : m.encodable = true)
    (imm : BitVec 32) (rest : List Byte) :
    decode ((Instr.aluStoreImm op size m imm).bytes ++ rest) =
      some ((Instr.aluStoreImm op size m imm).decoded, rest) := by
  rw [Instr.bytes, Instr.encode, encodeStoreImm.eq_def]
  cases size with
  | byte =>
    rw [List.flatten_append, List.append_assoc, decode_withMem (fun _ => opens 0x80)]
    show immByteForm (prefixesOf _ _ _ _) (operandBytes _ _ ++ _) = _
    rw [immByteForm, readOperands_prefixesOf_mem _ _ hm]
    simp [imm8, Instr.decoded, AluOp.ofCode_code]
  | word =>
    dsimp only
    split
    · rename_i h
      rw [List.flatten_append, List.append_assoc, decode_withMem (fun _ => opens 0x83)]
      show immShortForm (prefixesOf _ _ _ _) (operandBytes _ _ ++ _) = _
      rw [immShortForm, readOperands_prefixesOf_mem _ _ hm]
      simp [imm8, Instr.decoded, AluOp.ofCode_code, opSize, prefixesOf,
        signExtend_of_fitsByte_word h]
    · rw [List.flatten_append, List.append_assoc, decode_withMem (fun _ => opens 0x81)]
      show immFullForm (prefixesOf _ _ _ _) (operandBytes _ _ ++ _) = _
      rw [immFullForm, readOperands_prefixesOf_mem _ _ hm]
      simp [imm16_le16, Instr.decoded, AluOp.ofCode_code, opSize, prefixesOf]
  | _ =>
    dsimp only
    split
    · rename_i h
      rw [List.flatten_append, List.append_assoc, decode_withMem (fun _ => opens 0x83)]
      show immShortForm (prefixesOf _ _ _ _) (operandBytes _ _ ++ _) = _
      rw [immShortForm, readOperands_prefixesOf_mem _ _ hm]
      simp [imm8, Instr.decoded, AluOp.ofCode_code, opSize, prefixesOf, signExtend_of_fitsByte h]
    · rw [List.flatten_append, List.append_assoc, decode_withMem (fun _ => opens 0x81)]
      show immFullForm (prefixesOf _ _ _ _) (operandBytes _ _ ++ _) = _
      rw [immFullForm, readOperands_prefixesOf_mem _ _ hm]
      simp [imm32_le32, Instr.decoded, AluOp.ofCode_code, opSize, prefixesOf]

/-- The opcode of a register move says which register. -/
theorem movOpcode_fields (low : BitVec 3) :
    Opens ((0x17 : BitVec 5) ++ low) ∧ ((0x17 : BitVec 5) ++ low).extractLsb' 6 2 ≠ 0 ∧
      ((0x17 : BitVec 5) ++ low).extractLsb' 3 5 = 0x17 ∧
      ((0x17 : BitVec 5) ++ low).extractLsb' 0 3 = low ∧
      (0x17 : BitVec 5) ++ low ≠ (0x0F : Byte) := by
  revert low; decide

theorem afterPrefixes_mov (wide : Bool) (dst : Reg) (rest : List Byte) :
    afterPrefixes (prefixesOf (movOpcode wide dst) 0 dst.num 0)
        (opcodeBytes (movOpcode wide dst) ++ rest) =
      movConstForm (prefixesOf (movOpcode wide dst) 0 dst.num 0) ((0x17 : BitVec 5) ++ dst.low)
        rest := by
  obtain ⟨_, h₁, h₂, _, h₃⟩ := movOpcode_fields dst.low
  simp only [opcodeBytes, movOpcode, Bool.false_eq_true, if_false, List.singleton_append]
  rw [afterPrefixes]
  · rw [if_neg (by simp [prefixesOf])]
    unfold firstMap
    rw [if_neg h₁, if_pos h₂]
  · exact fun _ _ e => absurd e h₃

theorem decode_shift (op : ShiftOp) (wide : Bool) (dst : Reg) (imm : BitVec 8)
    (rest : List Byte) :
    decode ((Instr.shift op wide dst imm).bytes ++ rest) = some (.shift op wide dst imm, rest) := by
  rw [Instr.bytes, Instr.encode]
  split
  · rename_i h
    rw [decode_withReg (fun _ => opens 0xD1)]
    cases wide <;>
    · show shiftForm (prefixesOf _ _ _ _) true (modRM _ _ _ :: _) = _
      rw [shiftForm, readOperands_prefixesOf_reg]
      simp [notWord, prefixesOf, h, ShiftOp.ofCode?_code]
  · rw [List.flatten_append, List.append_assoc, decode_withReg (fun _ => opens 0xC1)]
    cases wide <;>
    · show shiftForm (prefixesOf _ _ _ _) false (modRM _ _ _ :: _) = _
      rw [shiftForm, readOperands_prefixesOf_reg]
      simp [notWord, prefixesOf, imm8, ShiftOp.ofCode?_code]

theorem decode_store (size : OpSize) (src : Reg) {m : MemOperand} (hm : m.encodable = true)
    (rest : List Byte) :
    decode ((Instr.store size src m).bytes ++ rest) = some (.store size src m, rest) := by
  rw [Instr.bytes, Instr.encode]
  cases size with
  | byte =>
    rw [decode_withMem (fun _ => opens 0x88)]
    show operandForm (prefixesOf _ _ _ _) 0x88 (operandBytes _ _ ++ _) = _
    rw [operandForm, readOperands_prefixesOf_mem _ _ hm]
    exact if_pos (isLowByte_prefixesOf rfl _ _ _)
  | _ =>
    rw [decode_withMem (fun _ => opens 0x89)]
    show operandForm (prefixesOf _ _ _ _) 0x89 (operandBytes _ _ ++ _) = _
    rw [operandForm, readOperands_prefixesOf_mem _ _ hm]
    rfl

/-- A displacement counted from the next instruction is read back. -/
theorem decode_leaRip (dst : Reg) (disp : BitVec 32) (rest : List Byte) :
    decode ((Instr.leaRip dst disp).bytes ++ rest) = some (.leaRip dst disp, rest) := by
  rw [Instr.bytes, Instr.encode, List.flatten_append, List.append_assoc,
    decode_pieces (fun _ => opens 0x8D)]
  show operandForm (prefixesOf _ _ _ _) 0x8D (modRM _ _ _ :: (le32 disp ++ ([] ++ rest))) = _
  obtain ⟨f₁, f₂, f₃⟩ := modRM_fields 0 dst.low 5
  rw [operandForm, readOperands, f₁, f₂, f₃, List.nil_append, imm32_le32]
  simp [prefixesOf, number_low]

/-- A load of a wide constant is read back. -/
theorem decode_movImm64 (dst : Reg) (imm : BitVec 64) (rest : List Byte) :
    decode ((Instr.movImm64 dst imm).bytes ++ rest) = some (.movImm64 dst imm, rest) := by
  obtain ⟨hopens, _, _, hlow, _⟩ := movOpcode_fields dst.low
  rw [Instr.bytes, Instr.encode, List.flatten_append, List.append_assoc,
    decode_pieces (fun _ => hopens), afterPrefixes_mov, movConstForm, hlow]
  simp [prefixesOf, movOpcode, imm64_le64]

/-- A load of a narrow constant is read back. -/
theorem decode_movImm32 (dst : Reg) (imm : BitVec 32) (rest : List Byte) :
    decode ((Instr.movImm32 dst imm).bytes ++ rest) = some (.movImm32 dst imm, rest) := by
  obtain ⟨hopens, _, _, hlow, _⟩ := movOpcode_fields dst.low
  rw [Instr.bytes, Instr.encode, List.flatten_append, List.append_assoc,
    decode_pieces (fun _ => hopens), afterPrefixes_mov, movConstForm, hlow]
  simp [prefixesOf, movOpcode, imm32_le32]

/-- A conditional jump is read back. -/
theorem decode_jumpIf (c : Cond) (disp : BitVec 32) (rest : List Byte) :
    decode ((Instr.jumpIf c disp).bytes ++ rest) = some (.jumpIf c disp, rest) := by
  have hnibble : ((8 : BitVec 4) ++ c.code).extractLsb' 4 4 = 8 := by cases c <;> decide
  have hcode : Cond.ofCode (((8 : BitVec 4) ++ c.code).extractLsb' 0 4) = c := by
    cases c <;> rfl
  show secondMap _ ((8 : BitVec 4) ++ c.code) (le32 disp ++ ([] ++ rest)) = _
  rw [secondMap, if_pos hnibble, List.nil_append, imm32_le32, hcode]
  rfl

/-- Any instruction is read back from its bytes, whatever follows them. -/
theorem decode_bytes {i : Instr} (h : i.encodable = true) (rest : List Byte) :
    decode (i.bytes ++ rest) = some (i.decoded, rest) := by
  cases i with
  | alu op wide dst src =>
    rw [Instr.bytes, Instr.encode, decode_withReg (fun _ => opens_aluOpcode op 3 rfl),
      afterPrefixes_alu (n := 3) rfl rfl rfl rfl rfl, aluForm,
      readOperands_prefixesOf_reg]
    cases wide <;> rfl
  | aluImm op wide dst imm => exact decode_aluImm op wide dst imm rest
  | aluStore op size m src => exact decode_aluStore op size h src rest
  | aluLoad op size dst m => exact decode_aluLoad op size h dst rest
  | aluStoreImm op size m imm => exact decode_aluStoreImm op size h imm rest
  | not wide dst =>
    rw [Instr.bytes, Instr.encode, decode_withReg (fun _ => opens 0xF7)]
    cases wide <;>
    · show operandForm (prefixesOf _ _ _ _) 0xF7 (modRM _ _ _ :: _) = _
      rw [operandForm, readOperands_prefixesOf_reg]
      rfl
  | test wide a b =>
    rw [Instr.bytes, Instr.encode, decode_withReg (fun _ => opens 0x85)]
    cases wide <;>
    · show operandForm (prefixesOf _ _ _ _) 0x85 (modRM _ _ _ :: _) = _
      rw [operandForm, readOperands_prefixesOf_reg]
      rfl
  | shift op wide dst imm => exact decode_shift op wide dst imm rest
  | mov wide dst src =>
    rw [Instr.bytes, Instr.encode, decode_withReg (fun _ => opens 0x89)]
    cases wide <;>
    · show operandForm (prefixesOf _ _ _ _) 0x89 (modRM _ _ _ :: _) = _
      rw [operandForm, readOperands_prefixesOf_reg]
      rfl
  | zero dst =>
    rw [Instr.bytes, Instr.encode, decode_withReg (fun _ => opens 0x31)]
    show aluForm (prefixesOf _ _ _ _) .xor 1 (modRM _ _ _ :: _) = _
    rw [aluForm, readOperands_prefixesOf_reg]
    rfl
  | movImm32 dst imm => exact decode_movImm32 dst imm rest
  | movImm64 dst imm => exact decode_movImm64 dst imm rest
  | load wide dst m =>
    rw [Instr.bytes, Instr.encode, decode_withMem (fun _ => opens 0x8B)]
    cases wide <;>
    · show operandForm (prefixesOf _ _ _ _) 0x8B (operandBytes _ _ ++ _) = _
      rw [operandForm, readOperands_prefixesOf_mem _ _ h]
      rfl
  | loadExt ext dst m =>
    rw [Instr.bytes, Instr.encode, decode_withMem (escaped rfl)]
    show secondMap (prefixesOf _ _ _ _) ext.code (operandBytes _ _ ++ _) = _
    have hnibble : ext.code.extractLsb' 4 4 ≠ 8 := by cases ext <;> decide
    rw [secondMap, if_neg hnibble, readOperands_prefixesOf_mem _ _ h]
    cases ext <;> rfl
  | store size src m => exact decode_store size src h rest
  | lea wide dst m =>
    rw [Instr.bytes, Instr.encode, decode_withMem (fun _ => opens 0x8D)]
    cases wide <;>
    · show operandForm (prefixesOf _ _ _ _) 0x8D (operandBytes _ _ ++ _) = _
      rw [operandForm, readOperands_prefixesOf_mem _ _ h]
      rfl
  | leaRip dst disp => exact decode_leaRip dst disp rest
  | imul wide dst src =>
    rw [Instr.bytes, Instr.encode, decode_withReg (escaped rfl)]
    cases wide <;>
    · show secondMap (prefixesOf _ _ _ _) 0xAF (modRM _ _ _ :: _) = _
      rw [secondMap, if_neg (by decide), readOperands_prefixesOf_reg]
      rfl
  | jump disp =>
    show (imm32 (le32 disp ++ ([] ++ rest))).map (fun p => (Instr.jump p.1, p.2)) = _
    rw [List.nil_append, imm32_le32]
    rfl
  | jumpIf c disp => exact decode_jumpIf c disp rest
  | jumpMem m =>
    rw [Instr.bytes, Instr.encode, decode_withMem (fun _ => opens 0xFF)]
    show operandForm (prefixesOf _ _ _ _) 0xFF (operandBytes _ _ ++ _) = _
    rw [operandForm, readOperands_prefixesOf_mem _ _ h]
    rfl
  | ret => rfl
  | nop => rfl
  | packed op dst src =>
    rw [Instr.bytes, Instr.encode, decode_withReg (escaped rfl)]
    show vectorMap (prefixesOf _ _ _ _) op.code (modRM _ _ _ :: _) = _
    rw [vectorMap, readOperands_prefixesOf_reg]
    cases op <;> rfl
  | packedLoad op dst m =>
    rw [Instr.bytes, Instr.encode, decode_withMem (escaped rfl)]
    show vectorMap (prefixesOf _ _ _ _) op.code (operandBytes _ _ ++ _) = _
    rw [vectorMap, readOperands_prefixesOf_mem _ _ h]
    cases op <;> rfl
  | movdToVec dst src =>
    rw [Instr.bytes, Instr.encode, decode_withReg (escaped rfl)]
    show vectorMap (prefixesOf _ _ _ _) 0x6E (modRM _ _ _ :: _) = _
    rw [vectorMap, readOperands_prefixesOf_reg]
    rfl
  | movdToReg dst src =>
    rw [Instr.bytes, Instr.encode, decode_withReg (escaped rfl)]
    show vectorMap (prefixesOf _ _ _ _) 0x7E (modRM _ _ _ :: _) = _
    rw [vectorMap, readOperands_prefixesOf_reg]
    rfl
  | movdLoad dst m =>
    rw [Instr.bytes, Instr.encode, decode_withMem (escaped rfl)]
    show vectorMap (prefixesOf _ _ _ _) 0x6E (operandBytes _ _ ++ _) = _
    rw [vectorMap, readOperands_prefixesOf_mem _ _ h]
    rfl
  | laneShift op dst imm =>
    rw [Instr.bytes, Instr.encode, List.flatten_append, List.append_assoc,
      decode_withReg (escaped rfl)]
    show vectorMap (prefixesOf _ _ _ _) 0x71 (modRM _ _ _ :: _) = _
    rw [vectorMap, readOperands_prefixesOf_reg]
    cases op <;> rfl
  | pshuflw dst src imm =>
    rw [Instr.bytes, Instr.encode, List.flatten_append, List.append_assoc,
      decode_withReg (escaped rfl)]
    show shuffleMap (prefixesOf _ _ _ _) 0x70 (modRM _ _ _ :: _) = _
    rw [shuffleMap, readOperands_prefixesOf_reg]
    rfl
  | pextrw dst src lane =>
    rw [Instr.bytes, Instr.encode, List.flatten_append, List.append_assoc,
      decode_withReg (escaped rfl)]
    show vectorMap (prefixesOf _ _ _ _) 0xC5 (modRM _ _ _ :: _) = _
    rw [vectorMap, readOperands_prefixesOf_reg]
    rfl
  | pinsrw dst src lane =>
    rw [Instr.bytes, Instr.encode, List.flatten_append, List.append_assoc,
      decode_withReg (escaped rfl)]
    show vectorMap (prefixesOf _ _ _ _) 0xC4 (modRM _ _ _ :: _) = _
    rw [vectorMap, readOperands_prefixesOf_reg]
    rfl

/-! ## Lengths

What is fetched is long enough for any instruction. -/

theorem length_pieces_le {o : Opcode} (h : o.repeats = false) (reg rm index : BitVec 4) :
    (o.pieces reg rm index).flatten.length ≤ 5 := by
  rw [pieces_flatten, List.length_append, List.length_append]
  simp only [legacyBytes, rexBytes, opcodeBytes, h]
  cases o.data16 <;> cases o.repeatsNot <;> cases o.needsRex reg rm index <;>
    cases o.escape <;> simp

theorem length_displacement_le (base : BitVec 3) (disp : BitVec 32) :
    (displacement base disp).2.flatten.length ≤ 4 := by
  unfold displacement
  split
  · simp
  · split <;> simp [le32]

theorem length_withReg_le {o : Opcode} (h : o.repeats = false) (reg rm : BitVec 4) :
    (withReg o reg rm).flatten.length ≤ 6 := by
  have := length_pieces_le h reg rm 0
  rw [withReg, List.flatten_append, List.length_append]
  exact Nat.succ_le_succ this

/-- Prefixes and opcode of an instruction on general registers. -/
theorem length_pieces_le_three {o : Opcode} (h : o.repeats = false) (h' : o.repeatsNot = false)
    (he : o.escape = false) (reg rm index : BitVec 4) :
    (o.pieces reg rm index).flatten.length ≤ 3 := by
  rw [pieces_flatten, List.length_append, List.length_append]
  simp only [legacyBytes, rexBytes, opcodeBytes, h, h', he]
  cases o.data16 <;> cases o.needsRex reg rm index <;> simp

theorem length_operand_le (reg : BitVec 4) (m : MemOperand) : (operandBytes reg m).length ≤ 6 := by
  cases m with
  | based base disp =>
    have hd := length_displacement_le base.low disp
    simp only [operandBytes, List.length_append]
    split <;> simp only [List.length_cons, List.length_nil] <;> omega
  | indexed base index scale disp =>
    have hd := length_displacement_le base.low disp
    simp only [operandBytes, List.length_append, List.length_cons, List.length_nil]
    omega

theorem length_withMem_le {o : Opcode} (h : o.repeats = false) (reg : BitVec 4)
    (m : MemOperand) : (withMem o reg m).flatten.length ≤ 11 := by
  have hp := length_pieces_le h reg (baseNum m) (indexNum m)
  have hm := length_operand_le reg m
  rw [withMem_flatten, List.length_append]
  omega

theorem length_storeImm_le (op : AluOp) (size : OpSize) (m : MemOperand) (imm : BitVec 32) :
    (encodeStoreImm op size m imm).flatten.length ≤ 13 := by
  have h (o : Opcode) (hr : o.repeats = false) (hn : o.repeatsNot = false) (he : o.escape = false)
      (tail : List Piece) (ht : tail.flatten.length ≤ 4) :
      (withMem o (groupField op.code) m ++ tail).flatten.length ≤ 13 := by
    have hp := length_pieces_le_three hr hn he (groupField op.code) (baseNum m) (indexNum m)
    have hm := length_operand_le (groupField op.code) m
    rw [List.flatten_append, List.length_append, withMem_flatten, List.length_append]
    omega
  rw [encodeStoreImm.eq_def]
  cases size with
  | byte => exact h _ rfl rfl rfl _ (by simp)
  | _ => dsimp only; split <;> exact h _ rfl rfl rfl _ (by simp [le16, le32])

/-- No instruction that is encoded has more bytes, and machines fetch enough for
two more. -/
theorem Instr.size_le (i : Instr) : i.size ≤ 13 := by
  have reg (o : Opcode) (ho : o.repeats = false) (r m : BitVec 4) (tail : List Piece)
      (ht : tail.flatten.length ≤ 4) : (withReg o r m ++ tail).flatten.length ≤ 13 := by
    have := length_withReg_le ho r m
    rw [List.flatten_append, List.length_append]
    omega
  have reg' (o : Opcode) (ho : o.repeats = false) (r m : BitVec 4) :
      (withReg o r m).flatten.length ≤ 13 :=
    Nat.le_trans (length_withReg_le ho r m) (by decide)
  have mem (o : Opcode) (ho : o.repeats = false) (r : BitVec 4) (m : MemOperand) :
      (withMem o r m).flatten.length ≤ 13 :=
    Nat.le_trans (length_withMem_le ho r m) (by decide)
  have tail (o : Opcode) (ho : o.repeats = false) (r m x : BitVec 4) (tail : List Piece)
      (ht : tail.flatten.length ≤ 8) : (o.pieces r m x ++ tail).flatten.length ≤ 13 := by
    have := length_pieces_le ho r m x
    rw [List.flatten_append, List.length_append]
    omega
  rw [size, bytes, encode.eq_def]
  cases i <;> dsimp only
  case aluImm => split <;> exact reg _ rfl _ _ _ (by simp [le32])
  case aluStore op size _ _ => cases size <;> exact mem _ rfl _ _
  case aluLoad op size _ _ => cases size <;> exact mem _ rfl _ _
  case aluStoreImm => exact length_storeImm_le _ _ _ _
  case shift =>
    split
    · exact reg' _ rfl _ _
    · exact reg _ rfl _ _ _ (by simp)
  case movImm32 => exact tail _ rfl _ _ _ _ (by simp [le32])
  case movImm64 => exact tail _ rfl _ _ _ _ (by simp [le64])
  case store size _ _ => cases size <;> exact mem _ rfl _ _
  case leaRip => exact tail _ rfl _ _ _ _ (by simp [le32])
  case jump => simp [le32]
  case jumpIf => simp [le32]
  case ret => decide
  case nop => decide
  all_goals first | exact reg' _ rfl _ _ | exact mem _ rfl _ _ | exact reg _ rfl _ _ _ (by simp)

theorem Instr.size_le_maxLength (i : Instr) : i.size ≤ Machine.maxLength :=
  Nat.le_trans i.size_le (by decide)

/-- An instruction without bytes would be read from none. -/
theorem Instr.size_pos {i : Instr} (h : i.encodable = true) : 0 < i.size := by
  rw [size, List.length_pos_iff]
  intro empty
  have := decode_bytes h []
  rw [empty] at this
  exact absurd this nofun

/-- The low bits of a narrowed value extended by its sign, and of the value. -/
theorem setWidth_signExtend_setWidth {n : Nat} (h : n ≤ 32) (v : BitVec 32) :
    (((v.setWidth n).signExtend 32).signExtend 64).setWidth n = (v.signExtend 64).setWidth n := by
  apply BitVec.eq_of_getLsbD_eq
  intro i hi
  have hhalf : i < 32 := Nat.lt_of_lt_of_le hi h
  have hfull : i < 64 := Nat.lt_trans hhalf (by decide)
  simp only [BitVec.getLsbD_setWidth, BitVec.getLsbD_signExtend, hi, hhalf, hfull, decide_true,
    Bool.true_and, if_true]

/-- What the machine carries out has the effect that was asked for. -/
theorem Machine.perform_decoded (c : Cpu) (next : Address) (i : Instr) :
    perform c next i.decoded = perform c next i := by
  cases i with
  | aluStoreImm op size m imm =>
    cases size with
    | byte =>
      simp only [Instr.decoded, perform, Cpu.exec, Cpu.aluMem,
        setWidth_signExtend_setWidth (n := 8) (by decide)]
    | word =>
      simp only [Instr.decoded, perform, Cpu.exec, Cpu.aluMem,
        setWidth_signExtend_setWidth (n := 16) (by decide)]
    | _ => rfl
  | _ => rfl

end PixelPipeline.X86
