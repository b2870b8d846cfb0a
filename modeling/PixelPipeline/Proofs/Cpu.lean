/-
# Proofs.Cpu — registers that are set, and stores that add up

Reading a register after another was set, and the two facts about single
instructions that every run rests on: an instruction only adds to what was
stored, and one that has an effect does not branch.
-/
import PixelPipeline.X86.Machine
import PixelPipeline.Proofs.Memory

namespace PixelPipeline

namespace X86

namespace Cpu

/-! ## Registers -/

theorem reg_setReg (c : Cpu) (r r' : Reg) (v : BitVec 64) :
    (c.setReg r v).reg r' = if r' = r then v else c.reg r' := by
  show (c.general.set r.num.toNat v r.num.isLt)[r'.num.toNat] = _
  rw [Vector.getElem_set]
  by_cases h : r' = r
  · rw [if_pos (by rw [h]), if_pos h]
  · have hne : r.num.toNat ≠ r'.num.toNat := fun e => h (by
      cases r; cases r'; exact congrArg Reg.mk (BitVec.eq_of_toNat_eq e.symm))
    rw [if_neg hne, if_neg h]
    rfl

@[simp] theorem reg_setReg_self (c : Cpu) (r : Reg) (v : BitVec 64) : (c.setReg r v).reg r = v := by
  rw [reg_setReg, if_pos rfl]

theorem vec_setVec (c : Cpu) (x x' : Xmm) (v : Lanes) :
    (c.setVec x v).vec x' = if x' = x then v else c.vec x' := by
  show (c.vector.set x.num.toNat v x.num.isLt)[x'.num.toNat] = _
  rw [Vector.getElem_set]
  by_cases h : x' = x
  · rw [if_pos (by rw [h]), if_pos h]
  · have hne : x.num.toNat ≠ x'.num.toNat := fun e => h (by
      cases x; cases x'; exact congrArg Xmm.mk (BitVec.eq_of_toNat_eq e.symm))
    rw [if_neg hne, if_neg h]
    rfl

@[simp] theorem reg_setVec (c : Cpu) (x : Xmm) (v : Lanes) (r : Reg) :
    (c.setVec x v).reg r = c.reg r := rfl
@[simp] theorem reg_setFlags (c : Cpu) (f : Flags) (r : Reg) : (c.setFlags f).reg r = c.reg r := rfl
@[simp] theorem reg_setMem (c : Cpu) (m : Memory) (r : Reg) : (c.setMem m).reg r = c.reg r := rfl
@[simp] theorem vec_setReg (c : Cpu) (r : Reg) (v : BitVec 64) (x : Xmm) :
    (c.setReg r v).vec x = c.vec x := rfl
@[simp] theorem vec_setFlags (c : Cpu) (f : Flags) (x : Xmm) : (c.setFlags f).vec x = c.vec x := rfl
@[simp] theorem vec_setMem (c : Cpu) (m : Memory) (x : Xmm) : (c.setMem m).vec x = c.vec x := rfl
@[simp] theorem flags_setReg (c : Cpu) (r : Reg) (v : BitVec 64) :
    (c.setReg r v).flags = c.flags := rfl
@[simp] theorem flags_setVec (c : Cpu) (x : Xmm) (v : Lanes) : (c.setVec x v).flags = c.flags := rfl
@[simp] theorem flags_setMem (c : Cpu) (m : Memory) : (c.setMem m).flags = c.flags := rfl
@[simp] theorem flags_setFlags (c : Cpu) (f : Flags) : (c.setFlags f).flags = f := rfl

/-! ## Memory -/

@[simp] theorem mem_setReg (c : Cpu) (r : Reg) (v : BitVec 64) : (c.setReg r v).mem = c.mem := rfl
@[simp] theorem mem_setReg32 (c : Cpu) (r : Reg) (v : BitVec 32) :
    (c.setReg32 r v).mem = c.mem := rfl
@[simp] theorem mem_setVec (c : Cpu) (x : Xmm) (v : Lanes) : (c.setVec x v).mem = c.mem := rfl
@[simp] theorem mem_setFlags (c : Cpu) (f : Flags) : (c.setFlags f).mem = c.mem := rfl
@[simp] theorem mem_setMem (c : Cpu) (m : Memory) : (c.setMem m).mem = m := rfl

theorem mem_setSized (c : Cpu) (wide : Bool) (r : Reg) (v : BitVec 64) :
    (c.setSized wide r v).mem = c.mem := by
  unfold setSized
  split <;> rfl

theorem mem_aluReg (c : Cpu) (op : AluOp) (wide : Bool) (r : Reg) (v : BitVec 64) :
    (c.aluReg op wide r v).mem = c.mem := by
  unfold aluReg alu
  cases wide <;> cases op <;> rfl

theorem mem_aluRegMem (c : Cpu) (op : AluOp) (size : OpSize) (r : Reg) (a : Address) :
    (c.aluRegMem op size r a).mem = c.mem := by
  unfold aluRegMem alu
  cases size <;> cases op <;> rfl

theorem mem_shiftReg (c : Cpu) (op : ShiftOp) (wide : Bool) (r : Reg) (imm : BitVec 8) :
    (c.shiftReg op wide r imm).mem = c.mem := by
  unfold shiftReg
  cases wide <;> rfl

theorem extends_storeReg (c : Cpu) (size : OpSize) (a : Address) (r : Reg) :
    c.mem.Extends (c.storeReg size a r).mem := by
  cases size with
  | byte => exact Memory.later_write trivial _ _
  | _ => exact Memory.later_writeAll _ _ _ fun _ _ => trivial

theorem extends_aluMem (c : Cpu) (op : AluOp) (size : OpSize) (a : Address) (v : BitVec 64) :
    c.mem.Extends (c.aluMem op size a v).mem := by
  unfold aluMem alu
  cases size <;> dsimp only <;> split
  all_goals first
    | exact Memory.Later.refl _ _
    | exact Memory.later_write trivial _ _
    | exact Memory.later_writeAll _ _ _ fun _ _ => trivial

/-- An instruction only adds to what was stored. -/
theorem exec_extends {c c' : Cpu} {next : Address} {i : Instr} (h : c.exec next i = some c') :
    c.mem.Extends c'.mem := by
  have keep {m : Memory} (e : m = c.mem) : c.mem.Extends m := e ▸ .refl _ _
  cases i
  case aluStore => cases h; exact extends_aluMem _ _ _ _ _
  case aluStoreImm => cases h; exact extends_aluMem _ _ _ _ _
  case store => cases h; exact extends_storeReg _ _ _ _
  case packedLoad =>
    simp only [exec] at h
    split at h
    · cases h; exact keep rfl
    · cases h
  case jump => cases h
  case jumpIf => cases h
  case jumpMem => cases h
  case ret => cases h
  all_goals cases h
  case alu => exact keep (mem_aluReg _ _ _ _ _)
  case aluImm => exact keep (mem_aluReg _ _ _ _ _)
  case aluLoad => exact keep (mem_aluRegMem _ _ _ _ _)
  case not => exact keep (mem_setSized _ _ _ _)
  case test wide _ _ => cases wide <;> exact keep rfl
  case shift => exact keep (mem_shiftReg _ _ _ _ _)
  case mov => exact keep (mem_setSized _ _ _ _)
  case zero => exact keep (mem_aluReg _ _ _ _ _)
  case load wide _ _ => cases wide <;> exact keep rfl
  case lea => exact keep (mem_setSized _ _ _ _)
  case imul wide _ _ => cases wide <;> exact keep rfl
  all_goals exact keep rfl

end Cpu

/-- An instruction with an effect does not branch. -/
theorem Machine.perform_of_exec {c c' : Cpu} {next : Address} {i : Instr}
    (h : c.exec next i = some c') : perform c next i = .running ⟨c', next⟩ := by
  cases i <;> first | (cases h; done) | (simp only [perform, h])

end X86

end PixelPipeline
