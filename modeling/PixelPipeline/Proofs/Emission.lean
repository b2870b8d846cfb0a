/-
# Proofs.Emission — instructions that are emitted

What is asked for, what is written and what is read back: the bytes that an
instruction leaves in a buffer decode to one instruction with the operation, the
operands and the immediate that were asked for, whatever follows them.  A load of a
constant has three forms, and each of them sets the register and no other.
-/
import PixelPipeline.Proofs.Cpu
import PixelPipeline.Proofs.Decoding
import PixelPipeline.Proofs.Fixups

namespace PixelPipeline.X86

namespace Cpu

/-! ## Loads of a constant -/

/-- A register has a value, and but for the flags nothing else has changed. -/
structure Loaded (c c' : Cpu) (dst : Reg) (v : BitVec 64) : Prop where
  reg_dst : c'.reg dst = v
  reg_other : ∀ r, r ≠ dst → c'.reg r = c.reg r
  vector : c'.vector = c.vector
  mem : c'.mem = c.mem

theorem loaded_setReg (c : Cpu) (f : Flags) (dst : Reg) (v : BitVec 64) :
    Loaded c ((c.setReg dst v).setFlags f) dst v where
  reg_dst := reg_setReg_self c dst v
  reg_other r h := (reg_setReg c dst r v).trans (if_neg h)
  vector := rfl
  mem := rfl

/-- A value that fits into its low half is the low half extended by zeros. -/
theorem setWidth_setWidth_of_ule {v : BitVec 64} (h : v.ule 0xFFFFFFFF = true) :
    (v.setWidth 32).setWidth 64 = v := by
  have hle : v.toNat ≤ 0xFFFFFFFF := of_decide_eq_true h
  apply BitVec.eq_of_toNat_eq
  rw [BitVec.toNat_setWidth, BitVec.toNat_setWidth]
  omega

/-- The value that a load of a constant is for. -/
def constant (wide : Bool) (v : BitVec 64) : BitVec 64 :=
  if wide then v else (v.setWidth 32).setWidth 64

/-- Whatever its form, a load of a constant is one. -/
theorem exec_movConst (c : Cpu) (next : Address) (wide : Bool) (dst : Reg) (v : BitVec 64) :
    ∃ c', c.exec next (.movConst wide dst v) = some c' ∧ Loaded c c' dst (constant wide v) := by
  unfold Instr.movConst
  split
  case isTrue hzero =>
    -- An exclusive or of a register with itself, which keeps no bit.
    have hxor : (AluOp.xor.eval (c.reg32 dst) (c.reg32 dst) c.flags).1 = 0 := BitVec.xor_self
    have hval : constant wide v = (0 : BitVec 32).setWidth 64 := by
      rw [hzero]
      cases wide <;> rfl
    refine ⟨_, rfl, ?_⟩
    rw [hval, ← hxor]
    exact loaded_setReg c _ dst _
  case isFalse =>
    split
    case isTrue hnarrow =>
      have hval : constant wide v = (v.setWidth 32).setWidth 64 := by
        cases wide with
        | false => rfl
        | true => exact (setWidth_setWidth_of_ule hnarrow).symm
      exact ⟨_, rfl, hval ▸ loaded_setReg c c.flags dst _⟩
    case isFalse hwide =>
      have hval : constant wide v = v := by
        cases wide with
        | false => exact absurd rfl hwide
        | true => rfl
      refine ⟨_, rfl, ?_⟩
      rw [hval]
      exact loaded_setReg c c.flags dst v

end Cpu

/-- A constant is loaded by what its load decodes to, too. -/
theorem Cpu.exec_movConst_decoded (c : Cpu) (next : Address) (wide : Bool) (dst : Reg)
    (v : BitVec 64) :
    c.exec next (Instr.movConst wide dst v).decoded = c.exec next (.movConst wide dst v) := by
  unfold Instr.movConst
  split
  · rfl
  · split <;> rfl

/-! ## What is emitted, and what is read back -/

/-- Where there is room for an instruction it is emitted, and what lies between the
old offset and the new one decodes, as a whole and whatever follows it, to the
instruction that was asked for.  If that was a load of a constant, then the
decoded instruction loads it. -/
theorem Instr.emitted_reads_back {i : Instr} {b : CodeBuffer} (hencodable : i.encodable = true)
    (hroom : b.offset + i.size ≤ b.capacity) :
    ∃ b', CodeBuffer.emitAll i.encode b = .ok () b' ∧
      (∀ pos, pos < b.offset → b'.byteAt pos = b.byteAt pos) ∧
      (∀ rest, decode (b'.bytesAt b.offset (b'.offset - b.offset) ++ rest) =
        some (i.decoded, rest)) ∧
      ∀ wide dst v, i = .movConst wide dst v → ∀ (c : Cpu) (next : Address),
        ∃ c', c.exec next i.decoded = some c' ∧ c.Loaded c' dst (Cpu.constant wide v) := by
  obtain ⟨b', hok, happ⟩ := CodeBuffer.emitAll_appends hroom
  have hbytes : b'.bytesAt b.offset (b'.offset - b.offset) = i.bytes := by
    rw [happ.offset, Nat.add_sub_cancel_left]
    exact CodeBuffer.bytesAt_of_byteAt happ.bytes
  refine ⟨b', hok, happ.before, fun rest => ?_, fun wide dst v hi c next => ?_⟩
  · rw [hbytes]
    exact decode_bytes hencodable rest
  · rw [hi, Cpu.exec_movConst_decoded]
    exact Cpu.exec_movConst c next wide dst v

/-- A comparison of a word behind `r12` with a constant that needs more than a word:
the short form is chosen for what is left of the constant, and read back. -/
theorem Instr.emitted_reads_back_cut :
    ∃ b', CodeBuffer.emitAll (aluStoreImm .cmp .word (.based .r12 (-128)) 0x1FFFE).encode
        (.ofSize 1) = .ok () b' ∧
      ∀ rest, decode (b'.bytesAt 0 (b'.offset - 0) ++ rest) =
        some (aluStoreImm .cmp .word (.based .r12 (-128)) (-2), rest) := by
  obtain ⟨b', hok, -, hdecode, -⟩ := Instr.emitted_reads_back
    (i := aluStoreImm .cmp .word (.based .r12 (-128)) 0x1FFFE) (b := .ofSize 1) rfl (by decide)
  exact ⟨b', hok, hdecode⟩

end PixelPipeline.X86
