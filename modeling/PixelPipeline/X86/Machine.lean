/-
# X86.Machine — running code in memory

The machine reads the bytes at its instruction pointer, decodes one
instruction and carries it out.  A run ends at a return instruction, whose
return address is not looked at.
-/
import PixelPipeline.X86.Cpu
import PixelPipeline.X86.Decoding

namespace PixelPipeline.X86

/-- The machine between two instructions. -/
structure Machine where
  cpu : Cpu
  rip : Address

/-- What one instruction, or a run, ends in. -/
inductive Outcome where
  /-- The next instruction is waiting. -/
  | running (m : Machine)
  /-- A return was reached. -/
  | returned (c : Cpu)
  /-- The bytes are no known instruction, or its operand is not allowed. -/
  | stuck

namespace Machine

/-- No instruction is longer. -/
def maxLength : Nat := 15

/-- The bytes at an address, as many as an instruction may have. -/
def fetch (m : Memory) (a : Address) : List Byte :=
  (List.range maxLength).map fun i => m.read (a + BitVec.ofNat 64 i)

/-- Carry out a decoded instruction, `next` being the address after it. -/
def perform (c : Cpu) (next : Address) : Instr → Outcome
  | .ret => .returned c
  | .jump disp => .running ⟨c, next + disp.signExtend 64⟩
  | .jumpIf cond disp =>
      .running ⟨c, if cond.holds c.flags then next + disp.signExtend 64 else next⟩
  | .jumpMem target => .running ⟨c, c.mem.read64 (c.address target)⟩
  | i =>
      match c.exec next i with
      | some c' => .running ⟨c', next⟩
      | none => .stuck

/-- One instruction. -/
def step (m : Machine) : Outcome :=
  match decode (fetch m.cpu.mem m.rip) with
  | none => .stuck
  | some (i, rest) => perform m.cpu (m.rip + BitVec.ofNat 64 (maxLength - rest.length)) i

/-- At most `fuel` instructions. -/
def run : Nat → Machine → Outcome
  | 0, m => .running m
  | fuel + 1, m =>
      match m.step with
      | .running m' => run fuel m'
      | o => o

end Machine

end PixelPipeline.X86
