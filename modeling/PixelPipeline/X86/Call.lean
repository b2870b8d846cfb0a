/-
# X86.Call — entering code with arguments

Memory is put together from blocks of bytes at addresses; bytes outside all
blocks are zero.  A call enters code with its arguments in registers and
runs to the return.
-/
import PixelPipeline.X86.Machine

namespace PixelPipeline.X86

/-- Bytes at an address. -/
structure Block where
  base : Nat
  bytes : Array Byte

namespace Block

/-- The byte of a block at an address. -/
def at? (b : Block) (a : Nat) : Option Byte := if b.base ≤ a then b.bytes[a - b.base]? else none

/-- Memory that holds some blocks, the first one where they overlap. -/
def memory (blocks : List Block) : Memory where
  initial := fun a => (blocks.findSome? (·.at? a.toNat)).getD 0

/-- Memory with a block laid over it. -/
def laidOver (b : Block) (m : Memory) : Memory where
  initial := fun a => (b.at? a.toNat).getD (m.read a)

end Block

namespace Cpu

/-- All registers zero. -/
def reset (m : Memory) : Cpu where
  general := Vector.replicate 16 0
  vector := Vector.replicate 16 Lanes.zero
  flags := {}
  mem := m

/-- Argument registers set in calling order. -/
def withArguments (c : Cpu) (args : List (BitVec 64)) : Cpu :=
  (argumentRegs.zip args).foldl (fun c (r, v) => c.setReg r v) c

end Cpu

namespace Machine

/-- Run from an address to the return, within a bound on instructions. -/
def call (fuel : Nat) (entry : Address) (c : Cpu) : Option Cpu :=
  match run fuel ⟨c, entry⟩ with
  | .returned c' => some c'
  | _ => none

/-- Run a row of instructions and a return, laid over memory at an address. -/
def callRow (is : List Instr) (entry : Address) (c : Cpu) : Option Cpu :=
  let code : Block := ⟨entry.toNat, ((is ++ [Instr.ret]).flatMap Instr.bytes).toArray⟩
  call (is.length + 1) entry (c.setMem (code.laidOver c.mem))

end Machine

end PixelPipeline.X86
