/-
# ConversionCall — conversion routines carried out

The routines of `Conversion` on the machine, the color in `eax`.
-/
import PixelPipeline.Conversion
import PixelPipeline.X86.Call

namespace PixelPipeline

open X86

namespace Conversion

/-- Where a routine is placed. -/
def routineBase : Address := 0x10000

/-- The color after a routine. -/
def result? (routine : List Instr) (color : BitVec 32) : Option (BitVec 32) :=
  let c := (Cpu.reset (Block.memory [])).setReg32 .rax color
  (Machine.callRow routine routineBase c).map (·.reg32 .rax)

/-- A canonical color narrowed by generated code. -/
def narrowed? (f : PixelFormat) (keepAlpha : Bool) (color : BitVec 32) : Option (BitVec 32) :=
  result? (narrow f .rax .rcx .rdx keepAlpha) color

/-- A stored pixel widened by generated code. -/
def widened? (f : PixelFormat) (keepAlpha : Bool) (pixel : BitVec 32) : Option (BitVec 32) :=
  result? (widen f .rax .rcx .rdx keepAlpha) pixel

end Conversion

end PixelPipeline
