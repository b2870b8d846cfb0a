/-
# Proofs.Sights — what a reader sees of a stage

Which registers a stage uses, and which addresses it has to make again, depends on
what came before it.  A reader who goes through the lines of code with an eye for
what matters sees the same of a stage in any case (`Emit.Shows`): the fields it
reads, the values it compares with, the branches it takes.  Three registers have to be recognised
by what they hold: the working color, the stored color and the stencil value; the
line that loads one of them is where the reader learns its register (`Eye.next`).

What a stage shows is found as the stage is walked through, by instance search.
-/
import PixelPipeline.Proofs.Leads
import PixelPipeline.Proofs.Listing
import PixelPipeline.Proofs.Occupancy
import PixelPipeline.Compile.Function

namespace PixelPipeline

open X86 Compile

/-! ## The reader -/

/-- The registers that a reader recognises. -/
structure Eye where
  /-- The working color. -/
  color : Option Xmm
  /-- A stored pixel that is still to be widened. -/
  pixel : Option Reg
  /-- The stored color. -/
  stored : Option Xmm
  /-- The stencil value. -/
  stencil : Option Reg

namespace Eye

variable (e : Eye)

/-- What is recognised behind a line. -/
def next : Instr → Eye
  | .movdToVec x r =>
      match e.color with
      | none => { e with color := some x }
      | some _ =>
          if e.pixel = some r then { e with pixel := none, stored := some x }
          else { e with pixel := none, stored := none }
  | .movdLoad x (.based _ d) => if d = 0 then { e with stored := some x } else e
  | .loadExt ext r (.based _ d) =>
      if ext = .zeroWord ∧ d = 0 then { e with pixel := some r }
      else if d = 1 ∨ d = 3 then { e with stencil := some r }
      else e
  | _ => e

/-- An operand without its registers. -/
def blank : MemOperand → MemOperand
  | .based _ d => .based .rax d
  | .indexed _ _ scale d => .indexed .rax .rax scale d

/-- The working color told from other vectors. -/
def shade (x : Xmm) : Xmm := if e.color = some x then ⟨1⟩ else ⟨0⟩

/-- The bits of blue in the 16-bit formats. -/
def blues : List (BitVec 32) := [0xF800, 0x7C00, 0x0F00]

/-- The row of a stride in the register block. -/
def isStride (ext : Extension) : MemOperand → Bool
  | .based _ d => ext = .zeroWord && (d = BitVec.ofNat 32 DrawState.fbStrideAt ||
      d = BitVec.ofNat 32 DrawState.depthStrideAt)
  | _ => false

/-- What is seen of a line. -/
def sees : Instr → Option Instr
  | .alu op w r _ => if op = .xor ∧ e.stencil = some r then some (.alu op w .rax .rax) else none
  | .aluImm op w _ v => if op = .and ∧ v ∉ blues then none else some (.aluImm op w .rax v)
  | .aluStore op size m _ => some (.aluStore op size (blank m) .rax)
  | .aluLoad op size _ m => if op = .add then none else some (.aluLoad op size .rax (blank m))
  | .aluStoreImm op size m v => some (.aluStoreImm op size (blank m) v)
  | .test w _ _ => some (.test w .rax .rax)
  | .shift op w _ n => if op = .shr ∧ n = 16 then some (.shift op w .rax n) else none
  | .movImm32 r v => if e.stencil = some r then some (.movImm32 .rax v) else none
  | .load w _ m => if w then none else some (.load w .rax (blank m))
  | .loadExt ext _ m => if isStride ext m then none else some (.loadExt ext .rax (blank m))
  | .store size _ m => some (.store size .rax (blank m))
  | .jump d => some (.jump d)
  | .jumpIf c d => some (.jumpIf c d)
  | .ret => some .ret
  | .packed op x _ =>
      match op with
      | .pxor =>
          if e.color = some x then some (.packed op ⟨1⟩ ⟨1⟩)
          else if e.stored = some x then some (.packed op ⟨0⟩ ⟨0⟩)
          else none
      | .pmulhuw => some (.packed op (e.shade x) ⟨0⟩)
      | .psubusw | .paddusw | .psubusb | .pminub | .pmaxub | .movdqa => some (.packed op ⟨0⟩ ⟨0⟩)
      | _ => none
  | .packedLoad op _ m => some (.packedLoad op ⟨0⟩ (blank m))
  | .movdToReg _ _ => some (.movdToReg .rax ⟨0⟩)
  | .movdLoad _ m => some (.movdLoad ⟨0⟩ (blank m))
  | .laneShift op _ n => if n = 1 then some (.laneShift op ⟨0⟩ n) else none
  | .pshuflw _ x n => if n = 0xFF then some (.pshuflw ⟨0⟩ (e.shade x) n) else none
  | _ => none

/-- What is recognised behind some lines. -/
def after (e : Eye) : List Instr → Eye
  | [] => e
  | i :: ls => (e.next i).after ls

/-- What is seen of some lines. -/
def scan (e : Eye) : List Instr → List Instr
  | [] => []
  | i :: ls => (e.sees i).toList ++ (e.next i).scan ls

theorem after_append (e : Eye) (ls ls' : List Instr) :
    e.after (ls ++ ls') = (e.after ls).after ls' := by
  induction ls generalizing e with
  | nil => rfl
  | cons i rest ih => exact ih _

theorem scan_append (e : Eye) (ls ls' : List Instr) :
    e.scan (ls ++ ls') = e.scan ls ++ (e.after ls).scan ls' := by
  induction ls generalizing e with
  | nil => rfl
  | cons i rest ih => simp only [List.cons_append, scan, after, ih, List.append_assoc]

end Eye

end PixelPipeline
