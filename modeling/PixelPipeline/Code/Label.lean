/-
# Code.Label — branch targets of code under construction

A branch may be written before its target is known.  Its displacement then
stays zero, and its place is remembered by the label until the label is
bound; a branch to a label that is already bound is resolved at once.
Displacements count from the end of their field.
-/
import PixelPipeline.Code.Buffer
import PixelPipeline.X86.Encoding

namespace PixelPipeline

/-- A branch target. -/
structure Label where
  /-- Where the label is bound. -/
  value : Option Nat := none
  /-- Displacements that wait for it. -/
  uses : List Nat := []

/-- Code under construction, with its branch targets by number. -/
structure Assembly where
  buffer : CodeBuffer
  labels : Nat → Label := fun _ => {}

namespace Assembly

/-- Actions on code under construction. -/
abbrev Action := EStateM Fault Assembly

/-- An action on the buffer alone. -/
def onBuffer {α : Type} (action : CodeBuffer.Action α) : Action α := fun a =>
  match action a.buffer with
  | .ok v b => .ok v { a with buffer := b }
  | .error e b => .error e { a with buffer := b }

/-- A word read as signed. -/
def signed64 (n : Nat) : Int := (BitVec.ofNat 64 n).toInt

/-- The number fits into a signed word. -/
def fitsSigned64 (z : Int) : Bool := -0x8000000000000000 ≤ z && z < 0x8000000000000000

/-- Point the displacement at `field` to `target`. -/
def patchDisplacement (field target : Nat) : Action Unit := do
  let after := signed64 field + 4
  let disp := signed64 target - after
  if fitsSigned64 after && fitsSigned64 disp then
    onBuffer (CodeBuffer.patch32 field (BitVec.ofInt 32 disp))
  else throw .violation

/-- Replace a label. -/
def setLabel (l : Nat) (label : Label) : Action Unit :=
  modify fun a => { a with labels := fun k => if k = l then label else a.labels k }

/-- Write a displacement to a label. -/
def reference (l : Nat) : Action Unit := do
  let field := (← get).buffer.offset
  onBuffer (CodeBuffer.emit (le32 0))
  let label := (← get).labels l
  match label.value with
  | some target => patchDisplacement field target
  | none => setLabel l { label with uses := label.uses ++ [field] }

/-- Write a load of a position in the code, its displacement still zero, and
give the place of the displacement. -/
def leaRip (dst : X86.Reg) : Action Nat := do
  onBuffer (CodeBuffer.emitAll (X86.Instr.leaRip dst 0).encode)
  pure ((← get).buffer.offset - 4)

/-- Write a jump to a label. -/
def jump (l : Nat) : Action Unit := do
  onBuffer (CodeBuffer.emit [0xE9])
  reference l

/-- Write a conditional jump to a label. -/
def jumpIf (l : Nat) (cond : X86.Cond) : Action Unit := do
  onBuffer (CodeBuffer.emitAll [[0x0F], [(8 : BitVec 4) ++ cond.code]])
  reference l

/-- Resolve displacements one after another. -/
def resolve (target : Nat) : List Nat → Action Unit
  | [] => pure ()
  | field :: rest => do
      patchDisplacement field target
      resolve target rest

/-- Bind a label at the current offset and resolve what waits for it. -/
def bind (l : Nat) : Action Unit := do
  let target := (← get).buffer.offset
  let uses := ((← get).labels l).uses
  setLabel l { value := some target }
  resolve target uses

end Assembly

end PixelPipeline
