/-
# Code.Assembling — code written down step by step

Code is written from the front to the back, and all branches lead forward: to the end of
a stretch that they are in.  Each stretch has a label for its end, which is bound when the
stretch is complete; labels are numbered by depth, and number zero is the return.  The
table of a selection holds the places of its bodies, which are noted as the bodies are
written, and the load of its address is pointed back to it.
-/
import PixelPipeline.Code.Label
import PixelPipeline.Code.Layout

namespace PixelPipeline

open X86

namespace Assembly

/-- Where the next byte goes. -/
def here : Action Nat := do pure (← get).buffer.offset

/-- A new label under a number that is no longer in use. -/
def renew (l : Nat) : Action Unit := setLabel l {}

/-- Write an instruction. -/
def op (i : Instr) : Action Unit := onBuffer (CodeBuffer.emitAll i.encode)

/-- Write a row of instructions. -/
def ops : List Instr → Action Unit
  | [] => pure ()
  | i :: rest => do
      op i
      ops rest

/-- The label of the return. -/
def exitLabel : Nat := 0

/-- Write a stretch of code with the label `l` for its end. -/
def ending {α : Type} (l : Nat) (stretch : Action α) : Action α := do
  renew l
  let v ← stretch
  bind l
  pure v

end Assembly

namespace Code

open Assembly

/-- Write a body of a selection.  It ends with a jump to `finish`; one that is absent
leaves. -/
def writeBody (finish : Nat) : Option (List Instr) → Action Unit
  | some is => do
      ops is
      jump finish
  | none => jump exitLabel

/-- Write the bodies of a selection, and give the places where they start. -/
def writeBodies (finish : Nat) : List (Option (List Instr)) → Action (List Nat)
  | [] => pure []
  | body :: rest => do
      let start ← here
      writeBody finish body
      let starts ← writeBodies finish rest
      pure (start :: starts)

/-- Write a table of addresses. -/
def writeTable (base : BitVec 64) : List Nat → Action Unit
  | [] => pure ()
  | start :: rest => do
      onBuffer (CodeBuffer.emit (le64 (base + BitVec.ofNat 64 start)))
      writeTable base rest

/-- Write a jump over the bodies of a selection, which lead to `finish`, the bodies, and the
table of their addresses, with the label `l` for the end.  Give the place of the table. -/
def writeCases (base : BitVec 64) (finish l : Nat) (bodies : List (Option (List Instr))) :
    Action Nat := ending l do
  jump l
  let starts ← writeBodies finish bodies
  onBuffer (Padding.emitAlign 8)
  let tableAt ← here
  writeTable base starts
  pure tableAt

/-- Write the dispatch of a selection through the table at `tableAt`. -/
def writeDispatch (table index : Reg) (tableAt : Nat) : Action Unit := do
  let field ← leaRip table
  patchDisplacement field tableAt
  op (tableJump table index)

/-- Write code into a buffer at address `base`, with labels from `l` on, and give the
places where its stages start. -/
def write (base : BitVec 64) (l : Nat) : Code → Action (List (Nat × Stage))
  | done => pure []
  | instr i next => do
      op i
      next.write base l
  | mark s next => do
      let pos ← here
      let marks ← next.write base l
      pure ((pos, s) :: marks)
  | leave next => do
      jump exitLabel
      next.write base l
  | leaveIf c next => do
      jumpIf exitLabel c
      next.write base l
  | skipIf c body next => do
      let bodyMarks ← ending l do
        jumpIf l c
        body.write base (l + 1)
      let marks ← next.write base l
      pure (bodyMarks ++ marks)
  | choose c no yes next => do
      let bothMarks ← ending l do
        let noMarks ← ending (l + 1) do
          jumpIf (l + 1) c
          let noMarks ← no.write base (l + 2)
          jump l
          pure noMarks
        let yesMarks ← yes.write base (l + 1)
        pure (noMarks ++ yesMarks)
      let marks ← next.write base l
      pure (bothMarks ++ marks)
  | select table index bodies next => do
      ending l do
        let tableAt ← writeCases base l (l + 1) bodies
        writeDispatch table index tableAt
      next.write base l

end Code

end PixelPipeline
