/-
# Compile.Function — a pipeline as one function

The stages run in order, and each puts down nothing for what is switched
off.  The function ends in its only return.  It is placed at a multiple of
sixteen, and only into a buffer with room for any function at all; if a stage
fails, the buffer is rewound to where it was.
-/
import PixelPipeline.Code.Assembling
import PixelPipeline.Compile.Blending
import PixelPipeline.Compile.Shading
import PixelPipeline.Compile.Tests
import PixelPipeline.Compile.Write
import PixelPipeline.Hexadecimal

namespace PixelPipeline

open X86

/-- No function is larger, padding in front of it included. -/
def maxFunctionSize : Nat := 4096

/-- Alignment of the start of a function. -/
def functionAlignment : Nat := 16

/-- Start of a stage in the code buffer. -/
structure StageMarker where
  offset : Nat
  stage : Stage
deriving DecidableEq

/-- Where a compiled function lies in the code buffer. -/
structure CompiledFunction where
  start : Nat
  /-- One past the last byte. -/
  stop : Nat
  /-- Stages in code order. -/
  markers : List StageMarker
deriving DecidableEq

namespace CompiledFunction

/-- The offset lies in the function. -/
def contains (f : CompiledFunction) (offset : Nat) : Bool :=
  decide (f.start ≤ offset ∧ offset < f.stop)

/-- The stage that an offset belongs to: the last one that starts no later. -/
def stageAt? (f : CompiledFunction) (offset : Nat) : Option Stage :=
  if f.contains offset then
    ((f.markers.takeWhile (·.offset ≤ offset)).getLast?).map (·.stage)
  else none

end CompiledFunction

namespace Compile

/-- The tests of stored values: stencil and depth, or depth alone. -/
def storedTests (env : Env) : Emit Unit :=
  if env.features.stencilTest then stencilAndDepthTest env else depthTest env

/-- All stages in order, with a given plan for the blend. -/
def stages (env : Env) (plan : BlendPlan) : Emit Unit := do
  Emit.mark .init
  if !env.features.needsConstants then
    Emit.forceRelease .argKey
  depthRange env
  enterColor
  alphaTest env
  fog env
  colorTest env
  storedTests env
  writeDepth env
  blendBy env plan
  dither env
  writeColor env

/-- What is known on entry: the arguments are in their registers. -/
def entry : Draft := { table := RoleTable.fresh.setupArguments, wideColor := false }

/-- The code of a pipeline before its return. -/
def body (env : Env) : Except Stopped Code :=
  (stages env (.ofFeatures env.features) entry).map (·.code)

/-- The same, with a given plan for the blend. -/
def bodyBy (env : Env) (plan : BlendPlan) : Except Stopped Code :=
  (stages env plan entry).map (·.code)

/-- The code of a pipeline without the return, which is placed behind it. -/
def withExit (code : Code) : Code := code ++ .mark .exit .done

/-- One marker for each stage that has code: a marker is replaced by the next
one at the same place. -/
def markersOf (marks : List (Nat × Stage)) : List StageMarker :=
  marks.foldr (fun (offset, stage) rest =>
    match rest with
    | m :: _ => if m.offset = offset then rest else ⟨offset, stage⟩ :: rest
    | [] => [⟨offset, stage⟩]) []

/-- The stages of code at a position, in order, one mark for each. -/
def trace (code : Code) (start : Nat) : List (Nat × Stage) := (withExit code).marks start

/-- The text of a trace mark. -/
def traceLine : Nat × Stage → String
  | (offset, stage) => "0x" ++ lowerHex 6 offset ++ " " ++ Named.spelling stage

/-- The bytes of a function at a position in a buffer at address `base`. -/
def functionBytes (code : Code) (base : BitVec 64) (start : Nat) : List Byte :=
  code.bytes base (code.stop start) start ++ Instr.ret.bytes

/-- The placement of a function. -/
def placement (code : Code) (start : Nat) : CompiledFunction where
  start := start
  stop := code.stop start + Instr.ret.size
  markers := markersOf (trace code start)

/-- The start of the next function in a buffer. -/
def nextStart (offset : Nat) : Nat := offset + Padding.distance offset functionAlignment

open Assembly

/-- Write a function: its code and the return that is left to. -/
def write (code : Code) (base : BitVec 64) : Action CompiledFunction := do
  let start ← here
  let marks ← ending exitLabel (code.write base (exitLabel + 1))
  let exit ← here
  op .ret
  let stop ← here
  pure { start, stop, markers := markersOf (marks ++ [(exit, .exit)]) }

/-- Take back what was written before a stage failed. -/
def abandon (stopped : Stopped) (base : BitVec 64) (rollback : Nat) : Action CompileError := do
  let _ ← stopped.code.write base (exitLabel + 1)
  match stopped.failure with
  | .error e =>
      onBuffer (CodeBuffer.setOffset rollback)
      pure e
  | .fault f => throw f

/-- Write padding and what the stages have come to. -/
def append (stages : Except Stopped Code) (base : BitVec 64) :
    Action (Except CompileError CompiledFunction) := do
  let rollback ← here
  onBuffer (Padding.emitAlign functionAlignment)
  match stages with
  | .ok code => do
      let f ← write code base
      pure (.ok f)
  | .error stopped => do
      let e ← abandon stopped base rollback
      pure (.error e)

/-- The same as an action on a buffer, with new labels. -/
def place (stages : Except Stopped Code) (base : BitVec 64) :
    EStateM Failure CodeBuffer CompiledFunction := fun b =>
  match append stages base { buffer := b } with
  | .ok (.ok f) a => .ok f a.buffer
  | .ok (.error e) a => .error (.error e) a.buffer
  | .error f a => .error (.fault f) a.buffer

/-- Compile a pipeline to the end of a buffer at address `base`. -/
def function (features : Features) (addresses : DataAddresses) (base : BitVec 64) :
    EStateM Failure CodeBuffer CompiledFunction := do
  let b ← get
  if b.remaining < maxFunctionSize then
    throw (.error (.bufferFull b.remaining maxFunctionSize))
  place (body ⟨features, addresses⟩) base

/-- The same, with a given plan for the blend. -/
def functionBy (features : Features) (plan : BlendPlan) (addresses : DataAddresses)
    (base : BitVec 64) : EStateM Failure CodeBuffer CompiledFunction := do
  let b ← get
  if b.remaining < maxFunctionSize then
    throw (.error (.bufferFull b.remaining maxFunctionSize))
  place (bodyBy ⟨features, addresses⟩ plan) base

theorem bodyBy_ofFeatures (env : Env) : bodyBy env (.ofFeatures env.features) = body env := rfl

/-- A pipeline is compiled with the plan for its factors. -/
theorem functionBy_ofFeatures (features : Features) (addresses : DataAddresses) (base : BitVec 64) :
    functionBy features (.ofFeatures features) addresses base = function features addresses base :=
  rfl

end Compile

end PixelPipeline
