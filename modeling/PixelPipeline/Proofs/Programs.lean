/-
# Proofs.Programs — what the code of a pipeline is made of

A pipeline's features say which steps its code takes, and not every difference
between features is one between steps (`Features.program`).  A function that never
passes leaves, whichever test it stands in; a format without stencil bits is tested
at compile time, and neither loads a stencil value nor updates one; an update to a
stencil of one bit is a constant; a subtraction of nothing is no subtraction; and a
clear writes the color as any draw does that tests nothing.
-/
import PixelPipeline.Compile.Function

namespace PixelPipeline

/-- A comparison that looks at its operands. -/
abbrev Comparing : Type := { c : Comparison // c.compares = true }

/-- What is done to the stencil value in a register. -/
inductive Update where
  | zero
  | set (value : BitVec 8)
  /-- Read the unmasked reference from the register block. -/
  | reload
  | invert
  | stepUp
  | stepDown
deriving DecidableEq

/-- How a color is joined with the stored one. -/
inductive Mix where
  | bytes (equation : BlendEquation)
  | factors (equation : BlendEquation) (src dst : BlendFactor)
deriving DecidableEq

/-- A step of the code.  The steps behind a check of the stencil, up to the next
leave, are for pixels that fail it; so are those behind a check of the depth, if the
stencil has been loaded.  Pixels that fail another check leave. -/
inductive Step where
  | checkRange
  | checkAlpha (func : Comparing) (reference : BitVec 8) (masked : Bool)
  /-- Leave in any case. -/
  | leave
  | fog
  | checkColor
  | loadStencil (format : PixelFormat)
  | checkStencil (func : Comparing) (reference : BitVec 8) (masked : Bool)
  | checkDepth (func : Comparing)
  | update (u : Update)
  | storeStencil (format : PixelFormat) (masked : Bool)
  | storeDepth
  | blend (format : PixelFormat) (mix : Mix)
  | dither
deriving DecidableEq

/-- The last step. -/
inductive Finish where
  /-- Write the color, `alpha` included, under a raster operation or none. -/
  | write (format : PixelFormat) (masked alpha rasterOp : Bool)
  | clearStencil (format : PixelFormat) (masked : Bool)
  | nothing
deriving DecidableEq

/-- How the code finds the pixel. -/
inductive Reach where
  /-- In the color buffer, and in the depth buffer if that is asked for. -/
  | color (standardStride : Bool)
  /-- In the depth buffer alone.  The standard stride gives both addresses, and so
  depends on the size of a pixel. -/
  | depth (standardStride : Bool) (bytesPerPixel : Nat)
  | nowhere
deriving DecidableEq

/-- The code of a pipeline. -/
structure Program where
  steps : List Step
  finish : Finish
  reach : Reach
deriving DecidableEq

namespace Features

variable (f : Features)

/-! ## Tests of the fragment -/

/-- The steps of a check with a comparison. -/
def checkSteps (func : Comparison) (check : Comparing → Step) (failed : List Step) : List Step :=
  if h : func.compares = true then check ⟨func, h⟩ :: failed else []

/-- The alpha test. -/
def alphaSteps : List Step :=
  if f.alphaFunc = .never then [.leave]
  else checkSteps f.alphaFunc (.checkAlpha · f.alphaRef f.alphaMasked) []

/-! ## Tests of stored values -/

/-- The depth test without a stencil value to update. -/
def depthSteps : List Step :=
  if f.depthFunc = .never then [.leave] else checkSteps f.depthFunc .checkDepth []

/-- What an update comes down to. -/
def updates : StencilAction → List Update
  | .keep => []
  | .zero => [.zero]
  | .replace => if f.stencilMasked then [.reload] else [.set f.stencilRef]
  | .invert => [.invert]
  | .increment =>
      match f.format with
      | .rgb565 => []
      | .rgba5551 => [.set 0xFF]
      | .rgba4444 | .rgba8888 => [.stepUp]
  | .decrement =>
      match f.format with
      | .rgb565 => []
      | .rgba5551 => [.zero]
      | .rgba4444 | .rgba8888 => [.stepDown]

/-- The way out for a pixel that fails a test. -/
def failSteps (action : StencilAction) : List Step :=
  (f.updates action).map .update ++
    (if action = .keep then [] else [.storeStencil f.format f.writeMasked]) ++ [.leave]

/-- A test whose failure updates the stencil value. -/
def updatingSteps (func : Comparison) (check : Comparing → Step) (action : StencilAction) :
    List Step :=
  if func = .never then f.failSteps action else checkSteps func check (f.failSteps action)

/-- The stencil value is loaded. -/
def loadsStencil : Bool := f.stencilTest && f.format.hasStencil

/-- The tests of stored values. -/
def storedSteps : List Step :=
  if f.loadsStencil then
    .loadStencil f.format ::
      (f.updatingSteps f.stencilFunc (.checkStencil · f.stencilRef f.stencilMasked) f.stencilFail ++
        f.updatingSteps f.depthFunc .checkDepth f.depthFail ++
        (f.updates f.depthPass).map .update)
  else
    (if f.stencilTest && !f.stencilFunc.passes (f.stencilRef.setWidth 32) 0 then [.leave] else []) ++
      f.depthSteps

/-! ## The color -/

/-- The blend.  Nothing is left of a stored color that is scaled by zero, so that it
makes no difference whether it is added or subtracted. -/
def mix : Mix :=
  if f.blendEquation.usesFactors then
    .factors (if f.blendEquation = .subtract ∧ f.blendDst = .zero then .add else f.blendEquation)
      f.blendSrc f.blendDst
  else .bytes f.blendEquation

/-- The draw writes the color. -/
def writesColor : Bool := !(f.clearMode && !f.colorFlag)

/-- The clear writes the stencil bits alone. -/
def clearsStencil : Bool := !f.writesColor && f.stencilClear && f.format.hasStencil

/-- The alpha of the color is written as the stencil value.  A 32-bit pixel under a mask
is stored as it is, whether its alpha is meant or not. -/
def writesAlpha : Bool :=
  f.stencilClear && f.format.hasStencil && !(f.format == .rgba8888 && f.writeMasked)

/-- The last step. -/
def finish : Finish :=
  if f.writesColor then .write f.format f.writeMasked f.writesAlpha f.rasterOp
  else if f.clearsStencil then .clearStencil f.format f.writeMasked
  else .nothing

/-! ## The whole -/

/-- The steps before the last. -/
def steps : List Step :=
  (if f.depthRange then [.checkRange] else []) ++ f.alphaSteps ++
    (if f.fog then [.fog] else []) ++ (if f.colorTest then [.checkColor] else []) ++
    f.storedSteps ++ (if f.depthWrite then [.storeDepth] else []) ++
    (if f.blend then [.blend f.format f.mix] else []) ++ (if f.dither then [.dither] else [])

/-- How the pixel is found. -/
def reach : Reach :=
  if f.writesColor || f.clearsStencil then .color (Compile.fastAddress f)
  else if f.depthWrite then
    .depth (Compile.fastAddress f) (if Compile.fastAddress f then f.format.bytesPerPixel else 0)
  else .nowhere

/-- What the code is made of. -/
def program : Program := ⟨f.steps, f.finish, f.reach⟩

end Features

end PixelPipeline
