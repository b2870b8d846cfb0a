/-
# BlendPlan — which steps a blend needs

Scaling by factors is done in 11.4 fixed point: a color that is multiplied,
or that a factor is read from, is shifted left by four first.  The plan
says which colors those are, and when the destination factor is what is
left of one after the source factor.
-/
import PixelPipeline.Key.Features

namespace PixelPipeline

/-- Which steps a blend needs. -/
structure BlendPlan where
  /-- The equation scales source and destination by factors. -/
  usesFactors : Bool := false
  /-- A factor reads the destination alpha. -/
  usesDstAlpha : Bool := false
  /-- The destination factor is one minus the source factor. -/
  dstIsInverse : Bool := false
  /-- The source color feeds a factor and must be in fixed point. -/
  srcFeedsFactor : Bool := false
  /-- The destination color feeds a factor and must be in fixed point. -/
  dstFeedsFactor : Bool := false
  /-- The source color is multiplied. -/
  multiplySrc : Bool := false
  /-- The destination color is multiplied. -/
  multiplyDst : Bool := false
deriving DecidableEq

namespace BlendPlan

/-- `dst` is one minus `src`, of the same alpha and doubling. -/
def inversePair (src dst : BlendFactor) : Bool :=
  match src, dst with
  | .srcAlpha, .invSrcAlpha => true
  | .doubleSrcAlpha, .doubleInvSrcAlpha => true
  | .dstAlpha, .invDstAlpha => true
  | .doubleDstAlpha, .doubleInvDstAlpha => true
  | _, _ => false

/-- The plan for a pair of factors. -/
def ofFactors (src dst : BlendFactor) : BlendPlan :=
  let usesDstAlpha := src.readsDstAlpha || dst.readsDstAlpha
  { usesFactors := true
    usesDstAlpha := usesDstAlpha
    dstIsInverse := inversePair src dst
    srcFeedsFactor := src.readsSrcAlpha || dst.readsSrcAlpha || dst.readsOtherColor
    dstFeedsFactor := src.readsOtherColor || usesDstAlpha
    multiplySrc := !src.isTrivial
    multiplyDst := !dst.isTrivial }

/-- The plan for a pipeline; nothing is needed without factors. -/
def ofFeatures (f : Features) : BlendPlan :=
  if f.blend && f.blendEquation.usesFactors then ofFactors f.blendSrc f.blendDst else {}

/-- The plan under which the destination factor is always built from scratch. -/
def withoutInverse (p : BlendPlan) : BlendPlan := { p with dstIsInverse := false }

end BlendPlan

end PixelPipeline
