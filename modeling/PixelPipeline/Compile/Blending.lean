/-
# Compile.Blending — joining the working color with the stored one

Equations with factors work on 16-bit lanes in 11.4 fixed point: colors and
factors are shifted left by four, their low bits set to one half, and the
high half of the product is back at eight bits.  The other equations work
on packed bytes.
-/
import PixelPipeline.Compile.Address
import PixelPipeline.Conversion

namespace PixelPipeline

open X86

namespace Compile

/-- Load the stored pixel as packed canonical bytes. -/
def loadStoredColor (env : Env) (keepAlpha : Bool) : Emit Xmm := do
  let addr ← colorAddr env
  if !env.features.dither then
    Emit.forceRelease .argX
    Emit.forceRelease .argY
  let dst ← Emit.allocVec .vec0
  if env.features.format = .rgba8888 then
    Emit.op (.movdLoad dst (atOffset addr 0))
  else
    let pixel ← Emit.allocGen .gen0
    let t₁ ← Emit.allocGen .gen1
    let t₂ ← Emit.allocGen .gen2
    Emit.op (.loadExt .zeroWord pixel (atOffset addr 0))
    Emit.ops (Conversion.widen env.features.format pixel t₁ t₂ keepAlpha)
    Emit.op (.movdToVec dst pixel)
    Emit.release .gen2
    Emit.release .gen1
    Emit.release .gen0
  Emit.unlock .colorAddr
  pure dst

/-! ## Factors -/

/-- Put the value that a factor is made of into `v`, in fixed point.  `forDst`
says which color is the other one, and which fixed color is meant. -/
def factorValue (env : Env) (factor : BlendFactor) (v color dst : Xmm) (forDst : Bool) :
    Emit Unit :=
  match factor with
  | .otherColor | .invOtherColor =>
      Emit.op (.packed .movdqa v (if forDst then color else dst))
  | .srcAlpha | .invSrcAlpha | .doubleSrcAlpha | .doubleInvSrcAlpha =>
      Emit.op (.pshuflw v color 0xFF)
  | .dstAlpha | .invDstAlpha | .doubleDstAlpha | .doubleInvDstAlpha =>
      Emit.op (.pshuflw v dst 0xFF)
  | .fixed => do
      let state ← stateBase env
      Emit.op (.movdLoad v (atOffset state
        (if forDst then DrawState.blendFixBAt else DrawState.blendFixAAt)))
      Emit.unlock .stateBase
      widenBytes v
      Emit.op (.laneShift .sll v 4)
  | .zero => Emit.op (.packed .pxor v v)
  | .one => do
      Emit.op (.packed .pcmpeqd v v)
      Emit.op (.laneShift .srl v 8)
      Emit.op (.laneShift .sll v 4)

/-- Build a factor in fixed point.  Inverse factors are built beside the result
and subtracted from one. -/
def blendFactor (env : Env) (role : Role) (factor : BlendFactor) (color dst : Xmm)
    (forDst : Bool) : Emit Xmm := do
  let r ← Emit.allocVec role
  let v ← if factor.isInverse then Emit.allocVec .vec3 else pure r
  factorValue env factor v color dst forDst
  if factor.isDouble then
    Emit.op (.laneShift .sll v 1)
  if factor.isInverse then
    let pool ← poolBase env
    Emit.op (.packedLoad .movdqa r (atOffset pool VectorPool.invertAt))
    Emit.unlock .poolBase
    Emit.op (.packed .psubusw r v)
    Emit.release .vec3
  pure r

/-- The destination factor, taken from the source factor if it is its inverse. -/
def dstFactor (env : Env) (plan : BlendPlan) (srcFactor : Option Xmm) (color dst : Xmm) :
    Emit (Option Xmm) := do
  if !plan.multiplyDst then pure none
  else
    match srcFactor, plan.dstIsInverse with
    | some sf, true =>
        let df ← loadConst env .vec2 VectorPool.invertAt
        Emit.op (.packed .psubusw df sf)
        pure (some df)
    | _, _ => pure (some (← blendFactor env .vec2 env.features.blendDst color dst true))

/-- Multiply a color by its factor, if it has one. -/
def scaleBy (half color : Xmm) (factor : Option Xmm) : Emit Unit :=
  match factor with
  | none => pure ()
  | some f => do
      Emit.op (.packed .por f half)
      Emit.op (.packed .por color half)
      Emit.op (.packed .pmulhuw color f)

/-- Multiply both colors by their factors.  Both factors are built first, since
each may read the other color. -/
def scaleColors (env : Env) (plan : BlendPlan) (color dst : Xmm) : Emit Unit := do
  let sf ← if plan.multiplySrc then
      pure (some (← blendFactor env .vec1 env.features.blendSrc color dst false))
    else pure none
  let df ← dstFactor env plan sf color dst
  if sf.isSome || df.isSome then
    let half ← loadConst env .vec3 VectorPool.halfAt
    scaleBy half color sf
    scaleBy half dst df
    Emit.release .vec3
    Emit.release .vec2
    Emit.release .vec1

/-- The source color under a factor that is not multiplied. -/
def trivialSrc (plan : BlendPlan) (factor : BlendFactor) (color : Xmm) : Emit Unit := do
  if factor = .zero then Emit.op (.packed .pxor color color)
  if factor = .one ∧ plan.srcFeedsFactor then Emit.op (.laneShift .srl color 4)

/-- The destination color under a factor that is not multiplied.  Under zero it
is cleared only if the equation still reads it. -/
def trivialDst (plan : BlendPlan) (equation : BlendEquation) (factor : BlendFactor) (dst : Xmm) :
    Emit Unit := do
  if factor = .zero ∧ equation = .reverseSubtract then Emit.op (.packed .pxor dst dst)
  if factor = .one ∧ plan.dstFeedsFactor then Emit.op (.laneShift .srl dst 4)

/-- Join the scaled colors; nothing is left to do beside a zero destination,
except to subtract from it. -/
def joinColors (equation : BlendEquation) (dstIsZero : Bool) (color dst : Xmm) : Emit Unit :=
  match equation, dstIsZero with
  | .add, false => Emit.op (.packed .paddusw color dst)
  | .subtract, false => Emit.op (.packed .psubusw color dst)
  | .reverseSubtract, _ => do
      Emit.op (.packed .psubusw dst color)
      Emit.op (.packed .movdqa color dst)
  | _, _ => pure ()

/-- An equation that scales its inputs by factors. -/
def blendWithFactors (env : Env) (plan : BlendPlan) (color dst : Xmm) : Emit Unit := do
  let f := env.features
  expandColor color
  widenBytes dst
  if plan.multiplySrc || plan.srcFeedsFactor then
    Emit.op (.laneShift .sll color 4)
  if plan.multiplyDst || plan.dstFeedsFactor then
    Emit.op (.laneShift .sll dst 4)
  scaleColors env plan color dst
  trivialSrc plan f.blendSrc color
  trivialDst plan f.blendEquation f.blendDst dst
  joinColors f.blendEquation (f.blendDst == .zero) color dst

/-- An equation on packed bytes.  The absolute difference is the join of the two
saturating ones. -/
def blendBytes (equation : BlendEquation) (color dst : Xmm) : Emit Unit := do
  packColor color
  match equation with
  | .min => Emit.op (.packed .pminub color dst)
  | .max => Emit.op (.packed .pmaxub color dst)
  | .absDiff =>
      let tmp ← Emit.allocVec .vec1
      Emit.op (.packed .movdqa tmp dst)
      Emit.op (.packed .psubusb tmp color)
      Emit.op (.packed .psubusb color dst)
      Emit.op (.packed .por color tmp)
      Emit.release .vec1
  | _ => pure ()

/-- The blend, by a given plan. -/
def blendBy (env : Env) (plan : BlendPlan) : Emit Unit := do
  Emit.mark .blend
  if env.features.blend then
    let dst ← loadStoredColor env plan.usesDstAlpha
    let color ← Emit.findVec .vecColor
    if plan.usesFactors then blendWithFactors env plan color dst
    else blendBytes env.features.blendEquation color dst
    Emit.release .vec0
    Emit.unlock .vecColor

end Compile

end PixelPipeline
