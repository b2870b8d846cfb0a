/-
# Compile.Shading — fog and dither

Both change the working color of a pixel that has not been discarded.
-/
import PixelPipeline.Compile.Address
import PixelPipeline.Key

namespace PixelPipeline

open X86

namespace Compile

/-- `color := (color * fog + fogColor * (255 - fog)) / 255` on red, green and
blue; alpha stays.  A 16-bit `x` is divided by 255 as `(x * 0x8081) >> 23`. -/
def blendFog (env : Env) : Emit Unit := do
  let fogColor ← Emit.allocVec .vec1
  let state ← stateBase env
  Emit.op (.movdLoad fogColor (atOffset state DrawState.fogColorAt))
  Emit.unlock .stateBase
  widenBytes fogColor
  let rest ← loadConst env .vec2 VectorPool.byteMaxAt
  let color ← Emit.findVec .vecColor
  expandColor color
  let alpha ← Emit.allocGen .srcAlpha
  Emit.op (.pextrw alpha color 3)
  let amount ← Emit.allocVec .vec3
  let arg ← Emit.findGen .argFog
  Emit.op (.movdToVec amount arg)
  Emit.op (.pshuflw amount amount 0x00)
  Emit.forceRelease .argFog
  Emit.op (.packed .pmullw color amount)
  Emit.op (.packed .psubusw rest amount)
  Emit.op (.packed .pmullw fogColor rest)
  Emit.op (.packed .paddusw color fogColor)
  Emit.release .vec1
  Emit.release .vec2
  Emit.release .vec3
  let pool ← poolBase env
  Emit.op (.packedLoad .pmulhuw color (atOffset pool VectorPool.by255At))
  Emit.unlock .poolBase
  Emit.op (.laneShift .srl color 7)
  Emit.op (.pinsrw color alpha 3)
  Emit.release .srcAlpha
  Emit.unlock .vecColor

/-- Fog. -/
def fog (env : Env) : Emit Unit := do
  Emit.mark .fog
  if env.features.fog then blendFog env
  else Emit.forceRelease .argFog

/-- Add the signed table entry for the low bits of the coordinates to red,
green and blue. -/
def addDither (env : Env) : Emit Unit := do
  let _ ← colorAddr env
  Emit.unlock .colorAddr
  let x ← Emit.findGen .argX
  let y ← Emit.findGen .argY
  let key ← Emit.findGen .argKey
  let value ← Emit.allocGen .gen0
  let column ← Emit.allocGen .gen1
  Emit.op (.mov false value y)
  Emit.op (.aluImm .and false value 3)
  Emit.op (.mov false column x)
  Emit.op (.aluImm .and false column 3)
  Emit.op (.lea true value (.indexed column value 2 0))
  Emit.op (.loadExt .signByte value (.indexed key value 0 (BitVec.ofNat 32 Key.ditherAt)))
  -- the shuffle below takes a zero from lane 1
  Emit.op (.aluImm .and false value 0xFFFF)
  Emit.release .gen1
  Emit.unlock .argKey
  Emit.forceRelease .argX
  Emit.forceRelease .argY
  let bias ← Emit.allocVec .vec0
  Emit.op (.movdToVec bias value)
  Emit.release .gen0
  Emit.op (.pshuflw bias bias 0x40)
  let color ← Emit.findVec .vecColor
  expandColor color
  Emit.op (.packed .paddsw color bias)
  Emit.release .vec0
  Emit.unlock .vecColor

/-- Dither. -/
def dither (env : Env) : Emit Unit := do
  Emit.mark .dither
  if env.features.dither then addDither env

end Compile

end PixelPipeline
