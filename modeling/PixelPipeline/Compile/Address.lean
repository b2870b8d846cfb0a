/-
# Compile.Address — where the pixel lies in its buffers

With the standard stride both addresses come from one shift and one sum,
and the registers of the coordinates become those of the addresses.
Dithering still needs the coordinates, so it takes the general way, which
leaves them alone.
-/
import PixelPipeline.Compile.Env

namespace PixelPipeline

open X86

namespace Compile

/-- Some stage reads or writes the depth buffer. -/
def needsDepthAddr (f : Features) : Bool := f.depthWrite || f.depthFunc.compares

/-- The row offset is a shift, and the coordinates are not needed later. -/
def fastAddress (f : Features) : Bool := f.standardStride && !f.dither

/-- A pixel's size as a power of two. -/
def pixelShift (f : PixelFormat) : BitVec 8 := if f.bytesPerPixel = 2 then 1 else 2

/-- `dst := base + ((y * stride + x) << shift)`, stride and base read from the
register block. -/
def generalAddress (env : Env) (dst : Reg) (strideAt baseAt : Nat) (shift : BitVec 8) :
    Emit Unit := do
  let state ← stateBase env
  let x ← Emit.findGen .argX
  let y ← Emit.findGen .argY
  Emit.op (.loadExt .zeroWord dst (atOffset state strideAt))
  Emit.op (.imul false dst y)
  Emit.op (.alu .add false dst x)
  Emit.op (.shift .shl true dst shift)
  Emit.op (.aluLoad .add .qword dst (atOffset state baseAt))
  Emit.unlock .argX
  Emit.unlock .argY
  Emit.unlock .stateBase

/-- Both addresses at once, from the standard stride: the index is built in the
register of `y`, the depth address in that of `x`. -/
def fastColorAddr (env : Env) : Emit Reg := do
  let x ← Emit.findGen .argX
  let y ← Emit.findGen .argY
  Emit.op (.shift .shl false y 9)
  Emit.op (.alu .add false y x)
  Emit.unlock .argX
  let state ← stateBase env
  if needsDepthAddr env.features then
    Emit.op (.load true x (atOffset state DrawState.depthBaseAt))
    Emit.op (.lea true x (.indexed x y 1 0))
    Emit.rename .argX .depthAddr
    Emit.retain .depthAddr
  else
    Emit.forceRelease .argX
  Emit.op (.shift .shl true y (pixelShift env.features.format))
  Emit.op (.aluLoad .add .qword y (atOffset state DrawState.fbBaseAt))
  Emit.unlock .stateBase
  Emit.rename .argY .colorAddr
  Emit.retain .colorAddr
  pure y

/-- Register with the address of the pixel in the color buffer, computed on
first use and kept until the color write.  It is returned locked. -/
def colorAddr (env : Env) : Emit Reg := do
  if ← Emit.has .colorAddr then Emit.findGen .colorAddr
  else if fastAddress env.features then fastColorAddr env
  else
    let r ← Emit.allocGen .colorAddr
    generalAddress env r DrawState.fbStrideAt DrawState.fbBaseAt (pixelShift env.features.format)
    Emit.retain .colorAddr
    pure r

/-- Register with the address of the pixel in the depth buffer.  It is returned
locked. -/
def depthAddr (env : Env) : Emit Reg := do
  if ← Emit.has .depthAddr then Emit.findGen .depthAddr
  else if fastAddress env.features && !(← Emit.has .colorAddr) then
    let _ ← colorAddr env
    Emit.unlock .colorAddr
    Emit.findGen .depthAddr
  else
    let r ← Emit.allocGen .depthAddr
    generalAddress env r DrawState.depthStrideAt DrawState.depthBaseAt 1
    Emit.retain .depthAddr
    pure r

end Compile

end PixelPipeline
