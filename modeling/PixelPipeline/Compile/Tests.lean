/-
# Compile.Tests — depth range, alpha test and color test

A pixel that fails a test leaves at once.  The function of the color test
is read at run time; those of the other tests are compiled in.
-/
import PixelPipeline.Compile.Address

namespace PixelPipeline

open X86

namespace Compile

/-- Discard pixels whose depth lies outside the allowed range. -/
def depthRange (env : Env) : Emit Unit := do
  Emit.mark .depthRange
  if env.features.depthRange then
    let state ← stateBase env
    let z ← Emit.findGen .argZ
    Emit.op (.aluLoad .cmp .word z (atOffset state DrawState.minZAt))
    Emit.leaveIf .b
    Emit.op (.aluLoad .cmp .word z (atOffset state DrawState.maxZAt))
    Emit.leaveIf .a
    Emit.unlock .argZ
    Emit.unlock .stateBase
  if !needsDepthAddr env.features then
    Emit.forceRelease .argZ

/-- Move the color argument into a vector register. -/
def enterColor : Emit Unit := do
  Emit.mark .clampColor
  let vec ← Emit.allocVec .vecColor
  let arg ← Emit.findGen .argColor
  Emit.op (.movdToVec vec arg)
  Emit.forceRelease .argColor
  Emit.unlock .vecColor
  Emit.setWide false

/-- Compare the source alpha with the reference and leave unless `pass` holds. -/
def compareAlpha (env : Env) (pass : Cond) : Emit Unit := do
  let vec ← Emit.findVec .vecColor
  let alpha ← Emit.allocGen .srcAlpha
  Emit.op (.movdToReg alpha vec)
  Emit.op (.shift .shr false alpha 24)
  Emit.unlock .vecColor
  if env.features.alphaMasked then
    let state ← stateBase env
    Emit.op (.aluLoad .and .byte alpha (atOffset state DrawState.alphaTestMaskAt))
    Emit.unlock .stateBase
  Emit.op (.aluImm .cmp false alpha (env.features.alphaRef.setWidth 32))
  Emit.leaveIf pass.invert
  Emit.release .srcAlpha

/-- The alpha test. -/
def alphaTest (env : Env) : Emit Unit := do
  Emit.mark .alphaTest
  match passCond env.features.alphaFunc with
  | some pass => compareAlpha env pass
  | none => if env.features.alphaFunc = .never then Emit.leave

/-- Three-way dispatch on the function in `func`, comparing `reference` and
`masked`. -/
def dispatchColorTest (func reference masked : Reg) : Emit Unit := do
  let compare : Emit Unit := Emit.op (.alu .cmp false reference masked)
  Emit.op (.aluImm .cmp false func (ColorTest.always.code.setWidth 32))
  Emit.leaveIf .b
  Emit.skipIf .e do
    Emit.op (.aluImm .cmp false func (ColorTest.equal.code.setWidth 32))
    Emit.choose .e
      (do compare; Emit.leaveIf .e)
      (do compare; Emit.leaveIf .ne)

/-- The color test.  All registers are taken before the first branch, so that
every path agrees on them. -/
def colorTest (env : Env) : Emit Unit := do
  Emit.mark .colorTest
  if env.features.colorTest then
    let state ← stateBase env
    let func ← Emit.allocGen .gen0
    let masked ← Emit.allocGen .gen1
    let reference ← Emit.allocGen .gen2
    Emit.op (.load false masked (atOffset state DrawState.colorTestMaskAt))
    Emit.op (.aluImm .and false masked 0x00FFFFFF)
    Emit.op (.load false reference (atOffset state DrawState.colorTestRefAt))
    Emit.op (.alu .and false reference masked)
    let vec ← Emit.findVec .vecColor
    packColor vec
    Emit.op (.movdToReg func vec)
    Emit.op (.alu .and false masked func)
    Emit.unlock .vecColor
    Emit.op (.loadExt .zeroByte func (atOffset state DrawState.colorTestAt))
    Emit.unlock .stateBase
    dispatchColorTest func reference masked
    Emit.release .gen0
    Emit.release .gen1
    Emit.release .gen2

end Compile

end PixelPipeline
