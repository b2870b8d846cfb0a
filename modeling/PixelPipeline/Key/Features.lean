/-
# Key.Features — what a compiled function depends on

Many configurations draw the same pixels: a test that always passes has a
reference nobody reads, a clearing draw has no tests at all, a factor-less
equation has no factors.  `Features.ofConfig` reduces a configuration, drawn
with given registers, to a normal form in which whatever does not matter is
zero.  Functions are compiled from features alone.
-/
import PixelPipeline.Color
import PixelPipeline.Config
import PixelPipeline.DrawState

namespace PixelPipeline

/-- A pipeline in normal form.  In clear mode `colorFlag`, `stencilFlag` and
`depthFlag` say which buffers are cleared; otherwise they switch on the color
test, the stencil test and the depth write. -/
structure Features where
  clearMode : Bool := false
  colorFlag : Bool := false
  stencilFlag : Bool := false
  depthFlag : Bool := false
  depthRange : Bool := false
  alphaFunc : Comparison := .always
  depthFunc : Comparison := .always
  stencilFunc : Comparison := .always
  format : PixelFormat
  alphaRef : BitVec 8 := 0
  stencilRef : BitVec 8 := 0
  blend : Bool := false
  blendEquation : BlendEquation := .add
  blendSrc : BlendFactor := .otherColor
  blendDst : BlendFactor := .otherColor
  alphaMasked : Bool := false
  stencilMasked : Bool := false
  dither : Bool := false
  rasterOp : Bool := false
  fog : Bool := false
  standardStride : Bool := false
  writeMasked : Bool := false
  stencilFail : StencilAction := .keep
  depthFail : StencilAction := .keep
  depthPass : StencilAction := .keep
deriving DecidableEq

namespace Features

/-! ## Reading the shared flags -/

/-- A clearing draw that writes the color bits. -/
def colorClear (f : Features) : Bool := f.clearMode && f.colorFlag

/-- A clearing draw that writes the stencil bits. -/
def stencilClear (f : Features) : Bool := f.clearMode && f.stencilFlag

/-- A clearing draw that writes the depth buffer. -/
def depthClear (f : Features) : Bool := f.clearMode && f.depthFlag

/-- The color test is on. -/
def colorTest (f : Features) : Bool := !f.clearMode && f.colorFlag

/-- The stencil test is on. -/
def stencilTest (f : Features) : Bool := !f.clearMode && f.stencilFlag

/-- The depth buffer is written, by a clear or by a draw. -/
def depthWrite (f : Features) : Bool := f.depthFlag

/-- Compiled code reads per-key constants through the key argument. -/
def needsConstants (f : Features) : Bool := f.dither || f.writeMasked

/-! ## Normalising a configuration -/

/-- Bits of an RGBA8888 color that the draw is asked to protect. -/
def protectedColor (s : DrawState) : BitVec 32 :=
  (s.colorWriteMask &&& 0x00FFFFFF) ||| (s.alphaWriteMask.setWidth 32 <<< 24)

/-- The alpha byte, for a draw that never writes stencil bits. -/
def keptAlpha (writesStencil : Bool) : BitVec 32 :=
  if writesStencil then 0 else 0xFF000000

/-- The configuration writes stencil bits: a stencil clear, or a stencil test
outside clear mode. -/
def writesStencil (c : Config) : Bool :=
  match c.clear with
  | some flags => flags.stencil
  | none => c.stencilTest.isSome

/-- The draw protects a bit that it could write. -/
def masksWrites (c : Config) (s : DrawState) : Bool :=
  c.format.narrow (protectedColor s &&& ~~~(keptAlpha (writesStencil c))) != 0

/-- The features of a clearing draw. -/
def ofClear (flags : ClearFlags) (format : PixelFormat) : Features where
  format := format
  clearMode := true
  colorFlag := flags.color
  stencilFlag := flags.stencil
  depthFlag := flags.depth

/-- Record the alpha test.  The reference is stored masked, and only if the
function compares. -/
def withAlphaTest (f : Features) (test : Option AlphaTest) (mask : BitVec 8) : Features :=
  match test with
  | none => f
  | some t =>
      if t.func.compares then
        { f with
          alphaFunc := t.func
          alphaRef := t.reference &&& mask
          alphaMasked := mask != 0xFF }
      else { f with alphaFunc := t.func }

/-- The three updates of a stencil test, or nothing for a format that stores
no stencil. -/
def storedActions (t : StencilTest) (format : PixelFormat) :
    StencilAction × StencilAction × StencilAction :=
  if format.hasStencil then (t.fail, t.depthFail, t.depthPass) else (.keep, .keep, .keep)

/-- Record the stencil test.  The reference is stored masked, and only if the
function compares or a stored update writes it. -/
def withStencilTest (f : Features) (test : Option StencilTest) (mask : BitVec 8) : Features :=
  match test with
  | none => f
  | some t =>
      let (fail, depthFail, depthPass) := storedActions t f.format
      let reads := t.func.compares || fail == .replace || depthFail == .replace ||
        depthPass == .replace
      { f with
        stencilFlag := true
        stencilFunc := t.func
        stencilRef := if reads then t.reference &&& mask else 0
        stencilMasked := reads && mask != 0xFF
        stencilFail := fail
        depthFail := depthFail
        depthPass := depthPass }

/-- Record the blend.  Factors are folded, and stored only for an equation
that uses them. -/
def withBlend (f : Features) (blend : Option Blend) (s : DrawState) : Features :=
  match blend with
  | none => f
  | some b =>
      if b.equation.usesFactors then
        { f with
          blend := true
          blendEquation := b.equation
          blendSrc := b.src.fold s.blendFixA
          blendDst := b.dst.fold s.blendFixB }
      else { f with blend := true, blendEquation := b.equation }

/-- The features of a draw that is not a clear. -/
def ofDraw (c : Config) (s : DrawState) : Features :=
  let base : Features :=
    { format := c.format
      depthFunc := c.depthTest.getD .always
      depthFlag := c.depthWrite
      colorFlag := c.colorTest
      fog := c.fog
      dither := c.dither
      rasterOp := c.rasterOp }
  ((base.withAlphaTest c.alphaTest s.alphaTestMask).withStencilTest c.stencilTest s.stencilMask)
    |>.withBlend c.blend s

/-- The normal form of a configuration drawn with the given registers. -/
def ofConfig (c : Config) (s : DrawState) : Features :=
  let f := match c.clear with
    | some flags => ofClear flags c.format
    | none => ofDraw c s
  { f with
    depthRange := c.depthRange
    standardStride := s.hasStandardStride
    writeMasked := masksWrites c s }

/-- The bits of a stored pixel that a masked draw protects, zero for a draw
that is not masked. -/
def writeMask (c : Config) (s : DrawState) : BitVec 32 :=
  if masksWrites c s then c.format.narrow (protectedColor s ||| keptAlpha (writesStencil c)) else 0

end Features

end PixelPipeline
