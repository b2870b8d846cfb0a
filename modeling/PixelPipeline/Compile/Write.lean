/-
# Compile.Write — the color write

The working color is converted to the stored format, joined with the
stencil value and the stored pixel as the pipeline asks, and stored so that
protected bits stay.
-/
import PixelPipeline.Compile.Stencil
import PixelPipeline.Conversion
import PixelPipeline.Key

namespace PixelPipeline

open X86

namespace Compile

/-! ## Raster operations -/

/-- One operation on `color`, with the stored pixel in `dst`. -/
def rasterOpBody (op : RasterOp) (color dst : Reg) : List Instr :=
  let invert (r : Reg) : Instr := .not false r
  let join (o : AluOp) : Instr := .alu o false color dst
  match op with
  | .clear => [.alu .xor false color color]
  | .and => [join .and]
  | .andReverse => [invert dst, join .and]
  | .copy => []
  | .andInverted => [invert color, join .and]
  | .noop => [.mov false color dst]
  | .xor => [join .xor]
  | .or => [join .or]
  | .nor => [join .or, invert color]
  | .equiv => [join .xor, invert color]
  | .inverted => [.mov false color dst, invert color]
  | .orReverse => [invert dst, join .or]
  | .copyInverted => [invert color]
  | .orInverted => [invert color, join .or]
  | .nand => [join .and, invert color]
  | .set => [.movImm32 color 0xFFFFFFFF]

/-- The bodies of all operations.  Without a stencil value to store, an
operation that keeps the pixel leaves. -/
def rasterOpBodies (color dst : Reg) (hasStencil : Bool) : List (Option (List Instr)) :=
  RasterOp.all.map fun op =>
    if op = .noop ∧ !hasStencil then none else some (rasterOpBody op color dst)

/-- Combine the color with the stored pixel by the operation that the register
block names at run time. -/
def rasterOp (env : Env) (color addr : Reg) (hasStencil : Bool) : Emit Unit := do
  Emit.mark .rasterOp
  let dst ← Emit.allocGen .gen4
  if env.features.format = .rgba8888 then Emit.op (.load false dst (atOffset addr 0))
  else Emit.op (.loadExt .zeroWord dst (atOffset addr 0))
  let index ← Emit.allocGen .gen5
  let state ← stateBase env
  Emit.op (.loadExt .zeroByte index (atOffset state DrawState.rasterOpAt))
  Emit.unlock .stateBase
  Emit.op (.aluImm .and false index 0xF)
  let table ← Emit.allocGen .helper
  Emit.put (.select table index (rasterOpBodies color dst hasStencil) .done)
  Emit.release .helper
  Emit.release .gen5
  Emit.release .gen4

/-! ## The store -/

/-- Move an eight-bit stencil value to the stencil bits of a stored pixel. -/
def placeStencil (format : PixelFormat) (st : Reg) : Emit Unit :=
  match format with
  | .rgba5551 => Emit.ops [.shift .shr false st 7, .shift .shl false st 15]
  | .rgba4444 => Emit.ops [.shift .shr false st 4, .shift .shl false st 12]
  | .rgba8888 => Emit.op (.shift .shl false st 24)
  | .rgb565 => pure ()

/-- Load the protected bits from the key, if the write is masked. -/
def loadWriteMask (env : Env) : Emit (Option Reg) := do
  if env.features.writeMasked then
    let m ← Emit.allocGen .gen3
    let key ← Emit.findGen .argKey
    Emit.op (.load false m (atOffset key Key.writeMaskAt))
    pure (some m)
  else pure none

/-- Store under a mask of protected bits. -/
def storeMasked (size : OpSize) (addr color mask : Reg) : Emit Unit := do
  Emit.op (.aluStore .and size (atOffset addr 0) mask)
  Emit.op (.not false mask)
  Emit.op (.alu .and false color mask)
  Emit.op (.aluStore .or size (atOffset addr 0) color)
  Emit.release .gen3

/-- Store everything but the stencil bits, which the pipeline never writes. -/
def storeKeeping (env : Env) (size : OpSize) (addr color : Reg) (kept : BitVec 32) :
    Emit Unit := do
  if env.features.format = .rgba8888 then
    Emit.op (.store .word color (atOffset addr 0))
    Emit.op (.shift .shr false color 16)
    Emit.op (.store .byte color (atOffset addr 2))
  else
    if env.features.rasterOp then
      Emit.op (.aluImm .and false color (~~~kept))
    Emit.op (.aluStoreImm .and size (atOffset addr 0) kept)
    Emit.op (.aluStore .or size (atOffset addr 0) color)

/-- Store the stored-format pixel in `color`. -/
def storeColor (env : Env) (addr color : Reg) (mask : Option Reg) (kept : BitVec 32) :
    Emit Unit := do
  let size : OpSize := if env.features.format.bytesPerPixel = 2 then .word else .dword
  match mask with
  | some m => storeMasked size addr color m
  | none =>
      if kept = 0 then Emit.op (.store size color (atOffset addr 0))
      else storeKeeping env size addr color kept

/-! ## The write as a whole -/

/-- A clear that leaves the color alone.  The stencil value is the color's
alpha. -/
def clearStencil (env : Env) : Emit Unit := do
  if env.features.stencilClear && env.features.format.hasStencil then
    let vec ← Emit.findVec .vecColor
    packColor vec
    let st ← Emit.allocGen .stencil
    Emit.op (.movdToReg st vec)
    Emit.op (.shift .shr false st 24)
    Emit.unlock .vecColor
    writeStencilOnly env st
    Emit.forceRelease .stencil

/-- The working color in a general register, as the bits of a stored pixel. -/
def storedBits (env : Env) (convertAlpha : Bool) : Emit (Reg × Option Reg) := do
  let vec ← Emit.findVec .vecColor
  packColor vec
  let color ← Emit.allocGen .gen0
  Emit.op (.movdToReg color vec)
  Emit.forceRelease .vecColor
  let st ← if ← Emit.has .stencil then pure (some (← Emit.findGen .stencil)) else pure none
  let t₁ ← Emit.allocGen .gen1
  let t₂ ← Emit.allocGen .gen2
  Emit.ops (Conversion.narrow env.features.format color t₁ t₂ convertAlpha)
  Emit.release .gen1
  Emit.release .gen2
  pure (color, st)

/-- Join the stencil value with the color bits. -/
def mergeStencil (env : Env) (color : Reg) (stencil : Option Reg) : Emit Unit := do
  match stencil with
  | some st =>
      Emit.op (.aluImm .and false color (~~~env.features.format.stencilBits))
      Emit.op (.alu .or false color st)
  | none => pure ()
  Emit.forceRelease .stencil

/-- Combine the color bits with the stored pixel, join the stencil value with
them and store. -/
def combineAndStore (env : Env) (addr color : Reg) (stencil : Option Reg) : Emit Unit := do
  let f := env.features
  let kept := if f.stencilClear || stencil.isSome then 0 else f.format.stencilBits
  let mask ← loadWriteMask env
  Emit.forceRelease .argKey
  if f.rasterOp then
    rasterOp env color addr stencil.isSome
    Emit.mark .writeColor
  mergeStencil env color stencil
  storeColor env addr color mask kept
  Emit.release .gen0
  Emit.forceRelease .colorAddr

/-- Write color, and stencil bits if there are any to write. -/
def writePixel (env : Env) : Emit Unit := do
  let addr ← colorAddr env
  Emit.forceRelease .argX
  Emit.forceRelease .argY
  let (color, stencil) ← storedBits env env.features.stencilClear
  match stencil with
  | some st => placeStencil env.features.format st
  | none => pure ()
  combineAndStore env addr color stencil

/-- The color write. -/
def writeColor (env : Env) : Emit Unit := do
  Emit.mark .writeColor
  if env.features.clearMode && !env.features.colorClear then clearStencil env
  else writePixel env

end Compile

end PixelPipeline
