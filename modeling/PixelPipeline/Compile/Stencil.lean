/-
# Compile.Stencil — the stencil and depth tests, and stencil updates

A pixel that fails the stencil or the depth test still updates the stored
stencil bits before it leaves.  Those paths never come back, so what they
do to the registers is forgotten.
-/
import PixelPipeline.Compile.Address

namespace PixelPipeline

open X86

namespace Compile

/-! ## Depth -/

/-- Compare depth with the stored depth, and give the condition under which
the test passes; none if nothing is compared. -/
def compareDepth (env : Env) : Emit (Option Cond) := do
  match passCond env.features.depthFunc with
  | none => pure none
  | some pass =>
      let depth ← depthAddr env
      let z ← Emit.findGen .argZ
      Emit.op (.aluLoad .cmp .word z (atOffset depth 0))
      Emit.unlock .argZ
      Emit.unlock .depthAddr
      pure (some pass)

/-- The depth argument is not needed after the test. -/
def dropDepthArg (env : Env) : Emit Unit := do
  if !env.features.depthWrite then Emit.forceRelease .argZ

/-- The depth test without a stencil update. -/
def depthTest (env : Env) : Emit Unit := do
  Emit.mark .depthTest
  if env.features.depthFunc = .never then Emit.leave
  else
    match ← compareDepth env with
    | some pass => Emit.leaveIf pass.invert
    | none => pure ()
  dropDepthArg env

/-- The depth write. -/
def writeDepth (env : Env) : Emit Unit := do
  Emit.mark .writeDepth
  if env.features.depthWrite then
    let depth ← depthAddr env
    let z ← Emit.findGen .argZ
    Emit.op (.store .word z (atOffset depth 0))
  Emit.forceRelease .argZ
  Emit.forceRelease .depthAddr

/-! ## Stored stencil values -/

/-- Load the stored stencil, widened to eight bits; none for a format without
stencil bits.  It is returned locked and retained. -/
def storedStencil (env : Env) : Emit (Option Reg) := do
  if !env.features.format.hasStencil then pure none
  else
    let addr ← colorAddr env
    let st ← Emit.allocGen .stencil
    match env.features.format with
    | .rgba8888 => Emit.op (.loadExt .zeroByte st (atOffset addr 3))
    | .rgba5551 =>
        Emit.op (.loadExt .signByte st (atOffset addr 1))
        Emit.op (.shift .sar false st 7)
        Emit.op (.aluImm .and false st 0xFF)
    | .rgba4444 =>
        Emit.op (.loadExt .zeroByte st (atOffset addr 1))
        Emit.op (.shift .shr false st 4)
        let t ← Emit.allocGen .helper
        Emit.op (.mov false t st)
        Emit.op (.shift .shl false t 4)
        Emit.op (.alu .or false st t)
        Emit.release .helper
    | .rgb565 => pure ()
    Emit.unlock .colorAddr
    Emit.retain .stencil
    pure (some st)

/-- Replace the value by the reference.  With a mask the pipeline only carries
the masked reference, so the full one is read from the register block. -/
def replaceStencil (env : Env) (st : Reg) : Emit Unit := do
  if env.features.stencilMasked then
    let state ← stateBase env
    Emit.op (.loadExt .zeroByte st (atOffset state DrawState.stencilRefAt))
    Emit.unlock .stateBase
  else Emit.op (.movImm32 st (env.features.stencilRef.setWidth 32))

/-- Step the value up, unless it cannot go further. -/
def incrementStencil (format : PixelFormat) (st : Reg) : Emit Unit :=
  match format with
  | .rgb565 => pure ()
  | .rgba5551 => Emit.op (.movImm32 st 0xFF)
  | .rgba4444 => do
      Emit.op (.aluImm .cmp false st 0xF0)
      Emit.skipIf .ae (Emit.op (.aluImm .add false st 0x11))
  | .rgba8888 => do
      Emit.op (.aluImm .cmp false st 0xFF)
      Emit.skipIf .e (Emit.op (.aluImm .add false st 1))

/-- Step the value down, unless it cannot go further. -/
def decrementStencil (format : PixelFormat) (st : Reg) : Emit Unit :=
  match format with
  | .rgb565 => pure ()
  | .rgba5551 => Emit.op (.alu .xor false st st)
  | .rgba4444 => do
      Emit.op (.aluImm .cmp false st 0x11)
      Emit.skipIf .b (Emit.op (.aluImm .sub false st 0x11))
  | .rgba8888 => do
      Emit.op (.test false st st)
      Emit.skipIf .e (Emit.op (.aluImm .sub false st 1))

/-- Apply an action to the eight-bit value in a register. -/
def updateStencil (env : Env) (action : StencilAction) (st : Reg) : Emit Unit :=
  match action with
  | .keep => pure ()
  | .zero => Emit.op (.alu .xor false st st)
  | .replace => replaceStencil env st
  | .invert => Emit.op (.aluImm .xor false st 0xFF)
  | .increment => incrementStencil env.features.format st
  | .decrement => decrementStencil env.features.format st

/-! ## Stencil bits alone -/

/-- The byte of a stored pixel that holds the stencil bits, and the color bits
that share it. -/
def stencilByte : PixelFormat → Nat × BitVec 8
  | .rgba5551 => (1, 0x7F)
  | .rgba4444 => (1, 0x0F)
  | .rgba8888 => (3, 0x00)
  | .rgb565 => (0, 0xFF)

/-- Store under the write mask: the color bits in the byte and the bits that
the register block protects stay. -/
def storeStencilMasked (env : Env) (addr st : Reg) (offset : Nat) (colorBits : BitVec 8) :
    Emit Unit := do
  let mask ← Emit.allocGen .gen5
  let state ← stateBase env
  Emit.op (.loadExt .zeroByte mask (atOffset state DrawState.alphaWriteMaskAt))
  Emit.unlock .stateBase
  if colorBits ≠ 0 then
    Emit.op (.aluImm .or false mask (colorBits.setWidth 32))
  Emit.op (.not false st)
  Emit.op (.alu .or false st mask)
  Emit.op (.not false st)
  Emit.op (.aluStore .and .byte (atOffset addr offset) mask)
  Emit.op (.aluStore .or .byte (atOffset addr offset) st)
  Emit.release .gen5

/-- Store without a mask, beside the color bits in the byte. -/
def storeStencilPlain (addr st : Reg) (offset : Nat) (colorBits : BitVec 8) : Emit Unit := do
  if colorBits ≠ 0 then
    Emit.op (.aluImm .and false st ((~~~colorBits).setWidth 32))
    Emit.op (.aluStoreImm .and .byte (atOffset addr offset) (colorBits.setWidth 32))
    Emit.op (.aluStore .or .byte (atOffset addr offset) st)
  else Emit.op (.store .byte st (atOffset addr offset))

/-- Store an eight-bit stencil value and leave the color bits alone.  The
register is not preserved. -/
def writeStencilOnly (env : Env) (st : Reg) : Emit Unit := do
  Emit.mark .writeStencil
  if env.features.format.hasStencil then
    let (offset, colorBits) := stencilByte env.features.format
    let addr ← colorAddr env
    if env.features.writeMasked then storeStencilMasked env addr st offset colorBits
    else storeStencilPlain addr st offset colorBits
    Emit.unlock .colorAddr

/-! ## The tests together -/

/-- Update the stored stencil and leave. -/
def failStencil (env : Env) (action : StencilAction) : Emit Unit :=
  Emit.diverging do
    if action ≠ .keep then
      let st ← Emit.findGen .stencil
      updateStencil env action st
      writeStencilOnly env st
    Emit.leave

/-- Compare the stored stencil, masked if need be, with the masked reference. -/
def compareStencil (env : Env) (st : Reg) : Emit Unit := do
  let reference := env.features.stencilRef.setWidth 32
  if env.features.stencilMasked then
    let m ← Emit.allocGen .gen0
    let state ← stateBase env
    Emit.op (.loadExt .zeroByte m (atOffset state DrawState.stencilMaskAt))
    Emit.unlock .stateBase
    Emit.op (.alu .and false m st)
    Emit.op (.aluImm .cmp false m reference)
    Emit.release .gen0
  else Emit.op (.aluImm .cmp false st reference)

/-- The stencil test on a stored value. -/
def stencilTest (env : Env) (st : Reg) : Emit Unit := do
  if env.features.stencilFunc = .never then failStencil env env.features.stencilFail
  else
    match mirroredPassCond env.features.stencilFunc with
    | none => pure ()
    | some pass =>
        compareStencil env st
        Emit.skipIf pass (failStencil env env.features.stencilFail)

/-- The depth test with a stencil update on failure. -/
def depthTestUpdating (env : Env) : Emit Unit := do
  Emit.mark .depthTest
  if env.features.depthFunc = .never then failStencil env env.features.depthFail
  else
    match ← compareDepth env with
    | none => pure ()
    | some pass => Emit.skipIf pass (failStencil env env.features.depthFail)
  dropDepthArg env

/-- The stencil test, the depth test, and the update of a pixel that passes
both.  A format without stencil bits is tested as if it stored zero. -/
def stencilAndDepthTest (env : Env) : Emit Unit := do
  Emit.mark .stencilTest
  match ← storedStencil env with
  | none =>
      if !env.features.stencilFunc.passes (env.features.stencilRef.setWidth 32) 0 then Emit.leave
      depthTest env
  | some st =>
      stencilTest env st
      depthTestUpdating env
      Emit.mark .stencilTest
      let st ← Emit.findGen .stencil
      updateStencil env env.features.depthPass st
      Emit.unlock .stencil
      -- the lock taken when the value was loaded
      Emit.unlock .stencil

end Compile

end PixelPipeline
