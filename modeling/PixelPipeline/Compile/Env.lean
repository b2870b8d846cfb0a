/-
# Compile.Env — what all stages share

Features of the pipeline, the addresses baked into the code, and the few
values that any stage may need in a register: the address of the register
block, the address of the vector constants, a vector of zeros.
-/
import PixelPipeline.BlendPlan
import PixelPipeline.Compile.Emit
import PixelPipeline.VectorPool

namespace PixelPipeline

open X86

/-- Where the data that code reads lies in memory. -/
structure DataAddresses where
  state : BitVec 64
  pool : BitVec 64

namespace Compile

/-- What the stages of one compilation share. -/
structure Env where
  features : Features
  addresses : DataAddresses

/-- An operand at an offset from a register. -/
def atOffset (base : Reg) (offset : Nat) : MemOperand := .based base (BitVec.ofNat 32 offset)

/-- Register with the address of the register block, made if it is not there. -/
def stateBase (env : Env) : Emit Reg := do
  if ← Emit.has .stateBase then Emit.findGen .stateBase
  else
    let r ← Emit.allocGen .stateBase
    Emit.op (.movConst true r env.addresses.state)
    pure r

/-- Register with the address of the vector constants, made if it is not there. -/
def poolBase (env : Env) : Emit Reg := do
  if ← Emit.has .poolBase then Emit.findGen .poolBase
  else
    let r ← Emit.allocGen .poolBase
    Emit.op (.movConst true r env.addresses.pool)
    pure r

/-- Vector register of zeros, made if it is not there. -/
def zeroVec : Emit Xmm := do
  if ← Emit.has .vecZero then Emit.findVec .vecZero
  else
    let r ← Emit.allocVec .vecZero
    Emit.op (.packed .pxor r r)
    pure r

/-- Load a vector constant into a new register. -/
def loadConst (env : Env) (role : Role) (offset : Nat) : Emit Xmm := do
  let r ← Emit.allocVec role
  let pool ← poolBase env
  Emit.op (.packedLoad .movdqa r (atOffset pool offset))
  Emit.unlock .poolBase
  pure r

/-- Bytes of a vector widened to words by interleaving zeros. -/
def widenBytes (x : Xmm) : Emit Unit := do
  let zero ← zeroVec
  Emit.op (.packed .punpcklbw x zero)
  Emit.unlock .vecZero

/-- Widen the working color to 16-bit lanes. -/
def expandColor (color : Xmm) : Emit Unit := do
  if !(← Emit.isWide) then
    widenBytes color
    Emit.setWide true

/-- Narrow the working color back to packed bytes, saturating. -/
def packColor (color : Xmm) : Emit Unit := do
  if ← Emit.isWide then
    Emit.op (.packed .packuswb color color)
    Emit.setWide false

/-- Condition under which `value OP reference` holds after `cmp value,
reference`; none if nothing is compared. -/
def passCond : Comparison → Option Cond
  | .never | .always => none
  | .equal => some .e
  | .notEqual => some .ne
  | .less => some .b
  | .lessEqual => some .be
  | .greater => some .a
  | .greaterEqual => some .ae

/-- Condition under which `reference OP value` holds after `cmp value,
reference`; none if nothing is compared. -/
def mirroredPassCond : Comparison → Option Cond
  | .never | .always => none
  | .equal => some .e
  | .notEqual => some .ne
  | .less => some .a
  | .lessEqual => some .ae
  | .greater => some .b
  | .greaterEqual => some .be

end Compile

end PixelPipeline
