/-
# Allocation.Role — what a register holds

Code is generated in terms of what a value is for.  Each role lives in one
of the two register files.
-/
import PixelPipeline.Named

namespace PixelPipeline

/-- Register file a role lives in. -/
inductive RegFile where
  | general | vector
deriving DecidableEq

/-- Meaning of a value held in a register. -/
inductive Role where
  | argX | argY | argZ | argFog | argColor | argKey
  /-- Address of the register block. -/
  | stateBase
  /-- Address of the vector constants. -/
  | poolBase
  /-- Address of the pixel in the color buffer. -/
  | colorAddr
  /-- Address of the pixel in the depth buffer. -/
  | depthAddr
  /-- Stencil value carried from the tests to the write. -/
  | stencil
  /-- Source alpha, kept while the color changes. -/
  | srcAlpha
  | gen0 | gen1 | gen2 | gen3 | gen4 | gen5
  | helper
  /-- The working color. -/
  | vecColor
  /-- A vector of zeros. -/
  | vecZero
  | vec0 | vec1 | vec2 | vec3
deriving DecidableEq

namespace Role

/-- The roles of the six arguments, in calling order. -/
def arguments : List Role := [argX, argY, argZ, argFog, argColor, argKey]

/-- The register file a role lives in. -/
def file : Role → RegFile
  | vecColor | vecZero | vec0 | vec1 | vec2 | vec3 => .vector
  | _ => .general

/-- The value can be made again anywhere by one instruction, so that nothing
is lost when its register is taken away. -/
def isReconstructible : Role → Bool
  | stateBase | poolBase | vecZero => true
  | _ => false

end Role

instance : Named RegFile where
  members := [.general, .vector]
  spelling
    | .general => "Gen"
    | .vector => "Vec"
  mem_members := by intro a; cases a <;> simp

instance : Named Role where
  members :=
    [.argX, .argY, .argZ, .argFog, .argColor, .argKey, .stateBase, .poolBase, .colorAddr,
     .depthAddr, .stencil, .srcAlpha, .gen0, .gen1, .gen2, .gen3, .gen4, .gen5, .helper,
     .vecColor, .vecZero, .vec0, .vec1, .vec2, .vec3]
  spelling
    | .argX => "ArgX"
    | .argY => "ArgY"
    | .argZ => "ArgZ"
    | .argFog => "ArgFog"
    | .argColor => "ArgColor"
    | .argKey => "ArgKey"
    | .stateBase => "GState"
    | .poolBase => "ConstBase"
    | .colorAddr => "ColorOff"
    | .depthAddr => "DepthOff"
    | .stencil => "Stencil"
    | .srcAlpha => "SrcAlpha"
    | .gen0 => "GenTemp0"
    | .gen1 => "GenTemp1"
    | .gen2 => "GenTemp2"
    | .gen3 => "GenTemp3"
    | .gen4 => "GenTemp4"
    | .gen5 => "GenTemp5"
    | .helper => "TempHelper"
    | .vecColor => "VecArgColor"
    | .vecZero => "VecZero"
    | .vec0 => "VecTemp0"
    | .vec1 => "VecTemp1"
    | .vec2 => "VecTemp2"
    | .vec3 => "VecTemp3"
  mem_members := by intro a; cases a <;> simp

end PixelPipeline
