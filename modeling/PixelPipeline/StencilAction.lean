/-
# StencilAction — updates of a stored stencil value

A pixel that reaches the stencil test updates its stored stencil by one of
six actions.  Stepping moves by the smallest amount the format can store
and stops at the ends.
-/
import PixelPipeline.PixelFormat

namespace PixelPipeline

/-- Update of a stored stencil value. -/
inductive StencilAction where
  | keep | zero | replace | invert | increment | decrement
deriving DecidableEq

namespace StencilAction

/-- The three bits that stand for an action in a key. -/
def code : StencilAction → BitVec 3
  | keep => 0
  | zero => 1
  | replace => 2
  | invert => 3
  | increment => 4
  | decrement => 5

/-- The action three key bits stand for; the two unused codes keep the value. -/
def ofCode : BitVec 3 → StencilAction
  | 1 => zero
  | 2 => replace
  | 3 => invert
  | 4 => increment
  | 5 => decrement
  | _ => keep

theorem ofCode_code (a : StencilAction) : ofCode a.code = a := by
  cases a <;> rfl

/-- One step up, as far as the format can store it. -/
def stepUp (f : PixelFormat) (v : BitVec 8) : BitVec 8 :=
  match f with
  | .rgb565 => v
  | .rgba5551 => 0xFF
  | .rgba4444 => if v.ult 0xF0 then v + 0x11 else v
  | .rgba8888 => if v = 0xFF then v else v + 1

/-- One step down, as far as the format can store it. -/
def stepDown (f : PixelFormat) (v : BitVec 8) : BitVec 8 :=
  match f with
  | .rgb565 => v
  | .rgba5551 => 0
  | .rgba4444 => if v.ult 0x11 then v else v - 0x11
  | .rgba8888 => if v = 0 then v else v - 1

/-- The new value, from the stored one and the unmasked reference. -/
def apply (a : StencilAction) (f : PixelFormat) (v reference : BitVec 8) : BitVec 8 :=
  match a with
  | keep => v
  | zero => 0
  | replace => reference
  | invert => ~~~v
  | increment => stepUp f v
  | decrement => stepDown f v

/-- One-letter form used in key descriptions. -/
def tag : StencilAction → String
  | keep => "K"
  | zero => "0"
  | replace => "R"
  | invert => "I"
  | increment => "+"
  | decrement => "-"

end StencilAction

instance : Named StencilAction where
  members := [.keep, .zero, .replace, .invert, .increment, .decrement]
  spelling
    | .keep => "Keep"
    | .zero => "Zero"
    | .replace => "Replace"
    | .invert => "Invert"
    | .increment => "Incr"
    | .decrement => "Decr"
  mem_members := by intro a; cases a <;> simp

end PixelPipeline
