/-
# PixelFormat — how a pixel is stored

Three formats pack a pixel into 16 bits and one into 32.  The alpha bits of
a stored pixel double as its stencil value; 565 has none.
-/
import PixelPipeline.Named

namespace PixelPipeline

/-- Layout of one pixel of the color buffer, red in the lowest bits. -/
inductive PixelFormat where
  | rgb565 | rgba5551 | rgba4444 | rgba8888
deriving DecidableEq

namespace PixelFormat

/-- The two bits that stand for a format in a key. -/
def code : PixelFormat → BitVec 2
  | rgb565 => 0
  | rgba5551 => 1
  | rgba4444 => 2
  | rgba8888 => 3

/-- The format two key bits stand for. -/
def ofCode : BitVec 2 → PixelFormat
  | 0 => rgb565
  | 1 => rgba5551
  | 2 => rgba4444
  | _ => rgba8888

theorem ofCode_code (f : PixelFormat) : ofCode f.code = f := by
  cases f <;> rfl

/-- Size of a stored pixel in bytes. -/
def bytesPerPixel : PixelFormat → Nat
  | rgba8888 => 4
  | _ => 2

/-- Bits of a stored pixel that hold alpha, and so the stencil value. -/
def stencilBits : PixelFormat → BitVec 32
  | rgb565 => 0
  | rgba5551 => 0x8000
  | rgba4444 => 0xF000
  | rgba8888 => 0xFF000000

/-- All bits of a stored pixel. -/
def pixelBits : PixelFormat → BitVec 32
  | rgba8888 => 0xFFFFFFFF
  | _ => 0xFFFF

/-- Whether a stored pixel has any stencil bits. -/
def hasStencil : PixelFormat → Bool
  | rgb565 => false
  | _ => true

/-- Digits used for the format in key descriptions. -/
def tag : PixelFormat → String
  | rgb565 => "565"
  | rgba5551 => "5551"
  | rgba4444 => "4444"
  | rgba8888 => "8888"

theorem hasStencil_iff (f : PixelFormat) : f.hasStencil = true ↔ f.stencilBits ≠ 0 := by
  cases f <;> simp [hasStencil, stencilBits]

end PixelFormat

instance : Named PixelFormat where
  members := [.rgb565, .rgba5551, .rgba4444, .rgba8888]
  spelling
    | .rgb565 => "Rgb565"
    | .rgba5551 => "Rgba5551"
    | .rgba4444 => "Rgba4444"
    | .rgba8888 => "Rgba8888"
  mem_members := by intro a; cases a <;> simp

end PixelPipeline
