/-
# Color — canonical colors and stored pixels

A canonical color has red in bits 0 to 7, then green, blue and alpha.
Narrowing to a stored pixel keeps the top bits of each channel; widening
copies the top bits of a channel into the low bits it vacates.
-/
import PixelPipeline.PixelFormat

namespace PixelPipeline

/-- A five-bit channel value as eight bits, its top bits repeated below. -/
def widen5 (v : BitVec 32) : BitVec 32 := (v <<< 3) ||| (v >>> 2)

/-- A six-bit channel value as eight bits, its top bits repeated below. -/
def widen6 (v : BitVec 32) : BitVec 32 := (v <<< 2) ||| (v >>> 4)

/-- A four-bit channel value as eight bits, its digit repeated. -/
def widen4 (v : BitVec 32) : BitVec 32 := (v <<< 4) ||| v

namespace PixelFormat

/-- The bits stored for a canonical color. -/
def narrow (f : PixelFormat) (c : BitVec 32) : BitVec 32 :=
  match f with
  | rgb565 => ((c >>> 3) &&& 0x001F) ||| ((c >>> 5) &&& 0x07E0) ||| ((c >>> 8) &&& 0xF800)
  | rgba5551 =>
      ((c >>> 3) &&& 0x001F) ||| ((c >>> 6) &&& 0x03E0) ||| ((c >>> 9) &&& 0x7C00) |||
        ((c >>> 16) &&& 0x8000)
  | rgba4444 =>
      ((c >>> 4) &&& 0x000F) ||| ((c >>> 8) &&& 0x00F0) ||| ((c >>> 12) &&& 0x0F00) |||
        ((c >>> 16) &&& 0xF000)
  | rgba8888 => c

/-- The alpha byte of a widened pixel, shifted into place. -/
def widenAlpha (f : PixelFormat) (p : BitVec 32) : BitVec 32 :=
  match f with
  | rgb565 => 0
  | rgba5551 => if p &&& 0x8000 ≠ 0 then 0xFF000000 else 0
  | rgba4444 => widen4 ((p >>> 12) &&& 0xF) <<< 24
  | rgba8888 => p &&& 0xFF000000

/-- The color bytes of a widened pixel. -/
def widenRGB (f : PixelFormat) (p : BitVec 32) : BitVec 32 :=
  match f with
  | rgb565 =>
      widen5 (p &&& 0x1F) ||| (widen6 ((p >>> 5) &&& 0x3F) <<< 8) |||
        (widen5 ((p >>> 11) &&& 0x1F) <<< 16)
  | rgba5551 =>
      widen5 (p &&& 0x1F) ||| (widen5 ((p >>> 5) &&& 0x1F) <<< 8) |||
        (widen5 ((p >>> 10) &&& 0x1F) <<< 16)
  | rgba4444 =>
      widen4 (p &&& 0xF) ||| (widen4 ((p >>> 4) &&& 0xF) <<< 8) |||
        (widen4 ((p >>> 8) &&& 0xF) <<< 16)
  | rgba8888 => p &&& 0x00FFFFFF

/-- The canonical color of a stored pixel, with alpha zero unless it is kept. -/
def widen (f : PixelFormat) (p : BitVec 32) (keepAlpha : Bool) : BitVec 32 :=
  if keepAlpha then f.widenRGB p ||| f.widenAlpha p else f.widenRGB p

/-- The eight-bit stencil value in a stored pixel's alpha bits. -/
def stencilOf (f : PixelFormat) (p : BitVec 32) : BitVec 8 :=
  match f with
  | rgb565 => 0
  | rgba5551 => if p &&& 0x8000 ≠ 0 then 0xFF else 0
  | rgba4444 => (widen4 ((p >>> 12) &&& 0xF)).setWidth 8
  | rgba8888 => (p >>> 24).setWidth 8

/-- An eight-bit stencil value placed into a stored pixel's alpha bits. -/
def stencilBitsFor (f : PixelFormat) (stencil : BitVec 8) : BitVec 32 :=
  let s := stencil.setWidth 32
  match f with
  | rgb565 => 0
  | rgba5551 => (s >>> 7) <<< 15
  | rgba4444 => (s >>> 4) <<< 12
  | rgba8888 => s <<< 24

end PixelFormat

/-- An integer clamped to a byte. -/
def clampByte (v : Int) : BitVec 32 := BitVec.ofInt 32 (max 0 (min v 255))

/-- The canonical color of four integer lanes, each clamped to a byte. -/
def packColor (r g b a : Int) : BitVec 32 :=
  clampByte r ||| (clampByte g <<< 8) ||| (clampByte b <<< 16) ||| (clampByte a <<< 24)

end PixelPipeline
