/-
# Conversion — format conversions on general registers

Each routine converts a color in place with the help of two scratch
registers.  Narrowing keeps the top bits of each channel, widening repeats
them in the low bits they vacate, exactly as `PixelFormat.narrow` and
`PixelFormat.widen` do.
-/
import PixelPipeline.PixelFormat
import PixelPipeline.X86.Instruction

namespace PixelPipeline

open X86

namespace Conversion

/-- `dst := (src >> count) & mask`. -/
def extract (dst src : Reg) (count : BitVec 8) (mask : BitVec 32) : List Instr :=
  [.mov false dst src] ++ (if count = 0 then [] else [.shift .shr false dst count]) ++
    [.aluImm .and false dst mask]

/-- `dst := (src & mask) << count`. -/
def place (dst src : Reg) (mask : BitVec 32) (count : BitVec 8) : List Instr :=
  [.mov false dst src, .aluImm .and false dst mask] ++
    (if count = 0 then [] else [.shift .shl false dst count])

/-- `dst := dst | src`. -/
def merge (dst src : Reg) : List Instr := [.alu .or false dst src]

/-! ## Narrowing -/

/-- There is no alpha to keep. -/
def narrow565 (color t₁ t₂ : Reg) : List Instr :=
  extract t₁ color 3 0x001F ++ extract t₂ color 5 0x07E0 ++ merge t₁ t₂ ++
    [.shift .shr false color 8, .aluImm .and false color 0xF800] ++ merge color t₁

/-- Without `keepAlpha` the alpha bit is left clear. -/
def narrow5551 (color t₁ t₂ : Reg) (keepAlpha : Bool) : List Instr :=
  extract t₁ color 3 0x001F ++ extract t₂ color 6 0x03E0 ++ merge t₁ t₂ ++
    (if keepAlpha then extract t₂ color 16 0x8000 ++ merge t₁ t₂ else []) ++
    [.shift .shr false color 9, .aluImm .and false color 0x7C00] ++ merge color t₁

/-- Without `keepAlpha` the alpha digit is left clear. -/
def narrow4444 (color t₁ t₂ : Reg) (keepAlpha : Bool) : List Instr :=
  extract t₁ color 4 0x000F ++ extract t₂ color 8 0x00F0 ++ merge t₁ t₂ ++
    (if keepAlpha then extract t₂ color 16 0xF000 ++ merge t₁ t₂ else []) ++
    [.shift .shr false color 12, .aluImm .and false color 0x0F00] ++ merge color t₁

/-- Narrow a canonical color to the stored bits of a format. -/
def narrow (f : PixelFormat) (color t₁ t₂ : Reg) (keepAlpha : Bool) : List Instr :=
  match f with
  | .rgb565 => narrow565 color t₁ t₂
  | .rgba5551 => narrow5551 color t₁ t₂ keepAlpha
  | .rgba4444 => narrow4444 color t₁ t₂ keepAlpha
  | .rgba8888 => []

/-! ## Widening

The channels are first moved to the tops of their bytes, then the vacated
low bits of all of them are filled by one shifted copy under a mask. -/

/-- Tops: red at 3 to 7, green at 10 to 15, blue at 19 to 23. -/
def widen565 (color t₁ t₂ : Reg) : List Instr :=
  place t₁ color 0x001F 3 ++ place t₂ color 0x07E0 5 ++ merge t₁ t₂ ++
    place t₂ color 0xF800 8 ++ merge t₁ t₂ ++
    [.mov false color t₁] ++ extract t₂ t₁ 5 0x00070007 ++ merge color t₂ ++
    extract t₂ t₁ 6 0x00000300 ++ merge color t₂

/-- Tops: red at 3 to 7, green at 11 to 15, blue at 19 to 23.  The alpha bit is
smeared across the top byte by an arithmetic shift. -/
def widen5551 (color t₁ t₂ : Reg) (keepAlpha : Bool) : List Instr :=
  place t₁ color 0x001F 3 ++ place t₂ color 0x03E0 6 ++ merge t₁ t₂ ++
    place t₂ color 0x7C00 9 ++ merge t₁ t₂ ++
    (if keepAlpha then
      [.aluImm .and false color 0x8000, .shift .shl false color 16, .shift .sar false color 7] ++
        merge color t₁
    else [.mov false color t₁]) ++
    extract t₂ t₁ 5 0x00070707 ++ merge color t₂

/-- Tops: red at 4 to 7, green at 12 to 15, blue at 20 to 23, alpha at 28 to 31. -/
def widen4444 (color t₁ t₂ : Reg) (keepAlpha : Bool) : List Instr :=
  place t₁ color 0x000F 4 ++ place t₂ color 0x00F0 8 ++ merge t₁ t₂ ++
    place t₂ color 0x0F00 12 ++ merge t₁ t₂ ++
    (if keepAlpha then place t₂ color 0xF000 16 ++ merge t₁ t₂ else []) ++
    [.mov false color t₁, .shift .shr false t₁ 4] ++ merge color t₁

/-- Widen the stored bits of a 16-bit pixel to a canonical color; 32-bit
pixels are left as they are. -/
def widen (f : PixelFormat) (color t₁ t₂ : Reg) (keepAlpha : Bool) : List Instr :=
  match f with
  | .rgb565 => widen565 color t₁ t₂
  | .rgba5551 => widen5551 color t₁ t₂ keepAlpha
  | .rgba4444 => widen4444 color t₁ t₂ keepAlpha
  | .rgba8888 => []

end Conversion

end PixelPipeline
