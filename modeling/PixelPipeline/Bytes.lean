/-
# Bytes — words as little-endian byte lists

Machine words are laid out lowest byte first.  `word16_le16`, `word32_le32`
and `word64_le64` say that a word is read back from its bytes.
-/

namespace PixelPipeline

/-- An octet of memory or code. -/
abbrev Byte := BitVec 8

/-- The two bytes of a 16-bit word. -/
def le16 (v : BitVec 16) : List Byte := [v.extractLsb' 0 8, v.extractLsb' 8 8]

/-- The four bytes of a 32-bit word. -/
def le32 (v : BitVec 32) : List Byte :=
  [v.extractLsb' 0 8, v.extractLsb' 8 8, v.extractLsb' 16 8, v.extractLsb' 24 8]

/-- The eight bytes of a 64-bit word. -/
def le64 (v : BitVec 64) : List Byte :=
  [v.extractLsb' 0 8, v.extractLsb' 8 8, v.extractLsb' 16 8, v.extractLsb' 24 8,
   v.extractLsb' 32 8, v.extractLsb' 40 8, v.extractLsb' 48 8, v.extractLsb' 56 8]

/-- The 16-bit word of two bytes, lowest first. -/
def word16 (b₀ b₁ : Byte) : BitVec 16 := b₁ ++ b₀

/-- The 32-bit word of four bytes, lowest first. -/
def word32 (b₀ b₁ b₂ b₃ : Byte) : BitVec 32 := b₃ ++ b₂ ++ b₁ ++ b₀

/-- The 64-bit word of eight bytes, lowest first. -/
def word64 (b₀ b₁ b₂ b₃ b₄ b₅ b₆ b₇ : Byte) : BitVec 64 :=
  b₇ ++ b₆ ++ b₅ ++ b₄ ++ b₃ ++ b₂ ++ b₁ ++ b₀

theorem word16_le16 (v : BitVec 16) : word16 (v.extractLsb' 0 8) (v.extractLsb' 8 8) = v := by
  apply BitVec.eq_of_getLsbD_eq
  intro i hi
  simp only [word16, BitVec.getLsbD_append, BitVec.getLsbD_extractLsb']
  grind

theorem word32_le32 (v : BitVec 32) :
    word32 (v.extractLsb' 0 8) (v.extractLsb' 8 8) (v.extractLsb' 16 8)
      (v.extractLsb' 24 8) = v := by
  apply BitVec.eq_of_getLsbD_eq
  intro i hi
  simp only [word32, BitVec.getLsbD_append, BitVec.getLsbD_extractLsb']
  grind

theorem word64_le64 (v : BitVec 64) :
    word64 (v.extractLsb' 0 8) (v.extractLsb' 8 8) (v.extractLsb' 16 8) (v.extractLsb' 24 8)
      (v.extractLsb' 32 8) (v.extractLsb' 40 8) (v.extractLsb' 48 8) (v.extractLsb' 56 8) = v := by
  apply BitVec.eq_of_getLsbD_eq
  intro i hi
  simp only [word64, BitVec.getLsbD_append, BitVec.getLsbD_extractLsb']
  grind

end PixelPipeline
