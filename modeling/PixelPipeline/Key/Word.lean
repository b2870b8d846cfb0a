/-
# Key.Word — features packed into one machine word

Features fit into 60 bits, each at a fixed place, so that a key can be
compared and looked up as one word.  `unpack_pack` says that no two of them
get in each other's way, hence `pack_inj`: words are equal exactly when features
are.
-/
import PixelPipeline.Key.Features

namespace PixelPipeline

namespace KeyWord

/-! ## Places of the fields -/

def clearModeAt : Nat := 0
def colorFlagAt : Nat := 1
def stencilFlagAt : Nat := 2
def depthFlagAt : Nat := 3
def depthRangeAt : Nat := 4
def alphaFuncAt : Nat := 5
def depthFuncAt : Nat := 8
def stencilFuncAt : Nat := 11
def formatAt : Nat := 14
def alphaRefAt : Nat := 16
def stencilRefAt : Nat := 24
def blendAt : Nat := 32
def blendEquationAt : Nat := 33
def blendSrcAt : Nat := 36
def blendDstAt : Nat := 40
def alphaMaskedAt : Nat := 44
def stencilMaskedAt : Nat := 45
def ditherAt : Nat := 46
def rasterOpAt : Nat := 47
def fogAt : Nat := 48
def standardStrideAt : Nat := 49
def writeMaskedAt : Nat := 50
def stencilFailAt : Nat := 51
def depthFailAt : Nat := 54
def depthPassAt : Nat := 57

/-- The places of all fields end here. -/
def width : Nat := 60

/-! ## Fields of a word -/

variable {n : Nat}

/-- The word with a field replaced. -/
def put (w : BitVec 64) (shift : Nat) (v : BitVec n) : BitVec 64 :=
  let mask := (BitVec.allOnes n).setWidth 64 <<< shift
  (w &&& ~~~mask) ||| ((v.setWidth 64 <<< shift) &&& mask)

/-- The word with a field of one bit replaced. -/
def putFlag (w : BitVec 64) (shift : Nat) (on : Bool) : BitVec 64 := put w shift (BitVec.ofBool on)

theorem getLsbD_put {w : BitVec 64} {shift : Nat} {v : BitVec n} (h : shift + n ≤ 64) (i : Nat) :
    (put w shift v).getLsbD i =
      if shift ≤ i ∧ i < shift + n then v.getLsbD (i - shift) else w.getLsbD i := by
  rw [put]
  simp only [BitVec.getLsbD_or, BitVec.getLsbD_and, BitVec.getLsbD_not, BitVec.getLsbD_shiftLeft,
    BitVec.getLsbD_setWidth, BitVec.getLsbD_allOnes]
  by_cases hi : i < 64
  · by_cases hle : shift ≤ i
    · by_cases hlt : i < shift + n
      · simp [hi, show i - shift < n by omega, show i - shift < 64 by omega, hle, hlt,
          Nat.not_lt.mpr hle]
      · simp [hi, show ¬i - shift < n by omega, hlt]
    · simp [hi, hle, Nat.not_le.mp hle]
  · rw [if_neg (by omega), BitVec.getLsbD_of_ge w i (Nat.not_lt.mp hi)]
    simp [hi]

/-- A field is read back. -/
theorem extractLsb'_put {w : BitVec 64} {shift : Nat} {v : BitVec n} (h : shift + n ≤ 64) :
    (put w shift v).extractLsb' shift n = v := by
  apply BitVec.eq_of_getLsbD_eq
  intro i hi
  rw [BitVec.getLsbD_extractLsb', getLsbD_put h, if_pos (by omega), Nat.add_sub_cancel_left,
    decide_eq_true hi, Bool.true_and]

/-- Fields beside it stay as they are. -/
theorem extractLsb'_put_of_disjoint {w : BitVec 64} {shift start len : Nat} {v : BitVec n}
    (h : shift + n ≤ 64) (hd : shift + n ≤ start ∨ start + len ≤ shift) :
    (put w shift v).extractLsb' start len = w.extractLsb' start len := by
  apply BitVec.eq_of_getLsbD_eq
  intro i hi
  rw [BitVec.getLsbD_extractLsb', BitVec.getLsbD_extractLsb', getLsbD_put h, if_neg (by omega)]

/-- So is a flag. -/
theorem getLsbD_put_ofBool {w : BitVec 64} {shift : Nat} {on : Bool} (h : shift + 1 ≤ 64) :
    (put w shift (BitVec.ofBool on)).getLsbD shift = on := by
  rw [getLsbD_put h, if_pos (by omega), Nat.sub_self]
  cases on <;> rfl

theorem getLsbD_put_of_disjoint {w : BitVec 64} {shift i : Nat} {v : BitVec n}
    (h : shift + n ≤ 64) (hd : shift + n ≤ i ∨ i < shift) :
    (put w shift v).getLsbD i = w.getLsbD i := by
  rw [getLsbD_put h, if_neg (by omega)]

end KeyWord

namespace Features

open KeyWord

/-- The packed word. -/
def pack (f : Features) : BitVec 64 :=
  let w := put 0 formatAt f.format.code
  let w := putFlag w clearModeAt f.clearMode
  let w := putFlag w colorFlagAt f.colorFlag
  let w := putFlag w stencilFlagAt f.stencilFlag
  let w := putFlag w depthFlagAt f.depthFlag
  let w := put w alphaFuncAt f.alphaFunc.code
  let w := put w alphaRefAt f.alphaRef
  let w := putFlag w alphaMaskedAt f.alphaMasked
  let w := put w depthFuncAt f.depthFunc.code
  let w := put w stencilFuncAt f.stencilFunc.code
  let w := put w stencilRefAt f.stencilRef
  let w := putFlag w stencilMaskedAt f.stencilMasked
  let w := put w stencilFailAt f.stencilFail.code
  let w := put w depthFailAt f.depthFail.code
  let w := put w depthPassAt f.depthPass.code
  let w := putFlag w fogAt f.fog
  let w := putFlag w ditherAt f.dither
  let w := putFlag w rasterOpAt f.rasterOp
  let w := putFlag w blendAt f.blend
  let w := put w blendEquationAt f.blendEquation.code
  let w := put w blendSrcAt f.blendSrc.code
  let w := put w blendDstAt f.blendDst.code
  let w := putFlag w depthRangeAt f.depthRange
  let w := putFlag w standardStrideAt f.standardStride
  putFlag w writeMaskedAt f.writeMasked

/-- The features a packed word stands for. -/
def unpack (w : BitVec 64) : Features where
  clearMode := w.getLsbD clearModeAt
  colorFlag := w.getLsbD colorFlagAt
  stencilFlag := w.getLsbD stencilFlagAt
  depthFlag := w.getLsbD depthFlagAt
  depthRange := w.getLsbD depthRangeAt
  alphaFunc := .ofCode (w.extractLsb' alphaFuncAt 3)
  depthFunc := .ofCode (w.extractLsb' depthFuncAt 3)
  stencilFunc := .ofCode (w.extractLsb' stencilFuncAt 3)
  format := .ofCode (w.extractLsb' formatAt 2)
  alphaRef := w.extractLsb' alphaRefAt 8
  stencilRef := w.extractLsb' stencilRefAt 8
  blend := w.getLsbD blendAt
  blendEquation := .ofCode (w.extractLsb' blendEquationAt 3)
  blendSrc := .ofCode (w.extractLsb' blendSrcAt 4)
  blendDst := .ofCode (w.extractLsb' blendDstAt 4)
  alphaMasked := w.getLsbD alphaMaskedAt
  stencilMasked := w.getLsbD stencilMaskedAt
  dither := w.getLsbD ditherAt
  rasterOp := w.getLsbD rasterOpAt
  fog := w.getLsbD fogAt
  standardStride := w.getLsbD standardStrideAt
  writeMasked := w.getLsbD writeMaskedAt
  stencilFail := .ofCode (w.extractLsb' stencilFailAt 3)
  depthFail := .ofCode (w.extractLsb' depthFailAt 3)
  depthPass := .ofCode (w.extractLsb' depthPassAt 3)

theorem unpack_pack (f : Features) : unpack f.pack = f := by
  simp (disch := decide) only [unpack, pack, putFlag, getLsbD_put_ofBool, extractLsb'_put,
    extractLsb'_put_of_disjoint, getLsbD_put_of_disjoint, Comparison.ofCode_code,
    PixelFormat.ofCode_code, BlendEquation.ofCode_code, BlendFactor.ofCode_code,
    StencilAction.ofCode_code]

/-- Words are equal exactly when features are. -/
theorem pack_inj {f g : Features} : f.pack = g.pack ↔ f = g :=
  ⟨fun h => by rw [← unpack_pack f, h, unpack_pack], fun h => h ▸ rfl⟩

/-- The bits behind the fields are zero. -/
theorem getLsbD_pack (f : Features) {i : Nat} (h : width ≤ i) : f.pack.getLsbD i = false := by
  have hbeyond {w : BitVec 64} {shift n : Nat} {v : BitVec n} (hle : shift + n ≤ width) :
      (put w shift v).getLsbD i = w.getLsbD i :=
    getLsbD_put_of_disjoint (Nat.le_trans hle (by decide)) (.inl (Nat.le_trans hle h))
  simp (disch := decide) only [pack, putFlag, hbeyond]
  exact BitVec.getLsbD_zero

end Features

end PixelPipeline
