/-
# Proofs.Reference — what a pixel function is meant to do

A pixel function is called with the arguments of a fragment, and reads the
register block, the constants of its key, and the stored pixel and depth
(`Fragment`).  `Features.outcome` says what is stored afterwards, test by test
and stage by stage, without registers, lanes or machine words: colors are
integers, four to a pixel.

The block is taken as the bytes in memory say it (`RegisterBlock.read`).  Bytes
that stand for no color test or raster operation have a meaning too, the one
that the dispatch on them gives.
-/
import PixelPipeline.BlendPlan
import PixelPipeline.Key
import PixelPipeline.Proofs.Memory

namespace PixelPipeline

open X86

/-! ## The register block -/

/-- The fields of a register block, as bytes say them. -/
structure RegisterBlock where
  fbBase : Address
  depthBase : Address
  fbStride : BitVec 16
  depthStride : BitVec 16
  minZ : BitVec 16
  maxZ : BitVec 16
  fogColor : BitVec 32
  blendFixA : BitVec 32
  blendFixB : BitVec 32
  colorTestRef : BitVec 32
  colorTestMask : BitVec 32
  colorTest : BitVec 8
  alphaTestMask : BitVec 8
  stencilRef : BitVec 8
  stencilMask : BitVec 8
  alphaWriteMask : BitVec 8
  rasterOp : BitVec 8

namespace RegisterBlock

/-- The register block that lies at an address. -/
def read (m : Memory) (a : Address) : RegisterBlock where
  fbBase := m.read64 (a + BitVec.ofNat 64 DrawState.fbBaseAt)
  depthBase := m.read64 (a + BitVec.ofNat 64 DrawState.depthBaseAt)
  fbStride := m.read16 (a + BitVec.ofNat 64 DrawState.fbStrideAt)
  depthStride := m.read16 (a + BitVec.ofNat 64 DrawState.depthStrideAt)
  minZ := m.read16 (a + BitVec.ofNat 64 DrawState.minZAt)
  maxZ := m.read16 (a + BitVec.ofNat 64 DrawState.maxZAt)
  fogColor := m.read32 (a + BitVec.ofNat 64 DrawState.fogColorAt)
  blendFixA := m.read32 (a + BitVec.ofNat 64 DrawState.blendFixAAt)
  blendFixB := m.read32 (a + BitVec.ofNat 64 DrawState.blendFixBAt)
  colorTestRef := m.read32 (a + BitVec.ofNat 64 DrawState.colorTestRefAt)
  colorTestMask := m.read32 (a + BitVec.ofNat 64 DrawState.colorTestMaskAt)
  colorTest := m.read (a + BitVec.ofNat 64 DrawState.colorTestAt)
  alphaTestMask := m.read (a + BitVec.ofNat 64 DrawState.alphaTestMaskAt)
  stencilRef := m.read (a + BitVec.ofNat 64 DrawState.stencilRefAt)
  stencilMask := m.read (a + BitVec.ofNat 64 DrawState.stencilMaskAt)
  alphaWriteMask := m.read (a + BitVec.ofNat 64 DrawState.alphaWriteMaskAt)
  rasterOp := m.read (a + BitVec.ofNat 64 DrawState.rasterOpAt)

/-- The block of given registers and buffers. -/
def ofState (s : DrawState) (fbBase depthBase : Address) : RegisterBlock where
  fbBase := fbBase
  depthBase := depthBase
  fbStride := s.fbStride
  depthStride := s.depthStride
  minZ := s.minZ
  maxZ := s.maxZ
  fogColor := s.fogColor
  blendFixA := s.blendFixA
  blendFixB := s.blendFixB
  colorTestRef := s.colorTestRef
  colorTestMask := s.colorTestMask
  colorTest := s.colorTest.code
  alphaTestMask := s.alphaTestMask
  stencilRef := s.stencilRef
  stencilMask := s.stencilMask
  alphaWriteMask := s.alphaWriteMask
  rasterOp := s.rasterOp.code.setWidth 8

/-- The fields of the block, and what follows them. -/
theorem bytes_eq (s : DrawState) (fbBase depthBase : Address) :
    s.bytes fbBase depthBase =
      le64 fbBase ++ (le64 depthBase ++ (le16 s.fbStride ++ (le16 s.depthStride ++
        (le16 s.minZ ++ (le16 s.maxZ ++ (le32 s.fogColor ++ (le32 s.blendFixA ++
          (le32 s.blendFixB ++ (le32 s.colorTestRef ++ (le32 s.colorTestMask ++
            (le32 s.colorWriteMask ++ ([s.colorTest.code, s.alphaTestMask, s.stencilRef,
              s.stencilMask, s.alphaWriteMask, s.rasterOp.code.setWidth 8] ++
                s.dither.toList)))))))))))) := by
  simp only [DrawState.bytes, List.append_assoc]

/-- Registers are read back from their block. -/
theorem read_of_holds {m : Memory} {a : Address} {s : DrawState} {fbBase depthBase : Address}
    (h : m.Holds a (s.bytes fbBase depthBase)) : read m a = ofState s fbBase depthBase := by
  rw [bytes_eq] at h
  have next {n : Nat} {bs cs : List Byte} (h : m.Holds (a + BitVec.ofNat 64 n) (bs ++ cs)) :
      m.Holds (a + BitVec.ofNat 64 (n + bs.length)) cs := by
    have := h.right
    rwa [BitVec.add_assoc, ← BitVec.ofNat_add] at this
  have h₀ := (show a + BitVec.ofNat 64 0 = a from BitVec.add_zero a).symm ▸ h
  have h₁ := next h₀
  have h₂ := next h₁
  have h₃ := next h₂
  have h₄ := next h₃
  have h₅ := next h₄
  have h₆ := next h₅
  have h₇ := next h₆
  have h₈ := next h₇
  have h₉ := next h₈
  have h₁₀ := next h₉
  have bytes := (next (next h₁₀)).left
  have byte (i : Nat) (b : Byte) (hb : [s.colorTest.code, s.alphaTestMask, s.stencilRef,
      s.stencilMask, s.alphaWriteMask, s.rasterOp.code.setWidth 8][i]? = some b) :
      m.read (a + BitVec.ofNat 64 (DrawState.colorTestAt + i)) = b := by
    have := bytes i b hb
    rwa [BitVec.add_assoc, ← BitVec.ofNat_add] at this
  simp only [read, ofState, mk.injEq]
  exact ⟨h₀.left.read64, h₁.left.read64, h₂.left.read16, h₃.left.read16, h₄.left.read16,
    h₅.left.read16, h₆.left.read32, h₇.left.read32, h₈.left.read32, h₉.left.read32,
    h₁₀.left.read32, byte 0 _ rfl, byte 1 _ rfl, byte 2 _ rfl, byte 3 _ rfl, byte 4 _ rfl,
    byte 5 _ rfl⟩

end RegisterBlock

/-! ## Where a pixel lies -/

/-- The index of a pixel under a stride; it wraps at 32 bits. -/
def pixelIndex (stride : BitVec 16) (x y : BitVec 32) : BitVec 32 := y * stride.setWidth 32 + x

/-- The address of the element with an index in a buffer. -/
def elementAddress (base : Address) (size : Nat) (index : BitVec 32) : Address :=
  base + BitVec.ofNat 64 (size * index.toNat)

/-- The address is one of `size` bytes from `start` on. -/
def InCell (start : Address) (size : Nat) (a : Address) : Prop :=
  ∃ i, i < size ∧ a = start + BitVec.ofNat 64 i

namespace Features

/-- The stride that a function uses: the one it was compiled for, or the one in
the block. -/
def strideOf (f : Features) (stride : BitVec 16) : BitVec 16 :=
  if f.standardStride && !f.dither then PixelPipeline.standardStride else stride

/-- The address of the pixel in the color buffer. -/
def pixelAddress (f : Features) (block : RegisterBlock) (x y : BitVec 32) : Address :=
  elementAddress block.fbBase f.format.bytesPerPixel
    (pixelIndex (f.strideOf block.fbStride) x y)

/-- The address of the pixel in the depth buffer. -/
def depthAddress (f : Features) (block : RegisterBlock) (x y : BitVec 32) : Address :=
  elementAddress block.depthBase 2 (pixelIndex (f.strideOf block.depthStride) x y)

end Features

/-! ## Colors as integers -/

/-- The lane of alpha. -/
abbrev alphaLane : Fin 4 := 3

/-- Red, green, blue and alpha of a canonical color. -/
def channels (c : BitVec 32) (i : Fin 4) : Nat := (c.extractLsb' (8 * i) 8).toNat

theorem channels_lt (c : BitVec 32) (i : Fin 4) : channels c i < 256 := (c.extractLsb' _ 8).isLt

/-- A canonical color from integers for its lanes, each cut to a byte. -/
def packLanes (lane : Fin 4 → Int) : BitVec 32 := packColor (lane 0) (lane 1) (lane 2) (lane 3)

/-- A lane mixed with the fog: all of it at 255, nothing of it at zero. -/
def fogLane (c fogColor fog : Nat) : Nat := (c * fog + fogColor * (255 - fog)) / 255

/-- The two products of a mix are no more than one of them could be. -/
theorem fogSum_le {c fogColor fog : Nat} (hc : c < 256) (hf : fogColor < 256) (hw : fog < 256) :
    c * fog + fogColor * (255 - fog) ≤ 255 * 255 := by
  calc c * fog + fogColor * (255 - fog)
    _ ≤ 255 * fog + 255 * (255 - fog) :=
      Nat.add_le_add (Nat.mul_le_mul_right _ (by omega)) (Nat.mul_le_mul_right _ (by omega))
    _ ≤ 255 * 255 := by omega

namespace BlendFactor

/-- The value a factor is made of, given the lane of the other color and of the
fixed one and both alphas. -/
def source (factor : BlendFactor) (other fixedLane srcAlpha dstAlpha : Nat) : Nat :=
  match factor with
  | .otherColor | .invOtherColor => other
  | .srcAlpha | .invSrcAlpha | .doubleSrcAlpha | .doubleInvSrcAlpha => srcAlpha
  | .dstAlpha | .invDstAlpha | .doubleDstAlpha | .doubleInvDstAlpha => dstAlpha
  | .fixed => fixedLane
  | .zero => 0
  | .one => 255

/-- The factor in fixed point, made of a value. -/
def weight (factor : BlendFactor) (v : Nat) : Nat :=
  let v := if factor.isDouble then 2 * (v <<< 4) else v <<< 4
  if factor.isInverse then 0xFF0 - v else v

/-- A lane scaled by a weight in fixed point. -/
def scaleLane (x weight : Nat) : Nat := (((x <<< 4) ||| 8) * (weight ||| 8)) >>> 16

theorem weight_lt (factor : BlendFactor) {v : Nat} (hv : v < 256) : factor.weight v < 8192 := by
  simp only [weight, Nat.shiftLeft_eq]
  split <;> split <;> omega

/-- Fixed point keeps four bits below the lane, and drops sixteen of a product
with twelve or thirteen bits on each side. -/
theorem scaleLane_lt {x w : Nat} (hx : x < 256) (hw : w < 8192) : scaleLane x w < 512 := by
  have hx' : x <<< 4 ||| 8 < 2 ^ 12 :=
    Nat.or_lt_two_pow (by rw [Nat.shiftLeft_eq]; omega) (by decide)
  have hw' : w ||| 8 < 2 ^ 13 := Nat.or_lt_two_pow hw (by decide)
  rw [scaleLane, Nat.shiftRight_eq_div_pow, Nat.div_lt_iff_lt_mul (by decide)]
  calc (x <<< 4 ||| 8) * (w ||| 8) < 2 ^ 12 * 2 ^ 13 := Nat.mul_lt_mul'' hx' hw'
    _ = 512 * 2 ^ 16 := by decide

/-- A lane scaled by a factor that is made of a value. -/
def scaled (factor : BlendFactor) (x v : Nat) : Nat :=
  match factor with
  | .zero => 0
  | .one => x
  | factor => scaleLane x (factor.weight v)

theorem scaled_lt (factor : BlendFactor) {x v : Nat} (hx : x < 256) (hv : v < 256) :
    factor.scaled x v < 512 := by
  have := scaleLane_lt hx (factor.weight_lt hv)
  cases factor <;> simp only [scaled] <;> omega

theorem source_lt (factor : BlendFactor) {other fixedLane srcAlpha dstAlpha : Nat}
    (h : other < 256) (h' : fixedLane < 256) (hs : srcAlpha < 256) (hd : dstAlpha < 256) :
    factor.source other fixedLane srcAlpha dstAlpha < 256 := by
  cases factor <;> simp only [source] <;> omega

end BlendFactor

/-- One lane of two colors joined, once they are scaled. -/
def BlendEquation.join (equation : BlendEquation) (s d : Nat) : Nat :=
  match equation with
  | .add => s + d
  | .subtract => s - d
  | .reverseSubtract => d - s
  | .min => Min.min s d
  | .max => Max.max s d
  | .absDiff => (s - d) + (d - s)

theorem BlendEquation.join_le (equation : BlendEquation) (s d : Nat) :
    equation.join s d ≤ s + d := by
  cases equation <;> simp only [join] <;> omega

/-! ## Fragments -/

/-- What a pixel function is called with and what it finds. -/
structure Fragment where
  block : RegisterBlock
  constants : KeyConstants
  x : BitVec 32
  y : BitVec 32
  z : BitVec 16
  fog : BitVec 8
  color : BitVec 32
  /-- The stored pixel. -/
  pixel : BitVec 32
  /-- The stored depth. -/
  depth : BitVec 16

/-- The bias of the pixel's place in the dither table. -/
def Fragment.ditherBias (p : Fragment) : Int :=
  (p.constants.dither.get
    ((p.y.extractLsb' 0 2 ++ p.x.extractLsb' 0 2 : BitVec 4).toFin)).toInt

/-- What becomes of a fragment. -/
inductive Verdict where
  /-- Nothing is stored. -/
  | discarded
  /-- The stencil is updated and nothing else is stored. -/
  | updated (action : StencilAction)
  /-- All tests passed. -/
  | passed
deriving DecidableEq

namespace Features

variable (f : Features) (p : Fragment)

/-! ## Tests -/

def rangePasses : Bool := !f.depthRange || (p.block.minZ.ule p.z && p.z.ule p.block.maxZ)

/-- The source alpha, as the alpha test sees it. -/
def testedAlpha : BitVec 32 :=
  if f.alphaMasked then (p.color >>> 24) &&& p.block.alphaTestMask.setWidth 32 else p.color >>> 24

def alphaPasses : Bool := f.alphaFunc.passes (f.testedAlpha p) (f.alphaRef.setWidth 32)

/-- The color of the fragment after fog. -/
def fogged (i : Fin 4) : Nat :=
  if f.fog = true ∧ i ≠ 3 then
    fogLane (channels p.color i) (channels p.block.fogColor i) p.fog.toNat
  else channels p.color i

theorem fogged_lt (i : Fin 4) : f.fogged p i < 256 := by
  unfold fogged
  split
  · rw [fogLane, Nat.div_lt_iff_lt_mul (by decide)]
    have := fogSum_le (channels_lt p.color i) (channels_lt p.block.fogColor i) p.fog.isLt
    omega
  · exact channels_lt p.color i

/-- A color test by its byte: three codes have a meaning of their own, the rest
all mean the same. -/
def colorTestPasses (code : BitVec 8) (color reference : BitVec 32) : Bool :=
  if code = 0 then false
  else if code = 1 then true
  else if code = 2 then reference == color
  else reference != color

def colorPasses : Bool :=
  !f.colorTest ||
    (let mask := p.block.colorTestMask &&& 0x00FFFFFF
     let c := packColor (f.fogged p 0) (f.fogged p 1) (f.fogged p 2) (f.fogged p 3)
     colorTestPasses p.block.colorTest (mask &&& c) (p.block.colorTestRef &&& mask))

/-- The stored stencil. -/
def oldStencil : BitVec 8 := f.format.stencilOf p.pixel

def stencilPasses : Bool :=
  f.stencilFunc.passes (f.stencilRef.setWidth 32)
    ((if f.stencilMasked then p.block.stencilMask &&& f.oldStencil p else f.oldStencil p).setWidth 32)

def depthPasses : Bool := f.depthFunc.passes (p.z.setWidth 32) (p.depth.setWidth 32)

/-- What becomes of the fragment. -/
def verdict : Verdict :=
  if !(f.rangePasses p && f.alphaPasses p && f.colorPasses p) then .discarded
  else if f.stencilTest then
    if !f.stencilPasses p then .updated f.stencilFail
    else if !f.depthPasses p then .updated f.depthFail
    else .passed
  else if f.depthPasses p then .passed
  else .discarded

/-! ## The stencil -/

/-- The stencil after an action. -/
def newStencil (action : StencilAction) : BitVec 8 :=
  action.apply f.format (f.oldStencil p)
    (if f.stencilMasked then p.block.stencilRef else f.stencilRef)

/-- The stencil bits that a write of the stencil alone may change. -/
def openStencilBits : BitVec 32 :=
  if f.writeMasked then
    f.format.stencilBits &&& ~~~(f.format.narrow (p.block.alphaWriteMask.setWidth 32 <<< 24))
  else f.format.stencilBits

/-- The stored pixel after a write of the stencil alone. -/
def withStencil (stencil : BitVec 8) : BitVec 32 :=
  (p.pixel &&& ~~~(f.openStencilBits p)) |||
    (f.format.stencilBitsFor stencil &&& f.openStencilBits p)

/-! ## The color -/

/-- The stored color, widened. -/
def oldColor (i : Fin 4) : Nat := channels (f.format.widen p.pixel true) i

/-- The color of the fragment after the blend. -/
def blended (i : Fin 4) : Nat :=
  let s := f.fogged p
  let d := f.oldColor p
  if f.blend then
    if f.blendEquation.usesFactors then
      f.blendEquation.join
        (f.blendSrc.scaled (s i)
          (f.blendSrc.source (d i) (channels p.block.blendFixA i) (s 3) (d 3)))
        (f.blendDst.scaled (d i)
          (f.blendDst.source (s i) (channels p.block.blendFixB i) (s 3) (d 3)))
    else f.blendEquation.join (s i) (d i)
  else s i

theorem blended_lt (i : Fin 4) : f.blended p i < 1024 := by
  have hs (i : Fin 4) : f.fogged p i < 256 := f.fogged_lt p i
  have hd (i : Fin 4) : f.oldColor p i < 256 := channels_lt _ i
  simp only [blended]
  split
  · split
    · refine Nat.lt_of_le_of_lt (BlendEquation.join_le _ _ _) ?_
      have := f.blendSrc.scaled_lt (hs i) (f.blendSrc.source_lt (hd i)
        (channels_lt p.block.blendFixA i) (hs 3) (hd 3))
      have := f.blendDst.scaled_lt (hd i) (f.blendDst.source_lt (hs i)
        (channels_lt p.block.blendFixB i) (hs 3) (hd 3))
      omega
    · have := f.blendEquation.join_le (f.fogged p i) (f.oldColor p i)
      have := hs i
      have := hd i
      omega
  · have := hs i
    omega

/-- The color of the fragment after dithering. -/
def dithered (i : Fin 4) : Int :=
  if f.dither = true ∧ i ≠ 3 then f.blended p i + p.ditherBias else f.blended p i

/-- The color of the fragment as it is stored, without the stencil bits unless
alpha is cleared to them. -/
def storedColor : BitVec 32 :=
  let s := f.format.narrow
    (packColor (f.dithered p 0) (f.dithered p 1) (f.dithered p 2) (f.dithered p 3))
  if f.stencilClear then s else s &&& ~~~f.format.stencilBits

/-- The stored color after the raster operation. -/
def combined : BitVec 32 :=
  if f.rasterOp then
    (RasterOp.ofCode (p.block.rasterOp.setWidth 4)).apply (f.storedColor p) p.pixel
  else f.storedColor p

/-- The stencil value that is stored with the color. -/
def carriedStencil : Option (BitVec 8) :=
  if f.stencilTest && f.format.hasStencil then some (f.newStencil p f.depthPass) else none

/-- The bits of the pixel that a write of the color leaves alone. -/
def keptBits : BitVec 32 :=
  if f.writeMasked then p.constants.writeMask
  else if f.stencilClear || (f.carriedStencil p).isSome then 0
  else f.format.stencilBits

/-- The stored pixel after a write of the color. -/
def written : BitVec 32 :=
  let v := match f.carriedStencil p with
    | some stencil =>
        (f.combined p &&& ~~~f.format.stencilBits) ||| f.format.stencilBitsFor stencil
    | none => f.combined p
  ((p.pixel &&& f.keptBits p) ||| (v &&& ~~~(f.keptBits p))) &&& f.format.pixelBits

/-! ## The outcome -/

/-- The stored pixel of a fragment that passed. -/
def passedPixel : BitVec 32 :=
  if f.clearMode && !f.colorClear then
    if f.stencilClear then f.withStencil p (p.color.extractLsb' 24 8) else p.pixel
  else f.written p

/-- The stored pixel and depth afterwards. -/
def outcome : BitVec 32 × BitVec 16 :=
  match f.verdict p with
  | .discarded => (p.pixel, p.depth)
  | .updated action => (f.withStencil p (f.newStencil p action), p.depth)
  | .passed => (f.passedPixel p, if f.depthWrite then p.z else p.depth)

end Features

end PixelPipeline
