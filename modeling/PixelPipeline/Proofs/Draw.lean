/-
# Proofs.Draw — what a draw is meant to do

A draw is a configuration, the registers, the arguments of one pixel, and what
is stored there (`Draw`).  What becomes of the pixel is said here in terms of
the configuration as it was written down: the five tests, the update of the
stencil, and the color from fog to raster operation.

A function is compiled from a normal form of the configuration instead, and
reads a block of registers and the constants of its key.  The lemmas below show
that `Features.outcome` says the same of them: what the normal form leaves out
made no difference.
-/
import PixelPipeline.Drawing
import PixelPipeline.Proofs.NormalForm
import PixelPipeline.Proofs.Write

namespace PixelPipeline

open X86

/-- A color test of two colors that are masked already. -/
def ColorTest.passes (t : ColorTest) (color reference : BitVec 32) : Bool :=
  match t with
  | .never => false
  | .always => true
  | .equal => color == reference
  | .notEqual => color != reference

/-- A pixel that is drawn with a configuration under given registers. -/
structure Draw where
  config : Config
  state : DrawState
  fbBase : Address
  depthBase : Address
  args : PixelArgs
  /-- The stored pixel. -/
  pixel : BitVec 32
  /-- The stored depth. -/
  depth : BitVec 16

namespace Draw

variable (d : Draw)

/-- The address of the pixel. -/
def pixelAddress : Address :=
  elementAddress d.fbBase d.config.format.bytesPerPixel
    (pixelIndex d.state.fbStride d.args.x d.args.y)

/-- The address of the depth. -/
def depthAddress : Address :=
  elementAddress d.depthBase 2 (pixelIndex d.state.depthStride d.args.x d.args.y)

/-! ## Tests -/

def rangePasses : Bool :=
  !d.config.depthRange || (d.state.minZ.ule d.args.z && d.args.z.ule d.state.maxZ)

/-- The alpha byte of the color that is drawn. -/
def alpha : BitVec 8 := d.args.color.extractLsb' 24 8

def alphaPasses : Bool :=
  match d.config.alphaTest with
  | none => true
  | some t => t.func.passes ((d.alpha &&& d.state.alphaTestMask).setWidth 32)
      ((t.reference &&& d.state.alphaTestMask).setWidth 32)

/-- The color that is drawn, after fog. -/
def fogged (i : Fin 4) : Nat :=
  if d.config.fog = true ∧ i ≠ alphaLane then
    fogLane (channels d.args.color i) (channels d.state.fogColor i) d.args.fog.toNat
  else channels d.args.color i

def colorPasses : Bool :=
  !d.config.colorTest ||
    (let mask := d.state.colorTestMask &&& 0x00FFFFFF
     let c := packLanes fun i => d.fogged i
     d.state.colorTest.passes (c &&& mask) (d.state.colorTestRef &&& mask))

/-- The stored stencil. -/
def stencil : BitVec 8 := d.config.format.stencilOf d.pixel

def stencilPasses : Bool :=
  match d.config.stencilTest with
  | none => true
  | some t => t.func.passes ((t.reference &&& d.state.stencilMask).setWidth 32)
      ((d.stencil &&& d.state.stencilMask).setWidth 32)

def depthPasses : Bool :=
  match d.config.depthTest with
  | none => true
  | some func => func.passes (d.args.z.setWidth 32) (d.depth.setWidth 32)

/-- The tests in front of those of stored values. -/
def enters : Bool := d.rangePasses && d.alphaPasses && d.colorPasses

/-- All five tests. -/
def survives : Bool := d.enters && d.stencilPasses && d.depthPasses

/-! ## Stencil -/

/-- The update that a stencil test asks for. -/
def stencilAction (t : StencilTest) : StencilAction :=
  if !d.stencilPasses then t.fail else if !d.depthPasses then t.depthFail else t.depthPass

/-- The bits that the alpha write mask protects. -/
def alphaKept : BitVec 32 := d.config.format.narrow (d.state.alphaWriteMask.setWidth 32 <<< 24)

/-! ## Color -/

/-- The bits that the color write mask protects. -/
def colorKept : BitVec 32 := d.config.format.narrow d.state.colorWriteMask

/-- The stored color, widened. -/
def oldColor (i : Fin 4) : Nat := channels (d.config.format.widen d.pixel true) i

/-- The color after the blend.  Fixed factors are folded if their color is all
zeros or all ones. -/
def blended (i : Fin 4) : Nat :=
  match d.config.blend with
  | none => d.fogged i
  | some b =>
      if b.equation.usesFactors then
        let src := b.src.fold d.state.blendFixA
        let dst := b.dst.fold d.state.blendFixB
        b.equation.join
          (src.scaled (d.fogged i) (src.source (d.oldColor i) (channels d.state.blendFixA i)
            (d.fogged alphaLane) (d.oldColor alphaLane)))
          (dst.scaled (d.oldColor i) (dst.source (d.fogged i) (channels d.state.blendFixB i)
            (d.fogged alphaLane) (d.oldColor alphaLane)))
      else b.equation.join (d.fogged i) (d.oldColor i)

/-- The signed entry of the pixel's place in the dither table. -/
def ditherBias : Int :=
  (d.state.dither.get
    ((d.args.y.extractLsb' 0 2 ++ d.args.x.extractLsb' 0 2 : BitVec 4).toFin)).toInt

/-- The color after dithering. -/
def dithered (i : Fin 4) : Int :=
  if d.config.dither = true ∧ i ≠ alphaLane then d.blended i + d.ditherBias else d.blended i

/-- The color as the format stores it. -/
def narrowed : BitVec 32 := d.config.format.narrow (packLanes d.dithered)

/-- The color after the raster operation. -/
def combined : BitVec 32 :=
  if d.config.rasterOp then d.state.rasterOp.apply d.narrowed d.pixel else d.narrowed

/-! ## What is to become of the pixel -/

/-- The stored pixel with its stencil updated, but for the bits that are
protected. -/
def restenciled : BitVec 32 :=
  match d.config.stencilTest with
  | none => d.pixel
  | some t =>
      if d.config.format.hasStencil && d.enters then
        (d.pixel &&& d.alphaKept) ||| (d.config.format.stencilBitsFor
          ((d.stencilAction t).apply d.config.format d.stencil t.reference) &&& ~~~d.alphaKept)
      else d.pixel

/-- The stored pixel with its color cleared, but for the bits that are
protected. -/
def colorCleared : BitVec 32 :=
  (d.pixel &&& d.colorKept) ||| (d.config.format.narrow d.args.color &&& ~~~d.colorKept)

/-- The stored pixel with its stencil cleared, but for the bits that are
protected. -/
def stencilCleared : BitVec 32 :=
  (d.pixel &&& d.alphaKept) ||| (d.config.format.stencilBitsFor d.alpha &&& ~~~d.alphaKept)

/-- The same pixel, drawn as a clear. -/
def clearing (flags : ClearFlags) : Draw := { d with config.clear := some flags }

/-! ## What a function finds -/

/-- The normal form that a function is compiled from. -/
def features : Features := .ofConfig d.config d.state

/-- What a function is called with. -/
def fragment : Fragment where
  block := .ofState d.state d.fbBase d.depthBase
  constants := (Key.ofConfig d.config d.state).constants
  x := d.args.x
  y := d.args.y
  z := d.args.z
  fog := d.args.fog
  color := d.args.color
  pixel := d.pixel
  depth := d.depth

end Draw

/-! ## Normal forms -/

namespace Draw

variable {d : Draw}

theorem features_eq (d : Draw) : d.features =
    (NormalForm.of d.config d.state).features (Features.masksWrites d.config d.state) :=
  Features.ofConfig_eq d.config d.state

theorem features_format (d : Draw) : d.features.format = d.config.format := by
  rw [features_eq, NormalForm.features_format]
  rfl

/-- What a draw that is not a clear comes down to. -/
theorem features_draw (h : d.config.clear = none) : d.features =
    (DrawForm.of d.config d.state).features (.of d.config d.state)
      (Features.masksWrites d.config d.state) := by
  rw [features_eq, NormalForm.features, NormalForm.mode_of, h]
  rfl

/-- What a clear comes down to. -/
theorem features_clear {flags : ClearFlags} (h : d.config.clear = some flags) : d.features =
    flags.features (.of d.config d.state) (Features.masksWrites d.config d.state) := by
  rw [features_eq, NormalForm.features, NormalForm.mode_of, h]
  rfl

theorem rangePasses_eq (d : Draw) : d.features.rangePasses d.fragment = d.rangePasses := rfl

/-- A mask that covers everything may as well be dropped. -/
theorem full_mask (a m : BitVec 8) : (if (m != 0xFF) = true then a &&& m else a) = a &&& m := by
  split
  · rfl
  · rename_i h
    rw [bne_iff_ne, ne_eq, not_not] at h
    rw [h, show (0xFF : BitVec 8) = BitVec.allOnes 8 from rfl, BitVec.and_allOnes]

/-! ### Draws that are not clears -/

section

variable (h : d.config.clear = none)

include h

/-- What is taken over as it is. -/
theorem features_base : d.features.clearMode = false ∧
    d.features.depthFunc = d.config.depthTest.getD .always ∧
    d.features.depthFlag = d.config.depthWrite ∧ d.features.colorFlag = d.config.colorTest ∧
    d.features.fog = d.config.fog ∧ d.features.dither = d.config.dither ∧
    d.features.rasterOp = d.config.rasterOp := by
  rw [features_draw h]
  exact ⟨rfl, rfl, rfl, rfl, rfl, rfl, rfl⟩

theorem alphaPasses_eq : d.features.alphaPasses d.fragment = d.alphaPasses := by
  have hform : d.features.alphaPasses d.fragment =
      (AlphaForm.of d.config.alphaTest d.state.alphaTestMask).func.passes
        (if (AlphaForm.of d.config.alphaTest d.state.alphaTestMask).masked = true then
          d.args.color >>> 24 &&& d.state.alphaTestMask.setWidth 32 else d.args.color >>> 24)
        ((AlphaForm.of d.config.alphaTest d.state.alphaTestMask).reference.setWidth 32) := by
    rw [features_draw h]
    rfl
  rw [hform, alphaPasses]
  cases d.config.alphaTest with
  | none => rfl
  | some t =>
    rw [AlphaForm.of_some]
    split
    · have halpha : d.args.color >>> 24 = d.alpha.setWidth 32 := Setting.topByte _
      rw [halpha, ← BitVec.setWidth_and, ← apply_ite (BitVec.setWidth 32), full_mask]
    · rename_i hno
      exact Comparison.passes_eq_of_not_compares (Bool.eq_false_iff.mpr hno) _ _ _ _

theorem fogged_eq (i : Fin 4) : d.features.fogged d.fragment i = d.fogged i := by
  rw [Features.fogged, (features_base h).2.2.2.2.1]
  rfl

omit h in
theorem colorTestPasses_code (t : ColorTest) (a b : BitVec 32) :
    Features.colorTestPasses t.code a b = t.passes a b := by
  cases t with
  | never => rfl
  | always => rfl
  | equal => exact Bool.beq_comm
  | notEqual => exact congrArg (!·) Bool.beq_comm

theorem colorPasses_eq : d.features.colorPasses d.fragment = d.colorPasses := by
  obtain ⟨hmode, -, -, hflag, -⟩ := features_base h
  rw [Features.colorPasses, Features.colorTest, hmode, hflag, colorPasses]
  simp only [fogged_eq h]
  show (!(true && _) || Features.colorTestPasses d.state.colorTest.code _ _) = _
  rw [Bool.true_and, colorTestPasses_code, BitVec.and_comm]
  rfl

theorem depthPasses_eq : d.features.depthPasses d.fragment = d.depthPasses := by
  rw [Features.depthPasses, (features_base h).2.1, depthPasses]
  cases d.config.depthTest <;> rfl

end

/-! ### Stencil tests -/

/-- The reference is recorded, since something reads it. -/
def reads (d : Draw) (t : StencilTest) : Bool :=
  let (fail, depthFail, depthPass) := Features.storedActions t d.config.format
  t.func.compares || fail == .replace || depthFail == .replace || depthPass == .replace

section

variable (h : d.config.clear = none)

include h

theorem stencilTest_none (ht : d.config.stencilTest = none) : d.features.stencilTest = false := by
  rw [features_draw h]
  show (!false && (d.config.stencilTest.map _).isSome) = false
  rw [ht]
  rfl

variable {t : StencilTest} (ht : d.config.stencilTest = some t)

include ht

/-- What is recorded of a stencil test. -/
theorem features_stencil : d.features.stencilTest = true ∧ d.features.stencilFunc = t.func ∧
    (d.features.stencilFail, d.features.depthFail, d.features.depthPass) =
      Features.storedActions t d.config.format ∧
    d.features.stencilRef = (if d.reads t then t.reference &&& d.state.stencilMask else 0) ∧
    d.features.stencilMasked = (d.reads t && d.state.stencilMask != 0xFF) := by
  have hstencil : (DrawForm.of d.config d.state).stencil =
      some (.of t d.config.format d.state.stencilMask) := by rw [DrawForm.of, ht]; rfl
  have hreads : d.reads t = (t.func != .always && t.func != .never ||
      [t.fail, t.depthFail, t.depthPass].any
        fun action => (if d.config.format = .rgb565 then .keep else action) == .replace) := by
    rw [reads, Features.storedActions_eq t d.config.format d.state.stencilMask,
      Comparison.compares_eq]
    simp only [StencilForm.of, List.any_cons, List.any_nil, Bool.or_false, Bool.or_assoc]
  rw [features_draw h, DrawForm.features, hstencil, hreads]
  exact ⟨rfl, rfl, (Features.storedActions_eq t d.config.format d.state.stencilMask).symm, rfl, rfl⟩

theorem stencilPasses_eq : d.features.stencilPasses d.fragment = d.stencilPasses := by
  obtain ⟨-, hfunc, -, href, hmasked⟩ := features_stencil h ht
  have hold : d.features.oldStencil d.fragment = d.stencil := by
    rw [Features.oldStencil, features_format]
    rfl
  rw [Features.stencilPasses, hfunc, href, hmasked, hold, stencilPasses, ht]
  cases hcompares : t.func.compares with
  | false => exact Comparison.passes_eq_of_not_compares hcompares _ _ _ _
  | true =>
    have hreads : d.reads t = true := by
      rw [reads, hcompares]
      rfl
    rw [hreads, Bool.true_and, if_pos rfl]
    show t.func.passes _ (BitVec.setWidth 32 (if (d.state.stencilMask != 0xFF) = true then
      d.state.stencilMask &&& d.stencil else d.stencil)) = t.func.passes _ _
    rw [BitVec.and_comm d.state.stencilMask d.stencil, full_mask]

omit h ht in
theorem apply_of_ne_replace {a : StencilAction} (ha : a ≠ .replace) (f : PixelFormat)
    (v r r' : BitVec 8) : a.apply f v r = a.apply f v r' := by
  cases a <;> first | rfl | exact absurd rfl ha

/-- The update of the stencil is the one that is asked for, with the reference that
is asked for. -/
theorem newStencil_eq (href : d.state.stencilRef = t.reference) {action : StencilAction}
    (ha : action = .replace → d.reads t = true) :
    d.features.newStencil d.fragment action =
      action.apply d.config.format d.stencil t.reference := by
  obtain ⟨-, -, -, hstored, hmasked⟩ := features_stencil h ht
  rw [Features.newStencil, Features.oldStencil, features_format]
  by_cases hreplace : action = .replace
  · have hreads := ha hreplace
    have hvalue : (if d.features.stencilMasked = true then d.fragment.block.stencilRef
        else d.features.stencilRef) = t.reference := by
      rw [hmasked, hstored, hreads, Bool.true_and, if_pos rfl]
      split
      · exact href
      · rename_i hfull
        rw [bne_iff_ne, ne_eq, not_not] at hfull
        rw [hfull, show (0xFF : BitVec 8) = BitVec.allOnes 8 from rfl, BitVec.and_allOnes]
    rw [hvalue]
    rfl
  · exact apply_of_ne_replace hreplace _ _ _ _

end

/-! ### Verdicts -/

section

variable (h : d.config.clear = none)

include h

/-- Without a stencil test, the fragment is stored if it passes all tests. -/
theorem verdict_plain (ht : d.config.stencilTest = none) :
    d.features.verdict d.fragment = if d.survives then .passed else .discarded := by
  have hpasses : d.stencilPasses = true := by rw [stencilPasses, ht]
  rw [Features.verdict, rangePasses_eq, alphaPasses_eq h, colorPasses_eq h, stencilTest_none h ht,
    depthPasses_eq h, survives, hpasses, Bool.and_true, enters]
  cases d.rangePasses && d.alphaPasses && d.colorPasses <;> cases d.depthPasses <;> rfl

/-- With one, a fragment that fails it, or depth, still updates the stencil. -/
theorem verdict_stencil {t : StencilTest} (ht : d.config.stencilTest = some t) :
    d.features.verdict d.fragment =
      if !d.enters then .discarded
      else if !d.stencilPasses then .updated (Features.storedActions t d.config.format).1
      else if !d.depthPasses then .updated (Features.storedActions t d.config.format).2.1
      else .passed := by
  obtain ⟨htest, -, hactions, -⟩ := features_stencil h ht
  rw [← hactions, Features.verdict, rangePasses_eq, alphaPasses_eq h, colorPasses_eq h, htest,
    stencilPasses_eq h ht, depthPasses_eq h, enters]
  rfl

/-- A fragment is stored exactly if it passes all tests. -/
theorem verdict_passed_iff : d.features.verdict d.fragment = .passed ↔ d.survives = true := by
  cases ht : d.config.stencilTest with
  | none =>
    rw [verdict_plain h ht]
    cases d.survives <;> simp
  | some t =>
    rw [verdict_stencil h ht, survives]
    cases d.enters <;> cases d.stencilPasses <;> cases d.depthPasses <;> simp

end

end Draw

end PixelPipeline
