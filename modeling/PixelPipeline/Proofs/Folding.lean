/-
# Proofs.Folding — blends that were made shorter

A fixed factor is folded where its color is all zeros or all ones: zero takes the
color away and one leaves it alone, and neither is multiplied.  A product with such
a color comes to the same, for the rounding is exact at both ends: in fixed point a
lane is taken as `16 x + 8` and a factor as `16 f + 8`, and what is dropped of their
product leaves nothing at `f = 0` and `x` at `f = 255`.  Only the three lanes of the
color decide whether a factor is folded.  The fixed alpha may be anything, so the
alpha of the result may differ; it is stored by no pipeline that blends.

A destination factor that is one minus the source factor is subtracted from one
instead of built.  Built from scratch (`BlendPlan.withoutInverse`), it is the same.
-/
import PixelPipeline.Proofs.Variants

namespace PixelPipeline

open X86 Compile

/-! ## Factors at both ends -/

/-- A channel of the color is decided by the low 24 bits. -/
theorem channels_of_masked {c m : BitVec 32} (h : c &&& 0x00FFFFFF = m) {i : Fin 4} (hi : i ≠ 3) :
    channels c i = channels m i := by
  have hin (j : Nat) (hj : j < 24) : (0x00FFFFFF : BitVec 32).getLsbD j = true := by
    revert j; decide
  subst h
  refine congrArg BitVec.toNat (BitVec.eq_of_getLsbD_eq fun j hj => ?_)
  rw [BitVec.getLsbD_extractLsb', BitVec.getLsbD_extractLsb', BitVec.getLsbD_and,
    hin _ (by omega), Bool.and_true]

namespace BlendFactor

/-- The four bits below a lane are those of a half. -/
theorem shiftLeft_four_or_half (n : Nat) : n <<< 4 ||| 8 = 16 * n + 8 := by
  rw [← Nat.shiftLeft_add_eq_or_of_lt (by decide : 8 < 2 ^ 4), Nat.shiftLeft_eq]
  omega

/-- Nothing is left of a lane that is scaled by zero, -/
theorem scaleLane_zero {x : Nat} (hx : x < 256) : scaleLane x (0 <<< 4) = 0 := by
  rw [scaleLane, shiftLeft_four_or_half, shiftLeft_four_or_half, Nat.shiftRight_eq_div_pow]
  omega

/-- and all of it if it is scaled by one. -/
theorem scaleLane_one {x : Nat} (hx : x < 256) : scaleLane x (255 <<< 4) = x := by
  rw [scaleLane, shiftLeft_four_or_half, shiftLeft_four_or_half, Nat.shiftRight_eq_div_pow]
  omega

/-- A factor scales as it does when it is folded, by its own color. -/
theorem scaled_fold (factor : BlendFactor) (color : BitVec 32) {i : Fin 4} (hi : i ≠ 3) {x : Nat}
    (hx : x < 256) (o a d : Nat) :
    (factor.fold color).scaled x ((factor.fold color).source o (channels color i) a d) =
      factor.scaled x (factor.source o (channels color i) a d) := by
  cases factor with
  | fixed =>
    simp only [fold]
    split
    · rename_i hzeros
      have hlane : channels color i = 0 := (channels_of_masked hzeros hi).trans (by
        revert i; decide)
      show 0 = scaleLane x (channels color i <<< 4)
      rw [hlane, scaleLane_zero hx]
    · split
      · rename_i hones
        have hlane : channels color i = 255 := (channels_of_masked hones hi).trans (by
          revert i; decide)
        show x = scaleLane x (channels color i <<< 4)
        rw [hlane, scaleLane_one hx]
      · rfl
  | _ => rfl

/-- Where a function runs, a color of all zeros or all ones may stand for the one it
was built for, if the function multiplies by it. -/
def Unfolds (factor : BlendFactor) (built running : BitVec 32) : Prop :=
  built = running ∨ factor = .fixed ∧
    (running &&& 0x00FFFFFF = 0 ∨ running &&& 0x00FFFFFF = 0x00FFFFFF) ∧
    built &&& 0x00FFFFFF ≠ 0 ∧ built &&& 0x00FFFFFF ≠ 0x00FFFFFF

/-- Multiplied or folded, the factor scales to the same. -/
theorem Unfolds.scaled_eq {factor : BlendFactor} {built running : BitVec 32}
    (h : factor.Unfolds built running) {i : Fin 4} (hi : i ≠ 3) {x : Nat} (hx : x < 256)
    (o a d : Nat) :
    (factor.fold built).scaled x ((factor.fold built).source o (channels running i) a d) =
      (factor.fold running).scaled x ((factor.fold running).source o (channels running i) a d) := by
  rcases h with rfl | ⟨rfl, -, hzeros, hones⟩
  · rfl
  · have hfixed : fixed.fold built = fixed := (if_neg hzeros).trans (if_neg hones)
    rw [hfixed]
    exact (scaled_fold .fixed running hi hx o a d).symm

end BlendFactor

/-! ## What the factors decide -/

/-- The registers with other fixed colors. -/
def DrawState.withFixed (s : DrawState) (fixA fixB : BitVec 32) : DrawState :=
  { s with blendFixA := fixA, blendFixB := fixB }

namespace Features

/-- Two factors in place of those of a pipeline. -/
def withFactors (f : Features) (src dst : BlendFactor) : Features :=
  { f with blendSrc := src, blendDst := dst }

/-- The fixed colors decide no more than the two factors. -/
theorem ofConfig_withFixed {c : Config} {b : Blend} (hclear : c.clear = none)
    (hblend : c.blend = some b) (huses : b.equation.usesFactors = true) (s : DrawState)
    (fixA fixB : BitVec 32) : ofConfig c (s.withFixed fixA fixB) =
      (ofConfig c s).withFactors (b.src.fold fixA) (b.dst.fold fixB) := by
  simp only [ofConfig, ofDraw, hclear, hblend, withBlend, huses, if_true]
  rfl

/-- A clear has none, nor has an equation on bytes. -/
theorem ofConfig_withFixed_of_unused {c : Config} {b : Blend} (hblend : c.blend = some b)
    (h : c.clear ≠ none ∨ b.equation.usesFactors = false) (s : DrawState) (fixA fixB : BitVec 32) :
    ofConfig c (s.withFixed fixA fixB) = ofConfig c s := by
  cases hclear : c.clear with
  | some flags =>
    simp only [ofConfig, hclear]
    rfl
  | none =>
    have huses := h.resolve_left fun hno => hno hclear
    simp only [ofConfig, ofDraw, hclear, hblend, withBlend, huses, if_neg Bool.false_ne_true]
    rfl

/-- What is stored depends on the factors by the color of the blend alone, and not by
its alpha. -/
theorem outcome_withFactors {f : Features} {p : Fragment} {src dst : BlendFactor}
    (hmode : f.clearMode = false)
    (hblended : ∀ i, i ≠ 3 → (f.withFactors src dst).blended p i = f.blended p i) :
    (f.withFactors src dst).outcome p = f.outcome p := by
  have hstencil : f.stencilClear = false := by rw [stencilClear, hmode, Bool.false_and]
  have hstored : (f.withFactors src dst).storedColor p = f.storedColor p := by
    rw [storedColor, storedColor, show (f.withFactors src dst).stencilClear = false from hstencil,
      hstencil, if_neg Bool.false_ne_true, if_neg Bool.false_ne_true]
    refine (PixelFormat.narrow_low (packColor_low _ _ fun i hi => ?_) f.format).and_eq
    rw [dithered, dithered, hblended i hi]
    rfl
  have hcombined : (f.withFactors src dst).combined p = f.combined p := by
    rw [combined, combined, hstored]
    rfl
  have hwritten : (f.withFactors src dst).written p = f.written p := by
    rw [written, written, hcombined]
    rfl
  have hpassed : (f.withFactors src dst).passedPixel p = f.passedPixel p := by
    rw [passedPixel, passedPixel, hwritten]
    rfl
  rw [outcome, outcome, hpassed]
  rfl

end Features

namespace Draw

variable {d : Draw} {b : Blend} {fixA fixB : BitVec 32}

/-- The constants of a key do not depend on the factors. -/
theorem fragmentFor_withFixed
    (h : (Features.ofConfig d.config (d.state.withFixed fixA fixB)).dither =
      (Features.ofConfig d.config d.state).dither) :
    d.fragmentFor (d.state.withFixed fixA fixB) = d.fragmentFor d.state := by
  have hconstants : (Key.ofConfig d.config (d.state.withFixed fixA fixB)).constants =
      (Key.ofConfig d.config d.state).constants := by
    simp only [Key.ofConfig, h]
    rfl
  rw [fragmentFor, fragmentFor, hconstants]

section

variable (hblend : d.config.blend = some b) (hsrc : b.src.Unfolds fixA d.state.blendFixA)
  (hdst : b.dst.Unfolds fixB d.state.blendFixB)

include hblend hsrc hdst

/-- Factors that were not folded blend the color as the folded ones do. -/
theorem blended_withFactors (hclear : d.config.clear = none) (huses : b.equation.usesFactors = true)
    {i : Fin 4} (hi : i ≠ 3) :
    (d.features.withFactors (b.src.fold fixA) (b.dst.fold fixB)).blended d.fragment i =
      d.features.blended d.fragment i := by
  obtain ⟨hon, hequation, hfactors⟩ := features_blend hclear hblend
  obtain ⟨hsrcFold, hdstFold⟩ := hfactors huses
  have hfogged (i : Fin 4) : d.features.fogged d.fragment i < 256 := d.features.fogged_lt d.fragment i
  have hold (i : Fin 4) : d.features.oldColor d.fragment i < 256 := channels_lt _ i
  simp only [Features.blended, Features.withFactors, hon, hequation, huses, if_true, hsrcFold,
    hdstFold]
  exact congrArg₂ b.equation.join (hsrc.scaled_eq hi (hfogged i) _ _ _)
    (hdst.scaled_eq hi (hold i) _ _ _)

/-- The function that was built for the other fixed colors leaves the same pixel. -/
theorem outcome_withFixed :
    (Features.ofConfig d.config (d.state.withFixed fixA fixB)).outcome
        (d.fragmentFor (d.state.withFixed fixA fixB)) =
      d.features.outcome d.fragment := by
  by_cases hfactors : d.config.clear = none ∧ b.equation.usesFactors = true
  · obtain ⟨hclear, huses⟩ := hfactors
    have hfeatures := Features.ofConfig_withFixed hclear hblend huses d.state fixA fixB
    rw [fragmentFor_withFixed (hfeatures ▸ rfl), hfeatures]
    exact Features.outcome_withFactors (features_base hclear).1 fun i hi =>
      blended_withFactors hblend hsrc hdst hclear huses hi
  · have hunused : d.config.clear ≠ none ∨ b.equation.usesFactors = false := by
      rw [← Bool.not_eq_true]
      exact Classical.not_and_iff_not_or_not.mp hfactors
    have hfeatures := Features.ofConfig_withFixed_of_unused hblend hunused d.state fixA fixB
    rw [fragmentFor_withFixed (by rw [hfeatures]), hfeatures]
    rfl

end

end Draw

/-! ## Shortcuts -/

namespace PixelCall

/-- A function that multiplies by fixed colors, and runs where they are all zeros or all
ones, has the effect of the one in which they are folded.  And without taking the
destination factor from the source factor, every pipeline is compiled where there is
room, and the function has the effect that it has with it. -/
theorem shortcuts_agree :
    (∀ {p q : PixelCall} {d : Draw} {b : Blend} {fixA fixB : BitVec 32}, d.config.blend = some b →
      b.src.Unfolds fixA d.state.blendFixA → b.dst.Unfolds fixB d.state.blendFixB →
      p.DrawsUnder d (d.state.withFixed fixA fixB) → q.Draws d → p.SameEffect q) ∧
    (∀ (features : Features) (addresses : DataAddresses) (base : Address) (b : CodeBuffer),
      maxFunctionSize ≤ b.remaining → ∃ f b',
        functionBy features (BlendPlan.ofFeatures features).withoutInverse addresses base b =
          .ok f b') ∧
    (∀ {p q : PixelCall} {d : Draw} {built : DrawState},
      p.DrawsAs d built (BlendPlan.ofFeatures (.ofConfig d.config built)).withoutInverse →
      q.DrawsUnder d built → p.SameEffect q) := by
  refine ⟨?folded, ?compiled, ?inverse⟩
  case folded =>
    intro p q d b fixA fixB hblend hsrc hdst hp hq
    have hstride : (d.state.withFixed fixA fixB).hasStandardStride = true →
        d.state.hasStandardStride = true := id
    have haddresses := hp.addresses_eq hq.finds hstride id
    exact hp.sameEffect hq.drawsUnder (.inl rfl) (.inl rfl) haddresses
      (Draw.outcome_withFixed hblend hsrc hdst)
  case compiled =>
    intro features addresses base b hroom
    obtain ⟨-, f, b', -, hok, -⟩ :=
      functionBy_ok features (BlendPlan.ofFeatures features).withoutInverse addresses base hroom
    exact ⟨f, b', hok⟩
  case inverse =>
    intro p q d built hp hq
    exact hp.sameEffect hq (.inr rfl) (.inl rfl) (hp.cells_eq hq.toFinds) rfl

/-- A color minus a stored one that a black factor takes away; and a blend by alpha. -/
theorem shortcuts_agree_blended :
    (∃ (p q : PixelCall) (d : Draw), d.config.blend = some ⟨.subtract, .fixed, .fixed⟩ ∧
      d.state.blendFixA = 0x7FFFFFFF ∧ d.state.blendFixB = 0x40000000 ∧
      p.DrawsUnder d (d.state.withFixed 0x00203040 0x00506070) ∧ q.Draws d ∧ p.SameEffect q) ∧
    (∃ f b', functionBy { format := .rgb565 } (BlendPlan.ofFeatures { format := .rgb565 }).withoutInverse
      ⟨0x10000, 0x20000⟩ 0 (.ofSize 4096) = .ok f b') ∧
    ∃ (p q : PixelCall) (d : Draw), d.config.blend = some ⟨.add, .srcAlpha, .invSrcAlpha⟩ ∧
      (BlendPlan.ofFeatures (.ofConfig d.config {})).dstIsInverse = true ∧
      p.DrawsAs d {} (BlendPlan.ofFeatures (.ofConfig d.config {})).withoutInverse ∧
      q.DrawsUnder d {} ∧ p.SameEffect q := by
  refine ⟨?folded, shortcuts_agree.2.1 _ _ _ _ (by decide), ?inverse⟩
  case folded =>
    let config : Config := { format := .rgba5551, blend := some ⟨.subtract, .fixed, .fixed⟩ }
    let state : DrawState := { blendFixA := 0x7FFFFFFF, blendFixB := 0x40000000 }
    let other := state.withFixed 0x00203040 0x00506070
    obtain ⟨cache, f, h⟩ := Drawing.exists_holdsBy (Key.ofConfig config other)
      (.ofFeatures (.ofConfig config other)) state 1 0x12345678 0
    obtain ⟨cache', f', h'⟩ := Drawing.exists_holds config state 1 0x12345678 0
    have hp := h.drawsAs ⟨0, 0, 7, 255, 0x80402010⟩ id
    have hq := h'.draws_seen ⟨0, 0, 7, 255, 0x80402010⟩
    have hsrc : BlendFactor.fixed.Unfolds 0x00203040 state.blendFixA :=
      .inr ⟨rfl, .inr (by decide), by decide, by decide⟩
    have hdst : BlendFactor.fixed.Unfolds 0x00506070 state.blendFixB :=
      .inr ⟨rfl, .inl (by decide), by decide, by decide⟩
    exact ⟨_, _, _, rfl, rfl, rfl, hp, hq, shortcuts_agree.1 rfl hsrc hdst hp hq⟩
  case inverse =>
    let config : Config := { blend := some ⟨.add, .srcAlpha, .invSrcAlpha⟩ }
    let plan := BlendPlan.ofFeatures (.ofConfig config {})
    obtain ⟨cache, f, h⟩ := Drawing.exists_holdsBy (Key.ofConfig config {}) plan.withoutInverse {} 1
      0x12345678 0
    obtain ⟨cache', f', h'⟩ := Drawing.exists_holdsBy (Key.ofConfig config {}) plan {} 1 0x12345678 0
    have hp := h.drawsAs ⟨0, 0, 7, 255, 0x80402010⟩ id
    have hq := h'.drawsAs ⟨0, 0, 7, 255, 0x80402010⟩ id
    exact ⟨_, _, _, rfl, rfl, hp, hq, shortcuts_agree.2.2 hp hq⟩

end PixelCall

end PixelPipeline
