/-
# Proofs.Settled — settings that the code does not show

Some settings of a pipeline are settled when it is compiled.  A stencil test without stencil
bits has one answer, a function that compares nothing has no reference, an update behind a test
that all pixels pass is never made, and where several tests stand together that leave in any
case it cannot be seen which of them do.  `Features.settled` puts each such setting to one
value, one kind of them after the other, and every step leaves the code as it is but for the
marks of its stages (`Compile.bare_settled`), so that it lies in the same bytes.
-/
import PixelPipeline.Proofs.Descriptions
import PixelPipeline.Proofs.Programs
import PixelPipeline.Proofs.Unmarked

namespace PixelPipeline

open X86

/-! ## What the constructor leaves unset -/

theorem AlphaForm.of_not_compares {test : Option AlphaTest} {mask : BitVec 8}
    (h : (AlphaForm.of test mask).func.compares = false) :
    (AlphaForm.of test mask).reference = 0 ∧ (AlphaForm.of test mask).masked = false := by
  cases test with
  | none => exact ⟨rfl, rfl⟩
  | some t =>
    simp only [AlphaForm.of_some] at h ⊢
    split at h
    · rename_i hcompares
      cases h.symm.trans hcompares
    · rename_i hcompares
      rw [if_neg hcompares]
      exact ⟨rfl, rfl⟩

namespace Features

/-- Everything that a configuration does not ask for is unset. -/
structure Tidy (f : Features) : Prop extends f.Normal where
  clear : f.clearMode = true → f.alphaFunc = .always ∧ f.depthFunc = .always ∧ f.fog = false ∧
    f.dither = false ∧ f.rasterOp = false ∧ f.blend = false
  compares : f.alphaFunc.compares = false → f.alphaRef = 0 ∧ f.alphaMasked = false
  actions : f.format.hasStencil = false →
    f.stencilFail = .keep ∧ f.depthFail = .keep ∧ f.depthPass = .keep

theorem Tidy.dither_of_clear {f : Features} (h : f.Tidy) (hclear : f.clearMode = true) :
    f.dither = false := (h.clear hclear).2.2.2.1

theorem Tidy.rasterOp_of_clear {f : Features} (h : f.Tidy) (hclear : f.clearMode = true) :
    f.rasterOp = false := (h.clear hclear).2.2.2.2.1

/-- Nothing but its flags is set in a clear. -/
theorem Tidy.eq_clear {f : Features} (h : f.Tidy) (hclear : f.clearMode = true) :
    f =
      { format := f.format, clearMode := true, colorFlag := f.colorFlag,
        stencilFlag := f.stencilFlag, depthFlag := f.depthFlag, depthRange := f.depthRange,
        standardStride := f.standardStride, writeMasked := f.writeMasked } := by
  obtain ⟨halpha, hdepth, hfog, hdither, hrop, hblend⟩ := h.clear hclear
  obtain ⟨href, hmasked⟩ := h.alpha halpha
  obtain ⟨hfunc, hstencilRef, hstencilMasked, hfail, hdepthFail, hdepthPass⟩ :=
    h.stencil (by rw [Features.stencilTest, hclear]; rfl)
  obtain ⟨hequation, hsrc, hdst⟩ := h.toNormal.blend hblend
  cases f
  simp_all only

theorem tidy_ofConfig (c : Config) (s : DrawState) : (ofConfig c s).Tidy := by
  have hnormal := normal_ofConfig c s
  rw [ofConfig_eq, NormalForm.features, NormalForm.mode_of] at hnormal ⊢
  cases hc : c.clear with
  | some flags =>
    rw [hc] at hnormal
    exact ⟨hnormal, fun _ => ⟨rfl, rfl, rfl, rfl, rfl, rfl⟩, fun _ => ⟨rfl, rfl⟩,
      fun _ => ⟨rfl, rfl, rfl⟩⟩
  | none =>
    rw [hc] at hnormal
    refine ⟨hnormal, fun h => Bool.noConfusion h, AlphaForm.of_not_compares, fun h => ?_⟩
    have hformat : c.format.hasStencil = false := h
    cases ht : c.stencilTest with
    | none =>
      simp only [Option.elim_none, DrawForm.features, DrawForm.of, ht]
      exact ⟨rfl, rfl, rfl⟩
    | some t =>
      simp [DrawForm.features, DrawForm.of, ht, StencilForm.of, StencilForm.stored_eq, hformat]

section

variable (f : Features)

/-- A draw with the settings of a clear, but for its flags. -/
def asDraw : Features :=
  { f with clearMode := false, colorFlag := f.colorTest, stencilFlag := f.stencilTest }

/-- A clear of the color that writes no alpha is a draw that tests nothing.  One that stores
nothing in the color buffer has no stencil value to clear and no write mask.  Its strides show in
the way to the depth buffer alone, and its format in the size of a pixel there. -/
def settleClear : Features :=
  if f.writesColor then
    if f.writesAlpha then f else f.asDraw
  else if f.clearsStencil then f
  else
    { f with
      stencilFlag := false
      writeMasked := false
      standardStride := f.standardStride && f.depthWrite
      format := if f.standardStride && f.depthWrite && f.format.bytesPerPixel == 4 then .rgba8888
        else .rgb565 }

/-- A stencil test without stencil bits has one answer for all pixels. -/
def settleStencil : Features :=
  if f.stencilTest ∧ f.format.hasStencil = false then
    { f with
      stencilFunc := if f.stencilFunc.passes (f.stencilRef.setWidth 32) 0 then .always else .never
      stencilRef := 0
      stencilMasked := false }
  else f

/-- A stencil test that no pixel passes, in front of a depth test that all pass, does what a depth
test does that no pixel passes. -/
def settleStored : Features :=
  if f.stencilTest ∧ f.stencilFunc = .never ∧ f.depthFunc = .always then
    { f with
      stencilFunc := .always
      stencilFail := .keep
      depthFunc := .never
      depthFail := f.stencilFail }
  else f

/-- An alpha test that no pixel passes does what a test of stored values does, if nothing stands
between them. -/
def settleAlpha : Features :=
  if f.loadsStencil ∨ f.fog ∨ f.colorTest then f
  else if f.stencilTest ∧ f.stencilFunc = .never ∧ f.alphaFunc = .always then
    { f with stencilFunc := .always, alphaFunc := .never }
  else if f.alphaFunc = .never ∧ f.depthFunc = .always then
    { f with alphaFunc := .always, depthFunc := .never }
  else f

/-- A stencil test without stencil bits that all pixels pass is none. -/
def settleFlag : Features :=
  if f.stencilTest ∧ f.format.hasStencil = false ∧ f.stencilFunc = .always then
    { f with stencilFlag := false }
  else f

/-- A stencil value of one bit is stepped down to zero and up to ones. -/
def settledAction (action : StencilAction) : StencilAction :=
  if f.format = .rgba5551 then
    match action with
    | .decrement => .zero
    | .replace => if f.stencilMasked = false ∧ f.stencilRef = 0xFF then .increment else .replace
    | action => action
  else action

/-- No update is for a pixel that fails a test which all pixels pass. -/
def settleActions : Features :=
  { f with
    stencilFail := if f.stencilFunc = .always then .keep else f.settledAction f.stencilFail
    depthFail := if f.depthFunc = .always then .keep else f.settledAction f.depthFail
    depthPass := f.settledAction f.depthPass }

/-- The updates of the stencil value. -/
def actions : List StencilAction := [f.stencilFail, f.depthFail, f.depthPass]

/-- The reference may be stored. -/
def replaces : Bool := f.actions.contains .replace

/-- A reference that is neither compared nor stored is none, and under a mask the one that is
stored is that of the register block. -/
def settleReference : Features :=
  { f with
    stencilRef :=
      if f.stencilFunc.compares || (f.replaces && !f.stencilMasked) then f.stencilRef else 0
    stencilMasked := f.stencilMasked && (f.stencilFunc.compares || f.replaces) }

/-- A subtraction of nothing is an addition of nothing. -/
def settleBlend : Features :=
  { f with
    blendEquation :=
      if f.blendEquation = .subtract ∧ f.blendDst = .zero then .add else f.blendEquation }

/-- A dither finds the pixel by the general way. -/
def settleStride : Features := { f with standardStride := Compile.fastAddress f }

/-- A draw, one kind of settings after the other. -/
def settleDraw : Features :=
  f.settleStencil.settleStored.settleAlpha.settleFlag.settleActions.settleReference.settleBlend
    |>.settleStride

/-- The features with every setting that the code does not show put to one value. -/
def settled : Features :=
  if f.settleClear.clearMode then f.settleClear else f.settleClear.settleDraw

end

variable {f : Features}

/-- A draw with a stencil test is no clear. -/
theorem draws_of_stencilTest (h : f.stencilTest = true) : f.clearMode = false := by
  rw [stencilTest, Bool.and_eq_true, Bool.not_eq_true'] at h
  exact h.1

theorem loadsStencil_of_plain (h : f.format.hasStencil = false) : f.loadsStencil = false := by
  rw [loadsStencil, h, Bool.and_false]

theorem asDraw_eq (hdraw : f.clearMode = false) : f.asDraw = f := by
  cases f
  simp_all [asDraw, colorTest, stencilTest]

theorem settledAction_eq_keep {action : StencilAction} :
    f.settledAction action = .keep ↔ action = .keep := by
  unfold settledAction
  cases action <;> split <;> simp
  split <;> simp

end Features

namespace Compile

open Features Emit

variable {f : Features} {a : DataAddresses}

/-! ## Clears -/

/-- If no alpha is written it is all the same whether it was to be. -/
theorem combineAndStore_asDraw (halpha : f.writesAlpha = false) (addr color : Reg)
    (stencil : Option Reg) :
    combineAndStore ⟨f.asDraw, a⟩ addr color stencil =
      combineAndStore ⟨f, a⟩ addr color stencil := by
  cases hs : f.stencilClear with
  | false =>
    have hs' : f.asDraw.stencilClear = f.stencilClear := by rw [hs]; rfl
    simp only [combineAndStore, hs']
    rfl
  | true =>
    cases hformat : f.format.hasStencil with
    | false =>
      have hbits : f.format.stencilBits = 0 := by
        cases hf : f.format <;> simp [hf, PixelFormat.hasStencil] at hformat
        rfl
      have hbits' : (f.asDraw).format.stencilBits = 0 := hbits
      simp only [combineAndStore, hbits, hbits', ite_self]
      rfl
    | true =>
      have hmasked : f.writeMasked = true := by
        simp [writesAlpha, hs, hformat] at halpha
        exact halpha.2
      have hmasked' : (f.asDraw).writeMasked = true := hmasked
      simp only [combineAndStore, loadWriteMask, hmasked, hmasked', if_true, bind_assoc, pure_bind,
        storeColor]
      rfl

theorem writePixel_asDraw (halpha : f.writesAlpha = false) :
    writePixel ⟨f.asDraw, a⟩ = writePixel ⟨f, a⟩ := by
  have hnarrow (color t₁ t₂ : Reg) :
      Conversion.narrow f.format color t₁ t₂ f.asDraw.stencilClear =
        Conversion.narrow f.format color t₁ t₂ f.stencilClear := by
    cases hs : f.stencilClear with
    | false => rfl
    | true =>
      cases hf : f.format <;> simp [writesAlpha, hs, hf, PixelFormat.hasStencil] at halpha <;> rfl
  have hbits : storedBits ⟨f.asDraw, a⟩ f.asDraw.stencilClear =
      storedBits ⟨f, a⟩ f.stencilClear := by
    have hformat : (f.asDraw).format = f.format := rfl
    simp only [storedBits, hformat, hnarrow]
  simp only [writePixel, combineAndStore_asDraw halpha, hbits]
  rfl

theorem bare_asDraw (hwrites : f.writesColor = true) (halpha : f.writesAlpha = false) :
    bare ⟨f.asDraw, a⟩ = bare ⟨f, a⟩ := by
  cases hclear : f.clearMode with
  | false => rw [asDraw_eq hclear]
  | true =>
    have hcolor : f.colorFlag = true := by
      simpa [writesColor, hclear] using hwrites
    have hlate (plan : BlendPlan) : late ⟨f.asDraw, a⟩ plan = late ⟨f, a⟩ plan := by
      have hwrite : writeColor ⟨f.asDraw, a⟩ = writeColor ⟨f, a⟩ := by
        have hpixel : (f.clearMode && !f.colorClear) = false := by
          rw [Features.colorClear, hclear, hcolor]
          rfl
        simp only [writeColor, hpixel, Bool.false_eq_true, if_false, ← writePixel_asDraw halpha]
        rfl
      simp only [late, hwrite]
      rfl
    refine bare_congr rfl ?_ (congrArg _ (hlate _))
    cases f
    obtain rfl := hclear
    rfl

/-- A clear that stores nothing in the color buffer. -/
def idle (format : PixelFormat) (range depth stride masked : Bool) : Features :=
  { format := format, clearMode := true, depthFlag := depth, depthRange := range,
    standardStride := stride, writeMasked := masked }

/-- Its code does not need the register that the key is in. -/
theorem bare_unmasked (format : PixelFormat) (range depth stride : Bool) :
    bare ⟨idle format range depth stride false, a⟩ =
      bare ⟨idle format range depth stride true, a⟩ := by
  cases range <;> cases depth <;> cases stride <;> cbv

/-- The format is for the address of the color. -/
theorem bare_idle (format : PixelFormat) (range depth stride masked : Bool) :
    bare ⟨idle format range depth stride masked, a⟩ =
      bare ⟨idle (if stride && depth && format.bytesPerPixel == 4 then .rgba8888 else .rgb565) range
        depth (stride && depth) masked, a⟩ := by
  cases depth <;> cases stride <;> cases format <;> exact bare_congr rfl rfl rfl

/-- Nothing else is set in a clear without color. -/
theorem eq_idle (h : f.Tidy) (hclear : f.clearMode = true) (hcolor : f.colorFlag = false) :
    f = { idle f.format f.depthRange f.depthFlag f.standardStride f.writeMasked with
      stencilFlag := f.stencilFlag } := by
  refine (h.eq_clear hclear).trans ?_
  rw [hcolor]
  rfl

theorem bare_settleClear (h : f.Tidy) : bare ⟨f.settleClear, a⟩ = bare ⟨f, a⟩ := by
  unfold settleClear
  split
  · rename_i hwrites
    split
    · rfl
    · rename_i halpha
      exact bare_asDraw hwrites (Bool.eq_false_iff.mpr halpha)
  rename_i hwrites
  split
  · rfl
  rename_i hclears
  obtain ⟨hclear, hcolor⟩ : f.clearMode = true ∧ f.colorFlag = false := by
    simpa [writesColor] using hwrites
  have hidle := eq_idle h hclear hcolor
  -- One kind of settings after the other: the format and the stride, the write mask, and the
  -- stencil flag, which a format without stencil bits has.
  calc bare ⟨_, a⟩
    _ = bare ⟨idle (if f.standardStride && f.depthFlag && f.format.bytesPerPixel == 4 then .rgba8888
          else .rgb565) f.depthRange f.depthFlag (f.standardStride && f.depthFlag) false, a⟩ := by
      refine congrArg (fun g => bare ⟨g, a⟩) ?_
      rw [hidle]
      rfl
    _ = bare ⟨idle f.format f.depthRange f.depthFlag f.standardStride false, a⟩ :=
      (bare_idle ..).symm
    _ = bare ⟨idle f.format f.depthRange f.depthFlag f.standardStride f.writeMasked, a⟩ := by
      cases f.writeMasked
      · rfl
      · exact bare_unmasked ..
    _ = bare ⟨f, a⟩ := by
      refine Eq.trans ?_ (congrArg (fun g => bare ⟨g, a⟩) hidle.symm)
      cases hs : f.stencilFlag with
      | false => rfl
      | true =>
        have hformat : f.format = .rgb565 := by
          cases hf : f.format <;>
            simp [clearsStencil, writesColor, stencilClear, hclear, hcolor, hs, hf,
              PixelFormat.hasStencil] at hclears ⊢
        rw [hformat]
        exact bare_congr rfl rfl rfl

/-! ## Draws -/

theorem bare_settleStride : bare ⟨f.settleStride, a⟩ = bare ⟨f, a⟩ := by
  obtain ⟨_, _, _, _, _, _, _, _, _, _, _, _, _, _, _, _, _, dither, _, _, stride, _, _, _, _⟩ := f
  cases stride <;> cases dither <;> exact bare_congr rfl rfl rfl

theorem bare_settleBlend : bare ⟨f.settleBlend, a⟩ = bare ⟨f, a⟩ := by
  unfold settleBlend
  split
  · rename_i h
    obtain ⟨hequation, hdst⟩ := h
    cases f
    obtain rfl := hequation
    obtain rfl := hdst
    exact bare_congr rfl rfl rfl
  · rfl

theorem updateStencil_settledAction (action : StencilAction) (st : Reg) :
    updateStencil ⟨f, a⟩ (f.settledAction action) st = updateStencil ⟨f, a⟩ action st := by
  unfold settledAction
  split
  · rename_i hformat
    split
    · simp only [updateStencil, hformat, decrementStencil]
    · split
      · rename_i h
        simp only [updateStencil, hformat, replaceStencil, h, incrementStencil, Bool.false_eq_true,
          if_false]
        rfl
      · rfl
    · rfl
  · rfl

theorem failStencil_settledAction (action : StencilAction) :
    failStencil ⟨f, a⟩ (f.settledAction action) = failStencil ⟨f, a⟩ action := by
  simp only [failStencil, updateStencil_settledAction, ne_eq, settledAction_eq_keep]

/-- The way out of a test which all pixels pass makes no difference. -/
theorem stencilTest_settleActions (st : Reg) :
    stencilTest ⟨f.settleActions, a⟩ st = stencilTest ⟨f, a⟩ st := by
  by_cases h : f.stencilFunc = .always
  · cases f
    obtain rfl := h
    rfl
  · have hfail : failStencil ⟨f.settleActions, a⟩ f.settleActions.stencilFail =
        failStencil ⟨f, a⟩ f.stencilFail := by
      rw [settleActions, if_neg h]
      exact failStencil_settledAction f.stencilFail
    simp only [stencilTest, hfail]
    rfl

theorem depthTestUpdating_settleActions :
    depthTestUpdating ⟨f.settleActions, a⟩ = depthTestUpdating ⟨f, a⟩ := by
  by_cases h : f.depthFunc = .always
  · cases f
    obtain rfl := h
    rfl
  · have hfail : failStencil ⟨f.settleActions, a⟩ f.settleActions.depthFail =
        failStencil ⟨f, a⟩ f.depthFail := by
      rw [settleActions, if_neg h]
      exact failStencil_settledAction f.depthFail
    simp only [depthTestUpdating, hfail]
    rfl

theorem storedTests_settleActions : storedTests ⟨f.settleActions, a⟩ = storedTests ⟨f, a⟩ := by
  have hpass (st : Reg) : updateStencil ⟨f.settleActions, a⟩ f.settleActions.depthPass st =
      updateStencil ⟨f, a⟩ f.depthPass st := updateStencil_settledAction f.depthPass st
  simp only [storedTests, stencilAndDepthTest, stencilTest_settleActions,
    depthTestUpdating_settleActions, hpass]
  rfl

theorem bare_settleActions : bare ⟨f.settleActions, a⟩ = bare ⟨f, a⟩ := by
  refine bare_congr rfl ?_ rfl
  rw [tests, storedTests_settleActions]
  rfl

theorem settleReference_of_compares (h : f.stencilFunc.compares = true) :
    f.settleReference = f := by
  simp only [settleReference, h, Bool.true_or, if_true, Bool.and_true]

theorem updateStencil_settleReference {action : StencilAction}
    (h : action ∈ f.actions) (st : Reg) :
    updateStencil ⟨f.settleReference, a⟩ action st = updateStencil ⟨f, a⟩ action st := by
  cases action with
  | replace =>
    have hreplaces : f.replaces = true := List.contains_iff_mem.mpr h
    cases hmasked : f.stencilMasked <;>
      simp [updateStencil, replaceStencil, settleReference, hreplaces, hmasked, stateBase]
  | _ => rfl

theorem failStencil_settleReference {action : StencilAction}
    (h : action ∈ f.actions) :
    failStencil ⟨f.settleReference, a⟩ action = failStencil ⟨f, a⟩ action := by
  simp only [failStencil, updateStencil_settleReference h]
  rfl

theorem stencilTest_settleReference (hcompares : f.stencilFunc.compares = false) (st : Reg) :
    stencilTest ⟨f.settleReference, a⟩ st = stencilTest ⟨f, a⟩ st := by
  have hmem : f.stencilFail ∈ f.actions := by simp [actions]
  have hfunc : f.settleReference.stencilFunc = f.stencilFunc := rfl
  have hnone : mirroredPassCond f.stencilFunc = none := by
    cases h : f.stencilFunc <;> first | rfl | simp [h, Comparison.compares] at hcompares
  simp only [stencilTest, hfunc, hnone]
  exact ite_congr rfl (fun _ => failStencil_settleReference hmem) fun _ => rfl

theorem depthTestUpdating_settleReference :
    depthTestUpdating ⟨f.settleReference, a⟩ = depthTestUpdating ⟨f, a⟩ := by
  have hmem : f.depthFail ∈ f.actions := by simp [actions]
  have hsame : f.settleReference.depthFail = f.depthFail := rfl
  simp only [depthTestUpdating, hsame, failStencil_settleReference hmem]
  rfl

theorem storedTests_settleReference (hcompares : f.stencilFunc.compares = false) :
    storedTests ⟨f.settleReference, a⟩ = storedTests ⟨f, a⟩ := by
  have hmem : f.depthPass ∈ f.actions := by simp [actions]
  have hpass (st : Reg) : updateStencil ⟨f.settleReference, a⟩ f.settleReference.depthPass st =
      updateStencil ⟨f, a⟩ f.depthPass st := updateStencil_settleReference hmem st
  have hanswer : f.settleReference.stencilFunc.passes (f.settleReference.stencilRef.setWidth 32) 0 =
      f.stencilFunc.passes (f.stencilRef.setWidth 32) 0 :=
    Comparison.passes_eq_of_not_compares hcompares _ _ _ _
  simp only [storedTests, stencilAndDepthTest, stencilTest_settleReference hcompares,
    depthTestUpdating_settleReference, hpass, hanswer]
  rfl

theorem bare_settleReference : bare ⟨f.settleReference, a⟩ = bare ⟨f, a⟩ := by
  cases hcompares : f.stencilFunc.compares with
  | true => rw [settleReference_of_compares hcompares]
  | false =>
    refine bare_congr rfl ?_ rfl
    rw [tests, storedTests_settleReference hcompares]
    rfl

/-! ## Tests without a stencil value -/

/-- What comes of a stencil test whose answer is known. -/
def answer (f : Features) : Emit Unit :=
  if f.stencilTest && !f.stencilFunc.passes (f.stencilRef.setWidth 32) 0 then Emit.leave
  else pure ()

theorem unmarked_storedTests (hloads : f.loadsStencil = false) :
    (storedTests ⟨f, a⟩).unmarked = answer f >>= fun _ => (depthTest ⟨f, a⟩).unmarked := by
  unfold storedTests answer
  cases htest : f.stencilTest with
  | false => exact (pure_bind _ _).symm
  | true =>
    have hformat : f.format.hasStencil = false := by
      rwa [loadsStencil, htest, Bool.true_and] at hloads
    simp only [if_true, stencilAndDepthTest, storedStencil, hformat, Bool.not_false, Bool.true_and,
      unmarked_bind, unmarked_mark, pure_bind]
    cases f.stencilFunc.passes (f.stencilRef.setWidth 32) 0
    · exact unmarked_bind _ _
    · exact (pure_bind _ _).symm

theorem unmarked_depthTest_always (h : f.depthFunc = .always) :
    (depthTest ⟨f, a⟩).unmarked = (dropDepthArg ⟨f, a⟩).unmarked := by
  simp only [depthTest, h, compareDepth, passCond, unmarked_bind, unmarked_mark, pure_bind]
  rfl

theorem unmarked_depthTest_never (h : f.depthFunc = .never) :
    (depthTest ⟨f, a⟩).unmarked = Emit.leave >>= fun _ => (dropDepthArg ⟨f, a⟩).unmarked := by
  simp only [depthTest, h, if_true, unmarked_bind, unmarked_mark, pure_bind]
  rfl

theorem unmarked_alphaTest_always (h : f.alphaFunc = .always) :
    (alphaTest ⟨f, a⟩).unmarked = pure () := by
  simp only [alphaTest, h, passCond, unmarked_bind, unmarked_mark, pure_bind]
  rfl

theorem unmarked_alphaTest_never (h : f.alphaFunc = .never) :
    (alphaTest ⟨f, a⟩).unmarked = Emit.leave := by
  simp only [alphaTest, h, passCond, unmarked_bind, unmarked_mark, pure_bind]
  rfl

/-- Tests with nothing between them. -/
theorem unmarked_tests (hloads : f.loadsStencil = false) (hfog : f.fog = false)
    (hcolor : f.colorTest = false) : (tests ⟨f, a⟩).unmarked = (do
      (alphaTest ⟨f, a⟩).unmarked
      Emit.forceRelease .argFog
      answer f
      (depthTest ⟨f, a⟩).unmarked) := by
  simp only [tests, fog, hfog, colorTest, hcolor, Bool.false_eq_true, if_false, unmarked_bind,
    unmarked_storedTests hloads, unmarked_mark, unmarked_pure, pure_bind]
  rfl

/-- Tests that differ in those of stored values alone. -/
theorem unmarked_tests_congr {env env' : Env} (halpha : alphaTest env = alphaTest env')
    (hfog : fog env = fog env') (hcolor : colorTest env = colorTest env')
    (hstored : (storedTests env).unmarked = (storedTests env').unmarked) :
    (tests env).unmarked = (tests env').unmarked := by
  simp only [tests, unmarked_bind, halpha, hfog, hcolor, hstored]

theorem bare_settleStencil : bare ⟨f.settleStencil, a⟩ = bare ⟨f, a⟩ := by
  unfold settleStencil
  split
  · rename_i h
    obtain ⟨htest, hformat⟩ := h
    refine bare_congr rfl (unmarked_tests_congr rfl rfl rfl ?_) rfl
    refine Eq.trans (unmarked_storedTests (loadsStencil_of_plain hformat)) ?_
    rw [unmarked_storedTests (loadsStencil_of_plain hformat)]
    refine congrArg (· >>= fun _ => (depthTest ⟨f, a⟩).unmarked) ?_
    unfold answer
    change (if f.stencilTest && !(if f.stencilFunc.passes (f.stencilRef.setWidth 32) 0
      then Comparison.always else .never).passes 0 0 then Emit.leave else pure ()) = _
    cases f.stencilFunc.passes (f.stencilRef.setWidth 32) 0 <;> rfl
  · rfl

theorem bare_settleFlag : bare ⟨f.settleFlag, a⟩ = bare ⟨f, a⟩ := by
  unfold settleFlag
  split
  · rename_i h
    obtain ⟨htest, hformat, hfunc⟩ := h
    refine bare_congr rfl (unmarked_tests_congr rfl rfl rfl ?_) ?_
    · rw [unmarked_storedTests (loadsStencil_of_plain hformat), answer, htest, hfunc]
      refine Eq.trans (unmarked_storedTests (loadsStencil_of_plain hformat)) ?_
      rw [answer, Features.stencilTest, Bool.and_false]
      rfl
    · have hdraw := draws_of_stencilTest htest
      cases f
      obtain rfl := hdraw
      rfl
  · rfl

theorem stencilTest_always (h : f.stencilFunc = .always) (st : Reg) :
    stencilTest ⟨f, a⟩ st = pure () := by
  simp only [stencilTest, h]
  rfl

theorem stencilTest_never (h : f.stencilFunc = .never) (st : Reg) :
    stencilTest ⟨f, a⟩ st = failStencil ⟨f, a⟩ f.stencilFail := by
  simp only [stencilTest, h, if_true]

theorem unmarked_depthTestUpdating_always (h : f.depthFunc = .always) :
    (depthTestUpdating ⟨f, a⟩).unmarked = (dropDepthArg ⟨f, a⟩).unmarked := by
  simp only [depthTestUpdating, h, compareDepth, passCond, unmarked_bind, unmarked_mark, pure_bind]
  rfl

theorem unmarked_depthTestUpdating_never (h : f.depthFunc = .never) :
    (depthTestUpdating ⟨f, a⟩).unmarked = (do
      (failStencil ⟨f, a⟩ f.depthFail).unmarked
      (dropDepthArg ⟨f, a⟩).unmarked) := by
  simp only [depthTestUpdating, h, if_true, unmarked_bind, unmarked_mark, pure_bind]

theorem bare_settleStored : bare ⟨f.settleStored, a⟩ = bare ⟨f, a⟩ := by
  unfold settleStored
  split
  · rename_i h
    obtain ⟨htest, hstencil, hdepth⟩ := h
    cases f
    obtain rfl := hstencil
    obtain rfl := hdepth
    refine bare_congr rfl (unmarked_tests_congr rfl rfl rfl ?_) rfl
    unfold storedTests
    rw [if_pos htest]
    refine Eq.trans (congrArg _ (if_pos htest)) ?_
    simp only [stencilAndDepthTest, unmarked_bind, unmarked_mark, pure_bind]
    refine congrArg (_ >>= ·) (funext fun o => ?_)
    cases o with
    | none =>
      refine Eq.trans (unmarked_depthTest_never rfl) ?_
      simp only [Comparison.passes, Bool.not_false, if_true, unmarked_bind,
        unmarked_depthTest_always]
      rfl
    | some st =>
      simp only [unmarked_bind, stencilTest_always, stencilTest_never, pure_bind,
        unmarked_depthTestUpdating_always, unmarked_depthTestUpdating_never, bind_assoc]
      rfl
  · rfl

/-- It makes no difference which of two leaves comes first. -/
theorem leave_answer (k : Emit Unit) : (do
    Emit.leave
    answer f
    k) = (do
    answer f
    Emit.leave
    k) := by
  unfold answer
  split
  · rfl
  · simp only [pure_bind]

theorem early_depthNever (h : f.depthFunc = .always) :
    early ⟨{ f with depthFunc := .never }, a⟩ = early ⟨f, a⟩ := by
  cases f
  obtain rfl := h
  rfl

theorem late_depthNever (h : f.depthFunc = .always) (plan : BlendPlan) :
    late ⟨{ f with depthFunc := .never }, a⟩ plan = late ⟨f, a⟩ plan := by
  cases f
  obtain rfl := h
  rfl

theorem bare_settleAlpha : bare ⟨f.settleAlpha, a⟩ = bare ⟨f, a⟩ := by
  unfold settleAlpha
  split
  · rfl
  rename_i hnone
  obtain ⟨hloads, hfog, hcolor⟩ : f.loadsStencil = false ∧ f.fog = false ∧ f.colorTest = false := by
    simpa only [not_or, Bool.not_eq_true] using hnone
  split
  · rename_i h
    obtain ⟨htest, hstencil, halpha⟩ := h
    refine bare_congr rfl ?_ rfl
    rw [unmarked_tests hloads hfog hcolor, unmarked_alphaTest_always halpha, answer, htest,
      hstencil]
    refine Eq.trans (unmarked_tests hloads hfog hcolor) ?_
    rw [unmarked_alphaTest_never rfl, pure_bind]
    have hanswer : answer { f with stencilFunc := .always, alphaFunc := .never } = pure () := by
      unfold answer
      simp only [Comparison.passes, Bool.not_true, Bool.and_false]
      rfl
    simp only [hanswer, pure_bind]
    exact leave_adjust _ _
  · split
    · rename_i h
      obtain ⟨halpha, hdepth⟩ := h
      refine bare_congr (congrArg _ (early_depthNever hdepth)) ?_
        (congrArg _ (late_depthNever hdepth _))
      rw [unmarked_tests hloads hfog hcolor, unmarked_alphaTest_never halpha,
        unmarked_depthTest_always hdepth]
      refine Eq.trans (unmarked_tests hloads hfog hcolor) ?_
      rw [unmarked_alphaTest_always rfl, unmarked_depthTest_never rfl, pure_bind]
      refine Eq.trans ?_ (leave_adjust _ _).symm
      exact congrArg (_ >>= ·) (funext fun _ => (leave_answer _).symm)
    · rfl

/-- What is settled shows nowhere in the code. -/
theorem bare_settled (h : f.Tidy) : bare ⟨f.settled, a⟩ = bare ⟨f, a⟩ := by
  unfold settled
  split
  · exact bare_settleClear h
  · rw [settleDraw, bare_settleStride, bare_settleBlend, bare_settleReference, bare_settleActions,
      bare_settleFlag, bare_settleAlpha, bare_settleStored, bare_settleStencil, bare_settleClear h]

end Compile

end PixelPipeline
