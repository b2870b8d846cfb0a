/-
# Proofs.Visible — what shows of settled features

When everything that the compiler decides has been put to one value (`Features.settled`), every
setting that is left does something to the code.  Tests that leave in any case are found in one
order (`Features.Placed`), an update is made behind a test that some pixels fail and is told from
the others by what it does (`Features.Updated`), and a reference is compared or stored
(`Features.Referenced`).  Each of these is brought about by one step of the settling and kept by
the steps behind it, so that in the end it holds of a draw (`Features.Visible`); for a clear there
is less to say (`Features.Cleared`).
-/
import PixelPipeline.Proofs.Settled

namespace PixelPipeline

namespace Features

variable {f : Features}

/-! ## What is unset stays unset -/

namespace Tidy

theorem settleClear (h : f.Tidy) : f.settleClear.Tidy := by
  unfold Features.settleClear
  split
  · split
    · exact h
    · cases hclear : f.clearMode with
      | false =>
        have hsame : f.asDraw = f := asDraw_eq hclear
        exact hsame.symm ▸ h
      | true =>
        have hoff : f.stencilTest = false := by rw [stencilTest, hclear]; rfl
        exact { h with
          clear := fun hno => Bool.noConfusion hno
          stencil := fun _ => h.stencil hoff }
  split
  · exact h
  · rename_i hwrites hclears
    have hclear : f.clearMode = true := by
      rw [writesColor, Bool.not_eq_true', Bool.not_eq_false, Bool.and_eq_true] at hwrites
      exact hwrites.1
    have hoff : f.stencilTest = false := by rw [stencilTest, hclear]; rfl
    exact { h with
      stencil := fun _ => h.stencil hoff
      actions := fun _ => (h.stencil hoff).2.2.2 }

theorem settleStencil (h : f.Tidy) : f.settleStencil.Tidy := by
  unfold Features.settleStencil
  split
  · rename_i hs
    exact { h with stencil := fun hno => absurd (hno.symm.trans hs.1) Bool.false_ne_true }
  · exact h

theorem settleStored (h : f.Tidy) : f.settleStored.Tidy := by
  unfold Features.settleStored
  split
  · rename_i hs
    exact { h with
      clear := fun hno => absurd ((draws_of_stencilTest hs.1).symm.trans hno)
        Bool.false_ne_true
      stencil := fun hno => absurd (hno.symm.trans hs.1) Bool.false_ne_true
      actions := fun hno => ⟨rfl, (h.actions hno).1, (h.actions hno).2.2⟩ }
  · exact h

theorem settleAlpha (h : f.Tidy) : f.settleAlpha.Tidy := by
  unfold Features.settleAlpha
  split
  · exact h
  split
  · rename_i hs
    obtain ⟨htest, -, halpha⟩ := hs
    have hunset := h.compares (by rw [halpha]; rfl)
    exact { h with
      clear := fun hno => absurd ((draws_of_stencilTest htest).symm.trans hno)
        Bool.false_ne_true
      alpha := fun _ => hunset
      stencil := fun hno => absurd (hno.symm.trans htest) Bool.false_ne_true
      compares := fun _ => hunset }
  split
  · rename_i hs
    obtain ⟨halpha, -⟩ := hs
    have hunset := h.compares (by rw [halpha]; rfl)
    exact { h with
      clear := fun hclear => absurd ((h.clear hclear).1.symm.trans halpha) (by decide)
      alpha := fun _ => hunset
      compares := fun _ => hunset }
  · exact h

theorem settleFlag (h : f.Tidy) (hplain : f.stencilTest = true → f.format.hasStencil = false →
    f.stencilRef = 0 ∧ f.stencilMasked = false) : f.settleFlag.Tidy := by
  unfold Features.settleFlag
  split
  · rename_i hs
    obtain ⟨htest, hformat, hfunc⟩ := hs
    obtain ⟨href, hmasked⟩ := hplain htest hformat
    exact { h with stencil := fun _ => ⟨hfunc, href, hmasked, h.actions hformat⟩ }
  · exact h

theorem settleActions (h : f.Tidy) : f.settleActions.Tidy := by
  have hkept (b : Prop) [Decidable b] {action : StencilAction} (h : action = .keep) :
      (if b then .keep else f.settledAction action) = StencilAction.keep := by
    rw [settledAction_eq_keep.mpr h, ite_self]
  refine { h with stencil := fun hno => ?_, actions := fun hno => ?_ }
  · obtain ⟨hfunc, href, hmasked, hfail, hdepthFail, hdepthPass⟩ := h.stencil hno
    exact ⟨hfunc, href, hmasked, hkept _ hfail, hkept _ hdepthFail,
      settledAction_eq_keep.mpr hdepthPass⟩
  · obtain ⟨hfail, hdepthFail, hdepthPass⟩ := h.actions hno
    exact ⟨hkept _ hfail, hkept _ hdepthFail, settledAction_eq_keep.mpr hdepthPass⟩

theorem settleReference (h : f.Tidy) : f.settleReference.Tidy := by
  refine { h with stencil := fun hno => ?_ }
  obtain ⟨hfunc, href, hmasked, hactions⟩ := h.stencil hno
  refine ⟨hfunc, ?_, ?_, hactions⟩
  · simp only [Features.settleReference, href, ite_self]
  · simp only [Features.settleReference, hmasked, Bool.false_and]

theorem settleBlend (h : f.Tidy) : f.settleBlend.Tidy := by
  unfold Features.settleBlend
  by_cases hs : f.blendEquation = .subtract ∧ f.blendDst = .zero
  · rw [if_pos hs]
    exact { h with
      blend := fun hno => ⟨rfl, (h.toNormal.blend hno).2⟩
      factors := fun hno => Bool.noConfusion hno }
  · rw [if_neg hs]
    exact h

theorem settleStride (h : f.Tidy) : f.settleStride.Tidy := { h with }

end Tidy

/-! ## The order of tests -/

/-- A stencil test without stencil bits has an answer. -/
structure Answered (f : Features) : Prop where
  plain : f.stencilTest = true → f.format.hasStencil = false →
    (f.stencilFunc = .never ∨ f.stencilFunc = .always) ∧ f.stencilRef = 0 ∧ f.stencilMasked = false

/-- Behind a stencil test that no pixel passes there is a depth test. -/
def Backed (f : Features) : Prop :=
  f.stencilTest = true → f.stencilFunc = .never → f.depthFunc ≠ .always

/-- With nothing between the tests, a stencil test that leaves in any case has an alpha test in
front of it, and an alpha test that does has a depth test behind it. -/
structure Ordered (f : Features) : Prop extends f.Answered where
  stored : f.Backed
  front : f.loadsStencil = false → f.fog = false → f.colorTest = false →
    (f.stencilTest = true → f.stencilFunc = .never → f.alphaFunc ≠ .always) ∧
      (f.alphaFunc = .never → f.depthFunc ≠ .always)

/-- Of tests with nothing between them that leave in any case, the first to be there is the depth
test, then comes the alpha test, and the stencil test is the last. -/
structure Placed (f : Features) : Prop where
  plain : f.stencilTest = true → f.format.hasStencil = false →
    f.stencilFunc = .never ∧ f.stencilRef = 0 ∧ f.stencilMasked = false
  stored : f.Backed
  front : f.loadsStencil = false → f.fog = false → f.colorTest = false →
    (f.stencilTest = true → f.alphaFunc ≠ .always) ∧ (f.alphaFunc = .never → f.depthFunc ≠ .always)

theorem answered_settleStencil : f.settleStencil.Answered := by
  unfold settleStencil
  split
  · refine ⟨fun _ _ => ⟨?_, rfl, rfl⟩⟩
    dsimp only
    split
    · exact .inr rfl
    · exact .inl rfl
  · rename_i hno
    exact ⟨fun htest hformat => absurd ⟨htest, hformat⟩ hno⟩

theorem Answered.settleStored (h : f.Answered) : f.settleStored.Answered := by
  unfold Features.settleStored
  split
  · exact ⟨fun htest hformat => ⟨.inr rfl, (h.plain htest hformat).2⟩⟩
  · exact h

theorem backed_settleStored : f.settleStored.Backed := by
  unfold settleStored
  split
  · rintro _ ⟨⟩
  · rename_i hno
    exact fun htest hfunc hdepth => hno ⟨htest, hfunc, hdepth⟩

theorem Answered.settleAlpha (h : f.Answered) (hstored : f.Backed) : f.settleAlpha.Ordered := by
  unfold Features.settleAlpha
  split
  · rename_i hs
    refine ⟨h, hstored, fun hloads hfog hcolor => ?_⟩
    simp [hloads, hfog, hcolor] at hs
  split
  · rename_i hs
    obtain ⟨htest, hfunc, -⟩ := hs
    exact ⟨⟨fun _ hformat => ⟨.inr rfl, (h.plain htest hformat).2⟩⟩,
      fun _ hnever => Comparison.noConfusion hnever,
      fun _ _ _ => ⟨fun _ hnever => Comparison.noConfusion hnever, fun _ => hstored htest hfunc⟩⟩
  rename_i hno
  split
  · rename_i hs
    exact ⟨⟨h.plain⟩, fun _ _ halways => Comparison.noConfusion halways,
      fun _ _ _ => ⟨fun htest hfunc => absurd hs.2 (hstored htest hfunc),
        fun hnever => Comparison.noConfusion hnever⟩⟩
  · rename_i hno'
    exact ⟨h, hstored, fun _ _ _ => ⟨fun htest hfunc halpha => hno ⟨htest, hfunc, halpha⟩,
      fun halpha hdepth => hno' ⟨halpha, hdepth⟩⟩⟩

theorem Ordered.settleFlag (h : f.Ordered) : f.settleFlag.Placed := by
  unfold Features.settleFlag
  split
  · rename_i hs
    obtain ⟨-, hformat, -⟩ := hs
    have hoff {p : Prop} (htest : Features.stencilTest { f with stencilFlag := false } = true) :
        p :=
      absurd ((Bool.and_false _).symm.trans htest) Bool.false_ne_true
    exact ⟨fun htest => hoff htest, fun htest => hoff htest, fun _ hfog hcolor =>
      ⟨fun htest => hoff htest, (h.front (loadsStencil_of_plain hformat) hfog hcolor).2⟩⟩
  · rename_i hno
    have hplain (htest : f.stencilTest = true) (hformat : f.format.hasStencil = false) :
        f.stencilFunc = .never :=
      (h.plain htest hformat).1.resolve_right fun hfunc => hno ⟨htest, hformat, hfunc⟩
    refine ⟨fun htest hformat => ⟨hplain htest hformat, (h.plain htest hformat).2⟩, h.stored,
      fun hloads hfog hcolor => ⟨fun htest => ?_, (h.front hloads hfog hcolor).2⟩⟩
    rw [loadsStencil, htest, Bool.true_and] at hloads
    exact (h.front (loadsStencil_of_plain hloads) hfog hcolor).1 htest (hplain htest hloads)

theorem Placed.settleActions (h : f.Placed) : f.settleActions.Placed := { h with }

theorem Placed.settleReference (h : f.Placed) : f.settleReference.Placed := by
  refine { h with plain := fun htest hformat => ?_ }
  obtain ⟨hfunc, href, hmasked⟩ := h.plain htest hformat
  refine ⟨hfunc, ?_, ?_⟩
  · simp only [Features.settleReference, href, ite_self]
  · simp only [Features.settleReference, hmasked, Bool.false_and]

theorem Placed.settleBlend (h : f.Placed) : f.settleBlend.Placed := { h with }

theorem Placed.settleStride (h : f.Placed) : f.settleStride.Placed := { h with }

/-! ## Updates and their reference -/

/-- No other update does what this one does to a stencil value of one bit. -/
def Distinct (f : Features) (action : StencilAction) : Prop :=
  f.format = .rgba5551 → action ≠ .decrement ∧
    (action = .replace → f.stencilMasked = false → f.stencilRef ≠ 0xFF)

/-- The updates behind a test are for the pixels that fail it, and no two of them do the same. -/
structure Updated (f : Features) : Prop where
  fail : f.stencilFunc = .always → f.stencilFail = .keep
  depthFail : f.depthFunc = .always → f.depthFail = .keep
  distinct : ∀ action ∈ f.actions, f.Distinct action

/-- A reference that is not compared is stored. -/
def Referenced (f : Features) : Prop :=
  f.stencilFunc.compares = false → (f.stencilMasked = true → f.replaces = true) ∧
    (f.stencilRef ≠ 0 → f.replaces = true ∧ f.stencilMasked = false)

theorem distinct_keep : f.Distinct .keep := fun _ => ⟨by decide, StencilAction.noConfusion⟩

theorem distinct_settledAction (action : StencilAction) : f.Distinct (f.settledAction action) := by
  intro hformat
  unfold settledAction
  rw [if_pos hformat]
  cases action with
  | replace =>
    dsimp only
    split
    · exact ⟨by decide, StencilAction.noConfusion⟩
    · rename_i hno
      exact ⟨by decide, fun _ hmasked href => hno ⟨hmasked, href⟩⟩
  | _ => exact ⟨StencilAction.noConfusion, StencilAction.noConfusion⟩

theorem updated_settleActions : f.settleActions.Updated := by
  refine ⟨fun h => if_pos h, fun h => if_pos h, fun action haction => ?_⟩
  show f.Distinct action
  simp only [actions, settleActions, List.mem_cons, List.not_mem_nil, or_false] at haction
  rcases haction with rfl | rfl | rfl
  · split
    · exact distinct_keep
    · exact distinct_settledAction _
  · split
    · exact distinct_keep
    · exact distinct_settledAction _
  · exact distinct_settledAction _

theorem Updated.settleReference (h : f.Updated) : f.settleReference.Updated := by
  refine ⟨h.fail, h.depthFail, fun action haction hformat =>
    ⟨(h.distinct action haction hformat).1, fun hreplace hmasked => ?_⟩⟩
  have hreplaces : f.replaces = true := List.contains_iff_mem.mpr (hreplace ▸ haction)
  simp only [Features.settleReference, hreplaces, Bool.or_true, Bool.and_true] at hmasked ⊢
  simpa [hmasked] using (h.distinct action haction hformat).2 hreplace hmasked

theorem Updated.settleBlend (h : f.Updated) : f.settleBlend.Updated := { h with }

theorem Updated.settleStride (h : f.Updated) : f.settleStride.Updated := { h with }

theorem referenced_settleReference : f.settleReference.Referenced := by
  intro hno
  have hno' : f.stencilFunc.compares = false := hno
  have hsame : f.settleReference.replaces = f.replaces := rfl
  rw [hsame]
  simp only [settleReference, hno']
  cases f.replaces <;> cases f.stencilMasked <;> simp

theorem Referenced.settleBlend (h : f.Referenced) : f.settleBlend.Referenced := h

theorem Referenced.settleStride (h : f.Referenced) : f.settleStride.Referenced := h

/-! ## Draws -/

theorem not_subtract_settleBlend :
    ¬(f.settleBlend.blendEquation = .subtract ∧ f.settleBlend.blendDst = .zero) := by
  rintro ⟨hequation, hdst⟩
  dsimp only [settleBlend] at hequation hdst
  split at hequation
  · exact BlendEquation.noConfusion hequation
  · rename_i hno
    exact hno ⟨hequation, hdst⟩

theorem standardStride_settleStride (h : f.settleStride.dither = true) :
    f.settleStride.standardStride = false := by
  have hdither : f.dither = true := h
  show Compile.fastAddress f = false
  rw [Compile.fastAddress, hdither, Bool.not_true, Bool.and_false]

theorem clearMode_settleDraw : f.settleDraw.clearMode = f.clearMode := by
  have hstencil (f : Features) : f.settleStencil.clearMode = f.clearMode := by
    unfold settleStencil
    split <;> rfl
  have hstored (f : Features) : f.settleStored.clearMode = f.clearMode := by
    unfold settleStored
    split <;> rfl
  have halpha (f : Features) : f.settleAlpha.clearMode = f.clearMode := by
    unfold settleAlpha
    repeat' split
    all_goals rfl
  have hflag (f : Features) : f.settleFlag.clearMode = f.clearMode := by
    unfold settleFlag
    split <;> rfl
  have hactions (f : Features) : f.settleActions.clearMode = f.clearMode := rfl
  have hreference (f : Features) : f.settleReference.clearMode = f.clearMode := rfl
  have hblend (f : Features) : f.settleBlend.clearMode = f.clearMode := rfl
  have hstride (f : Features) : f.settleStride.clearMode = f.clearMode := rfl
  rw [settleDraw, hstride, hblend, hreference, hactions, hflag, halpha, hstored, hstencil]

/-- Every setting of the draw can be seen in its program. -/
structure Visible (f : Features) : Prop extends f.Tidy, f.Placed, f.Updated where
  draws : f.clearMode = false
  reference : f.Referenced
  subtract : ¬(f.blendEquation = .subtract ∧ f.blendDst = .zero)
  stride : f.dither = true → f.standardStride = false

theorem visible_settleDraw (h : f.Tidy) (hdraw : f.clearMode = false) : f.settleDraw.Visible := by
  have hordered : f.settleStencil.settleStored.settleAlpha.Ordered :=
    answered_settleStencil.settleStored.settleAlpha backed_settleStored
  have htidy := h.settleStencil.settleStored.settleAlpha.settleFlag fun htest hformat =>
    (hordered.plain htest hformat).2
  have hclear := clearMode_settleDraw.trans hdraw
  rw [settleDraw] at hclear ⊢
  exact ⟨htidy.settleActions.settleReference.settleBlend.settleStride,
    hordered.settleFlag.settleActions.settleReference.settleBlend.settleStride,
    updated_settleActions.settleReference.settleBlend.settleStride, hclear,
    referenced_settleReference.settleBlend.settleStride,
    not_subtract_settleBlend, standardStride_settleStride⟩

/-! ## Clears -/

/-- Every setting of the clear can be seen in its program. -/
structure Cleared (f : Features) : Prop extends f.Tidy where
  clears : f.clearMode = true
  color : f.colorFlag = true → f.writesAlpha = true
  idle : f.colorFlag = false → f.clearsStencil = false → f.stencilFlag = false ∧
    f.writeMasked = false ∧ (f.standardStride = true → f.depthFlag = true) ∧
      f.format = if f.standardStride && f.format.bytesPerPixel == 4 then .rgba8888 else .rgb565

/-- The format that stands for the way of an idle clear stands for itself. -/
theorem format_idle (format : PixelFormat) (short : Bool) :
    let format' : PixelFormat := if short && format.bytesPerPixel == 4 then .rgba8888 else .rgb565
    format' = if short && format'.bytesPerPixel == 4 then .rgba8888 else .rgb565 := by
  cases short <;> cases format <;> rfl

theorem cleared_settleClear (h : f.Tidy) (hclear : f.settleClear.clearMode = true) :
    f.settleClear.Cleared := by
  have htidy := h.settleClear
  unfold settleClear at hclear htidy ⊢
  by_cases hwrites : f.writesColor = true
  · rw [if_pos hwrites] at hclear htidy ⊢
    by_cases halpha : f.writesAlpha = true
    · rw [if_pos halpha] at hclear htidy ⊢
      refine ⟨htidy, hclear, fun _ => halpha, fun hcolor => ?_⟩
      simp [writesColor, hclear, hcolor] at hwrites
    · rw [if_neg halpha] at hclear
      exact absurd hclear Bool.false_ne_true
  · rw [if_neg hwrites] at hclear htidy ⊢
    obtain ⟨-, hcolor⟩ : f.clearMode = true ∧ f.colorFlag = false := by
      simpa [writesColor] using hwrites
    by_cases hclears : f.clearsStencil = true
    · rw [if_pos hclears] at hclear htidy ⊢
      exact ⟨htidy, hclear, fun hno => absurd (hcolor.symm.trans hno) Bool.false_ne_true,
        fun _ hno => absurd (hno.symm.trans hclears) Bool.false_ne_true⟩
    · rw [if_neg hclears] at hclear htidy ⊢
      refine ⟨htidy, hclear, fun hno => absurd (hcolor.symm.trans hno) Bool.false_ne_true,
        fun _ _ => ⟨rfl, rfl, fun hstride => ?_, ?_⟩⟩
      · have hstride : (f.standardStride && f.depthWrite) = true := hstride
        exact (Bool.and_eq_true_iff.mp hstride).2
      · exact format_idle f.format (f.standardStride && f.depthWrite)

/-- What is settled leaves nothing that does not show. -/
theorem settled_visible (h : f.Tidy) : f.settled.Visible ∨ f.settled.Cleared := by
  unfold settled
  split
  · rename_i hclear
    exact .inr (cleared_settleClear h hclear)
  · rename_i hdraw
    exact .inl (visible_settleDraw h.settleClear (Bool.eq_false_iff.mpr hdraw))

end Features

end PixelPipeline
