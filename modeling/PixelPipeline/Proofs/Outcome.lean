/-
# Proofs.Outcome — what is stored for a draw

The two kinds of bits of a pixel are taken one at a time: where a mask has the
color bits, or the stencil bits, what `Features.outcome` stores agrees with what
the configuration asks for (`Agree`).  A write mask that was compiled away
protects nothing that could be written.
-/
import PixelPipeline.Proofs.Draw
import PixelPipeline.Proofs.Tests

namespace PixelPipeline

open X86

/-! ## Bits of pixels -/

namespace Agree

variable {mask a b c : BitVec 32}

theorem refl (mask a : BitVec 32) : Agree mask a a := fun _ _ => rfl

theorem symm (h : Agree mask a b) : Agree mask b a := fun i hi => (h i hi).symm

theorem trans (h : Agree mask a b) (h' : Agree mask b c) : Agree mask a c :=
  fun i hi => (h i hi).trans (h' i hi)

/-- The bits of one word where a mask has ones, and of the other elsewhere. -/
theorem merge {kept kept' v v' : BitVec 32} (hk : Agree mask kept kept') (hv : Agree mask v v')
    (p : BitVec 32) :
    Agree mask ((p &&& kept) ||| (v &&& ~~~kept)) ((p &&& kept') ||| (v' &&& ~~~kept')) := by
  intro i hi
  simp only [BitVec.getLsbD_or, BitVec.getLsbD_and, BitVec.getLsbD_not, hk i hi, hv i hi]

theorem and_eq (h : Agree mask a b) : a &&& mask = b &&& mask := by
  apply BitVec.eq_of_getLsbD_eq
  intro i _
  rw [BitVec.getLsbD_and, BitVec.getLsbD_and]
  cases hm : mask.getLsbD i with
  | false => rw [Bool.and_false, Bool.and_false]
  | true => rw [h i hm]

/-- Words agree on what is part of a mask. -/
theorem and_of_subset {m : BitVec 32} (h : ∀ i, mask.getLsbD i = true → m.getLsbD i = true)
    (a : BitVec 32) : Agree mask (a &&& m) a := by
  intro i hi
  rw [BitVec.getLsbD_and, h i hi, Bool.and_true]

end Agree

namespace PixelFormat

variable (f : PixelFormat)

/-- Bits of a stored pixel that hold color. -/
def colorBits : BitVec 32 := f.pixelBits &&& ~~~f.stencilBits

theorem pixelBits_of_colorBits {i : Nat} (h : f.colorBits.getLsbD i = true) :
    f.pixelBits.getLsbD i = true := by
  rw [colorBits, BitVec.getLsbD_and, Bool.and_eq_true] at h
  exact h.1

theorem not_stencilBits_of_colorBits {i : Nat} (h : f.colorBits.getLsbD i = true) :
    (~~~f.stencilBits).getLsbD i = true := by
  rw [colorBits, BitVec.getLsbD_and, Bool.and_eq_true] at h
  exact h.2

theorem stencilBits_of_colorBits {i : Nat} (h : f.colorBits.getLsbD i = true) :
    f.stencilBits.getLsbD i = false := by
  have := f.not_stencilBits_of_colorBits h
  rw [BitVec.getLsbD_not, Bool.and_eq_true, Bool.not_eq_true'] at this
  exact this.2

theorem pixelBits_of_stencilBits {i : Nat} (h : f.stencilBits.getLsbD i = true) :
    f.pixelBits.getLsbD i = true := by
  have hsub : f.stencilBits &&& f.pixelBits = f.stencilBits := by cases f <;> rfl
  rw [← hsub, BitVec.getLsbD_and, Bool.and_eq_true] at h
  exact h.2

theorem hasStencil_of_bit {i : Nat} (h : f.stencilBits.getLsbD i = true) : f.hasStencil = true := by
  cases f <;> first | rfl | cases h.symm.trans BitVec.getLsbD_zero

/-- Where no stencil is stored, all words agree on it. -/
theorem agree_noStencil (h : f.hasStencil = false) (a b : BitVec 32) : Agree f.stencilBits a b := by
  intro i hi
  rw [f.hasStencil_of_bit hi] at h
  cases h

/-- What a pixel stores of a color in its color bits does not depend on alpha. -/
theorem narrow_color {w w' : BitVec 32} (h : Agree 0x00FFFFFF w w') :
    Agree f.colorBits (f.narrow w) (f.narrow w') :=
  (narrow_low h f).mono fun _ => f.not_stencilBits_of_colorBits

/-- What it stores in its stencil bits depends on alpha alone. -/
theorem narrow_stencil {w w' : BitVec 32} (h : Agree 0xFF000000 w w') :
    Agree f.stencilBits (f.narrow w) (f.narrow w') := by
  have hhigh (j : Nat) (hj : 24 ≤ j) (hlt : j < 32) : w.getLsbD j = w'.getLsbD j :=
    h j (by interval_cases j <;> rfl)
  intro i hi
  have hlt : i < 32 := BitVec.lt_of_getLsbD hi
  cases f <;> interval_cases i <;>
    simp [narrow, stencilBits, hhigh, -BitVec.getLsbD_eq_getElem] at hi ⊢

/-- A stencil is stored in the stencil bits. -/
theorem stencilBitsFor_of_not {i : Nat} (h : f.stencilBits.getLsbD i = false) (v : BitVec 8) :
    (f.stencilBitsFor v).getLsbD i = false := by
  by_cases hlt : i < 32
  · cases f <;> interval_cases i <;>
      simp [stencilBits, stencilBitsFor, -BitVec.getLsbD_eq_getElem] at h ⊢
  · exact BitVec.getLsbD_of_ge _ _ (Nat.le_of_not_lt hlt)

/-- The stencil bits of a color are those of its alpha as a stencil. -/
theorem narrow_alpha (c : BitVec 32) :
    Agree f.stencilBits (f.narrow c) (f.stencilBitsFor (c.extractLsb' 24 8)) := by
  intro i hi
  have hlt : i < 32 := BitVec.lt_of_getLsbD hi
  cases f <;> interval_cases i <;>
    simp [narrow, stencilBits, stencilBitsFor, -BitVec.getLsbD_eq_getElem] at hi ⊢

end PixelFormat

/-! ## Write masks -/

namespace Draw

variable {d : Draw}

theorem getLsbD_protected (s : DrawState) (i : Nat) : (Features.protectedColor s).getLsbD i =
    ((s.colorWriteMask.getLsbD i && (0x00FFFFFF : BitVec 32).getLsbD i) ||
      (s.alphaWriteMask.setWidth 32 <<< 24).getLsbD i) := by
  rw [Features.protectedColor, BitVec.getLsbD_or, BitVec.getLsbD_and]
  rfl

theorem protected_low (s : DrawState) :
    Agree 0x00FFFFFF (Features.protectedColor s) s.colorWriteMask := by
  intro i hi
  have hlt : i < 24 := by
    by_contra hge
    have : i < 32 := BitVec.lt_of_getLsbD hi
    interval_cases i <;> simp at hi
  rw [getLsbD_protected, hi, Bool.and_true, BitVec.getLsbD_shiftLeft, decide_eq_true hlt, Bool.not_true, Bool.and_false, Bool.false_and,
    Bool.or_false]

theorem protected_high (s : DrawState) :
    Agree 0xFF000000 (Features.protectedColor s) (s.alphaWriteMask.setWidth 32 <<< 24) := by
  intro i hi
  have hlow : (0x00FFFFFF : BitVec 32).getLsbD i = false := by
    have hlt : i < 32 := BitVec.lt_of_getLsbD hi
    interval_cases i <;> first | rfl | cases hi
  rw [getLsbD_protected, hlow, Bool.and_false, Bool.false_or]

/-- Alpha that is never written is above the color. -/
theorem keptAlpha_low (writes : Bool) {i : Nat} (hi : (0x00FFFFFF : BitVec 32).getLsbD i = true) :
    (Features.keptAlpha writes).getLsbD i = false := by
  have hlt : i < 32 := BitVec.lt_of_getLsbD hi
  cases writes <;> interval_cases i <;> first | rfl | cases hi

/-- The mask of a draw that is masked. -/
theorem keptBits_masked (h : Features.masksWrites d.config d.state = true) :
    d.features.keptBits d.fragment = d.config.format.narrow
      (Features.protectedColor d.state ||| Features.keptAlpha (Features.writesStencil d.config)) := by
  have hmask : d.features.writeMasked = true := h
  rw [Features.keptBits, if_pos hmask]
  show Features.writeMask d.config d.state = _
  rw [Features.writeMask, if_pos h]

/-- A draw that is not masked protects nothing that it could write. -/
theorem narrow_unmasked (h : Features.masksWrites d.config d.state = false) :
    d.config.format.narrow (Features.protectedColor d.state &&&
      ~~~(Features.keptAlpha (Features.writesStencil d.config))) = 0 := by
  rw [Features.masksWrites, bne_eq_false_iff_eq] at h
  exact h

/-- The color bits that a write of the color leaves alone. -/
theorem keptBits_color (d : Draw) :
    Agree d.config.format.colorBits (d.features.keptBits d.fragment) d.colorKept := by
  cases h : Features.masksWrites d.config d.state with
  | true =>
    rw [keptBits_masked h]
    refine d.config.format.narrow_color fun i hi => ?_
    rw [BitVec.getLsbD_or, keptAlpha_low _ hi, protected_low _ i hi, Bool.or_false]
  | false =>
    have hkept : Agree d.config.format.colorBits 0 d.colorKept := by
      rw [← narrow_unmasked h]
      refine d.config.format.narrow_color fun i hi => ?_
      rw [BitVec.getLsbD_and, BitVec.getLsbD_not, keptAlpha_low _ hi, protected_low _ i hi,
        decide_eq_true (BitVec.lt_of_getLsbD hi), Bool.not_false, Bool.true_and,
        Bool.and_true]
    refine Agree.trans (fun i hi => ?_) hkept
    have hmask : d.features.writeMasked = false := h
    rw [Features.keptBits, hmask, if_neg Bool.false_ne_true, features_format]
    split
    · rfl
    · rw [d.config.format.stencilBits_of_colorBits hi]
      exact BitVec.getLsbD_zero.symm

/-! ### Stencil bits -/

/-- Stencil bits are stored exactly if the configuration asks for it. -/
theorem stores_eq (hs : d.config.format.hasStencil = true) :
    (d.features.stencilClear || (d.features.carriedStencil d.fragment).isSome) =
      Features.writesStencil d.config := by
  unfold Features.writesStencil Features.carriedStencil
  rw [features_format, hs, Bool.and_true]
  cases h : d.config.clear with
  | some flags =>
    rw [features_clear h]
    exact Bool.or_false _
  | none =>
    have hmode := (features_base h).1
    rw [Features.stencilClear, hmode, Bool.false_and, Bool.false_or]
    cases ht : d.config.stencilTest with
    | none =>
      rw [stencilTest_none h ht]
      rfl
    | some t =>
      rw [(features_stencil h ht).1]
      rfl

/-- Where nothing of a pixel is protected, neither is its stencil. -/
theorem alphaKept_unmasked (h : Features.masksWrites d.config d.state = false)
    (hw : Features.writesStencil d.config = true) : Agree d.config.format.stencilBits 0 d.alphaKept := by
  have hzero := narrow_unmasked h
  rw [hw] at hzero
  rw [← hzero]
  refine d.config.format.narrow_stencil fun i hi => ?_
  rw [BitVec.getLsbD_and, protected_high _ i hi]
  show ((_ : Bool) && (~~~(0 : BitVec 32)).getLsbD i) = _
  rw [show (~~~(0 : BitVec 32)) = BitVec.allOnes 32 from rfl, BitVec.getLsbD_allOnes,
    decide_eq_true (BitVec.lt_of_getLsbD hi), Bool.and_true]

/-- The stencil bits that a write of the color leaves alone, if it is to write
them. -/
theorem keptBits_stencil (hw : Features.writesStencil d.config = true) :
    Agree d.config.format.stencilBits (d.features.keptBits d.fragment) d.alphaKept := by
  cases hs : d.config.format.hasStencil with
  | false =>
    exact d.config.format.agree_noStencil hs _ _
  | true =>
    cases h : Features.masksWrites d.config d.state with
    | true =>
      rw [keptBits_masked h, hw]
      refine d.config.format.narrow_stencil fun i hi => ?_
      rw [BitVec.getLsbD_or, protected_high _ i hi]
      show ((_ : Bool) || (0 : BitVec 32).getLsbD i) = _
      rw [show (0 : BitVec 32).getLsbD i = false from BitVec.getLsbD_zero, Bool.or_false]
    | false =>
      have hmask : d.features.writeMasked = false := h
      rw [Features.keptBits, hmask, if_neg Bool.false_ne_true, if_pos ((stores_eq hs).trans hw)]
      exact alphaKept_unmasked h hw

/-- Otherwise it leaves all of them alone. -/
theorem keptBits_all (hw : Features.writesStencil d.config = false) :
    Agree d.config.format.stencilBits (d.features.keptBits d.fragment) (BitVec.allOnes 32) := by
  cases h : Features.masksWrites d.config d.state with
  | true =>
    have hall : Agree d.config.format.stencilBits (d.config.format.narrow 0xFF000000)
        (BitVec.allOnes 32) := by
      intro i hi
      have hlt : i < 32 := BitVec.lt_of_getLsbD hi
      revert hi
      cases d.config.format <;> interval_cases i <;> decide
    rw [keptBits_masked h, hw]
    refine Agree.trans (d.config.format.narrow_stencil fun i hi => ?_) hall
    show (Features.protectedColor d.state ||| 0xFF000000).getLsbD i = _
    rw [BitVec.getLsbD_or, hi, Bool.or_true]
  | false =>
    have hmask : d.features.writeMasked = false := h
    cases hs : d.config.format.hasStencil with
    | false =>
      exact d.config.format.agree_noStencil hs _ _
    | true =>
      rw [Features.keptBits, hmask, if_neg Bool.false_ne_true, (stores_eq hs).trans hw,
        if_neg Bool.false_ne_true, features_format]
      intro i hi
      rw [hi, BitVec.getLsbD_allOnes, decide_eq_true (BitVec.lt_of_getLsbD hi)]

/-- The stencil bits that a write of the stencil alone may change. -/
theorem openStencilBits_eq (hw : Features.writesStencil d.config = true) :
    Agree d.config.format.stencilBits (d.features.openStencilBits d.fragment) (~~~d.alphaKept) := by
  rw [Features.openStencilBits, features_format]
  cases h : Features.masksWrites d.config d.state with
  | true =>
    have hmask : d.features.writeMasked = true := h
    rw [if_pos hmask, BitVec.and_comm]
    exact Agree.and_of_subset (fun _ hi => hi) _
  | false =>
    have hmask : d.features.writeMasked = false := h
    rw [hmask, if_neg Bool.false_ne_true]
    intro i hi
    rw [hi, BitVec.getLsbD_not, ← alphaKept_unmasked h hw i hi,
      show (0 : BitVec 32).getLsbD i = false from BitVec.getLsbD_zero,
      decide_eq_true (BitVec.lt_of_getLsbD hi)]
    rfl

/-! ### Stored pixels -/

/-- A write of the stencil alone replaces the stencil bits that are not
protected, -/
theorem withStencil_stencil (hw : Features.writesStencil d.config = true) (v : BitVec 8) :
    Agree d.config.format.stencilBits (d.features.withStencil d.fragment v)
      ((d.pixel &&& d.alphaKept) ||| (d.config.format.stencilBitsFor v &&& ~~~d.alphaKept)) := by
  intro i hi
  have hopen := openStencilBits_eq hw i hi
  have hlt := decide_eq_true (BitVec.lt_of_getLsbD hi)
  rw [BitVec.getLsbD_not, hlt, Bool.true_and] at hopen
  rw [Features.withStencil, features_format]
  simp only [BitVec.getLsbD_or, BitVec.getLsbD_and, BitVec.getLsbD_not, hopen, hlt, Bool.true_and,
    Bool.not_not]
  rfl

/-- and leaves the color bits as they are. -/
theorem withStencil_color (d : Draw) (v : BitVec 8) :
    Agree d.config.format.colorBits (d.features.withStencil d.fragment v) d.pixel := by
  intro i hi
  have hbit := d.config.format.stencilBits_of_colorBits hi
  have hopen : (d.features.openStencilBits d.fragment).getLsbD i = false := by
    rw [Features.openStencilBits, features_format]
    split
    · rw [BitVec.getLsbD_and, hbit, Bool.false_and]
    · exact hbit
  rw [Features.withStencil, BitVec.getLsbD_or, BitVec.getLsbD_and, BitVec.getLsbD_and,
    BitVec.getLsbD_not, hopen, Bool.and_false, Bool.or_false, Bool.not_false, Bool.and_true,
    decide_eq_true (BitVec.lt_of_getLsbD (d.config.format.pixelBits_of_colorBits hi)), Bool.and_true]
  rfl

/-- A color keeps its color bits beside a stencil. -/
theorem joined_color (d : Draw) (c : BitVec 32) :
    Agree d.config.format.colorBits (d.features.joined d.fragment c) c := by
  intro i hi
  have hbit := d.config.format.stencilBits_of_colorBits hi
  rw [Features.joined, features_format]
  split
  · rw [BitVec.getLsbD_or, BitVec.getLsbD_and, d.config.format.not_stencilBits_of_colorBits hi,
      Bool.and_true, d.config.format.stencilBitsFor_of_not hbit, Bool.or_false]
  · rfl

/-- A write of the color replaces the color bits that are not protected. -/
theorem written_color {v : BitVec 32}
    (hv : Agree d.config.format.colorBits (d.features.combined d.fragment) v) :
    Agree d.config.format.colorBits (d.features.written d.fragment)
      ((d.pixel &&& d.colorKept) ||| (v &&& ~~~d.colorKept)) := by
  rw [Features.written_eq, features_format]
  refine Agree.trans (Agree.and_of_subset (fun _ => d.config.format.pixelBits_of_colorBits) _) ?_
  exact Agree.merge (keptBits_color d) ((joined_color d _).trans hv) d.pixel

/-- If it is to write stencil bits, it replaces those that are not protected, too. -/
theorem written_stencil (hw : Features.writesStencil d.config = true) {v : BitVec 32}
    (hv : Agree d.config.format.stencilBits
      (d.features.joined d.fragment (d.features.combined d.fragment)) v) :
    Agree d.config.format.stencilBits (d.features.written d.fragment)
      ((d.pixel &&& d.alphaKept) ||| (v &&& ~~~d.alphaKept)) := by
  rw [Features.written_eq, features_format]
  refine Agree.trans (Agree.and_of_subset (fun _ => d.config.format.pixelBits_of_stencilBits) _) ?_
  exact Agree.merge (keptBits_stencil hw) hv d.pixel

/-- If not, it leaves them alone. -/
theorem written_kept (hw : Features.writesStencil d.config = false) :
    Agree d.config.format.stencilBits (d.features.written d.fragment) d.pixel := by
  rw [Features.written_eq, features_format]
  refine Agree.trans (Agree.and_of_subset (fun _ => d.config.format.pixelBits_of_stencilBits) _) ?_
  refine Agree.trans (Agree.merge (keptBits_all hw) (Agree.refl _ _) d.pixel) fun i hi => ?_
  rw [BitVec.not_allOnes, BitVec.and_allOnes]
  show (d.pixel ||| (_ &&& (0 : BitVec 32))).getLsbD i = _
  rw [show ∀ a : BitVec 32, a &&& 0 = 0 from fun a => BitVec.and_zero,
    show d.pixel ||| 0 = d.pixel from BitVec.or_zero]

/-! ## The color of a draw -/

section

variable (h : d.config.clear = none)

include h

/-- What is recorded of a blend. -/
theorem features_blend {b : Blend} (hb : d.config.blend = some b) :
    d.features.blend = true ∧ d.features.blendEquation = b.equation ∧
      (b.equation.usesFactors = true → d.features.blendSrc = b.src.fold d.state.blendFixA ∧
        d.features.blendDst = b.dst.fold d.state.blendFixB) := by
  have hform : (DrawForm.of d.config d.state).blend = some (b.normal d.state) := by
    rw [DrawForm.of, hb]
    rfl
  rw [features_draw h, DrawForm.features, hform, Blend.normal_eq]
  cases b.equation.usesFactors with
  | true => exact ⟨rfl, rfl, fun _ => ⟨rfl, rfl⟩⟩
  | false => exact ⟨rfl, rfl, fun he => absurd he Bool.false_ne_true⟩

end

/-! ## Outcomes -/

section

variable (h : d.config.clear = none)

include h

/-- A fragment that passes all tests is written. -/
theorem outcome_survives (hs : d.survives = true) : d.features.outcome d.fragment =
    (d.features.written d.fragment, if d.config.depthWrite then d.args.z else d.depth) := by
  obtain ⟨hmode, -, hwrite, -⟩ := features_base h
  rw [Features.outcome, (verdict_passed_iff h).mpr hs]
  show (d.features.passedPixel d.fragment, if d.features.depthFlag = true then _ else _) = _
  rw [Features.passedPixel, hmode, hwrite, Bool.false_and, if_neg Bool.false_ne_true]
  rfl

/-- A fragment that fails without reaching a stencil test leaves everything as it
is. -/
theorem outcome_discarded (hs : d.survives = false)
    (ht : d.config.stencilTest = none ∨ d.enters = false) :
    d.features.outcome d.fragment = (d.pixel, d.depth) := by
  have hverdict : d.features.verdict d.fragment = .discarded := by
    cases htest : d.config.stencilTest with
    | none => rw [verdict_plain h htest, hs, if_neg Bool.false_ne_true]
    | some t =>
      have henters : d.enters = false := ht.resolve_left (by rw [htest]; exact Option.some_ne_none t)
      rw [verdict_stencil h htest, henters]
      rfl
  rw [Features.outcome, hverdict]
  rfl

/-- A fragment that fails the stencil test, or behind it, has its stencil updated. -/
theorem outcome_updated (hs : d.survives = false) {t : StencilTest}
    (ht : d.config.stencilTest = some t) (he : d.enters = true) :
    d.features.outcome d.fragment =
      (d.features.withStencil d.fragment (d.features.newStencil d.fragment
        (if !d.stencilPasses then (Features.storedActions t d.config.format).1
          else (Features.storedActions t d.config.format).2.1)), d.depth) := by
  rw [survives, he, Bool.true_and] at hs
  rw [Features.outcome, verdict_stencil h ht, he]
  cases hpasses : d.stencilPasses with
  | false => rfl
  | true =>
    rw [hpasses, Bool.true_and] at hs
    rw [hs]
    rfl

/-- The color bits of a fragment that fails stay as they are. -/
theorem outcome_color (hs : d.survives = false) :
    Agree d.config.format.colorBits (d.features.outcome d.fragment).1 d.pixel := by
  cases ht : d.config.stencilTest with
  | none =>
    rw [outcome_discarded h hs (.inl ht)]
    exact Agree.refl _ _
  | some t =>
    cases he : d.enters with
    | false =>
      rw [outcome_discarded h hs (.inr he)]
      exact Agree.refl _ _
    | true =>
      rw [outcome_updated h hs ht he]
      exact withStencil_color d _

/-- Without a stencil test that is reached, the stencil bits stay as they are. -/
theorem outcome_noStencil (ht : d.config.stencilTest = none ∨ d.enters = false) :
    Agree d.config.format.stencilBits (d.features.outcome d.fragment).1 d.pixel := by
  cases hs : d.survives with
  | false =>
    rw [outcome_discarded h hs ht]
    exact Agree.refl _ _
  | true =>
    have hno : d.config.stencilTest = none := ht.resolve_right fun he => by
      rw [survives, he, Bool.false_and, Bool.false_and] at hs
      cases hs
    have hw : Features.writesStencil d.config = false := by
      rw [Features.writesStencil, h, hno]
      rfl
    rw [outcome_survives h hs]
    exact written_kept hw

/-- A stencil test that is reached updates the stencil. -/
theorem outcome_stencil {t : StencilTest} (ht : d.config.stencilTest = some t) (he : d.enters = true)
    (href : d.state.stencilRef = t.reference) :
    Agree d.config.format.stencilBits (d.features.outcome d.fragment).1
      ((d.pixel &&& d.alphaKept) ||| (d.config.format.stencilBitsFor
        ((d.stencilAction t).apply d.config.format d.stencil t.reference) &&& ~~~d.alphaKept)) := by
  have hw : Features.writesStencil d.config = true := by
    rw [Features.writesStencil, h, ht]
    rfl
  cases hhas : d.config.format.hasStencil with
  | false =>
    exact d.config.format.agree_noStencil hhas _ _
  | true =>
    have hstored : Features.storedActions t d.config.format = (t.fail, t.depthFail, t.depthPass) :=
      if_pos hhas
    have hreads : d.reads t = (t.func.compares || t.fail == .replace || t.depthFail == .replace ||
        t.depthPass == .replace) := by
      rw [reads, hstored]
    cases hs : d.survives with
    | true =>
      obtain ⟨htest, -, hactions, -⟩ := features_stencil h ht
      have hpass : d.features.depthPass = t.depthPass := by
        rw [hstored] at hactions
        exact congrArg (·.2.2) hactions
      have haction : d.stencilAction t = t.depthPass := by
        rw [survives, he, Bool.true_and, Bool.and_eq_true] at hs
        rw [stencilAction, hs.1, hs.2]
        rfl
      have hnew : d.features.newStencil d.fragment t.depthPass = _ :=
        newStencil_eq h ht href fun ha => by rw [hreads, ha, beq_self_eq_true, Bool.or_true]
      have hcarried : d.features.carriedStencil d.fragment =
          some (t.depthPass.apply d.config.format d.stencil t.reference) := by
        rw [Features.carriedStencil, htest, features_format, hhas, hpass, hnew]
        rfl
      rw [outcome_survives h hs, haction]
      refine written_stencil hw fun i hi => ?_
      rw [Features.joined, hcarried, features_format]
      dsimp only
      rw [BitVec.getLsbD_or, BitVec.getLsbD_and, BitVec.getLsbD_not, hi, Bool.not_true,
        Bool.and_false, Bool.and_false, Bool.false_or]
    | false =>
      have haction : (if !d.stencilPasses then t.fail else t.depthFail) = d.stencilAction t := by
        rw [survives, he, Bool.true_and] at hs
        rw [stencilAction]
        cases hpasses : d.stencilPasses with
        | false => rfl
        | true =>
          rw [hpasses, Bool.true_and] at hs
          rw [hs]
          rfl
      rw [outcome_updated h hs ht he, hstored, haction, newStencil_eq h ht href fun ha => ?_]
      · exact withStencil_stencil hw _
      · rw [← haction] at ha
        rw [hreads]
        cases hpasses : d.stencilPasses <;> rw [hpasses] at ha
        · rw [show t.fail = .replace from ha, beq_self_eq_true, Bool.or_true, Bool.true_or,
            Bool.true_or]
        · rw [show t.depthFail = .replace from ha, beq_self_eq_true, Bool.or_true, Bool.true_or]

/-- The stencil bits come out as the configuration asks for. -/
theorem outcome_restenciled
    (href : ∀ t, d.config.stencilTest = some t → d.state.stencilRef = t.reference) :
    Agree d.config.format.stencilBits (d.features.outcome d.fragment).1 d.restenciled := by
  cases hhas : d.config.format.hasStencil with
  | false => exact d.config.format.agree_noStencil hhas _ _
  | true =>
    cases ht : d.config.stencilTest with
    | none =>
      rw [restenciled, ht]
      exact outcome_noStencil h (.inl ht)
    | some t =>
      cases he : d.enters with
      | false =>
        rw [restenciled, ht, hhas, he]
        exact outcome_noStencil h (.inr he)
      | true =>
        rw [restenciled, ht, hhas, he]
        exact outcome_stencil h ht he (href t ht)

/-- Depth is replaced if it is to be written and all tests pass. -/
theorem outcome_depth : (d.features.outcome d.fragment).2 =
    if d.config.depthWrite && d.survives then d.args.z else d.depth := by
  cases hs : d.survives with
  | true =>
    rw [outcome_survives h hs, Bool.and_true]
  | false =>
    rw [Bool.and_false, if_neg Bool.false_ne_true]
    cases ht : d.config.stencilTest with
    | none => rw [outcome_discarded h hs (.inl ht)]
    | some t =>
      cases he : d.enters with
      | false => rw [outcome_discarded h hs (.inr he)]
      | true => rw [outcome_updated h hs ht he]

end

/-! ### Clears -/

section

variable {flags : ClearFlags} (h : d.config.clear = some flags)

include h

/-- A clear has no test but the one of depth range. -/
theorem outcome_clear : d.features.outcome d.fragment =
    if d.rangePasses then (d.features.passedPixel d.fragment,
      if flags.depth then d.args.z else d.depth) else (d.pixel, d.depth) := by
  have hverdict : d.features.verdict d.fragment = if d.rangePasses then .passed else .discarded := by
    rw [Features.verdict, rangePasses_eq, features_clear h]
    show (if (!(d.rangePasses && true && true)) = true then _ else Verdict.passed) = _
    cases d.rangePasses <;> rfl
  have hdepth : d.features.depthWrite = flags.depth := by rw [features_clear h]; rfl
  rw [Features.outcome, hverdict, hdepth]
  cases d.rangePasses <;> rfl

/-- The color that a clear stores is the one it is called with. -/
theorem combined_clear : d.features.combined d.fragment =
    if flags.stencil then d.config.format.narrow d.args.color
    else d.config.format.narrow d.args.color &&& ~~~d.config.format.stencilBits := by
  have hlane (i : Fin 4) : d.features.dithered d.fragment i = channels d.args.color i := by
    rw [features_clear h]
    rfl
  have hop : d.features.rasterOp = false := by rw [features_clear h]; rfl
  have hclear : d.features.stencilClear = flags.stencil := by rw [features_clear h]; rfl
  rw [Features.combined, hop, if_neg Bool.false_ne_true, Features.storedColor, hclear, features_format,
    hlane, hlane, hlane, hlane, Setting.packColor_channels]

theorem passedPixel_clear : d.features.passedPixel d.fragment =
    if flags.color then d.features.written d.fragment
    else if flags.stencil then d.features.withStencil d.fragment d.alpha else d.pixel := by
  have hmode : d.features.clearMode = true := by rw [features_clear h]; rfl
  have hcolor : d.features.colorClear = flags.color := by rw [features_clear h]; rfl
  have hclear : d.features.stencilClear = flags.stencil := by rw [features_clear h]; rfl
  rw [Features.passedPixel, hmode, hcolor, hclear]
  cases flags.color <;> rfl

/-- The color bits are replaced by a color clear. -/
theorem cleared_color : Agree d.config.format.colorBits (d.features.passedPixel d.fragment)
    (if flags.color then d.colorCleared else d.pixel) := by
  rw [passedPixel_clear h]
  cases flags.color with
  | true =>
    refine written_color ?_
    rw [combined_clear h]
    cases flags.stencil with
    | true => exact Agree.refl _ _
    | false => exact Agree.and_of_subset (fun _ => d.config.format.not_stencilBits_of_colorBits) _
  | false =>
    cases flags.stencil with
    | true => exact withStencil_color d _
    | false => exact Agree.refl _ _

/-- The stencil bits are replaced by a stencil clear, whether the color is cleared
with them or not. -/
theorem cleared_stencil : Agree d.config.format.stencilBits (d.features.passedPixel d.fragment)
    (if flags.stencil then d.stencilCleared else d.pixel) := by
  have hw : Features.writesStencil d.config = flags.stencil := by rw [Features.writesStencil, h]
  rw [passedPixel_clear h]
  cases hs : flags.stencil with
  | true =>
    rw [hs] at hw
    cases flags.color with
    | true =>
      refine written_stencil hw ?_
      have hcarried : d.features.carriedStencil d.fragment = none := by
        rw [features_clear h]
        rfl
      rw [Features.joined, hcarried, combined_clear h, hs]
      exact d.config.format.narrow_alpha d.args.color
    | false => exact withStencil_stencil hw _
  | false =>
    rw [hs] at hw
    cases flags.color with
    | true => exact written_kept hw
    | false => exact Agree.refl _ _

end

end Draw

end PixelPipeline
