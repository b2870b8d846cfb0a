/-
# Proofs.Masks — the bits that a draw may write

A write mask is asked for in the terms of a color and applied in those of a stored
pixel.  Each bit of a stored pixel is one bit of the color it is narrowed from, so
masks are narrowed bit by bit: what a draw protects and may write is the same
question before and after.
-/
import PixelPipeline.Proofs.NormalForm
import PixelPipeline.Proofs.Outcome

namespace PixelPipeline

/-! ## Narrowed masks -/

namespace PixelFormat

variable (f : PixelFormat)

/-- The bit of a color that is stored as a bit of a pixel. -/
def source (i : Nat) : Nat :=
  match f with
  | rgb565 => if i < 5 then i + 3 else if i < 11 then i + 5 else i + 8
  | rgba5551 => if i < 5 then i + 3 else if i < 10 then i + 6 else if i < 15 then i + 9 else i + 16
  | rgba4444 => if i < 4 then i + 4 else if i < 8 then i + 8 else if i < 12 then i + 12 else i + 16
  | rgba8888 => i

theorem getLsbD_narrow (c : BitVec 32) (i : Nat) :
    (f.narrow c).getLsbD i = (f.pixelBits.getLsbD i && c.getLsbD (f.source i)) := by
  by_cases hi : i < 32
  · cases f <;> interval_cases i <;> simp [narrow, pixelBits, source, -BitVec.getLsbD_eq_getElem]
  · rw [BitVec.getLsbD_of_ge _ _ (Nat.le_of_not_lt hi), BitVec.getLsbD_of_ge _ _ (Nat.le_of_not_lt hi),
      Bool.false_and]

theorem narrow_and (a b : BitVec 32) : f.narrow (a &&& b) = f.narrow a &&& f.narrow b := by
  apply BitVec.eq_of_getLsbD_eq
  intro i _
  simp only [getLsbD_narrow, BitVec.getLsbD_and]
  cases f.pixelBits.getLsbD i <;> rfl

theorem narrow_or (a b : BitVec 32) : f.narrow (a ||| b) = f.narrow a ||| f.narrow b := by
  apply BitVec.eq_of_getLsbD_eq
  intro i _
  simp only [getLsbD_narrow, BitVec.getLsbD_or]
  cases f.pixelBits.getLsbD i <;> rfl

end PixelFormat

/-! ## Bits that may be written -/

/-- Stencil bits are written by a clear of the stencil, and by a draw with a stencil test that
is no clear. -/
def Config.writesStencil (c : Config) : Bool :=
  c.clear.any (·.stencil) || (c.clear.isNone && c.stencilTest.isSome)

theorem Features.writesStencil_eq (c : Config) : Features.writesStencil c = c.writesStencil := by
  rw [Features.writesStencil, Config.writesStencil]
  cases c.clear with
  | none => rfl
  | some flags => exact (Bool.or_false flags.stencil).symm

/-- The bits of a stored pixel that a configuration may write: all of them, or those
of the color. -/
def Config.writableBits (c : Config) : BitVec 32 :=
  if c.writesStencil then c.format.pixelBits
  else c.format.pixelBits &&& ~~~c.format.stencilBits

/-- The stencil bits, for a configuration that does not write them. -/
def Config.fixedBits (c : Config) : BitVec 32 :=
  if c.writesStencil then 0 else c.format.stencilBits

namespace Features

variable (c : Config) (s : DrawState)

theorem narrow_open (p : BitVec 32) :
    c.format.narrow (p &&& ~~~(keptAlpha (writesStencil c))) =
      c.format.narrow p &&& c.writableBits := by
  rw [PixelFormat.narrow_and]
  have hopen : c.format.narrow (~~~(keptAlpha (writesStencil c))) = c.writableBits := by
    rw [Config.writableBits, ← writesStencil_eq]
    cases writesStencil c <;> cases c.format <;> rfl
  rw [hopen]

theorem narrow_kept (p : BitVec 32) :
    c.format.narrow (p ||| keptAlpha (writesStencil c)) = c.format.narrow p ||| c.fixedBits := by
  rw [PixelFormat.narrow_or]
  have hkept : c.format.narrow (keptAlpha (writesStencil c)) = c.fixedBits := by
    rw [Config.fixedBits, ← writesStencil_eq]
    cases writesStencil c <;> cases c.format <;> rfl
  rw [hkept]

theorem masksWrites_eq :
    masksWrites c s = (c.format.narrow (protectedColor s) &&& c.writableBits != 0) := by
  rw [masksWrites, narrow_open]

theorem writeMask_masked (h : masksWrites c s = true) :
    writeMask c s = c.format.narrow (protectedColor s) ||| c.fixedBits := by
  rw [writeMask, if_pos h, narrow_kept]

end Features

/-- Of the bits of a pixel, those that may be written are the ones that are not fixed. -/
theorem Config.writable_iff (c : Config) {i : Nat} (hi : c.format.pixelBits.getLsbD i = true) :
    c.writableBits.getLsbD i = !c.fixedBits.getLsbD i := by
  unfold Config.writableBits Config.fixedBits
  split
  · rw [hi, show (0 : BitVec 32).getLsbD i = false from BitVec.getLsbD_zero]
    rfl
  · rw [BitVec.getLsbD_and, hi, BitVec.getLsbD_not, decide_eq_true (BitVec.lt_of_getLsbD hi)]
    rfl

theorem ne_zero_iff (w : BitVec 32) : w ≠ 0 ↔ ∃ i, w.getLsbD i = true := by
  constructor
  · intro h
    by_contra hnone
    refine h (BitVec.eq_of_getLsbD_eq fun i _ => ?_)
    exact (Bool.eq_false_iff.mpr fun hi => hnone ⟨i, hi⟩).trans BitVec.getLsbD_zero.symm
  · rintro ⟨i, hi⟩ rfl
    exact Bool.false_ne_true (BitVec.getLsbD_zero.symm.trans hi)

/-! ## Stores -/

/-- The bits of the stored pixel that a write of the color leaves alone: those of the
key's mask, or without one the bits that are fixed. -/
def Key.keptBits (k : Key) (c : Config) : BitVec 32 :=
  if k.features.writeMasked then k.constants.writeMask else c.fixedBits

theorem Key.writeMasked_ofConfig (c : Config) (s : DrawState) :
    (Key.ofConfig c s).features.writeMasked = Features.masksWrites c s := by
  rw [features_ofConfig, Features.ofConfig]

theorem Key.keptBits_ofConfig (c : Config) (s : DrawState) : (Key.ofConfig c s).keptBits c =
    if Features.masksWrites c s then Features.writeMask c s else c.fixedBits := by
  rw [Key.keptBits, writeMasked_ofConfig, Key.ofConfig]

/-- A store of the color keeps the bits that the key and the configuration tell. -/
theorem Draw.keptBits_eq (d : Draw) :
    d.features.keptBits d.fragment = (Key.ofConfig d.config d.state).keptBits d.config := by
  rw [Key.keptBits_ofConfig]
  cases h : Features.masksWrites d.config d.state with
  | true => exact if_pos h
  | false =>
    have hmask : d.features.writeMasked = false := h
    rw [Features.keptBits, hmask, if_neg Bool.false_ne_true, if_neg Bool.false_ne_true,
      Config.fixedBits, ← Features.writesStencil_eq, features_format]
    cases hs : d.config.format.hasStencil with
    | true => rw [stores_eq hs]
    | false =>
      have hnone : d.config.format.stencilBits = 0 := by
        by_contra hne
        rw [(PixelFormat.hasStencil_iff _).mpr hne] at hs
        cases hs
      rw [hnone, ite_self, ite_self]

/-- A bit is kept exactly if it may not be written or is protected. -/
theorem Key.getLsbD_keptBits (c : Config) (s : DrawState) {i : Nat}
    (hi : c.format.pixelBits.getLsbD i = true) : ((Key.ofConfig c s).keptBits c).getLsbD i =
      !(c.writableBits &&& ~~~(c.format.narrow (Features.protectedColor s))).getLsbD i := by
  rw [keptBits_ofConfig, BitVec.getLsbD_and, BitVec.getLsbD_not,
    decide_eq_true (BitVec.lt_of_getLsbD hi), Bool.true_and]
  cases h : Features.masksWrites c s with
  | true =>
    rw [if_pos rfl, Features.writeMask_masked c s h, BitVec.getLsbD_or, c.writable_iff hi]
    cases c.fixedBits.getLsbD i <;> simp
  | false =>
    -- No bit is protected that could be written.
    have hnone : c.format.narrow (Features.protectedColor s) &&& c.writableBits = 0 := by
      rwa [Features.masksWrites_eq, bne_eq_false_iff_eq] at h
    have hbit := congrArg (·.getLsbD i) hnone
    simp only [BitVec.getLsbD_and] at hbit
    rw [if_neg Bool.false_ne_true]
    rw [c.writable_iff hi] at hbit ⊢
    cases hfixed : c.fixedBits.getLsbD i with
    | true => rfl
    | false =>
      rw [hfixed, Bool.not_false, Bool.and_true] at hbit
      rw [hbit, show (0 : BitVec 32).getLsbD i = false from BitVec.getLsbD_zero]
      rfl

/-- The flag of a write mask is set exactly if the draw protects a bit that it could
write, and the mask then has the bits that it protects and those that are fixed.
So a store of the color replaces the bits that may be written and are not protected,
and no others. -/
theorem Key.write_mask_exact (c : Config) (s : DrawState) :
    let p := c.format.narrow
      ((s.colorWriteMask &&& (0x00FFFFFF : BitVec 32)) ||| (s.alphaWriteMask.setWidth 32 <<< 24))
    let k := Key.ofConfig c s
    (k.features.writeMasked = true ↔
      ∃ i, p.getLsbD i = true ∧ c.writableBits.getLsbD i = true) ∧
    k.constants.writeMask = (if k.features.writeMasked then
      if c.writesStencil then p else p ||| c.format.stencilBits else 0) ∧
    ∀ old new, ((old &&& k.keptBits c) ||| (new &&& ~~~(k.keptBits c))) &&& c.format.pixelBits =
      ((old &&& ~~~(c.writableBits &&& ~~~p)) ||| (new &&& (c.writableBits &&& ~~~p))) &&&
        c.format.pixelBits := by
  intro p k
  have hp : p = c.format.narrow (Features.protectedColor s) := rfl
  refine ⟨?_, ?_, fun old new => ?_⟩
  · rw [writeMasked_ofConfig, Features.masksWrites_eq, bne_iff_ne, ne_zero_iff, ← hp]
    simp only [BitVec.getLsbD_and, Bool.and_eq_true]
  · show Features.writeMask c s = _
    rw [writeMasked_ofConfig]
    cases h : Features.masksWrites c s with
    | true =>
      rw [Features.writeMask_masked c s h, if_pos rfl, Config.fixedBits, hp]
      split
      · exact BitVec.or_zero
      · rfl
    | false =>
      rw [Features.writeMask, h]
      rfl
  · apply BitVec.eq_of_getLsbD_eq
    intro i _
    rw [BitVec.getLsbD_and, BitVec.getLsbD_and]
    cases hi : c.format.pixelBits.getLsbD i with
    | false => rw [Bool.and_false, Bool.and_false]
    | true =>
      have hlt := decide_eq_true (BitVec.lt_of_getLsbD hi)
      rw [BitVec.getLsbD_or, BitVec.getLsbD_or, BitVec.getLsbD_and, BitVec.getLsbD_and,
        BitVec.getLsbD_and, BitVec.getLsbD_and, BitVec.getLsbD_not, BitVec.getLsbD_not, hlt,
        getLsbD_keptBits c s hi, ← hp, Bool.true_and, Bool.true_and, Bool.not_not]

end PixelPipeline
