/-
# Proofs.Write — the color write

The register that is stored agrees with the color that is meant on the bits that
the write does not keep (`Agree`); the others come from the stored pixel, or
from the stencil value that is joined with the color.  Each store leaves the
pixel as one formula says (`PixelStored`), whatever mask it is made under.
-/
import PixelPipeline.Compile.Write
import PixelPipeline.Proofs.Conversions
import PixelPipeline.Proofs.Shading
import PixelPipeline.Proofs.Stencil

namespace PixelPipeline

open X86 Compile

/-! ## Words that agree -/

/-- Two words have the same bits where a mask has ones. -/
def Agree (mask a b : BitVec 32) : Prop := ∀ i, mask.getLsbD i = true → a.getLsbD i = b.getLsbD i

theorem Agree.of_eq {a b : BitVec 32} (h : a = b) (mask : BitVec 32) : Agree mask a b :=
  fun _ _ => h ▸ rfl

/-- A raster operation looks at each bit alone. -/
theorem Agree.apply {mask a b : BitVec 32} (h : Agree mask a b) (op : RasterOp) (d : BitVec 32) :
    Agree mask (op.apply a d) (op.apply b d) := by
  intro i hi
  have hab := h i hi
  cases op <;>
    simp only [RasterOp.apply, BitVec.getLsbD_and, BitVec.getLsbD_or, BitVec.getLsbD_xor,
      BitVec.getLsbD_not, hab]

/-- Two words are the same once the bits on which they may differ are replaced. -/
theorem Agree.replaced {mask a b : BitVec 32} (h : Agree (~~~mask) a b) (v : BitVec 32) :
    (a &&& ~~~mask) ||| v = (b &&& ~~~mask) ||| v := by
  apply BitVec.eq_of_getLsbD_eq
  intro i hi
  have := h i
  simp only [BitVec.getLsbD_and, BitVec.getLsbD_or, BitVec.getLsbD_not] at this ⊢
  grind

theorem Agree.mono {mask mask' a b : BitVec 32} (h : Agree mask a b)
    (hsub : ∀ i, mask'.getLsbD i = true → mask.getLsbD i = true) : Agree mask' a b :=
  fun i hi => h i (hsub i hi)

/-- Below the alpha byte a color shows its first three lanes. -/
theorem packColor_low (c c' : Fin 4 → Int) (h : ∀ i, i ≠ 3 → c i = c' i) :
    Agree 0x00FFFFFF (packColor (c 0) (c 1) (c 2) (c 3)) (packColor (c' 0) (c' 1) (c' 2) (c' 3)) := by
  intro i hi
  have hlt : i < 24 := by
    by_contra hge
    have : i < 32 := BitVec.lt_of_getLsbD hi
    interval_cases i <;> simp at hi
  have htop (v : BitVec 32) : (v <<< 24).getLsbD i = false := by simp [hlt]
  simp only [packColor, BitVec.getLsbD_or, htop, h 0 (by decide), h 1 (by decide), h 2 (by decide)]

theorem getLsbD_clampByte (x : Int) {j : Nat} (hj : 8 ≤ j) : (clampByte x).getLsbD j = false := by
  obtain ⟨n, hn, h⟩ : ∃ n : Nat, n < 256 ∧ max 0 (min x 255) = (n : Int) :=
    ⟨(max 0 (min x 255)).toNat, by omega, by omega⟩
  have hpow : 2 ^ 8 ≤ 2 ^ j := Nat.pow_le_pow_right (by decide) hj
  rw [clampByte, h, BitVec.ofInt_natCast, BitVec.getLsbD_ofNat,
    Nat.testBit_lt_two_pow (Nat.lt_of_lt_of_le hn hpow), Bool.and_false]

/-- The alpha byte of a color shows its last lane. -/
theorem packColor_high (r g b a : Int) :
    (packColor r g b a).extractLsb' 24 8 = (clampByte a).setWidth 8 := by
  apply BitVec.eq_of_getLsbD_eq
  intro i hi
  have hnone (x : Int) (n : Nat) (hn : n ≤ 16) : (clampByte x <<< n).getLsbD (24 + i) = false := by
    rw [BitVec.getLsbD_shiftLeft, getLsbD_clampByte x (by omega), Bool.and_false]
  rw [BitVec.getLsbD_extractLsb', packColor, BitVec.getLsbD_or, BitVec.getLsbD_or, BitVec.getLsbD_or,
    getLsbD_clampByte r (by omega), hnone g 8 (by decide), hnone b 16 (by decide),
    BitVec.getLsbD_shiftLeft, BitVec.getLsbD_setWidth, Nat.add_sub_cancel_left]
  simp only [Bool.false_or, hi, decide_true, Bool.true_and, show 24 + i < 32 by omega,
    show ¬24 + i < 24 by omega, decide_false, Bool.not_false]

/-- What a pixel stores of a color, its stencil bits apart, does not depend on
alpha. -/
theorem PixelFormat.narrow_low {w w' : BitVec 32} (h : Agree 0x00FFFFFF w w') (f : PixelFormat) :
    Agree (~~~f.stencilBits) (f.narrow w) (f.narrow w') := by
  have hlow (j : Nat) (hj : j < 24) : w.getLsbD j = w'.getLsbD j :=
    h j (by interval_cases j <;> rfl)
  intro i hi
  have hlt : i < 32 := BitVec.lt_of_getLsbD hi
  cases f <;> interval_cases i <;>
    simp [narrow, stencilBits, hlow, -BitVec.getLsbD_eq_getElem] at hi ⊢

namespace Features

variable (f : Features) (p : Fragment)

/-- The bits of a stored color that a pipeline may write with the color itself. -/
def colorBits : BitVec 32 :=
  if f.stencilClear then BitVec.allOnes 32 else ~~~f.format.stencilBits

/-- A color beside the stencil value that is stored with it. -/
def joined (color : BitVec 32) : BitVec 32 :=
  match f.carriedStencil p with
  | some stencil => (color &&& ~~~f.format.stencilBits) ||| f.format.stencilBitsFor stencil
  | none => color

/-- The bits that a write without a mask leaves alone. -/
def ownKept : BitVec 32 :=
  if f.stencilClear || (f.carriedStencil p).isSome then 0 else f.format.stencilBits

theorem written_eq : f.written p =
    ((p.pixel &&& f.keptBits p) ||| (f.joined p (f.combined p) &&& ~~~(f.keptBits p))) &&&
      f.format.pixelBits := rfl

variable {f p}

theorem agree_joined {a b : BitVec 32} (h : Agree f.colorBits a b) :
    Agree (~~~(f.ownKept p)) (f.joined p a) (f.joined p b) := by
  unfold joined ownKept
  cases f.carriedStencil p with
  | some v =>
    refine Agree.of_eq (Agree.replaced (h.mono fun i hi => ?_) _) _
    unfold colorBits
    split
    · rw [BitVec.getLsbD_allOnes, decide_eq_true (BitVec.lt_of_getLsbD hi)]
    · exact hi
  | none =>
    rw [Option.isSome_none, Bool.or_false]
    unfold colorBits at h
    split
    · rename_i hclear
      rwa [if_pos hclear] at h
    · rename_i hclear
      rwa [if_neg hclear] at h

/-- A mask covers the stencil bits of a pipeline that never writes them. -/
def Covered (f : Features) (p : Fragment) : Prop :=
  f.writeMasked = true → f.stencilClear = false → f.carriedStencil p = none →
    f.format.stencilBits &&& ~~~p.constants.writeMask = 0

theorem agree_kept (hcover : f.Covered p) {a b : BitVec 32} (h : Agree (~~~(f.ownKept p)) a b) :
    Agree (~~~(f.keptBits p)) a b := by
  unfold keptBits
  split
  · rename_i hmasked
    refine h.mono fun i hi => ?_
    unfold ownKept
    split
    · rw [BitVec.getLsbD_not, decide_eq_true (BitVec.lt_of_getLsbD hi)]
      exact congrArg (!·) BitVec.getLsbD_zero
    · rename_i hno
      simp only [Bool.or_eq_true, not_or, Bool.not_eq_true, Option.isSome_eq_false_iff,
        Option.isNone_iff_eq_none] at hno
      have hbit := congrArg (BitVec.getLsbD · i) (hcover hmasked hno.1 hno.2)
      simp only [BitVec.getLsbD_and, BitVec.getLsbD_not] at hbit hi ⊢
      grind
  · exact h

end Features

/-! ## Raster operations -/

/-- Color and stored pixel in their registers, and everything else as it was. -/
structure View.Operands (s : View) (color dst : Reg) (c d : BitVec 32) (s' : View) : Prop where
  color : s'.roles .gen0 = .word color (c.setWidth 64)
  dst : s'.roles .gen4 = .word dst (d.setWidth 64)
  frame : s.Frame [.gen0, .gen4] s'

theorem View.operands_self {s : View} {color dst : Reg} {c d : BitVec 32}
    (hc : s.roles .gen0 = .word color (c.setWidth 64))
    (hd : s.roles .gen4 = .word dst (d.setWidth 64)) : s.Operands color dst c d s :=
  ⟨hc, hd, .refl _ _⟩

namespace Setting

variable {k : Setting} {s s' : View} {L : Memory → Prop} {Q : Unit → View → Prop}

section

variable {color dst : Reg} {c d : BitVec 32} {is : List Instr} (h : s.Operands color dst c d s')

include h

theorem join_operands {o : AluOp} (ho : o.IsPlain)
    (hn : ∀ s₁, s.Operands color dst (o.value c d) d s₁ → k.Leads (Emit.ops is) s₁ Q L) :
    k.Leads (Emit.ops (.alu o false color dst :: is)) s' Q L := by
  refine .ops_cons (.alu ho h.color h.dst fun f => hn _ ⟨?_, h.dst, (h.frame.set (by simp) _).setFlags f⟩)
  simp only [View.roles_setFlags, View.roles_set, low_widened]
  rfl

theorem invertColor_operands
    (hn : ∀ s₁, s.Operands color dst (~~~c) d s₁ → k.Leads (Emit.ops is) s₁ Q L) :
    k.Leads (Emit.ops (.not false color :: is)) s' Q L := by
  refine .ops_cons (.not h.color (hn _ ⟨?_, h.dst, h.frame.set (by simp) _⟩))
  rw [View.roles_set_self, low_widened]

theorem invertDst_operands
    (hn : ∀ s₁, s.Operands color dst c (~~~d) s₁ → k.Leads (Emit.ops is) s₁ Q L) :
    k.Leads (Emit.ops (.not false dst :: is)) s' Q L := by
  refine .ops_cons (.not h.dst (hn _ ⟨h.color, ?_, h.frame.set (by simp) _⟩))
  rw [View.roles_set_self, low_widened]

theorem copyDst_operands
    (hn : ∀ s₁, s.Operands color dst d d s₁ → k.Leads (Emit.ops is) s₁ Q L) :
    k.Leads (Emit.ops (.mov false color dst :: is)) s' Q L := by
  refine .ops_cons (.mov h.color h.dst (hn _ ⟨?_, h.dst, h.frame.set (by simp) _⟩))
  rw [View.roles_set_self, low_widened]

/-- The body of an operation puts its result into the register of the color. -/
theorem rasterOpBody_leads (op : RasterOp)
    (hn : ∀ s₁, s.Frame [.gen0, .gen4] s₁ →
      s₁.roles .gen0 = .word color ((op.apply c d).setWidth 64) → Q () s₁) :
    k.Leads (Emit.ops (rasterOpBody op color dst)) s' Q L := by
  have done {c' d' : BitVec 32} (hc : c' = op.apply c d) (s₁ : View)
      (h₁ : s.Operands color dst c' d' s₁) : k.Leads (Emit.ops []) s₁ Q L :=
    .ops_nil (hn s₁ h₁.frame (hc ▸ h₁.color))
  cases op with
  | clear =>
    refine .ops_cons (.alu (o := .xor) trivial h.color h.color fun f => .ops_nil (hn _
      ((h.frame.set (by simp) _).setFlags f) ?_))
    simp only [View.roles_setFlags, View.roles_set_self, AluOp.value, BitVec.xor_self]
    rfl
  | and => exact join_operands (o := .and) h trivial (done rfl)
  | andReverse =>
    exact invertDst_operands h fun s₁ h₁ => join_operands (o := .and) h₁ trivial (done rfl)
  | copy => exact done rfl s' h
  | andInverted =>
    exact invertColor_operands h fun s₁ h₁ => join_operands (o := .and) h₁ trivial (done rfl)
  | noop => exact copyDst_operands h (done rfl)
  | xor => exact join_operands (o := .xor) h trivial (done rfl)
  | or => exact join_operands (o := .or) h trivial (done rfl)
  | nor =>
    exact join_operands (o := .or) h trivial fun s₁ h₁ => invertColor_operands h₁ (done rfl)
  | equiv =>
    exact join_operands (o := .xor) h trivial fun s₁ h₁ => invertColor_operands h₁ (done rfl)
  | inverted => exact copyDst_operands h fun s₁ h₁ => invertColor_operands h₁ (done rfl)
  | orReverse =>
    exact invertDst_operands h fun s₁ h₁ => join_operands (o := .or) h₁ trivial (done rfl)
  | copyInverted => exact invertColor_operands h (done rfl)
  | orInverted =>
    exact invertColor_operands h fun s₁ h₁ => join_operands (o := .or) h₁ trivial (done rfl)
  | nand =>
    exact join_operands (o := .and) h trivial fun s₁ h₁ => invertColor_operands h₁ (done rfl)
  | set =>
    exact .ops_cons (.movImm32 h.color (.ops_nil (hn _ (h.frame.set (by simp) _)
      (View.roles_set_self _ _))))

end

/-- The operation that the register block names. -/
def blockOp (k : Setting) : RasterOp := .ofCode (k.fragment.block.rasterOp.setWidth 4)

/-- The index of a body is the low half of the byte. -/
theorem index_toNat (b : BitVec 8) :
    ((b.setWidth 32 &&& 0xF : BitVec 32).setWidth 64).toNat = (b.setWidth 4).toNat := by
  revert b; decide +kernel

theorem rasterOpBodies_getElem? (color dst : Reg) (hasStencil : Bool) (code : BitVec 4) :
    (rasterOpBodies color dst hasStencil)[code.toNat]? =
      some (if RasterOp.ofCode code = .noop ∧ !hasStencil then none
        else some (rasterOpBody (.ofCode code) color dst)) := by
  have hop : RasterOp.all[code.toNat]? = some (.ofCode code) := by revert code; decide
  rw [rasterOpBodies, List.getElem?_map, hop]
  rfl

/-- The color combined with the stored pixel, as the register block says. -/
theorem rasterOp_leads {color addr : Reg} {c : BitVec 32} {hasStencil : Bool} (hk : k.Sound)
    (hs : s.Idle) (ha : s.roles .colorAddr = .word addr k.pixelAddress)
    (hc : s.roles .gen0 = .word color (c.setWidth 64))
    (hleave : hasStencil = false → k.blockOp = .noop → L s.mem)
    (h : ∀ s', s.Keeps [] s' → s'.roles .gen3 = s.roles .gen3 →
      s'.roles .gen0 = .word color ((k.blockOp.apply c
        (k.features.format.readPixel s.mem k.pixelAddress)).setWidth 64) → Q () s') :
    k.Leads (rasterOp k.env color addr hasStencil) s Q L := by
  refine .of_later fun hm => .bind (.mark (.bind (.allocGen fun dst vd => ?_)))
  extract_lets jp
  have hat (v : BitVec 64) : Leads.At (s.set .gen4 (.word dst v)) (atOffset addr 0) k.pixelAddress :=
    .start (r := .colorAddr) ha
  generalize hd : k.features.format.readPixel s.mem k.pixelAddress = d at h
  have tail (s₁ : View) (hs₁ : s₁ = s.set .gen4 (.word dst (d.setWidth 64))) :
      k.Leads (jp ()) s₁ Q L := by
    subst hs₁
    refine .bind (.allocGen fun index vi => .bind (stateBase_leads hs.state fun gs f => ?_))
    refine .bind (.loadExt (r := .gen5) rfl (.offset (r := .stateBase) rfl (by decide))
      (congrArg (BitVec.setWidth 32) (hm.state8 hk (by decide))) ?_)
    refine .bind (.unlock_made (g := gs) rfl rfl ?_)
    refine .bind (.aluImm (r := .gen5) (o := .and) trivial rfl fun f₁ => ?_)
    refine .bind (.allocGen fun table vt => ?_)
    have hbody := rasterOpBodies_getElem? color dst hasStencil (k.fragment.block.rasterOp.setWidth 4)
    rw [← index_toNat] at hbody
    rw [low_widened]
    refine .bind (.select (q := .helper) (r := .gen5) rfl rfl (by decide) hbody (fun hnone => ?_) fun is his a => ?_)
    · split at hnone
      · rename_i hnoop
        exact hleave (by simpa using hnoop.2) hnoop.1
      · cases hnone
    · split at his
      · cases his
      · cases his
        refine rasterOpBody_leads (View.operands_self (c := c) (d := d) ?_ ?_) _ fun s₁ hframe hv => ?_
        · exact hc
        · rfl
        have hkeeps : s.Keeps [] s₁ := by
          refine View.Keeps.trans ?_ (hframe.keeps ⟨rfl, hs.pool, hs.zero⟩ (by decide))
          exact ⟨⟨rfl, hs.pool, hs.zero⟩, by simp [Role.lasting], rfl, fun _ => rfl⟩
        refine .bind (.release rfl (.bind (.release rfl (.release rfl (h _ ?_ ?_ hv)))))
        · refine ((hkeeps.set ?_ rfl).set ?_ rfl).set ?_ rfl <;> decide
        · exact hframe.roles .gen3 (by decide)
  split
  · rename_i hf
    have hf : k.features.format = .rgba8888 := hf
    rw [hf] at hd
    refine .bind (.load (r := .gen4) rfl (hat vd) hd ?_)
    exact tail _ (View.set_set _ _ _)
  · rename_i hf
    have hsize : k.features.format.bytesPerPixel = 2 := by
      revert hf; cases k.env.features.format <;> simp [PixelFormat.bytesPerPixel]
    rw [PixelFormat.readPixel, if_pos hsize] at hd
    refine .bind (.loadExt (r := .gen4) rfl (hat vd) hd ?_)
    exact tail _ (View.set_set _ _ _)

/-! ## The store -/

/-- The size of a stored pixel. -/
abbrev pixelSize (f : PixelFormat) : OpSize := if f.bytesPerPixel = 2 then .word else .dword

theorem format_of_size {f : PixelFormat} (h : f.bytesPerPixel ≠ 2) : f = .rgba8888 := by
  revert h; cases f <;> simp [PixelFormat.bytesPerPixel]

theorem pixelBits_of_size {f : PixelFormat} (h : f.bytesPerPixel = 2) : f.pixelBits = 0xFFFF := by
  revert h; cases f <;> simp [PixelFormat.bytesPerPixel, PixelFormat.pixelBits]

/-- A pixel has no bits beyond its size. -/
theorem readPixel_pixelBits (f : PixelFormat) (m : Memory) (a : Address) :
    f.readPixel m a &&& f.pixelBits = f.readPixel m a := by
  unfold PixelFormat.readPixel
  split
  · rename_i hsize
    rw [pixelBits_of_size hsize]
    apply BitVec.eq_of_getLsbD_eq
    intro i hi
    interval_cases i <;> simp [-BitVec.getLsbD_eq_getElem]
  · rename_i hsize
    rw [format_of_size hsize]
    exact BitVec.and_allOnes

/-- The pixel was stored and nothing else: where the mask has ones it is as it
was, elsewhere it is the value. -/
structure PixelStored (k : Setting) (m m' : Memory) (kept v : BitVec 32) : Prop where
  later : k.PixelLater m m'
  pixel : k.features.format.readPixel m' k.pixelAddress =
    ((k.features.format.readPixel m k.pixelAddress &&& kept) ||| (v &&& ~~~kept)) &&&
      k.features.format.pixelBits

/-- The low half of a word, widened again. -/
theorem widen_low (v : BitVec 32) : ((v.setWidth 64).setWidth 16).setWidth 32 = v &&& 0xFFFF := by
  apply BitVec.eq_of_getLsbD_eq
  intro i hi
  interval_cases i <;> simp [-BitVec.getLsbD_eq_getElem]

/-- A bitwise operation on low halves. -/
theorem value_low {o : AluOp} (ho : o = .and ∨ o = .or) (a : BitVec 16) (v : BitVec 32) :
    (o.value a ((v.setWidth 64).setWidth 16)).setWidth 32 = o.value (a.setWidth 32) v &&& 0xFFFF := by
  apply BitVec.eq_of_getLsbD_eq
  intro i hi
  rcases ho with rfl | rfl <;> interval_cases i <;> simp [AluOp.value, -BitVec.getLsbD_eq_getElem]

section

variable {addr g : Reg} {r : Role} {v : BitVec 32}
  (ha : s.roles .colorAddr = .word addr k.pixelAddress) (hr : s.roles r = .word g (v.setWidth 64))

include ha hr

theorem storePixel_leads (h : ∀ m, k.PixelLater s.mem m →
      k.features.format.readPixel m k.pixelAddress = v &&& k.features.format.pixelBits →
      Q () (s.setMem m)) :
    k.Leads (Emit.op (.store (pixelSize k.features.format) g (atOffset addr 0))) s Q L := by
  unfold pixelSize
  split
  · rename_i hsize
    refine .storeWord (r := r) hr (.start (r := .colorAddr) ha)
      (fun i hi => writable_pixel (by omega)) (h _ ?_ ?_)
    · exact Memory.later_writeAll _ _ _ fun i hi => inCell_add (hsize ▸ hi)
    · rw [PixelFormat.readPixel, if_pos hsize, Memory.read16_write16, pixelBits_of_size hsize,
        widen_low]
  · rename_i hsize
    have hf := format_of_size hsize
    refine .storeDword (r := r) hr (.start (r := .colorAddr) ha)
      (fun i hi => writable_pixel (hf ▸ hi)) (h _ ?_ ?_)
    · exact Memory.later_writeAll _ _ _ fun i hi => inCell_add (hf ▸ hi)
    · rw [PixelFormat.readPixel, if_neg hsize, Memory.read32_write32, low_widened, hf]
      exact BitVec.and_allOnes.symm

theorem updatePixel_leads {o : AluOp} (ho : o = .and ∨ o = .or) (h : ∀ m f, k.PixelLater s.mem m →
      k.features.format.readPixel m k.pixelAddress =
        o.value (k.features.format.readPixel s.mem k.pixelAddress) v &&& k.features.format.pixelBits →
      Q () ((s.setMem m).setFlags f)) :
    k.Leads (Emit.op (.aluStore o (pixelSize k.features.format) (atOffset addr 0) g)) s Q L := by
  have hplain : o.IsPlain := by rcases ho with rfl | rfl <;> trivial
  unfold pixelSize
  split
  · rename_i hsize
    refine .aluStoreWord (r := r) hplain hr (.start (r := .colorAddr) ha)
      (fun i hi => writable_pixel (by omega)) fun f => h _ f ?_ ?_
    · exact Memory.later_writeAll _ _ _ fun i hi => inCell_add (hsize ▸ hi)
    · rw [PixelFormat.readPixel, if_pos hsize, Memory.read16_write16, pixelBits_of_size hsize,
        PixelFormat.readPixel, if_pos hsize, value_low ho]
  · rename_i hsize
    have hf := format_of_size hsize
    refine .aluStoreDword (r := r) hplain hr (.start (r := .colorAddr) ha)
      (fun i hi => writable_pixel (hf ▸ hi)) fun f => h _ f ?_ ?_
    · exact Memory.later_writeAll _ _ _ fun i hi => inCell_add (hf ▸ hi)
    · rw [PixelFormat.readPixel, if_neg hsize, Memory.read32_write32, low_widened,
        PixelFormat.readPixel, if_neg hsize, hf]
      exact BitVec.and_allOnes.symm

end

/-- Bits of a 16-bit pixel cleared by an immediate mask. -/
theorem andPixel_leads {addr : Reg} {kept : BitVec 32}
    (ha : s.roles .colorAddr = .word addr k.pixelAddress)
    (hsize : k.features.format.bytesPerPixel = 2) (h : ∀ m f, k.PixelLater s.mem m →
      k.features.format.readPixel m k.pixelAddress =
        k.features.format.readPixel s.mem k.pixelAddress &&& kept &&& k.features.format.pixelBits →
      Q () ((s.setMem m).setFlags f)) :
    k.Leads (Emit.op (.aluStoreImm .and (pixelSize k.features.format) (atOffset addr 0) kept)) s Q
      L := by
  rw [show pixelSize k.features.format = .word from if_pos hsize]
  refine .aluStoreImmWord (o := .and) trivial (.start (r := .colorAddr) ha)
    (fun i hi => writable_pixel (by omega)) fun f => h _ f ?_ ?_
  · exact Memory.later_writeAll _ _ _ fun i hi => inCell_add (hsize ▸ hi)
  · rw [PixelFormat.readPixel, if_pos hsize, Memory.read16_write16, pixelBits_of_size hsize,
      PixelFormat.readPixel, if_pos hsize]
    apply BitVec.eq_of_getLsbD_eq
    intro i hi
    interval_cases i <;> simp [AluOp.value, -BitVec.getLsbD_eq_getElem]

/-- The pixel under a mask in a register. -/
theorem storeMasked_leads {addr color mask : Reg} {c kept : BitVec 32}
    (ha : s.roles .colorAddr = .word addr k.pixelAddress)
    (hc : s.roles .gen0 = .word color (c.setWidth 64))
    (hm : s.roles .gen3 = .word mask (kept.setWidth 64))
    (h : ∀ s', k.PixelStored s.mem s'.mem kept c → Q () s') :
    k.Leads (storeMasked (pixelSize k.features.format) addr color mask) s Q L := by
  refine .bind (updatePixel_leads ha hm (.inl rfl) fun m₁ f₁ hlater₁ hpixel₁ => ?_)
  refine .bind (.not (r := .gen3) hm (.bind (.alu (r := .gen0) (q := .gen3) (o := .and) trivial hc rfl
    fun f₂ => ?_)))
  refine .bind (updatePixel_leads (r := .gen0) (v := c &&& ~~~kept) ?_ ?_ (.inr rfl)
    fun m₂ f₃ hlater₂ hpixel₂ => .release rfl (h _ ⟨hlater₁.trans hlater₂, hpixel₂.trans ?_⟩))
  · exact ha
  · simp only [View.roles_setFlags, View.roles_set, if_true, low_widened]
    rfl
  · simp only [View.mem_setFlags, View.mem_set, View.mem_setMem, hpixel₁]
    apply BitVec.eq_of_getLsbD_eq
    intro i hi
    simp only [AluOp.value, BitVec.getLsbD_and, BitVec.getLsbD_or, BitVec.getLsbD_not]
    grind

/-- Three bytes of a pixel stored in two pieces. -/
theorem readPixel_keeping (m : Memory) (a : Address) (v : BitVec 32) :
    PixelFormat.rgba8888.readPixel ((m.write16 a (v.setWidth 16)).write (a + BitVec.ofNat 64 2)
        ((v >>> 16).setWidth 8)) a =
      (PixelFormat.rgba8888.readPixel m a &&& 0xFF000000) ||| (v &&& 0x00FFFFFF) := by
  have hread (j : Nat) (hj : j < 4) : ((m.write16 a (v.setWidth 16)).write (a + BitVec.ofNat 64 2)
      ((v >>> 16).setWidth 8)).read (a + BitVec.ofNat 64 j) =
        if j = 2 then (v >>> 16).setWidth 8
        else ((le16 (v.setWidth 16))[j]?).getD (m.read (a + BitVec.ofNat 64 j)) := by
    have := Memory.read_writeAll m a (le16 (v.setWidth 16)) (i := 0) (j := j)
      (by simp [le16]) (by omega)
    rw [show a + BitVec.ofNat 64 0 = a from BitVec.add_zero a] at this
    rw [Memory.read_write_offset _ _ _ (by decide) (by omega), Memory.write16, this]
    rfl
  have h₀ := hread 0 (by decide)
  rw [show a + BitVec.ofNat 64 0 = a from BitVec.add_zero a] at h₀
  show word32 _ (Memory.read _ (a + BitVec.ofNat 64 1)) (Memory.read _ (a + BitVec.ofNat 64 2))
    (Memory.read _ (a + BitVec.ofNat 64 3)) = (word32 (m.read a) (m.read (a + BitVec.ofNat 64 1))
      (m.read (a + BitVec.ofNat 64 2)) (m.read (a + BitVec.ofNat 64 3)) &&& 0xFF000000) ||| _
  rw [h₀, hread 1 (by decide), hread 2 (by decide), hread 3 (by decide)]
  apply BitVec.eq_of_getLsbD_eq
  intro i hi
  interval_cases i <;> simp [getLsbD_word32, le16, -BitVec.getLsbD_eq_getElem]

/-- A store around bits that are never written.  Where the color was not
combined with the pixel those bits are clear in it. -/
theorem storeKeeping_leads {addr color : Reg} {c : BitVec 32}
    (ha : s.roles .colorAddr = .word addr k.pixelAddress)
    (hc : s.roles .gen0 = .word color (c.setWidth 64))
    (hclean : k.features.format ≠ .rgba8888 → k.features.rasterOp = false →
      c &&& k.features.format.stencilBits = 0)
    (h : ∀ s', k.PixelStored s.mem s'.mem k.features.format.stencilBits c → Q () s') :
    k.Leads (storeKeeping k.env (pixelSize k.features.format) addr color
      k.features.format.stencilBits) s Q L := by
  unfold storeKeeping
  split
  · rename_i hf
    have hf : k.features.format = .rgba8888 := hf
    have hcell {i : Nat} (hi : i < 4) : InCell k.pixelAddress k.features.format.bytesPerPixel
        (k.pixelAddress + BitVec.ofNat 64 i) := inCell_add (hf ▸ hi)
    refine .bind (.storeWord (r := .gen0) hc (.start (r := .colorAddr) ha)
      (fun i hi => .inl (hcell (by omega))) ?_)
    refine .bind (.shift (r := .gen0) (by decide) hc fun f => ?_)
    refine .storeByte (r := .gen0) rfl (.offset (r := .colorAddr) ha (by decide))
      (.inl (hcell (by decide))) (h _ ⟨?_, ?_⟩)
    · exact Memory.Later.trans (Memory.later_writeAll _ _ (le16 _) fun i (hi : i < 2) =>
        hcell (by omega)) (Memory.later_write (hcell (by decide)) _ _)
    · simp only [View.mem_set, View.mem_setFlags, View.mem_setMem, low_widened, hf, ShiftOp.value,
        BitVec.setWidth_setWidth_of_le _ (show 16 ≤ 64 by decide),
        BitVec.setWidth_setWidth_of_le _ (show 8 ≤ 64 by decide)]
      exact (readPixel_keeping _ _ _).trans BitVec.and_allOnes.symm
  · rename_i hf
    have hf : k.features.format ≠ .rgba8888 := hf
    have hsize : k.features.format.bytesPerPixel = 2 := by
      by_contra hne
      exact hf (format_of_size hne)
    generalize hkept : k.features.format.stencilBits = kept at *
    extract_lets jp
    have tail (s₁ : View) (v : BitVec 32) (ha₁ : s₁.roles .colorAddr = .word addr k.pixelAddress)
        (hv : s₁.roles .gen0 = .word color (v.setWidth 64)) (hmem : s₁.mem = s.mem)
        (heq : v = c &&& ~~~kept) : k.Leads (jp ()) s₁ Q L := by
      refine .bind (andPixel_leads ha₁ hsize fun m₁ f₁ hlater₁ hpixel₁ => ?_)
      refine updatePixel_leads (r := .gen0) (v := v) ?_ ?_ (.inr rfl) fun m₂ f₂ hlater₂ hpixel₂ =>
        h _ ⟨(hmem ▸ hlater₁).trans hlater₂, hpixel₂.trans ?_⟩
      · exact ha₁
      · exact hv
      · simp only [View.mem_setFlags, View.mem_setMem, hpixel₁, hmem, heq]
        apply BitVec.eq_of_getLsbD_eq
        intro i hi
        simp only [AluOp.value, BitVec.getLsbD_and, BitVec.getLsbD_or, BitVec.getLsbD_not]
        grind
    split
    · refine .bind (.aluImm (r := .gen0) (o := .and) trivial hc fun f => ?_)
      refine tail _ (c &&& ~~~kept) ha ?_ rfl rfl
      simp only [View.roles_setFlags, View.roles_set_self, low_widened]
      rfl
    · rename_i hoff
      refine tail s c ha hc rfl ?_
      have := hclean hf (by simpa using hoff)
      apply BitVec.eq_of_getLsbD_eq
      intro i hi
      have hbit : (c &&& kept).getLsbD i = false := by rw [this]; simp
      simp only [BitVec.getLsbD_and, BitVec.getLsbD_not] at hbit ⊢
      grind

/-! ## What is stored -/

/-- A stencil value in the place of the stencil bits. -/
theorem placeStencil_leads {st : Reg} {v : BitVec 8} (hr : s.roles .stencil = .word st (widenByte v))
    (h : ∀ s', s.Frame [.stencil] s' → (k.features.format.hasStencil = true →
      s'.roles .stencil = .word st ((k.features.format.stencilBitsFor v).setWidth 64)) → Q () s') :
    k.Leads (placeStencil k.features.format st) s Q L := by
  have hframe : s.Frame [.stencil] s := .refl _ _
  generalize k.features.format = f at h ⊢
  cases f with
  | rgb565 => exact .pure (h s hframe fun hno => by cases hno)
  | rgba5551 =>
    refine .ops_cons (.shift (by decide) hr fun f => .ops_cons (.shift (r := .stencil) (by decide) rfl
      fun f' => .ops_nil (h _ ?_ fun _ => ?_)))
    · exact (((hframe.set (by simp) _).setFlags f).set (by simp) _).setFlags f'
    · simp only [View.roles_setFlags, View.roles_set_self, low_widened]
      rfl
  | rgba4444 =>
    refine .ops_cons (.shift (by decide) hr fun f => .ops_cons (.shift (r := .stencil) (by decide) rfl
      fun f' => .ops_nil (h _ ?_ fun _ => ?_)))
    · exact (((hframe.set (by simp) _).setFlags f).set (by simp) _).setFlags f'
    · simp only [View.roles_setFlags, View.roles_set_self, low_widened]
      rfl
  | rgba8888 =>
    refine .shift (by decide) hr fun f => h _ ((hframe.set (by simp) _).setFlags f) fun _ => ?_
    simp only [View.roles_setFlags, View.roles_set_self, low_widened]
    rfl

/-- The protected bits, if the write is masked. -/
theorem loadWriteMask_leads {Q : Option Reg → View → Prop} (hk : k.Sound)
    (hkey : k.features.writeMasked = true → s.Has .argKey k.key)
    (hmasked : k.features.writeMasked = true → ∀ m s', s.Frame [.gen3] s' →
      s'.roles .gen3 = .word m (k.fragment.constants.writeMask.setWidth 64) → Q (some m) s')
    (hopen : k.features.writeMasked = false → Q none s) :
    k.Leads (loadWriteMask k.env) s Q L := by
  refine .of_later fun hm => ?_
  unfold loadWriteMask
  split
  · rename_i hon
    obtain ⟨g, hg⟩ := hkey hon
    refine .bind (.allocGen fun m v => .bind (.findGen (r := .argKey) hg ?_))
    refine .bind (.load (r := .gen3) rfl (.offset (r := .argKey) hg (by decide)) (hm.writeMask hk)
      (.pure (hmasked hon m _ ?_ (View.roles_set_self _ _))))
    exact ((View.Frame.refl s [.gen3]).set (by simp) _).set (by simp) _
  · rename_i hoff
    exact .pure (hopen (by simpa using hoff))

theorem clampByte_clamp (x : Int) : clampByte (Lanes.clamp x) = clampByte x := by
  unfold clampByte Lanes.clamp
  congr 1
  omega

/-- The working color as the bits of a stored pixel, beside the stencil value if
there is one. -/
theorem storedBits_leads {c : Fin 4 → Int} {keepAlpha : Bool} {Q : Reg × Option Reg → View → Prop}
    (hs : s.Idle) (hc : k.Colored s c) (hst : k.Carried s)
    (h : ∀ color st s' w, s.Keeps [.vecColor] s' →
      (k.exact → w = PixelPipeline.packColor (c 0) (c 1) (c 2) (c 3)) →
      s'.roles .gen0 = .word color ((Conversion.narrowed k.features.format w keepAlpha).setWidth 64) →
      (∀ v, k.features.carriedStencil k.fragment = some v →
        ∃ g, st = some g ∧ s'.roles .stencil = .word g (widenByte v)) →
      (k.features.carriedStencil k.fragment = none → st = none) → Q (color, st) s') :
    k.Leads (storedBits k.env keepAlpha) s Q L := by
  obtain ⟨x, v, hx, hv⟩ := hc
  refine .bind (.findVec hx (.bind (packColor_leads hx hv fun v' hv' => ?_)))
  refine .bind (.allocGen fun color vc => .bind (.movdToReg (r := .gen0) (q := .vecColor) rfl rfl ?_))
  refine .bind (.forceRelease ?_)
  extract_lets jp
  have tail (st : Option Reg) (hsome : ∀ v, k.features.carriedStencil k.fragment = some v →
        ∃ g, st = some g ∧ s.roles .stencil = .word g (widenByte v))
      (hnone : k.features.carriedStencil k.fragment = none → st = none) : k.Leads (jp st)
        (((((s.set .vecColor (.lanes x v')).setWide false).set .gen0 (.word color vc)).set .gen0
          (.word color (v'.toWord32.setWidth 64))).set .vecColor .absent) Q L := by
    refine .bind (.allocGen fun t₁ v₁ => .bind (.allocGen fun t₂ v₂ => ?_))
    refine .bind (narrow_works (View.works_self (a := color) ?_ rfl rfl) (c := v'.toWord32) rfl _ keepAlpha
      fun s₁ v₁ hworks hv₁ => ?_)
    · rfl
    have hkeeps : s.Keeps [.vecColor] s₁ := by
      refine View.Keeps.trans ?_ (hworks.frame.keeps ⟨hs.state, hs.pool, hs.zero⟩ (by decide))
      exact ⟨⟨hs.state, hs.pool, hs.zero⟩, by simp [Role.lasting], rfl, by simp⟩
    refine .bind (.release rfl (.bind (.release rfl (.pure (h color st _ v'.toWord32
      ((hkeeps.set (by decide) rfl).set (by decide) rfl) (fun he => ?_) ?_ (fun u hu => ?_) hnone)))))
    · rw [(hv' he).toWord32]
      simp only [PixelPipeline.packColor, clampByte_clamp]
    · exact (hworks.regs 0).trans (congrArg (Held.word color) hv₁)
    · obtain ⟨g, hg, hr⟩ := hsome u hu
      exact ⟨g, hg, (hkeeps.roles .stencil (by decide) (by decide)).trans hr⟩
  unfold Setting.Carried at hst
  split at hst
  · rename_i u hu
    obtain ⟨g, hg⟩ := hst
    refine .bind (.has_word (r := .stencil) hg (.bind (.findGen (r := .stencil) hg (.bind (.pure ?_)))))
    exact tail (some g) (fun u' hu' => ⟨g, rfl, by cases hu.symm.trans hu'; exact hg⟩) fun hno => by
      cases hu.symm.trans hno
  · rename_i hno
    refine .bind (.has_absent (r := .stencil) hst (.bind (.pure ?_)))
    exact tail none (fun u hu => by cases hno.symm.trans hu) fun _ => rfl

theorem carried_of_keeps {rs : List Role} (h : k.Carried s) (hkeeps : s.Keeps rs s')
    (hn : .stencil ∉ rs) : k.Carried s' := by
  unfold Carried at h ⊢
  split at h
  · exact hkeeps.has h (by decide) hn
  · exact (hkeeps.roles .stencil (by decide) hn).trans h

theorem hasStencil_of_carried {u : BitVec 8}
    (h : k.features.carriedStencil k.fragment = some u) : k.features.format.hasStencil = true := by
  unfold Features.carriedStencil at h
  split at h
  · rename_i hon
    exact (Bool.and_eq_true _ _ ▸ hon).2
  · cases h

/-- The stencil value joined with the color. -/
theorem mergeStencil_leads {color : Reg} {st : Option Reg} {v : BitVec 32}
    (hcolor : s.roles .gen0 = .word color (v.setWidth 64))
    (hsome : ∀ u, k.features.carriedStencil k.fragment = some u → ∃ g, st = some g ∧
      s.roles .stencil = .word g ((k.features.format.stencilBitsFor u).setWidth 64))
    (hnone : k.features.carriedStencil k.fragment = none → st = none)
    (h : ∀ s', s.Frame [.gen0, .stencil] s' →
      s'.roles .gen0 = .word color ((k.features.joined k.fragment v).setWidth 64) → Q () s') :
    k.Leads (mergeStencil k.env color st) s Q L := by
  have hframe : s.Frame [.gen0, .stencil] s := .refl _ _
  unfold Features.joined at h
  cases hcarried : k.features.carriedStencil k.fragment with
  | none =>
    rw [hnone hcarried]
    rw [hcarried] at h
    exact .forceRelease (h _ (hframe.set (by simp) _) hcolor)
  | some u =>
    obtain ⟨g, rfl, hg⟩ := hsome u hcarried
    rw [hcarried] at h
    refine .bind (.aluImm (r := .gen0) (o := .and) trivial hcolor fun f => ?_)
    refine .bind (.alu (r := .gen0) (q := .stencil) (o := .or) trivial rfl hg fun f₁ => ?_)
    refine .forceRelease (h _ ?_ ?_)
    · exact ((((hframe.set (by simp) _).setFlags f).set (by simp) _).setFlags f₁).set (by simp) _
    · simp only [View.roles_set, View.roles_setFlags, low_widened]
      rfl

/-- The pixel is stored under the mask, if there is one, and else around the
stencil bits that are never written. -/
theorem storeColor_leads {addr color : Reg} {mask : Option Reg} {v : BitVec 32}
    (ha : s.roles .colorAddr = .word addr k.pixelAddress)
    (hcolor : s.roles .gen0 = .word color (v.setWidth 64))
    (hmasked : k.features.writeMasked = true → ∃ m, mask = some m ∧
      s.roles .gen3 = .word m (k.fragment.constants.writeMask.setWidth 64))
    (hopen : k.features.writeMasked = false → mask = none)
    (hclean : k.features.format ≠ .rgba8888 → k.features.rasterOp = false →
      v &&& k.features.ownKept k.fragment = 0)
    (h : ∀ s', k.PixelStored s.mem s'.mem (k.features.keptBits k.fragment) v → Q () s') :
    k.Leads (storeColor k.env addr color mask (k.features.ownKept k.fragment)) s Q L := by
  unfold Features.keptBits at h
  cases hm : k.features.writeMasked with
  | true =>
    obtain ⟨m, rfl, hg⟩ := hmasked hm
    rw [hm, if_pos rfl] at h
    exact storeMasked_leads ha hcolor hg h
  | false =>
    rw [hopen hm]
    rw [hm, if_neg Bool.false_ne_true] at h
    change ∀ s', k.PixelStored s.mem s'.mem (k.features.ownKept k.fragment) v → Q () s' at h
    unfold storeColor
    dsimp only
    split
    · rename_i hzero
      rw [hzero] at h
      refine storePixel_leads ha hcolor fun m hlater hpixel => h _ ⟨hlater, hpixel.trans ?_⟩
      have hall (u : BitVec 32) : (u &&& 0#32) ||| (v &&& ~~~0#32) = v := by
        rw [BitVec.and_zero, BitVec.zero_or, BitVec.not_zero, BitVec.and_allOnes]
      exact congrArg (· &&& _) (hall _).symm
    · rename_i hne
      have hown : k.features.ownKept k.fragment = k.features.format.stencilBits := by
        unfold Features.ownKept at hne ⊢
        split at hne
        · exact absurd rfl hne
        · rename_i hno
          exact if_neg hno
      rw [hown] at h hclean ⊢
      exact storeKeeping_leads ha hcolor hclean h

/-! ## The write as a whole -/

theorem stencilClear_of_clear (h : k.features.stencilClear = true) : k.features.clearMode = true := by
  rw [Features.stencilClear, Bool.and_eq_true] at h
  exact h.1

/-- The register that is stored agrees with the color that is meant. -/
theorem narrowed_agrees {c : Fin 4 → Int} (hc : k.Dithered c) (he : k.exact)
    (hclear : k.features.clearMode = true → k.features.blend = false) {w : BitVec 32}
    (hw : w = PixelPipeline.packColor (c 0) (c 1) (c 2) (c 3)) :
    Agree k.features.colorBits (Conversion.narrowed k.features.format w k.features.stencilClear)
      (k.features.storedColor k.fragment) := by
  unfold Features.colorBits Features.storedColor Conversion.narrowed
  cases hs : k.features.stencilClear with
  | true =>
    have hblend := hclear (stencilClear_of_clear hs)
    have hsame (i : Fin 4) : c i = k.features.dithered k.fragment i := hc he i fun _ => hblend
    rw [hw, hsame, hsame, hsame, hsame]
    exact Agree.of_eq rfl _
  | false =>
    have hlow := PixelFormat.narrow_low (packColor_low c (k.features.dithered k.fragment)
      fun i hi => hc he i fun h => absurd h hi) k.features.format
    rw [← hw] at hlow
    intro i hi
    have hbit := hlow i hi
    rw [if_neg Bool.false_ne_true] at hi ⊢
    split
    · rw [hbit, BitVec.getLsbD_and, hi, Bool.and_true]
    · rw [BitVec.getLsbD_and, BitVec.getLsbD_and, hbit]

/-- A color that is stored around the stencil bits has none of them. -/
theorem narrowed_clean (hf : k.features.format ≠ .rgba8888) (w : BitVec 32) :
    Conversion.narrowed k.features.format w k.features.stencilClear &&&
      k.features.ownKept k.fragment = 0 := by
  unfold Features.ownKept
  split
  · exact BitVec.and_zero
  · rename_i hno
    rw [Bool.or_eq_true, not_or] at hno
    rw [Conversion.narrowed, if_neg fun h => h.elim hno.1 hf, BitVec.and_assoc, BitVec.not_and_self]
    exact BitVec.and_zero

/-- A store of the color ends the run. -/
theorem ended_of_stored {m m' : Memory} {kept v : BitVec 32} (hk : k.Sound)
    (hpixel : k.exact → k.features.format.readPixel m k.pixelAddress = k.fragment.pixel)
    (hdepth : k.exact → m.read16 k.depthAddress =
      if k.features.depthWrite then k.fragment.z else k.fragment.depth)
    (hverdict : k.exact → k.features.verdict k.fragment = .passed)
    (hmode : (k.features.clearMode && !k.features.colorClear) = false)
    (hst : k.PixelStored m m' kept v)
    (hkept : k.exact → kept = k.features.keptBits k.fragment)
    (hv : k.exact → Agree (~~~(k.features.keptBits k.fragment)) v
      (k.features.joined k.fragment (k.features.combined k.fragment))) : k.Ended m' := by
  intro he
  rw [Features.outcome, hverdict he]
  refine ⟨?_, (depth_kept hk he hst.later).trans (hdepth he)⟩
  show _ = k.features.passedPixel k.fragment
  rw [hst.pixel, hpixel he, hkept he, Features.passedPixel, hmode, if_neg Bool.false_ne_true,
    Features.written_eq, BitVec.or_comm, (hv he).replaced, BitVec.or_comm]

/-- The top byte of a word, shifted down. -/
theorem topByte (w : BitVec 32) : w >>> 24 = (w.extractLsb' 24 8).setWidth 32 := by
  apply BitVec.eq_of_getLsbD_eq
  intro i hi
  interval_cases i <;> simp [-BitVec.getLsbD_eq_getElem]

section

variable (hk : k.Sound) (hs : s.Idle)
  (hpixel : k.exact → k.features.format.readPixel s.mem k.pixelAddress = k.fragment.pixel)
  (hdepth : k.exact → s.mem.read16 k.depthAddress =
    if k.features.depthWrite then k.fragment.z else k.fragment.depth)
  (hverdict : k.exact → k.features.verdict k.fragment = .passed)

include hpixel hdepth hverdict

/-- An operation that keeps the pixel leaves memory as it is meant to end. -/
theorem ended_noop (hmode : (k.features.clearMode && !k.features.colorClear) = false)
    (hon : k.features.rasterOp = true) (hop : k.blockOp = .noop)
    (hnone : k.features.carriedStencil k.fragment = none) : k.Ended s.mem := by
  intro he
  rw [Features.outcome, hverdict he]
  refine ⟨?_, hdepth he⟩
  have hcombined : k.features.combined k.fragment = k.fragment.pixel := by
    rw [Features.combined, if_pos hon]
    exact congrArg (RasterOp.apply · _ _) hop
  show _ = k.features.passedPixel k.fragment
  rw [Features.passedPixel, hmode, if_neg Bool.false_ne_true, Features.written_eq, Features.joined,
    hnone, hcombined, hpixel he, ← hpixel he, ← readPixel_pixelBits]
  apply BitVec.eq_of_getLsbD_eq
  intro i hi
  simp only [BitVec.getLsbD_and, BitVec.getLsbD_or, BitVec.getLsbD_not, hi]
  grind

include hk hs

/-- The combined color is stored, with the stencil value that is carried to it. -/
theorem combineAndStore_leads {addr color : Reg} {st : Option Reg} {bits : BitVec 32}
    (ha : s.roles .colorAddr = .word addr k.pixelAddress)
    (hcolor : s.roles .gen0 = .word color (bits.setWidth 64))
    (hagree : k.exact → Agree k.features.colorBits bits (k.features.storedColor k.fragment))
    (hclean : k.features.format ≠ .rgba8888 → bits &&& k.features.ownKept k.fragment = 0)
    (hsome : ∀ u, k.features.carriedStencil k.fragment = some u → ∃ g, st = some g ∧
      s.roles .stencil = .word g ((k.features.format.stencilBitsFor u).setWidth 64))
    (hnone : k.features.carriedStencil k.fragment = none → st = none)
    (hkey : k.features.writeMasked = true → s.Has .argKey k.key)
    (hcover : k.exact → k.features.Covered k.fragment)
    (hmode : (k.features.clearMode && !k.features.colorClear) = false) :
    k.Leads (combineAndStore k.env addr color st) s (fun _ s' => k.Ended s'.mem) k.Ended := by
  have hcarried : st.isSome = (k.features.carriedStencil k.fragment).isSome := by
    cases hc : k.features.carriedStencil k.fragment with
    | none => rw [hnone hc]; rfl
    | some u =>
      obtain ⟨g, rfl, -⟩ := hsome u hc
      rfl
  unfold combineAndStore
  rw [hcarried]
  have stored (mask : Option Reg) (s₁ : View) (v : BitVec 32) (hmem : s₁.mem = s.mem)
      (ha₁ : s₁.roles .colorAddr = .word addr k.pixelAddress)
      (hv : s₁.roles .gen0 = .word color (v.setWidth 64))
      (hst : s₁.roles .stencil = s.roles .stencil)
      (hmasked : k.features.writeMasked = true → ∃ m, mask = some m ∧
        s₁.roles .gen3 = .word m (k.fragment.constants.writeMask.setWidth 64))
      (hopen : k.features.writeMasked = false → mask = none)
      (hcombined : k.exact → Agree k.features.colorBits v (k.features.combined k.fragment))
      (hclean : k.features.format ≠ .rgba8888 → k.features.rasterOp = false →
        v &&& k.features.ownKept k.fragment = 0) :
      k.Leads (do
        mergeStencil k.env color st
        storeColor k.env addr color mask (k.features.ownKept k.fragment)
        Emit.release .gen0
        Emit.forceRelease .colorAddr) s₁ (fun _ s' => k.Ended s'.mem) k.Ended := by
    refine .bind (mergeStencil_leads hv (fun u hu => hst ▸ hsome u hu) hnone fun s₂ hframe hv₂ => ?_)
    refine .bind (storeColor_leads ((hframe.roles .colorAddr (by decide)).trans ha₁) hv₂ (fun hon => ?_)
      hopen (fun hf hoff => ?_) fun s₃ hstored => .bind (.release rfl (.forceRelease ?_)))
    · obtain ⟨m, hm, hg⟩ := hmasked hon
      exact ⟨m, hm, (hframe.roles .gen3 (by decide)).trans hg⟩
    · have hv := hclean hf hoff
      unfold Features.joined
      split
      · rename_i u hu
        rw [Features.ownKept, hu, Option.isSome_some, Bool.or_true, if_pos rfl]
        exact BitVec.and_zero
      · exact hv
    · rw [hframe.mem, hmem] at hstored
      exact ended_of_stored hk hpixel hdepth hverdict hmode hstored (fun _ => rfl) fun he =>
        Features.agree_kept (hcover he) (Features.agree_joined (hcombined he))
  have masked (mask : Option Reg) (s₁ : View) (hframe : s.Frame [.gen3] s₁)
      (hmasked : k.features.writeMasked = true → ∃ m, mask = some m ∧
        s₁.roles .gen3 = .word m (k.fragment.constants.writeMask.setWidth 64))
      (hopen : k.features.writeMasked = false → mask = none) :
      k.Leads (do
        Emit.forceRelease .argKey
        if k.features.rasterOp then
          rasterOp k.env color addr (k.features.carriedStencil k.fragment).isSome
          Emit.mark .writeColor
        mergeStencil k.env color st
        storeColor k.env addr color mask (k.features.ownKept k.fragment)
        Emit.release .gen0
        Emit.forceRelease .colorAddr) s₁ (fun _ s' => k.Ended s'.mem) k.Ended := by
    refine .bind (.forceRelease ?_)
    have hat : s.Frame [.gen3, .argKey] (s₁.set .argKey .absent) :=
      (hframe.mono (by simp)).set (by simp) _
    have hg₃ : (s₁.set .argKey .absent).roles .gen3 = s₁.roles .gen3 := rfl
    generalize s₁.set .argKey .absent = s₂ at hat hg₃
    have ha₂ := (hat.roles .colorAddr (by decide)).trans ha
    have hcolor₂ := (hat.roles .gen0 (by decide)).trans hcolor
    split
    · rename_i hon
      refine .bind (rasterOp_leads hk (hat.idle hs (by decide)) ha₂ hcolor₂ (fun hno hop => ?_)
        fun s₃ hkeeps hgen3 hv => .bind (.mark ?_))
      · exact hat.mem.symm ▸ ended_noop hpixel hdepth hverdict hmode hon hop (by simpa using hno)
      rw [hat.mem] at hv
      refine stored mask s₃ _ (hkeeps.mem.trans hat.mem)
        ((hkeeps.roles .colorAddr (by decide) (by decide)).trans ha₂) hv
        ((hkeeps.roles .stencil (by decide) (by decide)).trans (hat.roles .stencil (by decide)))
        (fun hm => ?_) hopen (fun he => ?_) fun _ hoff => by cases hon.symm.trans hoff
      · rw [hgen3, hg₃]
        exact hmasked hm
      · rw [hpixel he, Features.combined, if_pos hon]
        exact (hagree he).apply _ _
    · rename_i hoff
      refine stored mask s₂ bits hat.mem ha₂ hcolor₂ (hat.roles .stencil (by decide))
        (fun hm => hg₃ ▸ hmasked hm) hopen (fun he => ?_) fun hf _ => hclean hf
      rw [Features.combined, if_neg hoff]
      exact hagree he
  refine .bind (loadWriteMask_leads hk hkey (fun hon m s₁ hframe hm => ?_) fun hoff => ?_)
  · exact masked (some m) s₁ hframe (fun _ => ⟨m, rfl, hm⟩) fun hoff => by cases hon.symm.trans hoff
  · exact masked none s (.refl _ _) (fun hon => by cases hon.symm.trans hoff) fun _ => rfl

variable {c : Fin 4 → Int} (hp : k.Places False False s) (hc : k.Colored s c)
  (hdithered : k.Dithered c)
  (hclear : k.exact → k.features.clearMode = true → k.features.blend = false)

include hp hc hdithered hclear

/-- A clear that leaves the color alone. -/
theorem clearStencil_leads (hmode : (k.features.clearMode && !k.features.colorClear) = true) :
    k.Leads (clearStencil k.env) s (fun _ s' => k.Ended s'.mem) L := by
  have hpassed : k.features.passedPixel k.fragment =
      if k.features.stencilClear then
        k.features.withStencil k.fragment (k.fragment.color.extractLsb' 24 8)
      else k.fragment.pixel := if_pos hmode
  have ended (m : Memory) (hlater : k.PixelLater s.mem m) (hm : k.exact →
      k.features.format.readPixel m k.pixelAddress = k.features.passedPixel k.fragment) :
      k.Ended m := by
    intro he
    rw [Features.outcome, hverdict he]
    exact ⟨hm he, (depth_kept hk he hlater).trans (hdepth he)⟩
  unfold clearStencil
  split
  · rename_i hon
    rw [Bool.and_eq_true] at hon
    obtain ⟨hon, hhas⟩ := hon
    have hon : k.features.stencilClear = true := hon
    rw [if_pos hon] at hpassed
    obtain ⟨x, v, hx, hv⟩ := hc
    refine .bind (.findVec hx (.bind (packColor_leads hx hv fun v' hv' => ?_)))
    refine .bind (.allocGen fun st vs => .bind (.movdToReg (r := .stencil) (q := .vecColor) rfl rfl ?_))
    refine .bind (.shift (r := .stencil) (by decide) rfl fun f => .bind (.unlock rfl ?_))
    have hkeeps : s.Keeps [.vecColor, .stencil] ((((((s.set .vecColor (.lanes x v')).setWide false).set
        .stencil (.word st vs)).set .stencil (.word st (v'.toWord32.setWidth 64))).set .stencil
          (.word st ((ShiftOp.shr.value ((v'.toWord32.setWidth 64).setWidth 32)
            ((24 : BitVec 8).toNat % 32)).setWidth 64))).setFlags f) :=
      ⟨⟨hs.state, hs.pool, hs.zero⟩, by simp [Role.lasting], rfl, by simp⟩
    refine .bind (writeStencilOnly_leads (v := v'.toWord32.extractLsb' 24 8) hk hkeeps.idle
      (hp.of_keeps hkeeps (by decide)) False.elim False.elim ?_ fun s₁ hlater hstored => .forceRelease ?_)
    · simp only [View.roles_setFlags, View.roles_set_self, low_widened]
      exact congrArg (fun n : BitVec 32 => Held.word st (n.setWidth 64)) (topByte _)
    · refine ended _ hlater fun he => hstored.trans ?_
      have hword : v'.toWord32.extractLsb' 24 8 = k.fragment.color.extractLsb' 24 8 := by
        have hblend := hclear he (stencilClear_of_clear hon)
        have hlast := hdithered he 3 fun _ => hblend
        rw [Features.dithered, if_neg fun h => h.2 rfl, Features.blended, hblend,
          if_neg Bool.false_ne_true, Features.fogged, if_neg fun h => h.2 rfl] at hlast
        rw [(hv' he).toWord32, packColor_high, hlast, clampByte_clamp,
          ← packColor_high (channels k.fragment.color 0) (channels k.fragment.color 1)
            (channels k.fragment.color 2), packColor_channels]
      rw [hpassed, hword, Features.withStencil, ← hpixel he]
      rfl
  · rename_i hoff
    refine .pure (ended _ (.refl _ _) fun he => ?_)
    rw [hpassed, hpixel he]
    split
    · rename_i hon
      have hno : k.features.format.hasStencil = false := by
        rw [show k.env.features.stencilClear = true from hon, Bool.true_and] at hoff
        simpa using hoff
      exact (unchanged_of_noStencil hno _ _ _).symm
    · rfl

/-- A write of the color, and of the stencil value that is carried to it. -/
theorem writePixel_leads (hst : k.Carried s)
    (hkey : k.features.writeMasked = true → s.Has .argKey k.key)
    (hcover : k.exact → k.features.Covered k.fragment)
    (hmode : (k.features.clearMode && !k.features.colorClear) = false) :
    k.Leads (writePixel k.env) s (fun _ s' => k.Ended s'.mem) k.Ended := by
  refine .bind (colorAddr_leads hk hs hp nofun nofun fun addr s₁ hkeeps₁ hg hp₁ => ?_)
  refine .bind (.forceRelease (.bind (.forceRelease ?_)))
  have hkeeps₂ := (hkeeps₁.set (r := .argX) (h := .absent) (by decide) rfl).set (r := .argY)
    (h := .absent) (by decide) rfl
  have hg₂ : ((s₁.set .argX .absent).set .argY .absent).roles .colorAddr =
    .word addr k.pixelAddress := hg
  generalize (s₁.set .argX .absent).set .argY .absent = s₂ at hkeeps₂ hg₂
  refine .bind (storedBits_leads hkeeps₂.idle (hkeeps₂.colored hc (by decide))
    (carried_of_keeps hst hkeeps₂ (by decide)) fun color st s₃ w hkeeps₃ hw hcolor hsome hnone => ?_)
  have hmem : s₃.mem = s.mem := hkeeps₃.mem.trans hkeeps₂.mem
  have hg₃ := (hkeeps₃.roles .colorAddr (by decide) (by decide)).trans hg₂
  have hkey₃ (h : k.features.writeMasked = true) : s₃.Has .argKey k.key :=
    hkeeps₃.has (hkeeps₂.has (hkey h) (by decide) (by decide)) (by decide) (by decide)
  have hagree (he : k.exact) := narrowed_agrees hdithered he (hclear he) (hw he)
  have tail (s₄ : View) (hframe : s₃.Frame [.stencil] s₄)
      (hsome : ∀ u, k.features.carriedStencil k.fragment = some u → ∃ g, st = some g ∧
        s₄.roles .stencil = .word g ((k.features.format.stencilBitsFor u).setWidth 64)) :
      k.Leads (combineAndStore k.env addr color st) s₄ (fun _ s' => k.Ended s'.mem) k.Ended := by
    have hmem₄ : s₄.mem = s.mem := hframe.mem.trans hmem
    refine combineAndStore_leads hk (hframe.idle hkeeps₃.idle (by decide)) (hmem₄ ▸ hpixel)
      (hmem₄ ▸ hdepth) hverdict ((hframe.roles .colorAddr (by decide)).trans hg₃)
      ((hframe.roles .gen0 (by decide)).trans hcolor) hagree (fun hf => ?_) hsome hnone (fun hon => ?_)
      hcover hmode
    · exact narrowed_clean hf w
    · obtain ⟨g, hg⟩ := hkey₃ hon
      exact ⟨g, (hframe.roles .argKey (by decide)).trans hg⟩
  cases hcarried : k.features.carriedStencil k.fragment with
  | none =>
    obtain rfl := hnone hcarried
    exact tail s₃ (.refl _ _) fun u hu => by cases hcarried.symm.trans hu
  | some u =>
    obtain ⟨g, rfl, hr⟩ := hsome u hcarried
    refine .bind (placeStencil_leads hr fun s₄ hframe hplaced => tail s₄ hframe fun u' hu' => ?_)
    cases hcarried.symm.trans hu'
    exact ⟨g, rfl, hplaced (hasStencil_of_carried hcarried)⟩

/-- The color write. -/
theorem writeColor_leads (hst : k.Carried s)
    (hkey : k.features.writeMasked = true → s.Has .argKey k.key)
    (hcover : k.exact → k.features.Covered k.fragment) :
    k.Leads (writeColor k.env) s (fun _ s' => k.Ended s'.mem) k.Ended := by
  refine .bind (.mark ?_)
  split
  · rename_i hmode
    exact clearStencil_leads hk hs hpixel hdepth hverdict hp hc hdithered hclear hmode
  · rename_i hmode
    exact writePixel_leads hk hs hpixel hdepth hverdict hp hc hdithered hclear hst hkey hcover
      (by simpa using hmode)

end

end Setting

end PixelPipeline
