/-
# Proofs.Drawn — compiled functions draw what is asked for

A call draws (`PixelCall.Draws`) if it is made for the key of a configuration
under given registers, with those registers and the constants of the key in
memory.  Then the two cells end as the configuration says, whatever is drawn
and whatever is stored: depth and color by the five tests, the stencil by its
updates, the color by fog, blend, dithering and raster operation, and all of them
by their masks.

A function may also run under other registers than its key was built for, or have
been compiled with another plan for its blend (`PixelCall.DrawsAs`).  Its two cells
end as the features of its own key say, and `Draws` is the case where registers and
plan are those of the draw.
-/
import PixelPipeline.Proofs.Calls
import PixelPipeline.Proofs.Outcome

namespace PixelPipeline

open X86 Compile

/-! ## Constants of a key -/

theorem KeyConstants.read_of_holds {m : Memory} {a : Address} {k : Key} (h : m.Holds a k.bytes) :
    KeyConstants.read m a = k.constants := by
  have hdither : (read m a).dither = k.constants.dither := by
    refine Vector.ext fun i hi => ?_
    have hbyte : k.bytes[Key.ditherAt + i]? = some k.constants.dither[i] := by
      rw [Key.bytes, List.append_assoc, List.getElem?_append_right (by simp [le64, Key.ditherAt]),
        List.getElem?_append_left (by simp [le64, Key.ditherAt]; omega)]
      simp [le64, Key.ditherAt, hi]
    exact (Vector.getElem_ofFn hi).trans (h _ _ hbyte)
  have hmask : (read m a).writeMask = k.constants.writeMask := by
    have hright := h.right
    rw [show (le64 k.word ++ k.constants.dither.toList).length = Key.writeMaskAt by
      simp [le64, Key.writeMaskAt]] at hright
    exact hright.read32
  exact congr (congrArg mk hdither) hmask

namespace Draw

variable {d : Draw}

/-- What a function finds whose key was built under the registers `built`. -/
def fragmentFor (d : Draw) (built : DrawState) : Fragment :=
  { d.fragment with constants := (Key.ofConfig d.config built).constants }

/-- The constants of a key protect a stencil that the draw never writes. -/
theorem covered (d : Draw) : d.features.Covered d.fragment := by
  intro hmasked hclear hcarried
  have hkept : d.features.keptBits d.fragment = d.fragment.constants.writeMask := if_pos hmasked
  rw [features_format, ← hkept]
  apply BitVec.eq_of_getLsbD_eq
  intro i _
  rw [BitVec.getLsbD_and, BitVec.getLsbD_not]
  refine Eq.trans ?_ BitVec.getLsbD_zero.symm
  cases hi : d.config.format.stencilBits.getLsbD i with
  | false => rfl
  | true =>
    have hw : Features.writesStencil d.config = false := by
      rw [← stores_eq (d.config.format.hasStencil_of_bit hi), hclear, hcarried]
      rfl
    rw [keptBits_all hw i hi, BitVec.getLsbD_allOnes, decide_eq_true (BitVec.lt_of_getLsbD hi)]
    rfl

/-- Constants protect it whatever registers there are when the function runs. -/
theorem coveredFor (d : Draw) (built : DrawState) :
    (Features.ofConfig d.config built).Covered (d.fragmentFor built) := by
  intro hmasked hclear hcarried
  refine ({ d with state := built } : Draw).covered hmasked hclear ?_
  unfold Features.carriedStencil at hcarried ⊢
  split at hcarried
  · cases hcarried
  · rename_i hno
    exact if_neg hno

/-- A stride that was compiled in is the one in the registers. -/
theorem strideOf_eq (c : Config) (built : DrawState) {stride : BitVec 16}
    (hstride : built.hasStandardStride = true → stride = standardStride) :
    (Features.ofConfig c built).strideOf stride = stride := by
  rw [Features.strideOf]
  split
  · rename_i hon
    rw [Bool.and_eq_true] at hon
    exact (hstride hon.1).symm
  · rfl

/-- A clear blends nothing. -/
theorem noBlend_of_clear (h : d.features.clearMode = true) : d.features.blend = false := by
  cases hclear : d.config.clear with
  | none =>
    rw [(features_base hclear).1] at h
    cases h
  | some flags =>
    rw [features_clear hclear]
    rfl

end Draw

/-! ## Calls that draw -/

namespace PixelCall

/-- What callers promise of a call that draws: it is safe, it is made for the key
of the configuration, and arguments, registers and constants are where the function
looks for them, apart from the two cells. -/
structure Draws (p : PixelCall) (d : Draw) : Prop where
  safe : p.Safe
  key : p.key = Key.ofConfig d.config d.state
  x : p.entry.reg32 .rdi = d.args.x
  y : p.entry.reg32 .rsi = d.args.y
  z : p.entry.reg16 .rdx = d.args.z
  fog : p.entry.reg32 .rcx = d.args.fog.setWidth 32
  color : p.entry.reg32 .r8 = d.args.color
  state : p.entry.mem.Holds p.addresses.state (d.state.bytes d.fbBase d.depthBase)
  constants : p.entry.mem.Holds (p.entry.reg .r9) p.key.bytes
  pool : p.entry.mem.Holds p.addresses.pool VectorPool.bytes
  poolApart : ∀ i, i < 64 → ¬p.InCells (p.addresses.pool + BitVec.ofNat 64 i)
  cellsApart : ∀ a, InCell d.pixelAddress d.config.format.bytesPerPixel a →
    ¬InCell d.depthAddress 2 a
  pixel : d.config.format.readPixel p.entry.mem d.pixelAddress = d.pixel
  depth : p.entry.mem.read16 d.depthAddress = d.depth

/-- What a function looks for: it is called for the key of the configuration under the
registers `built`, and arguments, registers, constants and the key are where the
function reads them. -/
structure Finds (p : PixelCall) (d : Draw) (built : DrawState) : Prop where
  key : p.key = Key.ofConfig d.config built
  x : p.entry.reg32 .rdi = d.args.x
  y : p.entry.reg32 .rsi = d.args.y
  z : p.entry.reg16 .rdx = d.args.z
  fog : p.entry.reg32 .rcx = d.args.fog.setWidth 32
  color : p.entry.reg32 .r8 = d.args.color
  state : p.entry.mem.Holds p.addresses.state (d.state.bytes d.fbBase d.depthBase)
  constants : p.entry.mem.Holds (p.entry.reg .r9) p.key.bytes
  pool : p.entry.mem.Holds p.addresses.pool VectorPool.bytes

namespace Finds

variable {p q : PixelCall} {d : Draw} {built built' : DrawState}

section

variable (h : p.Finds d built)

include h

theorem features : p.key.features = .ofConfig d.config built := by
  rw [h.key]
  exact Features.unpack_pack _

theorem format : p.key.features.format = d.config.format := by
  rw [h.features]
  exact Draw.features_format { d with state := built }

theorem block : p.block = .ofState d.state d.fbBase d.depthBase :=
  RegisterBlock.read_of_holds h.state

theorem pixelAddress (hstride : built.hasStandardStride = true → d.state.hasStandardStride = true) :
    p.pixelAddress = d.pixelAddress := by
  rw [PixelCall.pixelAddress, Features.pixelAddress, h.format, h.features, h.block, h.x, h.y]
  show elementAddress d.fbBase _ (pixelIndex (Features.strideOf _ d.state.fbStride) _ _) = _
  rw [Draw.strideOf_eq d.config built fun hon => ?_]
  · rfl
  · have hon := hstride hon
    rw [DrawState.hasStandardStride, Bool.and_eq_true, beq_iff_eq] at hon
    exact hon.1

theorem depthAddress (hstride : built.hasStandardStride = true → d.state.hasStandardStride = true) :
    p.depthAddress = d.depthAddress := by
  rw [PixelCall.depthAddress, Features.depthAddress, h.features, h.block, h.x, h.y]
  show elementAddress d.depthBase _ (pixelIndex (Features.strideOf _ d.state.depthStride) _ _) = _
  rw [Draw.strideOf_eq d.config built fun hon => ?_]
  · rfl
  · have hon := hstride hon
    rw [DrawState.hasStandardStride, Bool.and_eq_true, beq_iff_eq, beq_iff_eq] at hon
    exact hon.2

theorem fogByte : p.entry.reg8 .rcx = d.args.fog := by
  have hlow : p.entry.reg8 .rcx = (p.entry.reg32 .rcx).setWidth 8 :=
    (BitVec.setWidth_setWidth_of_le _ (by decide)).symm
  rw [hlow, h.fog, BitVec.setWidth_setWidth_of_le _ (by decide), BitVec.setWidth_eq]

/-- A byte of the two cells is the same in memories with the same pixel and depth. -/
theorem read_cells {m m' : Memory}
    (hpixel : d.config.format.readPixel m p.pixelAddress = d.config.format.readPixel m' p.pixelAddress)
    (hdepth : m.read16 p.depthAddress = m'.read16 p.depthAddress) {a : Address} (ha : p.InCells a) :
    m.read a = m'.read a := by
  rw [InCells, h.format] at ha
  rcases ha with ha | ha
  · exact PixelFormat.readPixel_eq_iff.mp hpixel a ha
  · exact Memory.read16_eq_iff.mp hdepth a ha

end

/-- Functions of one key take the same cells for the pixel and its depth, -/
theorem cells_eq (hp : p.Finds d built) (hq : q.Finds d built) :
    p.pixelAddress = q.pixelAddress ∧ p.depthAddress = q.depthAddress := by
  rw [PixelCall.pixelAddress, PixelCall.pixelAddress, PixelCall.depthAddress,
    PixelCall.depthAddress, hp.features, hq.features, hp.block, hq.block, hp.x, hq.x, hp.y, hq.y]
  exact ⟨rfl, rfl⟩

/-- and so do functions that find the strides they were compiled for. -/
theorem addresses_eq (hp : p.Finds d built) (hq : q.Finds d built')
    (hstride : built.hasStandardStride = true → d.state.hasStandardStride = true)
    (hstride' : built'.hasStandardStride = true → d.state.hasStandardStride = true) :
    p.pixelAddress = q.pixelAddress ∧ p.depthAddress = q.depthAddress := by
  rw [hp.pixelAddress hstride, hq.pixelAddress hstride', hp.depthAddress hstride,
    hq.depthAddress hstride']
  exact ⟨rfl, rfl⟩

theorem inCells_iff (hp : p.Finds d built) (hq : q.Finds d built')
    (h : p.pixelAddress = q.pixelAddress ∧ p.depthAddress = q.depthAddress) (a : Address) :
    q.InCells a ↔ p.InCells a := by
  rw [InCells, InCells, hp.format, hq.format, h.1, h.2]

end Finds

/-- What callers promise of a call that draws with a function for other registers, or
with another plan for its blend: everything that `Draws` promises, of the cells that
this function takes for the pixel and its depth. -/
structure DrawsAs (p : PixelCall) (d : Draw) (built : DrawState) (plan : BlendPlan) : Prop extends
    p.Finds d built where
  safe : p.SafeBy plan
  poolApart : ∀ i, i < 64 → ¬p.InCells (p.addresses.pool + BitVec.ofNat 64 i)
  cellsApart : ∀ a, InCell p.pixelAddress d.config.format.bytesPerPixel a →
    ¬InCell p.depthAddress 2 a
  pixel : d.config.format.readPixel p.entry.mem p.pixelAddress = d.pixel
  depth : p.entry.mem.read16 p.depthAddress = d.depth

/-- The call draws with the function that is compiled under the registers `built`. -/
abbrev DrawsUnder (p : PixelCall) (d : Draw) (built : DrawState) : Prop :=
  p.DrawsAs d built (.ofFeatures (.ofConfig d.config built))

namespace DrawsAs

variable {p : PixelCall} {d : Draw} {built : DrawState} {plan : BlendPlan}
  (h : p.DrawsAs d built plan)

include h

/-- The fragment that the function finds is the one that is drawn. -/
theorem fragment : (p.setting True).fragment = d.fragmentFor built := by
  have hconstants : KeyConstants.read p.entry.mem (p.entry.reg .r9) =
      (Key.ofConfig d.config built).constants := h.key ▸ KeyConstants.read_of_holds h.constants
  have hpixel : p.key.features.format.readPixel p.entry.mem p.pixelAddress = d.pixel := by
    rw [h.format, h.pixel]
  show Fragment.mk p.block (.read p.entry.mem (p.entry.reg .r9)) (p.entry.reg32 .rdi)
    (p.entry.reg32 .rsi) (p.entry.reg16 .rdx) (p.entry.reg8 .rcx) (p.entry.reg32 .r8)
    (p.key.features.format.readPixel p.entry.mem p.pixelAddress)
    (p.entry.mem.read16 p.depthAddress) = d.fragmentFor built
  rw [h.block, hconstants, h.x, h.y, h.z, h.fogByte, h.color, hpixel, h.depth]
  rfl

theorem sound : (p.setting True).Sound where
  state := h.safe.state
  key i hi := h.safe.key i (by rwa [length_keyBytes])
  aligned := h.safe.aligned
  constants _ := h.pool
  pool _ := h.poolApart
  apart _ a ha := by
    have hpixel : InCell p.pixelAddress p.key.features.format.bytesPerPixel a := ha
    rw [h.format] at hpixel
    exact h.cellsApart a hpixel
  fog _ := h.fog.trans (by rw [← h.fogByte]; rfl)

/-- The two cells end with the outcome, and nothing else changes. -/
theorem exists_result (hplan : plan.Serves (.ofConfig d.config built)) :
    ∃ c, p.result = some c ∧ p.entry.mem.Later p.InCells c.mem ∧
    d.config.format.readPixel c.mem p.pixelAddress =
      ((Features.ofConfig d.config built).outcome (d.fragmentFor built)).1 ∧
    c.mem.read16 p.depthAddress =
      ((Features.ofConfig d.config built).outcome (d.fragmentFor built)).2 := by
  obtain ⟨code, hcode, -, hlt, hres⟩ := h.safe.exists_code
  obtain ⟨e, hrun, hlater, -, hended⟩ := exists_runBy (h.features ▸ hplan) h.sound
    (fun _ => by rw [h.fragment, h.features]; exact d.coveredFor built)
    (fun _ => by rw [h.features]; exact Draw.noBlend_of_clear (d := { d with state := built })) hcode
  obtain ⟨hpixel, hdepth⟩ := hended trivial
  rw [h.fragment] at hpixel hdepth
  change p.key.features.format.readPixel e.cpu.mem p.pixelAddress =
    (p.key.features.outcome (d.fragmentFor built)).1 at hpixel
  change e.cpu.mem.read16 p.depthAddress = (p.key.features.outcome (d.fragmentFor built)).2 at hdepth
  rw [h.format, h.features] at hpixel
  rw [h.features] at hdepth
  exact ⟨e.cpu, result_of_run hrun hres hlater hlt, hlater, hpixel, hdepth⟩

end DrawsAs

namespace Draws

variable {p : PixelCall} {d : Draw} (h : p.Draws d)

include h

theorem finds : p.Finds d d.state :=
  ⟨h.key, h.x, h.y, h.z, h.fog, h.color, h.state, h.constants, h.pool⟩

theorem features : p.key.features = d.features := h.finds.features

theorem pixelAddress : p.pixelAddress = d.pixelAddress := h.finds.pixelAddress id

theorem depthAddress : p.depthAddress = d.depthAddress := h.finds.depthAddress id

/-- To draw is to draw with a function for the registers there are. -/
theorem drawsUnder : p.DrawsUnder d d.state where
  toFinds := h.finds
  safe := by
    have hsafe := h.safe.by_plan
    rwa [h.features] at hsafe
  poolApart := h.poolApart
  cellsApart := by
    rw [h.pixelAddress, h.depthAddress]
    exact h.cellsApart
  pixel := by rw [h.pixelAddress, h.pixel]
  depth := by rw [h.depthAddress, h.depth]

/-- The two cells end with the outcome, and nothing else changes. -/
theorem exists_result : ∃ c, p.result = some c ∧ p.entry.mem.Later p.InCells c.mem ∧
    d.config.format.readPixel c.mem d.pixelAddress = (d.features.outcome d.fragment).1 ∧
    c.mem.read16 d.depthAddress = (d.features.outcome d.fragment).2 := by
  obtain ⟨c, hresult, hlater, hpixel, hdepth⟩ := h.drawsUnder.exists_result (.inl rfl)
  rw [h.pixelAddress] at hpixel
  rw [h.depthAddress] at hdepth
  exact ⟨c, hresult, hlater, hpixel, hdepth⟩

end Draws

/-- The call comes to an end with a pixel and a depth in the two cells, and with
every byte beside them as it was. -/
def Leaves (p : PixelCall) (d : Draw) (pixel : BitVec 32) (depth : BitVec 16) : Prop :=
  ∃ c, p.result = some c ∧
    (∀ a, ¬InCell d.pixelAddress d.config.format.bytesPerPixel a → ¬InCell d.depthAddress 2 a →
      c.mem.read a = p.entry.mem.read a) ∧
    d.config.format.readPixel c.mem d.pixelAddress = pixel ∧ c.mem.read16 d.depthAddress = depth

/-- The call leaves what the outcome says. -/
theorem Draws.leaves {p : PixelCall} {d : Draw} (h : p.Draws d) :
    p.Leaves d (d.features.outcome d.fragment).1 (d.features.outcome d.fragment).2 := by
  obtain ⟨c, hresult, hlater, hpixel, hdepth⟩ := h.exists_result
  refine ⟨c, hresult, fun a hp hd => hlater.read_eq ?_, hpixel, hdepth⟩
  rw [InCells, h.pixelAddress, h.depthAddress, h.features, Draw.features_format]
  exact fun ha => ha.elim hp hd

end PixelCall

/-! ### Calls of a drawing -/

namespace Drawing

/-- A pixel that a drawing draws, with what its buffers have at its place. -/
def drawOf (d : Drawing) (c : Config) (bound : BoundKey) (a : PixelArgs) : Draw where
  config := c
  state := d.state
  fbBase := BitVec.ofNat 64 colorBase
  depthBase := BitVec.ofNat 64 depthBase
  args := a
  pixel := c.format.readPixel (d.memory bound.key)
    (elementAddress (BitVec.ofNat 64 colorBase) c.format.bytesPerPixel
      (pixelIndex d.state.fbStride a.x a.y))
  depth := (d.memory bound.key).read16
    (elementAddress (BitVec.ofNat 64 depthBase) 2 (pixelIndex d.state.depthStride a.x a.y))

/-- The same, with what the buffers have whatever else is in memory. -/
def seen (d : Drawing) (c : Config) (a : PixelArgs) : Draw where
  config := c
  state := d.state
  fbBase := BitVec.ofNat 64 colorBase
  depthBase := BitVec.ofNat 64 depthBase
  args := a
  pixel := c.format.readPixel d.buffers (elementAddress (BitVec.ofNat 64 colorBase)
    c.format.bytesPerPixel (pixelIndex d.state.fbStride a.x a.y))
  depth := d.buffers.read16
    (elementAddress (BitVec.ofNat 64 depthBase) 2 (pixelIndex d.state.depthStride a.x a.y))

variable {d : Drawing} {c : Config} {f : CompiledFunction} {built : DrawState} {plan : BlendPlan}

theorem Fits.drawOf_eq {bound : BoundKey} (h : d.Fits bound) (c : Config) (a : PixelArgs) :
    d.drawOf c bound a = d.seen c a := by
  have hpixel : (d.drawOf c bound a).pixel = (d.seen c a).pixel :=
    PixelFormat.readPixel_eq_iff.mpr fun b hb => h.read_buffers
      (elementAddress_range hb c.format.bytesPerPixel_le (by decide)).1
  have hdepth : (d.drawOf c bound a).depth = (d.seen c a).depth :=
    Memory.read16_eq_iff.mpr fun b hb => h.read_buffers
      (Nat.le_trans (by decide) (elementAddress_range hb (by decide) (by decide)).1)
  calc d.drawOf c bound a
    _ = { d.seen c a with
          pixel := (d.drawOf c bound a).pixel, depth := (d.drawOf c bound a).depth } := rfl
    _ = d.seen c a := by rw [hpixel, hdepth]

/-- Arguments, registers and constants are where a function looks for them. -/
theorem Fits.finds (h : d.Fits ⟨Key.ofConfig c built, f⟩) (a : PixelArgs) :
    (d.callOf ⟨Key.ofConfig c built, f⟩ a).Finds (d.seen c a) built where
  key := rfl
  x := BitVec.setWidth_setWidth_of_le _ (by decide)
  y := BitVec.setWidth_setWidth_of_le _ (by decide)
  z := BitVec.setWidth_setWidth_of_le _ (by decide)
  fog := BitVec.setWidth_setWidth_of_le _ (by decide)
  color := BitVec.setWidth_setWidth_of_le _ (by decide)
  state := h.state
  constants := h.key
  pool := h.pool

theorem Fits.poolApart {bound : BoundKey} (h : d.Fits bound) (a : PixelArgs) {i : Nat} (hi : i < 64) :
    ¬(d.callOf bound a).InCells (BitVec.ofNat 64 poolBase + BitVec.ofNat 64 i) := by
  rw [← BitVec.ofNat_add]
  exact h.not_inCells a (Nat.lt_of_lt_of_le (Nat.add_lt_add_left hi _) (by decide))

/-- What a drawing calls draws what is asked for, also under other registers than it was
built for. -/
theorem HoldsBy.drawsAs (h : d.HoldsBy ⟨Key.ofConfig c built, f⟩ plan) (a : PixelArgs)
    (hstride : built.hasStandardStride = true → d.state.hasStandardStride = true) :
    (d.callOf ⟨Key.ofConfig c built, f⟩ a).DrawsAs (d.seen c a) built plan := by
  have hfinds := h.toFits.finds a
  have hpixel := hfinds.pixelAddress hstride
  have hdepth := hfinds.depthAddress hstride
  refine ⟨hfinds, h.safe a, fun i hi => h.toFits.poolApart a hi, fun b hb => ?_, ?_, ?_⟩
  · rw [hpixel] at hb
    rw [hdepth]
    exact cells_apart c.format.bytesPerPixel_le hb
  · rw [hpixel]
    exact congrArg Draw.pixel (h.toFits.drawOf_eq c a)
  · rw [hdepth]
    exact congrArg Draw.depth (h.toFits.drawOf_eq c a)

/-- What a drawing calls draws what is asked for. -/
theorem Holds.draws (h : d.Holds ⟨Key.ofConfig c d.state, f⟩) (a : PixelArgs) :
    (d.callOf ⟨Key.ofConfig c d.state, f⟩ a).Draws
      (d.drawOf c ⟨Key.ofConfig c d.state, f⟩ a) := by
  have hfinds := h.fits.finds a
  exact ⟨h.safe a, rfl, hfinds.x, hfinds.y, hfinds.z, hfinds.fog, hfinds.color, hfinds.state,
    hfinds.constants, hfinds.pool, fun i hi => h.fits.poolApart a hi,
    fun b hb => cells_apart c.format.bytesPerPixel_le hb, rfl, rfl⟩

theorem Holds.draws_seen (h : d.Holds ⟨Key.ofConfig c d.state, f⟩) (a : PixelArgs) :
    (d.callOf ⟨Key.ofConfig c d.state, f⟩ a).Draws (d.seen c a) := by
  rw [← h.fits.drawOf_eq c a]
  exact h.draws a

end Drawing

/-! ## What calls leave -/

namespace PixelCall

variable {p : PixelCall} {d : Draw}

/-- Depth is written if the configuration asks for it and all five tests pass.  If
one of them fails, no color bit is changed. -/
theorem Draws.depth_left (h : p.Draws d) (hclear : d.config.clear = none) :
    ∃ pixel depth, p.Leaves d pixel depth ∧
      depth = (if d.config.depthWrite && d.survives then d.args.z else d.depth) ∧
      (d.survives = false → Agree d.config.format.colorBits pixel d.pixel) :=
  ⟨_, _, h.leaves, Draw.outcome_depth hclear, Draw.outcome_color hclear⟩

/-- A fogged pixel in range of depth. -/
theorem depth_left_fogged : ∃ (p : PixelCall) (d : Draw) (pixel : BitVec 32), p.Draws d ∧
    d.config = { fog := true, depthWrite := true, depthRange := true } ∧ d.state.maxZ = 9 ∧
      p.Leaves d pixel 7 := by
  obtain ⟨cache, f, h⟩ := Drawing.exists_holds
    { fog := true, depthWrite := true, depthRange := true } { maxZ := 9 } 1 0 0
  obtain ⟨pixel, depth, hleaves, rfl, -⟩ := (h.draws ⟨0, 0, 7, 255, 0x80000000⟩).depth_left rfl
  exact ⟨_, _, pixel, h.draws ⟨0, 0, 7, 255, 0x80000000⟩, rfl, rfl, hleaves⟩

/-- The stencil bits are updated in a pixel that comes to the stencil test, by the
action for the way it goes on, but for those that are protected. -/
theorem Draws.stencil_left (h : p.Draws d) (hclear : d.config.clear = none)
    (href : ∀ t, d.config.stencilTest = some t → d.state.stencilRef = t.reference) :
    ∃ pixel depth, p.Leaves d pixel depth ∧
      Agree d.config.format.stencilBits pixel d.restenciled :=
  ⟨_, _, h.leaves, Draw.outcome_restenciled hclear href⟩

/-- A stencil that is replaced under a mask. -/
theorem stencil_left_replaced : ∃ (p : PixelCall) (d : Draw) (pixel : BitVec 32) (depth : BitVec 16),
    p.Draws d ∧ d.config.stencilTest = some ⟨.notEqual, 5, .replace, .invert, .replace⟩ ∧
      d.state.stencilRef = 5 ∧ d.state.alphaWriteMask = 0x30 ∧ p.Leaves d pixel depth ∧
      Agree d.config.format.stencilBits pixel d.restenciled := by
  obtain ⟨cache, f, h⟩ := Drawing.exists_holds
    { format := .rgba4444, stencilTest := some ⟨.notEqual, 5, .replace, .invert, .replace⟩ }
    { stencilRef := 5, alphaWriteMask := 0x30 } 1 0 0
  obtain ⟨pixel, depth, hleaves, hstencil⟩ := (h.draws ⟨0, 0, 7, 255, 0⟩).stencil_left rfl
    fun t ht => congrArg StencilTest.reference (Option.some.inj ht)
  exact ⟨_, _, pixel, depth, h.draws ⟨0, 0, 7, 255, 0⟩, rfl, rfl, rfl, hleaves, hstencil⟩

/-- A clear replaces what its flags say, in range of depth, but for protected bits,
and nothing else, whatever the rest of the configuration asks for.  Calls that both
clear the stencil leave the same stencil bits. -/
theorem Draws.clear_left {flags : ClearFlags} (h : p.Draws d) (hclear : d.config.clear = some flags) :
    ∃ pixel depth, p.Leaves d pixel depth ∧
      (d.rangePasses = false → pixel = d.pixel ∧ depth = d.depth) ∧
      (d.rangePasses = true →
        depth = (if flags.depth then d.args.z else d.depth) ∧
        Agree d.config.format.colorBits pixel (if flags.color then d.colorCleared else d.pixel) ∧
        Agree d.config.format.stencilBits pixel
          (if flags.stencil then d.stencilCleared else d.pixel)) ∧
      ∀ (p' : PixelCall) (flags' : ClearFlags), p'.Draws (d.clearing flags') →
        flags'.stencil = flags.stencil → ∃ pixel' depth', p'.Leaves (d.clearing flags') pixel' depth' ∧
          Agree d.config.format.stencilBits pixel' pixel := by
  have hcleared {p' : PixelCall} {d' : Draw} {flags' : ClearFlags} (h' : p'.Draws d')
      (hclear' : d'.config.clear = some flags') (hrange : d'.rangePasses = true) :
      p'.Leaves d' (d'.features.passedPixel d'.fragment)
        (if flags'.depth then d'.args.z else d'.depth) := by
    have hleaves := h'.leaves
    rwa [Draw.outcome_clear hclear', hrange, if_pos rfl] at hleaves
  have hkept {p' : PixelCall} {d' : Draw} {flags' : ClearFlags} (h' : p'.Draws d')
      (hclear' : d'.config.clear = some flags') (hrange : d'.rangePasses = false) :
      p'.Leaves d' d'.pixel d'.depth := by
    have hleaves := h'.leaves
    rwa [Draw.outcome_clear hclear', hrange, if_neg Bool.false_ne_true] at hleaves
  cases hrange : d.rangePasses with
  | false =>
    refine ⟨_, _, hkept h hclear hrange, fun _ => ⟨rfl, rfl⟩, fun hno => absurd hno.symm (by decide),
      fun p' flags' h' _ => ⟨_, _, hkept h' rfl hrange, Agree.refl _ _⟩⟩
  | true =>
    refine ⟨_, _, hcleared h hclear hrange, fun hno => absurd hno.symm (by decide),
      fun _ => ⟨rfl, Draw.cleared_color hclear, Draw.cleared_stencil hclear⟩, fun p' flags' h' hsame =>
        ⟨_, _, hcleared h' rfl hrange, ?_⟩⟩
    have hother : Agree d.config.format.stencilBits
        ((d.clearing flags').features.passedPixel (d.clearing flags').fragment)
        (if flags'.stencil then d.stencilCleared else d.pixel) :=
      Draw.cleared_stencil (d := d.clearing flags') rfl
    rw [hsame] at hother
    exact hother.trans (Draw.cleared_stencil hclear).symm

/-- A clear of stencil and depth, with a blend that it ignores. -/
theorem clear_left_stencil : ∃ (p : PixelCall) (d : Draw) (pixel : BitVec 32), p.Draws d ∧
    d.config = { format := .rgba5551, clear := some { stencil := true, depth := true },
                 depthRange := true, blend := some ⟨.add, .srcAlpha, .invSrcAlpha⟩ } ∧
      p.Leaves d pixel 7 ∧ Agree d.config.format.colorBits pixel d.pixel ∧
      Agree d.config.format.stencilBits pixel d.stencilCleared := by
  obtain ⟨cache, f, h⟩ := Drawing.exists_holds
    { format := .rgba5551, clear := some { stencil := true, depth := true }, depthRange := true,
      blend := some ⟨.add, .srcAlpha, .invSrcAlpha⟩ } { maxZ := 9 } 1 0 0
  obtain ⟨pixel, depth, hleaves, -, hcleared, -⟩ :=
    (h.draws ⟨0, 0, 7, 255, 0x80000000⟩).clear_left rfl
  obtain ⟨rfl, hcolor, hstencil⟩ := hcleared rfl
  exact ⟨_, _, pixel, h.draws ⟨0, 0, 7, 255, 0x80000000⟩, rfl, hleaves, hcolor, hstencil⟩

end PixelCall

end PixelPipeline
