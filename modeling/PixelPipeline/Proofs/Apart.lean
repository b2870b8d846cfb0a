/-
# Proofs.Apart — pixels that lie apart

A call reads its code, the registers, the vector constants, its key and the two cells
of its pixel, and stores to these two cells alone.  So a call on other memory
(`PixelCall.inMemory`) that agrees on what it reads is the same call, and leaves the
same in its cells.  Two calls whose cells lie apart, and none of whose cells is read by
the other, may run in either order: each finds what it would have found without the
other, and the memory behind both is the same, byte for byte.
-/
import PixelPipeline.Proofs.Drawn

namespace PixelPipeline

open X86 Compile

/-! ## Memory that agrees -/

namespace X86.Memory

theorem Holds.of_agree {m m' : Memory} {a : Address} {bs : List Byte} {n : Nat} (h : m.Holds a bs)
    (hlen : bs.length = n) (hagree : ∀ b, InCell a n b → m'.read b = m.read b) : m'.Holds a bs := by
  intro i v hv
  have hi : i < n := hlen ▸ (List.getElem?_eq_some_iff.mp hv).1
  rw [hagree _ ⟨i, hi, rfl⟩]
  exact h i v hv

end X86.Memory

/-! ## Calls on other memory -/

namespace PixelCall

/-- The same call where memory is another. -/
def inMemory (p : PixelCall) (m : Memory) : PixelCall := { p with entry := p.entry.setMem m }

/-- The bytes that a call reads and never stores to: its code, the registers, the vector
constants and its key. -/
def Reads (p : PixelCall) (a : Address) : Prop :=
  (∃ i, p.function.start ≤ i ∧ i < p.function.stop ∧ a = p.base + BitVec.ofNat 64 i) ∨
    InCell p.addresses.state 70 a ∨ InCell p.addresses.pool 64 a ∨ InCell (p.entry.reg .r9) 28 a

variable {p q : PixelCall} {d e : Draw} {m : Memory}

/-- Memory that agrees on what a call reads has what it looks for. -/
theorem Finds.inMemory {built : DrawState} (h : p.Finds d built)
    (hreads : ∀ a, p.Reads a → m.read a = p.entry.mem.read a) : (p.inMemory m).Finds d built where
  key := h.key
  x := h.x
  y := h.y
  z := h.z
  fog := h.fog
  color := h.color
  state := h.state.of_agree (Drawing.Fits.length_stateBytes _ _ _) fun a ha =>
    hreads a (.inr (.inl ha))
  constants := h.constants.of_agree (length_keyBytes _) fun a ha =>
    hreads a (.inr (.inr (.inr ha)))
  pool := h.pool.of_agree rfl fun a ha => hreads a (.inr (.inr (.inl ha)))

namespace Draws

/-- If it agrees on the two cells as well, the call draws the same. -/
theorem inMemory (h : p.Draws d) (hreads : ∀ a, p.Reads a → m.read a = p.entry.mem.read a)
    (hcells : ∀ a, p.InCells a → m.read a = p.entry.mem.read a) : (p.inMemory m).Draws d := by
  have hfinds := h.finds.inMemory hreads
  have hsame := h.finds.inCells_iff hfinds (h.finds.cells_eq hfinds)
  have hin {a : Address} (ha : InCell d.pixelAddress d.config.format.bytesPerPixel a ∨
      InCell d.depthAddress 2 a) : p.InCells a := by
    rwa [InCells, h.finds.format, h.pixelAddress, h.depthAddress]
  exact {
    safe := {
      compiled := by
        obtain ⟨b, b', hok, hbytes⟩ := h.safe.compiled
        exact ⟨b, b', hok, fun i hstart hstop =>
          (hreads _ (.inl ⟨i, hstart, hstop, rfl⟩)).trans (hbytes i hstart hstop)⟩
      aligned := h.safe.aligned
      code := fun i hstart hstop ha => h.safe.code i hstart hstop ((hsame _).mp ha)
      state := fun i hi ha => h.safe.state i hi ((hsame _).mp ha)
      key := fun i hi ha => h.safe.key i hi ((hsame _).mp ha) }
    key := hfinds.key
    x := hfinds.x
    y := hfinds.y
    z := hfinds.z
    fog := hfinds.fog
    color := hfinds.color
    state := hfinds.state
    constants := hfinds.constants
    pool := hfinds.pool
    poolApart := fun i hi ha => h.poolApart i hi ((hsame _).mp ha)
    cellsApart := h.cellsApart
    pixel := (PixelFormat.readPixel_eq_iff.mpr fun a ha => hcells a (hin (.inl ha))).trans h.pixel
    depth := (Memory.read16_eq_iff.mpr fun a ha => hcells a (hin (.inr ha))).trans h.depth }

end Draws

end PixelCall

/-! ## Pixels of one drawing -/

namespace Drawing

variable {d : Drawing} {bound : BoundKey}

/-- Elements with different indices share no byte. -/
theorem elements_apart {base size : Nat} {i j : BitVec 32} {a : Address} (hne : i ≠ j)
    (hsize : size ≤ 4) (hbase : base ≤ depthBase)
    (h : InCell (elementAddress (BitVec.ofNat 64 base) size i) size a) :
    ¬InCell (elementAddress (BitVec.ofNat 64 base) size j) size a := by
  intro h'
  obtain ⟨hfirst, hlast, -⟩ := elementAddress_bytes h hsize hbase
  obtain ⟨hfirst', hlast', -⟩ := elementAddress_bytes h' hsize hbase
  rcases Nat.lt_or_gt_of_ne (fun he => hne (BitVec.eq_of_toNat_eq he)) with hlt | hlt
  · have := Nat.mul_le_mul_left size (show i.toNat + 1 ≤ j.toNat from hlt)
    omega
  · have := Nat.mul_le_mul_left size (show j.toNat + 1 ≤ i.toNat from hlt)
    omega

/-- Pixels with different indices in both buffers share no byte. -/
theorem Holds.inCells_apart {c : Config} {f : CompiledFunction}
    (h : d.Holds ⟨Key.ofConfig c d.state, f⟩) {a b : PixelArgs}
    (hcolor : pixelIndex d.state.fbStride a.x a.y ≠ pixelIndex d.state.fbStride b.x b.y)
    (hdepth : pixelIndex d.state.depthStride a.x a.y ≠ pixelIndex d.state.depthStride b.x b.y)
    (n : Address) (ha : (d.callOf ⟨Key.ofConfig c d.state, f⟩ a).InCells n) :
    ¬(d.callOf ⟨Key.ofConfig c d.state, f⟩ b).InCells n := by
  have hsize := c.format.bytesPerPixel_le
  have hp := h.draws_seen a
  have hq := h.draws_seen b
  rw [PixelCall.InCells, hp.finds.format, hp.pixelAddress, hp.depthAddress] at ha
  rw [PixelCall.InCells, hq.finds.format, hq.pixelAddress, hq.depthAddress]
  rintro (hb | hb) <;> rcases ha with ha | ha
  · exact elements_apart hcolor hsize (by decide) ha hb
  · exact cells_apart hsize hb ha
  · exact cells_apart hsize ha hb
  · exact elements_apart hdepth (by decide) (by decide) ha hb

/-- What a call reads lies in front of the buffers. -/
theorem Fits.not_reads (h : d.Fits bound) (a a' : PixelArgs) (b : Address)
    (hb : (d.callOf bound a).InCells b) : ¬(d.callOf bound a').Reads b := by
  have front (base : Nat) {i n : Nat} (hlt : i < n) (hle : base + n ≤ colorBase) :
      ¬(d.callOf bound a).InCells (BitVec.ofNat 64 base + BitVec.ofNat 64 i) := by
    rw [← BitVec.ofNat_add]
    exact h.not_inCells a (Nat.lt_of_lt_of_le (Nat.add_lt_add_left hlt base) hle)
  rintro (⟨i, -, hi, rfl⟩ | ⟨i, hi, rfl⟩ | ⟨i, hi, rfl⟩ | ⟨i, hi, rfl⟩)
  · exact front codeBase hi (Nat.le_trans h.stop (by decide)) hb
  · exact front stateBase hi (by decide) hb
  · exact front poolBase hi (by decide) hb
  · exact front keyBase hi (by decide) hb

end Drawing

/-! ## Two calls -/

namespace PixelCall

variable {p q : PixelCall} {d e : Draw}

namespace Draws

/-- A call that comes after one whose cells lie apart leaves its own cells as it would
have left them alone, and all other bytes as the first call did. -/
theorem after (hp : p.Draws d) (hq : q.Draws e) (hmem : q.entry.mem = p.entry.mem)
    (hcells : ∀ a, p.InCells a → ¬q.InCells a) (hreads : ∀ a, p.InCells a → ¬q.Reads a)
    {c₁ c₂ : Cpu} (h₁ : p.result = some c₁) (h₂ : q.result = some c₂) :
    ∃ c, (q.inMemory c₁.mem).result = some c ∧ (∀ a, q.InCells a → c.mem.read a = c₂.mem.read a) ∧
      ∀ a, ¬q.InCells a → c.mem.read a = c₁.mem.read a := by
  obtain ⟨c₁', h₁', hlater₁, -, -⟩ := hp.exists_result
  obtain rfl : c₁ = c₁' := Option.some.inj (h₁.symm.trans h₁')
  obtain ⟨c₂', h₂', -, hpixel₂, hdepth₂⟩ := hq.exists_result
  obtain rfl : c₂ = c₂' := Option.some.inj (h₂.symm.trans h₂')
  have hkept {a : Address} (ha : ¬p.InCells a) : c₁.mem.read a = q.entry.mem.read a := by
    rw [hmem, hlater₁.read_eq ha]
  have hq' : (q.inMemory c₁.mem).Draws e :=
    hq.inMemory (fun a ha => hkept fun hin => hreads a hin ha) fun a ha =>
      hkept fun hin => hcells a hin ha
  obtain ⟨c, hresult, hlater, hpixel, hdepth⟩ := hq'.exists_result
  have hsame := hq.finds.inCells_iff hq'.finds (hq.finds.cells_eq hq'.finds)
  refine ⟨c, hresult, fun a ha => hq.finds.read_cells ?_ ?_ ha,
    fun a ha => hlater.read_eq fun hin => ha ((hsame a).mp hin)⟩
  · rw [hq.pixelAddress, hpixel, hpixel₂]
  · rw [hq.depthAddress, hdepth, hdepth₂]

/-- Draws on different pixels commute: for any two functions and any arguments, if the
cells of each lie apart from those of the other and from what the other reads, either
order leaves the same memory. -/
theorem commute (hp : p.Draws d) (hq : q.Draws e) (hmem : q.entry.mem = p.entry.mem)
    (hcells : ∀ a, p.InCells a → ¬q.InCells a) (hpq : ∀ a, p.InCells a → ¬q.Reads a)
    (hqp : ∀ a, q.InCells a → ¬p.Reads a) :
    ∃ c₁ c₁₂ c₂ c₂₁, p.result = some c₁ ∧ (q.inMemory c₁.mem).result = some c₁₂ ∧
      q.result = some c₂ ∧ (p.inMemory c₂.mem).result = some c₂₁ ∧
      ∀ a, c₁₂.mem.read a = c₂₁.mem.read a := by
  obtain ⟨c₁, h₁, hlater₁, -, -⟩ := hp.exists_result
  obtain ⟨c₂, h₂, hlater₂, -, -⟩ := hq.exists_result
  obtain ⟨c₁₂, h₁₂, hin₁₂, hout₁₂⟩ := hp.after hq hmem hcells hpq h₁ h₂
  obtain ⟨c₂₁, h₂₁, hin₂₁, hout₂₁⟩ :=
    hq.after hp hmem.symm (fun a ha hin => hcells a hin ha) hqp h₂ h₁
  refine ⟨c₁, c₁₂, c₂, c₂₁, h₁, h₁₂, h₂, h₂₁, fun a => ?_⟩
  by_cases ha₁ : p.InCells a
  · -- a byte of the first pixel
    rw [hout₁₂ a (hcells a ha₁), hin₂₁ a ha₁]
  · by_cases ha₂ : q.InCells a
    · -- a byte of the second
      rw [hin₁₂ a ha₂, hout₂₁ a ha₁]
    · -- a byte of neither
      rw [hout₁₂ a ha₂, hout₂₁ a ha₁, hlater₁.read_eq ha₁, hlater₂.read_eq ha₂, hmem]

/-- Two pixels side by side, each blended, dithered and tested for stencil and depth. -/
theorem commute_neighbours : ∃ (p q : PixelCall) (d e : Draw), p.Draws d ∧ q.Draws e ∧
    q.entry.mem = p.entry.mem ∧ (∀ a, p.InCells a → ¬q.InCells a) ∧
    (∀ a, p.InCells a → ¬q.Reads a) ∧ (∀ a, q.InCells a → ¬p.Reads a) ∧
    ∃ c₁ c₁₂ c₂ c₂₁, p.result = some c₁ ∧ (q.inMemory c₁.mem).result = some c₁₂ ∧
      q.result = some c₂ ∧ (p.inMemory c₂.mem).result = some c₂₁ ∧
      ∀ a, c₁₂.mem.read a = c₂₁.mem.read a := by
  obtain ⟨cache, f, h⟩ := Drawing.exists_holds
    { format := .rgba5551, depthTest := some .less, depthWrite := true, dither := true,
      stencilTest := some ⟨.always, 1, .keep, .keep, .replace⟩,
      blend := some ⟨.add, .srcAlpha, .invSrcAlpha⟩ } {} 2 0x12345678 9
  have hp := h.draws_seen ⟨0, 0, 7, 255, 0x80402010⟩
  have hq := h.draws_seen ⟨1, 0, 5, 255, 0x40FF00FF⟩
  have hindex : pixelIndex standardStride 0 0 ≠ pixelIndex standardStride 1 0 := by decide
  have hcells := h.inCells_apart (a := ⟨0, 0, 7, 255, 0x80402010⟩) (b := ⟨1, 0, 5, 255, 0x40FF00FF⟩)
    hindex hindex
  exact ⟨_, _, _, _, hp, hq, rfl, hcells, h.fits.not_reads _ _, h.fits.not_reads _ _,
    hp.commute hq rfl hcells (h.fits.not_reads _ _) (h.fits.not_reads _ _)⟩

end Draws

end PixelCall

end PixelPipeline
