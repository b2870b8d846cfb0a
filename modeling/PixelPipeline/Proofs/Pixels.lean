/-
# Proofs.Pixels — the stored pixel and its bits

Where the two cells lie apart, a store to one leaves the other alone.  A pixel
is the word of its bytes, and its stencil bits are in the last of them, so that
they can be stored alone; `masked_byte` says what becomes of the pixel then.
-/
import Mathlib.Tactic.IntervalCases
import PixelPipeline.Compile.Stencil
import PixelPipeline.Proofs.Shared

namespace PixelPipeline

open X86 Compile

/-! ## Bytes that are stored -/

namespace X86.Memory

theorem add_ofNat_inj {a : Address} {i j : Nat} (hi : i < 16) (hj : j < 16)
    (h : a + BitVec.ofNat 64 i = a + BitVec.ofNat 64 j) : i = j := by
  have h := congrArg BitVec.toNat ((BitVec.add_right_inj a).mp h)
  rw [BitVec.toNat_ofNat, BitVec.toNat_ofNat] at h
  omega

theorem read_write_offset (m : Memory) (a : Address) (v : Byte) {i j : Nat} (hi : i < 16)
    (hj : j < 16) : (m.write (a + BitVec.ofNat 64 i) v).read (a + BitVec.ofNat 64 j) =
      if j = i then v else m.read (a + BitVec.ofNat 64 j) := by
  rw [read_write]
  split
  · rename_i h
    rw [if_pos (add_ofNat_inj hj hi h)]
  · rename_i h
    rw [if_neg fun e => h (by rw [e])]

/-- Bytes that were stored are held, and bytes beside them are as they were. -/
theorem read_writeAll (m : Memory) (a : Address) (bs : List Byte) {i j : Nat}
    (hi : i + bs.length < 16) (hj : j < 16) :
    (m.writeAll (a + BitVec.ofNat 64 i) bs).read (a + BitVec.ofNat 64 j) =
      if j < i then m.read (a + BitVec.ofNat 64 j)
      else (bs[j - i]?).getD (m.read (a + BitVec.ofNat 64 j)) := by
  induction bs generalizing m i with
  | nil => simp [writeAll]
  | cons v rest ih =>
    rw [List.length_cons] at hi
    rw [writeAll, add_one_add, ih _ (by omega), read_write_offset _ _ _ (by omega) hj]
    rcases Nat.lt_trichotomy j i with h | rfl | h
    · rw [if_pos (by omega), if_neg (by omega), if_pos h]
    · rw [if_pos (by omega), if_pos rfl, if_neg (by omega), Nat.sub_self]
      rfl
    · rw [if_neg (by omega), if_neg (by omega), if_neg (by omega),
        show j - i = (j - (i + 1)) + 1 by omega, List.getElem?_cons_succ]

theorem holds_writeAll (m : Memory) (a : Address) {bs : List Byte} (h : bs.length < 16) :
    (m.writeAll a bs).Holds a bs := by
  intro i b hb
  have hi : i < bs.length := (List.getElem?_eq_some_iff.mp hb).1
  have := read_writeAll m a bs (i := 0) (j := i) (by omega) (by omega)
  rwa [if_neg (Nat.not_lt_zero i), Nat.sub_zero, hb,
    show a + BitVec.ofNat 64 0 = a from BitVec.add_zero a] at this

theorem read16_write16 (m : Memory) (a : Address) (v : BitVec 16) :
    (m.write16 a v).read16 a = v :=
  (holds_writeAll m a (show (le16 v).length < 16 by simp [le16])).read16

theorem read32_write32 (m : Memory) (a : Address) (v : BitVec 32) :
    (m.write32 a v).read32 a = v :=
  (holds_writeAll m a (show (le32 v).length < 16 by simp [le32])).read32

end X86.Memory

/-! ## Words and their bytes -/

theorem getLsbD_word16 (b₀ b₁ : Byte) (i : Nat) :
    (word16 b₀ b₁).getLsbD i = if i < 8 then b₀.getLsbD i else b₁.getLsbD (i - 8) := by
  rw [word16, BitVec.getLsbD_append]

theorem getLsbD_word32 (b₀ b₁ b₂ b₃ : Byte) (i : Nat) :
    (word32 b₀ b₁ b₂ b₃).getLsbD i =
      if i < 8 then b₀.getLsbD i else if i < 16 then b₁.getLsbD (i - 8)
      else if i < 24 then b₂.getLsbD (i - 16) else b₃.getLsbD (i - 24) := by
  simp only [word32, BitVec.getLsbD_append]
  grind

theorem word16_inj {b₀ b₁ c₀ c₁ : Byte} : word16 b₀ b₁ = word16 c₀ c₁ ↔ b₀ = c₀ ∧ b₁ = c₁ := by
  constructor
  · intro h
    have hbit (i : Nat) := congrArg (BitVec.getLsbD · i) h
    simp only [getLsbD_word16] at hbit
    refine ⟨BitVec.eq_of_getLsbD_eq fun i hi => ?_, BitVec.eq_of_getLsbD_eq fun i hi => ?_⟩
    · simpa only [if_pos hi] using hbit i
    · have hbit := hbit (8 + i)
      rwa [if_neg (by omega), if_neg (by omega), Nat.add_sub_cancel_left] at hbit
  · rintro ⟨rfl, rfl⟩
    rfl

theorem word32_inj {b₀ b₁ b₂ b₃ c₀ c₁ c₂ c₃ : Byte} : word32 b₀ b₁ b₂ b₃ = word32 c₀ c₁ c₂ c₃ ↔
    b₀ = c₀ ∧ b₁ = c₁ ∧ b₂ = c₂ ∧ b₃ = c₃ := by
  constructor
  · intro h
    have hbit (i : Nat) := congrArg (BitVec.getLsbD · i) h
    simp only [getLsbD_word32] at hbit
    refine ⟨BitVec.eq_of_getLsbD_eq fun i hi => ?_, BitVec.eq_of_getLsbD_eq fun i hi => ?_,
      BitVec.eq_of_getLsbD_eq fun i hi => ?_, BitVec.eq_of_getLsbD_eq fun i hi => ?_⟩
    · simpa only [if_pos hi] using hbit i
    · have hbit := hbit (8 + i)
      grind
    · have hbit := hbit (16 + i)
      grind
    · have hbit := hbit (24 + i)
      grind
  · rintro ⟨rfl, rfl, rfl, rfl⟩
    rfl

/-- Words are the same exactly if their bytes are. -/
theorem X86.Memory.read16_eq_iff {m m' : Memory} {a : Address} :
    m.read16 a = m'.read16 a ↔ ∀ b, InCell a 2 b → m.read b = m'.read b := by
  have h₀ : a + BitVec.ofNat 64 0 = a := BitVec.add_zero a
  rw [Memory.read16, Memory.read16, word16_inj]
  constructor
  · rintro ⟨hlow, hhigh⟩ b ⟨i, hi, rfl⟩
    obtain rfl | rfl : i = 0 ∨ i = 1 := by omega
    · rwa [h₀]
    · exact hhigh
  · intro h
    exact ⟨h₀ ▸ h _ ⟨0, by decide, rfl⟩, h _ ⟨1, by decide, rfl⟩⟩

theorem X86.Memory.read32_eq_iff {m m' : Memory} {a : Address} :
    m.read32 a = m'.read32 a ↔ ∀ b, InCell a 4 b → m.read b = m'.read b := by
  have h₀ : a + BitVec.ofNat 64 0 = a := BitVec.add_zero a
  rw [Memory.read32, Memory.read32, word32_inj]
  constructor
  · rintro ⟨hfirst, hsecond, hthird, hlast⟩ b ⟨i, hi, rfl⟩
    obtain rfl | rfl | rfl | rfl : i = 0 ∨ i = 1 ∨ i = 2 ∨ i = 3 := by omega
    · rwa [h₀]
    · exact hsecond
    · exact hthird
    · exact hlast
  · intro h
    exact ⟨h₀ ▸ h _ ⟨0, by decide, rfl⟩, h _ ⟨1, by decide, rfl⟩, h _ ⟨2, by decide, rfl⟩,
      h _ ⟨3, by decide, rfl⟩⟩

/-- A pixel is the same exactly if its bytes are. -/
theorem PixelFormat.readPixel_eq_iff {f : PixelFormat} {m m' : Memory} {a : Address} :
    f.readPixel m a = f.readPixel m' a ↔ ∀ b, InCell a f.bytesPerPixel b → m.read b = m'.read b := by
  rw [PixelFormat.readPixel, PixelFormat.readPixel]
  split
  · rename_i hsize
    rw [hsize, ← Memory.read16_eq_iff]
    refine ⟨fun h => ?_, congrArg _⟩
    have h := congrArg (BitVec.setWidth 16) h
    simpa only [BitVec.setWidth_setWidth_of_le, BitVec.setWidth_eq, Nat.reduceLeDiff] using h
  · rename_i hsize
    have hsize : f.bytesPerPixel = 4 := by
      revert hsize; cases f <;> simp [PixelFormat.bytesPerPixel]
    rw [hsize, ← Memory.read32_eq_iff]
/-! ## Stencil bits -/

/-- One bit alone. -/
theorem and_bit15 (p : BitVec 32) : p &&& 0x8000 = if p.getLsbD 15 then 0x8000 else 0 := by
  apply BitVec.eq_of_getLsbD_eq
  intro i hi
  split
  all_goals
    rename_i h
    interval_cases i <;> simp [-BitVec.getLsbD_eq_getElem] at h ⊢
    try exact h

namespace PixelFormat

/-- The stencil bits that are open under a mask of protected alpha bits. -/
def openBits (f : PixelFormat) (mask : BitVec 8) : BitVec 32 :=
  f.stencilBits &&& ~~~(f.narrow (mask.setWidth 32 <<< 24))

/-- The byte of the stencil bits after a store under a mask; the color bits
beside them are protected, too. -/
def maskedByte (f : PixelFormat) (mask old new : BitVec 8) : BitVec 8 :=
  (old &&& (mask ||| (stencilByte f).2)) ||| (new &&& ~~~(mask ||| (stencilByte f).2))

/-- The bits of a pixel whose last byte is stored under a mask. -/
theorem masked5551 (b₀ b₁ mask new : Byte) :
    (word16 b₀ (rgba5551.maskedByte mask b₁ new)).setWidth 32 =
      ((word16 b₀ b₁).setWidth 32 &&& ~~~(rgba5551.openBits mask)) |||
        (rgba5551.stencilBitsFor new &&& rgba5551.openBits mask) := by
  apply BitVec.eq_of_getLsbD_eq
  intro i hi
  interval_cases i <;>
    simp [maskedByte, openBits, stencilByte, stencilBits, stencilBitsFor, narrow, getLsbD_word16,
      -BitVec.getLsbD_eq_getElem]

theorem masked4444 (b₀ b₁ mask new : Byte) :
    (word16 b₀ (rgba4444.maskedByte mask b₁ new)).setWidth 32 =
      ((word16 b₀ b₁).setWidth 32 &&& ~~~(rgba4444.openBits mask)) |||
        (rgba4444.stencilBitsFor new &&& rgba4444.openBits mask) := by
  apply BitVec.eq_of_getLsbD_eq
  intro i hi
  interval_cases i <;>
    simp [maskedByte, openBits, stencilByte, stencilBits, stencilBitsFor, narrow, getLsbD_word16,
      -BitVec.getLsbD_eq_getElem]

theorem masked8888 (b₀ b₁ b₂ b₃ mask new : Byte) :
    word32 b₀ b₁ b₂ (rgba8888.maskedByte mask b₃ new) =
      (word32 b₀ b₁ b₂ b₃ &&& ~~~(rgba8888.openBits mask)) |||
        (rgba8888.stencilBitsFor new &&& rgba8888.openBits mask) := by
  apply BitVec.eq_of_getLsbD_eq
  intro i hi
  interval_cases i <;>
    simp [maskedByte, openBits, stencilByte, stencilBits, stencilBitsFor, narrow, getLsbD_word32,
      -BitVec.getLsbD_eq_getElem]

/-- A masked store to the byte of the stencil bits replaces those that are
open. -/
theorem readPixel_masked (f : PixelFormat) (hf : f.hasStencil = true) (m : Memory) (a : Address)
    (mask new : BitVec 8) :
    f.readPixel (m.write (a + BitVec.ofNat 64 (stencilByte f).1)
        (f.maskedByte mask (m.read (a + BitVec.ofNat 64 (stencilByte f).1)) new)) a =
      (f.readPixel m a &&& ~~~(f.openBits mask)) ||| (f.stencilBitsFor new &&& f.openBits mask) := by
  have kept {i j : Nat} (hi : i < 16) (hj : j < 16) (h : j ≠ i) (v : Byte) :
      (m.write (a + BitVec.ofNat 64 i) v).read (a + BitVec.ofNat 64 j) =
        m.read (a + BitVec.ofNat 64 j) := by
    rw [Memory.read_write_offset _ _ _ hi hj, if_neg h]
  have stored {i : Nat} (hi : i < 16) (v : Byte) :
      (m.write (a + BitVec.ofNat 64 i) v).read (a + BitVec.ofNat 64 i) = v := by
    rw [Memory.read_write_offset _ _ _ hi hi, if_pos rfl]
  have first {i : Nat} (hi : i < 16) (h : 0 ≠ i) (v : Byte) :
      (m.write (a + BitVec.ofNat 64 i) v).read a = m.read a := by
    have := kept hi (j := 0) (by decide) h v
    rwa [show a + BitVec.ofNat 64 0 = a from BitVec.add_zero a] at this
  cases f with
  | rgb565 => cases hf
  | rgba5551 =>
    show (word16 ((m.write (a + BitVec.ofNat 64 1) _).read a)
      ((m.write (a + BitVec.ofNat 64 1) _).read (a + BitVec.ofNat 64 1))).setWidth 32 = _
    rw [first (by decide) (by decide), stored (by decide)]
    exact masked5551 _ _ _ _
  | rgba4444 =>
    show (word16 ((m.write (a + BitVec.ofNat 64 1) _).read a)
      ((m.write (a + BitVec.ofNat 64 1) _).read (a + BitVec.ofNat 64 1))).setWidth 32 = _
    rw [first (by decide) (by decide), stored (by decide)]
    exact masked4444 _ _ _ _
  | rgba8888 =>
    show word32 ((m.write (a + BitVec.ofNat 64 3) _).read a)
      ((m.write (a + BitVec.ofNat 64 3) _).read (a + BitVec.ofNat 64 1))
      ((m.write (a + BitVec.ofNat 64 3) _).read (a + BitVec.ofNat 64 2))
      ((m.write (a + BitVec.ofNat 64 3) _).read (a + BitVec.ofNat 64 3)) = _
    rw [first (by decide) (by decide), kept (by decide) (by decide) (by decide),
      kept (by decide) (by decide) (by decide), stored (by decide)]
    exact masked8888 _ _ _ _ _ _

end PixelFormat

/-! ## The two cells -/

namespace Setting

variable {k : Setting} {m m' : Memory}

theorem writable_pixel {i : Nat} (hi : i < k.features.format.bytesPerPixel) :
    k.Writable (k.pixelAddress + BitVec.ofNat 64 i) := .inl ⟨i, hi, rfl⟩

theorem writable_depth {i : Nat} (hi : i < 2) :
    k.Writable (k.depthAddress + BitVec.ofNat 64 i) := .inr ⟨i, hi, rfl⟩

/-- Stores to the pixel. -/
abbrev PixelLater (k : Setting) (m m' : Memory) : Prop :=
  m.Later (InCell k.pixelAddress k.features.format.bytesPerPixel) m'

theorem inCell_add {start : Address} {size i : Nat} (hi : i < size) :
    InCell start size (start + BitVec.ofNat 64 i) := ⟨i, hi, rfl⟩

theorem depth_kept (hk : k.Sound) (he : k.exact) (h : k.PixelLater m m') :
    m'.read16 k.depthAddress = m.read16 k.depthAddress :=
  Memory.read16_eq_iff.mpr fun a ha => h.read_eq fun hp => hk.apart he a hp ha

theorem pixel_kept (hk : k.Sound) (he : k.exact) (h : m.Later (InCell k.depthAddress 2) m') :
    k.features.format.readPixel m' k.pixelAddress =
      k.features.format.readPixel m k.pixelAddress :=
  PixelFormat.readPixel_eq_iff.mpr fun a ha => h.read_eq fun hd => hk.apart he a ha hd

/-- The two cells hold a pixel and a depth. -/
def Stored (k : Setting) (m : Memory) (outcome : BitVec 32 × BitVec 16) : Prop :=
  k.features.format.readPixel m k.pixelAddress = outcome.1 ∧
    m.read16 k.depthAddress = outcome.2

/-- A run that ends with this memory has the outcome that is meant. -/
def Ended (k : Setting) (m : Memory) : Prop := k.exact → k.Stored m (k.features.outcome k.fragment)

theorem stored_entry (k : Setting) : k.Stored k.entry.mem (k.fragment.pixel, k.fragment.depth) :=
  ⟨rfl, rfl⟩

/-- A fragment that is discarded leaves everything as it is. -/
theorem ended_discarded (h : k.exact → k.features.verdict k.fragment = .discarded) :
    k.Ended k.entry.mem := by
  intro he
  rw [Features.outcome, h he]
  exact stored_entry k

end Setting

end PixelPipeline
