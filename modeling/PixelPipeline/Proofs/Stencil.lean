/-
# Proofs.Stencil — the stored tests and stencil updates

The stored stencil is loaded once, and from then on it is an eight-bit value in
a register that each action transforms as `StencilAction.apply` says.  A
fragment that fails is written by its own path, which ends the run; one that
passes carries its new stencil to the color write.
-/
import PixelPipeline.Compile.Function
import PixelPipeline.Proofs.Pixels
import PixelPipeline.Proofs.Places
import PixelPipeline.Proofs.Tame
import PixelPipeline.Proofs.Tests

namespace PixelPipeline

open X86 Compile

/-! ## The stored value -/

namespace PixelFormat

/-- The stencil value that the last byte of a pixel holds. -/
def stencilOfByte : PixelFormat → Byte → BitVec 8
  | .rgb565, _ => 0
  | .rgba5551, b => if b.msb then 0xFF else 0
  | .rgba4444, b => (widen4 (b.setWidth 32 >>> 4)).setWidth 8
  | .rgba8888, b => b

theorem stencilOf_word16 (b₀ b₁ : Byte) :
    rgba5551.stencilOf ((word16 b₀ b₁).setWidth 32) = rgba5551.stencilOfByte b₁ ∧
      rgba4444.stencilOf ((word16 b₀ b₁).setWidth 32) = rgba4444.stencilOfByte b₁ := by
  constructor
  · rw [stencilOf, stencilOfByte, and_bit15, show ((word16 b₀ b₁).setWidth 32).getLsbD 15 = b₁.msb by
      rw [BitVec.getLsbD_setWidth, getLsbD_word16]
      rfl]
    cases b₁.msb <;> rfl
  · have hdigit : (word16 b₀ b₁).setWidth 32 >>> 12 &&& (0xF : BitVec 32) = b₁.setWidth 32 >>> 4 := by
      apply BitVec.eq_of_getLsbD_eq
      intro i hi
      interval_cases i <;> simp [getLsbD_word16, -BitVec.getLsbD_eq_getElem]
    rw [stencilOf, stencilOfByte, hdigit]

theorem stencilOf_word32 (b₀ b₁ b₂ b₃ : Byte) :
    rgba8888.stencilOf (word32 b₀ b₁ b₂ b₃) = b₃ := by
  apply BitVec.eq_of_getLsbD_eq
  intro i hi
  interval_cases i <;> simp [stencilOf, getLsbD_word32, -BitVec.getLsbD_eq_getElem]

/-- The stencil is in the last byte alone. -/
theorem stencilOf_readPixel (f : PixelFormat) (m : Memory) (a : Address) :
    f.stencilOf (f.readPixel m a) =
      f.stencilOfByte (m.read (a + BitVec.ofNat 64 (stencilByte f).1)) := by
  cases f with
  | rgb565 => rfl
  | rgba5551 => exact (stencilOf_word16 _ _).1
  | rgba4444 => exact (stencilOf_word16 _ _).2
  | rgba8888 => exact stencilOf_word32 _ _ _ _

/-- A stored stencil value put back where it was. -/
theorem stencilBitsFor_stencilOf (f : PixelFormat) (p : BitVec 32) :
    f.stencilBitsFor (f.stencilOf p) = p &&& f.stencilBits := by
  cases f with
  | rgb565 => exact (BitVec.and_zero (x := p)).symm
  | rgba5551 =>
    rw [stencilOf, stencilBits, and_bit15]
    cases p.getLsbD 15 <;> rfl
  | rgba4444 =>
    apply BitVec.eq_of_getLsbD_eq
    intro i hi
    interval_cases i <;>
      simp [stencilOf, stencilBitsFor, stencilBits, widen4, -BitVec.getLsbD_eq_getElem]
  | rgba8888 =>
    apply BitVec.eq_of_getLsbD_eq
    intro i hi
    interval_cases i <;>
      simp [stencilOf, stencilBitsFor, stencilBits, -BitVec.getLsbD_eq_getElem]

end PixelFormat

/-- A byte in a 64-bit register. -/
abbrev widenByte (b : BitVec 8) : BitVec 64 := (b.setWidth 32).setWidth 64

/-- A sign bit smeared across a byte. -/
theorem smeared_byte (b : BitVec 8) :
    (b.signExtend 32).sshiftRight 7 &&& 0xFF = (PixelFormat.rgba5551.stencilOfByte b).setWidth 32 := by
  revert b; decide +kernel

/-- A digit repeated. -/
theorem repeated_digit (b : BitVec 8) :
    (b.setWidth 32 >>> 4) ||| (b.setWidth 32 >>> 4) <<< 4 =
      (PixelFormat.rgba4444.stencilOfByte b).setWidth 32 := by
  revert b; decide +kernel

/-! ## Steps -/

/-- A byte is compared with an immediate as bytes are. -/
theorem ult_byte (v n : BitVec 8) {m : BitVec 32} (hm : m = n.setWidth 32) :
    (v.setWidth 32).ult m = v.ult n := hm ▸ ult_widened (by decide) v n

theorem beq_byte (v n : BitVec 8) {m : BitVec 32} (hm : m = n.setWidth 32) :
    (v.setWidth 32 == m) = (v == n) := hm ▸ beq_widened (by decide) v n

theorem not_byte (v : BitVec 8) : v.setWidth 32 ^^^ 0xFF = (~~~v).setWidth 32 := by
  revert v; decide +kernel

/-- A repeated digit has a digit above it unless it is the last one. -/
theorem stepUp_digit (b : BitVec 8) :
    let v := PixelFormat.rgba4444.stencilOfByte b
    (v.ult 0xF0 = true → v.setWidth 32 + 0x11 = (v + 0x11).setWidth 32) := by
  revert b; decide +kernel

theorem stepDown_digit (v : BitVec 8) (h : v.ult 0x11 = false) :
    v.setWidth 32 - 0x11 = (v - 0x11).setWidth 32 := by
  revert v; decide +kernel

theorem stepUp_byte (v : BitVec 8) (h : v ≠ 0xFF) : v.setWidth 32 + 1 = (v + 1).setWidth 32 := by
  revert v; decide +kernel

theorem stepDown_byte (v : BitVec 8) (h : v ≠ 0) : v.setWidth 32 - 1 = (v - 1).setWidth 32 := by
  revert v; decide +kernel

namespace Setting

variable {k : Setting} {s : View} {L : Memory → Prop}

/-- The stored stencil, in a register. -/
theorem storedStencil_leads {depth coordinates : Prop} {Q : Option Reg → View → Prop}
    (hk : k.Sound) (hs : s.Idle) (hp : k.Places depth coordinates s)
    (hd : depth → needsDepthAddr k.features = true) (hc : coordinates → k.features.dither = true)
    (hmem : s.mem = k.entry.mem) (hnone : k.features.format.hasStencil = false → Q none s)
    (hsome : k.features.format.hasStencil = true → ∀ g s', s.Keeps (.stencil :: placeRoles) s' →
      s'.roles .stencil = .word g (widenByte (k.features.oldStencil k.fragment)) →
      k.Places depth coordinates s' → Q (some g) s') :
    k.Leads (storedStencil k.env) s Q L := by
  have hold : k.features.oldStencil k.fragment = k.features.format.stencilOfByte
      (s.mem.read (k.pixelAddress + BitVec.ofNat 64 (stencilByte k.features.format).1)) := by
    rw [hmem]
    exact k.features.format.stencilOf_readPixel _ _
  unfold storedStencil
  split
  · rename_i hno
    exact .pure (hnone (by simpa using hno))
  rename_i hhas
  have hhas : k.features.format.hasStencil = true := by simpa using hhas
  refine .bind (colorAddr_leads hk hs hp hd hc fun g s₁ hkeeps hg hp₁ => .bind (.allocGen fun st v => ?_))
  extract_lets jp
  have tail (s₂ : View) (hkeeps₂ : s₁.Keeps [.stencil] s₂) (hst : s₂.roles .stencil =
      .word st (widenByte (k.features.oldStencil k.fragment))) : k.Leads (jp ()) s₂ Q L := by
    refine .bind (.unlock rfl (.bind (.retain (.pure ?_))))
    exact hsome hhas st s₂ ((hkeeps.mono (by simp [placeRoles])).trans
      (hkeeps₂.mono (by simp))) hst (hp₁.of_keeps hkeeps₂ (by decide))
  have hat {n : Nat} (hn : n < 0x80000000) : Leads.At (s₁.set .stencil (.word st v)) (atOffset g n)
      (k.pixelAddress + BitVec.ofNat 64 n) := .offset (r := .colorAddr) hg hn
  rw [← hkeeps.mem] at hold
  have hidle := hkeeps.idle
  split
  · rename_i hf
    rw [show k.features.format = .rgba8888 from hf] at hold
    refine .bind (.loadExt (r := .stencil) rfl (hat (by decide)) rfl ?_)
    refine tail _ ⟨⟨hidle.state, hidle.pool, hidle.zero⟩, by simp [Role.lasting], rfl,
      fun _ => rfl⟩ ?_
    rw [hold]
    rfl
  · rename_i hf
    rw [show k.features.format = .rgba5551 from hf] at hold
    refine .bind (.loadExt (r := .stencil) rfl (hat (by decide)) rfl ?_)
    refine .bind (.shift (r := .stencil) (by decide) rfl fun f => ?_)
    refine .bind (.aluImm (r := .stencil) (o := .and) trivial rfl fun f' => ?_)
    refine tail _ ⟨⟨hidle.state, hidle.pool, hidle.zero⟩, by simp [Role.lasting], rfl,
      fun _ => rfl⟩ ?_
    rw [hold, widenByte, ← smeared_byte]
    simp only [View.roles_set, View.roles_setFlags, if_true, low_widened]
    rfl
  · rename_i hf
    rw [show k.features.format = .rgba4444 from hf] at hold
    refine .bind (.loadExt (r := .stencil) rfl (hat (by decide)) rfl ?_)
    refine .bind (.shift (r := .stencil) (by decide) rfl fun f => ?_)
    refine .bind (.allocGen fun t w => .bind (.mov (r := .helper) (q := .stencil) rfl rfl ?_))
    refine .bind (.shift (r := .helper) (by decide) rfl fun f₁ => ?_)
    refine .bind (.alu (r := .stencil) (q := .helper) (o := .or) trivial rfl rfl fun f₂ => ?_)
    refine .bind (.release rfl ?_)
    refine tail _ ⟨⟨hidle.state, hidle.pool, hidle.zero⟩, by simp [Role.lasting], rfl,
      fun _ => rfl⟩ ?_
    rw [hold, widenByte, ← repeated_digit]
    simp only [View.roles_set, View.roles_setFlags, low_widened]
    rfl
  · rename_i hf
    rw [show k.features.format = .rgb565 from hf] at hhas
    cases hhas

/-! ## Updates -/

/-- A value carried in the stencil register, unlocked or not. -/
theorem replaceStencil_leads {g : Reg} {v : BitVec 64} {Q : Unit → View → Prop} (hk : k.Sound)
    (hs : s.Idle) (hr : s.roles .stencil = .word g v)
    (h : ∀ s', s.Keeps [.stencil] s' → s'.roles .stencil = .word g (widenByte
      (if k.features.stencilMasked then k.fragment.block.stencilRef else k.features.stencilRef)) →
      Q () s') : k.Leads (replaceStencil k.env g) s Q L := by
  unfold replaceStencil
  split
  · rename_i hmasked
    refine .of_later fun hm => .bind (stateBase_leads hs.state fun b f => ?_)
    refine .bind (.loadExt (r := .stencil) hr (.offset (r := .stateBase) rfl (by decide))
      (congrArg (BitVec.setWidth 32) (hm.state8 hk (by decide))) ?_)
    refine .unlock_made (g := b) rfl rfl (h _ ⟨⟨rfl, hs.pool, hs.zero⟩, by simp [Role.lasting], rfl,
      fun _ => rfl⟩ ?_)
    rw [if_pos hmasked]
    rfl
  · rename_i hmasked
    refine .movImm32 (r := .stencil) hr (h _ ⟨⟨hs.state, hs.pool, hs.zero⟩, by simp [Role.lasting],
      rfl, fun _ => rfl⟩ ?_)
    rw [if_neg hmasked]
    rfl

theorem incrementStencil_leads {f : PixelFormat} {g : Reg} {b : Byte} {Q : Unit → View → Prop}
    (hs : s.Idle) (hr : s.roles .stencil = .word g (widenByte (f.stencilOfByte b)))
    (h : ∀ s', s.Keeps [.stencil] s' → s'.roles .stencil =
      .word g (widenByte (StencilAction.stepUp f (f.stencilOfByte b))) → Q () s') :
    k.Leads (incrementStencil f g) s Q L := by
  have hkeeps : s.Keeps [.stencil] s := hs.keeps _
  cases f with
  | rgb565 => exact .pure (h s hkeeps hr)
  | rgba5551 => exact .movImm32 (r := .stencil) hr (h _ (hkeeps.set (by decide) rfl) rfl)
  | rgba4444 =>
    refine .bind (.cmpImm (r := .stencil) hr (.skipIf (.put _) (fun hcond => ?_) fun hcond => ?_)) <;>
      rw [View.flags_setFlags, low_widened, Cond.holds_ae, BitVec.ule_eq_not_ult,
        ult_byte (m := 0xF0) _ 0xF0 rfl] at hcond
    · refine h _ (hkeeps.setFlags _) ?_
      rw [StencilAction.stepUp, if_neg (by simpa using hcond)]
      exact hr
    · refine .aluImm (r := .stencil) (o := .add) trivial hr fun f' =>
        h _ (((hkeeps.setFlags _).set (by decide) rfl).setFlags _) ?_
      have hlt : (PixelFormat.rgba4444.stencilOfByte b).ult 0xF0 = true := by simpa using hcond
      rw [StencilAction.stepUp, if_pos hlt, low_widened]
      exact congrArg (fun v : BitVec 32 => Held.word g (v.setWidth 64)) (stepUp_digit b hlt)
  | rgba8888 =>
    refine .bind (.cmpImm (r := .stencil) hr (.skipIf (.put _) (fun hcond => ?_) fun hcond => ?_)) <;>
      rw [View.flags_setFlags, low_widened, Cond.holds_e, beq_byte (m := 0xFF) _ 0xFF rfl] at hcond
    · refine h _ (hkeeps.setFlags _) ?_
      rw [StencilAction.stepUp, if_pos (eq_of_beq hcond)]
      exact hr
    · refine .aluImm (r := .stencil) (o := .add) trivial hr fun f' =>
        h _ (((hkeeps.setFlags _).set (by decide) rfl).setFlags _) ?_
      have hne := beq_eq_false_iff_ne.mp hcond
      rw [StencilAction.stepUp, if_neg hne, low_widened]
      exact congrArg (fun v : BitVec 32 => Held.word g (v.setWidth 64)) (stepUp_byte _ hne)

theorem decrementStencil_leads {f : PixelFormat} {g : Reg} {v : BitVec 8} {Q : Unit → View → Prop}
    (hs : s.Idle) (hr : s.roles .stencil = .word g (widenByte v))
    (h : ∀ s', s.Keeps [.stencil] s' → s'.roles .stencil =
      .word g (widenByte (StencilAction.stepDown f v)) → Q () s') :
    k.Leads (decrementStencil f g) s Q L := by
  have hkeeps : s.Keeps [.stencil] s := hs.keeps _
  cases f with
  | rgb565 => exact .pure (h s hkeeps hr)
  | rgba5551 =>
    refine .alu (r := .stencil) (q := .stencil) (o := .xor) trivial hr hr fun f' =>
      h _ ((hkeeps.set (by decide) rfl).setFlags _) ?_
    simp only [View.roles_setFlags, View.roles_set, if_true, AluOp.value, BitVec.xor_self]
    rfl
  | rgba4444 =>
    refine .bind (.cmpImm (r := .stencil) hr (.skipIf (.put _) (fun hcond => ?_) fun hcond => ?_)) <;>
      rw [View.flags_setFlags, low_widened, Cond.holds_b, ult_byte (m := 0x11) _ 0x11 rfl] at hcond
    · refine h _ (hkeeps.setFlags _) ?_
      rw [StencilAction.stepDown, if_pos hcond]
      exact hr
    · refine .aluImm (r := .stencil) (o := .sub) trivial hr fun f' =>
        h _ (((hkeeps.setFlags _).set (by decide) rfl).setFlags _) ?_
      rw [StencilAction.stepDown, if_neg (Bool.not_eq_true _ ▸ hcond), low_widened]
      exact congrArg (fun v : BitVec 32 => Held.word g (v.setWidth 64)) (stepDown_digit v hcond)
  | rgba8888 =>
    refine .bind (.testSelf (r := .stencil) hr fun f' hzero =>
      .skipIf (.put _) (fun hcond => ?_) fun hcond => ?_) <;>
      rw [View.flags_setFlags, hzero, low_widened, beq_byte (m := 0#32) _ 0 rfl] at hcond
    · refine h _ (hkeeps.setFlags _) ?_
      rw [StencilAction.stepDown, if_pos (eq_of_beq hcond)]
      exact hr
    · refine .aluImm (r := .stencil) (o := .sub) trivial hr fun f' =>
        h _ (((hkeeps.setFlags _).set (by decide) rfl).setFlags _) ?_
      have hne := beq_eq_false_iff_ne.mp hcond
      rw [StencilAction.stepDown, if_neg hne, low_widened]
      exact congrArg (fun v : BitVec 32 => Held.word g (v.setWidth 64)) (stepDown_byte _ hne)

/-- An action on the stored stencil. -/
theorem updateStencil_leads {action : StencilAction} {g : Reg} {Q : Unit → View → Prop}
    (hk : k.Sound) (hs : s.Idle)
    (hr : s.roles .stencil = .word g (widenByte (k.features.oldStencil k.fragment)))
    (h : ∀ s', s.Keeps [.stencil] s' → s'.roles .stencil =
      .word g (widenByte (k.features.newStencil k.fragment action)) → Q () s') :
    k.Leads (updateStencil k.env action g) s Q L := by
  have hkeeps : s.Keeps [.stencil] s := hs.keeps _
  cases action with
  | keep => exact .pure (h s hkeeps hr)
  | zero =>
    refine .alu (r := .stencil) (q := .stencil) (o := .xor) trivial hr hr fun f' =>
      h _ ((hkeeps.set (by decide) rfl).setFlags _) ?_
    simp only [View.roles_setFlags, View.roles_set, if_true, AluOp.value, BitVec.xor_self]
    rfl
  | replace => exact replaceStencil_leads hk hs hr h
  | invert =>
    refine .aluImm (r := .stencil) (o := .xor) trivial hr fun f' =>
      h _ ((hkeeps.set (by decide) rfl).setFlags _) ?_
    rw [low_widened]
    exact congrArg (fun v : BitVec 32 => Held.word g (v.setWidth 64)) (not_byte _)
  | increment =>
    have hold : k.features.oldStencil k.fragment = _ :=
      k.features.format.stencilOf_readPixel k.entry.mem k.pixelAddress
    rw [hold] at hr
    refine incrementStencil_leads hs hr fun s' hs' hr' => h s' hs' (hr'.trans ?_)
    rw [Features.newStencil, StencilAction.apply, hold]
  | decrement => exact decrementStencil_leads hs hr h

/-! ## The store -/

/-- The byte of the stencil bits was stored, and nothing else. -/
structure StencilStored (k : Setting) (m m' : Memory) (new : Byte) : Prop where
  later : k.PixelLater m m'
  reads : ∀ a, m'.read a =
    (m.write (k.pixelAddress + BitVec.ofNat 64 (stencilByte k.features.format).1) new).read a

theorem readPixel_congr {f : PixelFormat} {m m' : Memory} (h : ∀ a, m'.read a = m.read a)
    (a : Address) : f.readPixel m' a = f.readPixel m a := by
  simp only [PixelFormat.readPixel, Memory.read16, Memory.read32, h]

theorem inCell_stencilByte (k : Setting) : InCell k.pixelAddress k.features.format.bytesPerPixel
    (k.pixelAddress + BitVec.ofNat 64 (stencilByte k.features.format).1) :=
  inCell_add (by cases k.features.format <;> decide)

theorem read_write_self (m : Memory) (a : Address) (v : Byte) : (m.write a v).read a = v := by
  rw [Memory.read_write, if_pos rfl]

/-- Only the last of two stores to a byte counts. -/
theorem StencilStored.twice (m : Memory) (v new : Byte) :
    let a := k.pixelAddress + BitVec.ofNat 64 (stencilByte k.features.format).1
    k.StencilStored m ((m.write a v).write a new) new := by
  refine ⟨(Memory.later_write k.inCell_stencilByte _ _).trans
    (Memory.later_write k.inCell_stencilByte _ _), fun b => ?_⟩
  rw [Memory.read_write, Memory.read_write, Memory.read_write]
  split <;> rfl

/-- A byte under a mask, as it is put together in registers. -/
theorem joinedByte (old v m c : BitVec 8) :
    (old &&& ((m.setWidth 32 ||| c.setWidth 32 : BitVec 32).setWidth 64).setWidth 8) |||
        ((~~~(~~~(v.setWidth 32) ||| (m.setWidth 32 ||| c.setWidth 32)) : BitVec 32).setWidth 64).setWidth 8 =
      (old &&& (m ||| c)) ||| (v &&& ~~~(m ||| c)) := by
  apply BitVec.eq_of_getLsbD_eq
  intro i hi
  simp only [BitVec.getLsbD_setWidth, BitVec.getLsbD_not, BitVec.getLsbD_or, BitVec.getLsbD_and]
  grind

theorem joinedByte_plain (old v c : BitVec 8) :
    (old &&& (c.setWidth 32).setWidth 8) |||
        ((v.setWidth 32 &&& (~~~c).setWidth 32 : BitVec 32).setWidth 64).setWidth 8 =
      (old &&& (0 ||| c)) ||| (v &&& ~~~(0 ||| c)) := by
  apply BitVec.eq_of_getLsbD_eq
  intro i hi
  simp only [BitVec.getLsbD_setWidth, BitVec.getLsbD_not, BitVec.getLsbD_or, BitVec.getLsbD_and]
  grind

theorem storeStencilMasked_leads {addr st : Reg} {v : BitVec 8} {Q : Unit → View → Prop}
    (hk : k.Sound) (hs : s.Idle) (ha : s.roles .colorAddr = .word addr k.pixelAddress)
    (hr : s.roles .stencil = .word st (widenByte v))
    (h : ∀ s', k.StencilStored s.mem s'.mem
      (k.features.format.maskedByte k.fragment.block.alphaWriteMask
        (s.mem.read (k.pixelAddress + BitVec.ofNat 64 (stencilByte k.features.format).1)) v) →
      Q () s') :
    k.Leads (storeStencilMasked k.env addr st (stencilByte k.features.format).1
      (stencilByte k.features.format).2) s Q L := by
  have hcell := k.inCell_stencilByte
  have hoffset : (stencilByte k.features.format).1 < 0x80000000 := by
    cases k.features.format <;> decide
  refine .of_later fun hm => .bind (.allocGen fun gm vm => .bind (stateBase_leads hs.state fun b f => ?_))
  refine .bind (.loadExt (r := .gen5) rfl (.offset (r := .stateBase) rfl (by decide))
    (congrArg (BitVec.setWidth 32) (hm.state8 hk (by decide))) ?_)
  refine .bind (.unlock_made (g := b) rfl rfl ?_)
  extract_lets jp
  have tail (s₁ : View) (ha₁ : s₁.roles .colorAddr = .word addr k.pixelAddress)
      (hr₁ : s₁.roles .stencil = .word st (widenByte v)) (hmem : s₁.mem = s.mem)
      (hmask : s₁.roles .gen5 = .word gm ((k.fragment.block.alphaWriteMask.setWidth 32 |||
        (stencilByte k.features.format).2.setWidth 32).setWidth 64)) :
      k.Leads (jp ()) s₁ Q L := by
    refine .bind (.not (r := .stencil) hr₁ ?_)
    refine .bind (.alu (r := .stencil) (q := .gen5) (o := .or) trivial rfl hmask fun f₁ => ?_)
    refine .bind (.not (r := .stencil) rfl ?_)
    refine .bind (.aluStoreByte (o := .and) (r := .gen5) trivial hmask
      (.offset (r := .colorAddr) ha₁ hoffset) (.inl hcell) fun f₂ => ?_)
    refine .bind (.aluStoreByte (o := .or) (r := .stencil) trivial rfl
      (.offset (r := .colorAddr) ha₁ hoffset) (.inl hcell) fun f₃ => .release rfl (h _ ?_))
    simp only [View.mem_set, View.mem_setFlags, View.mem_setMem, hmem, AluOp.value, low_widened,
      read_write_self]
    rw [joinedByte]
    exact .twice _ _ _
  split
  · refine .bind (.aluImm (r := .gen5) (o := .or) trivial rfl fun f' => ?_)
    refine tail _ ha hr rfl ?_
    simp only [View.roles_set, View.roles_setFlags, low_widened]
    rfl
  · rename_i hzero
    refine tail _ ha hr rfl ?_
    rw [show (stencilByte k.features.format).2 = 0 from Classical.not_not.mp hzero,
      show (0 : BitVec 8).setWidth 32 = 0#32 from rfl, BitVec.or_zero]
    rfl

theorem storeStencilPlain_leads {addr st : Reg} {v : BitVec 8} {Q : Unit → View → Prop}
    (ha : s.roles .colorAddr = .word addr k.pixelAddress)
    (hr : s.roles .stencil = .word st (widenByte v))
    (h : ∀ s', k.StencilStored s.mem s'.mem (k.features.format.maskedByte 0
      (s.mem.read (k.pixelAddress + BitVec.ofNat 64 (stencilByte k.features.format).1)) v) →
      Q () s') :
    k.Leads (storeStencilPlain addr st (stencilByte k.features.format).1
      (stencilByte k.features.format).2) s Q L := by
  have hcell := k.inCell_stencilByte
  have hoffset : (stencilByte k.features.format).1 < 0x80000000 := by
    cases k.features.format <;> decide
  unfold storeStencilPlain
  split
  · refine .bind (.aluImm (r := .stencil) (o := .and) trivial hr fun f₁ => ?_)
    refine .bind (.aluStoreImmByte (o := .and) trivial (.offset (r := .colorAddr) ha hoffset)
      (.inl hcell) fun f₂ => ?_)
    refine .aluStoreByte (o := .or) (r := .stencil) trivial rfl
      (.offset (r := .colorAddr) ha hoffset) (.inl hcell) fun f₃ => h _ ?_
    simp only [View.mem_set, View.mem_setFlags, View.mem_setMem, AluOp.value, low_widened,
      read_write_self]
    rw [joinedByte_plain]
    exact .twice _ _ _
  · rename_i hzero
    refine .storeByte (r := .stencil) hr (.offset (r := .colorAddr) ha hoffset) (.inl hcell) (h _ ?_)
    have hbyte : (widenByte v).setWidth 8 = k.features.format.maskedByte 0
        (s.mem.read (k.pixelAddress + BitVec.ofNat 64 (stencilByte k.features.format).1)) v := by
      rw [PixelFormat.maskedByte, Classical.not_not.mp hzero, show (0 ||| 0 : BitVec 8) = 0#8 from rfl,
        BitVec.and_zero, BitVec.zero_or, show ~~~0#8 = BitVec.allOnes 8 from rfl,
        BitVec.and_allOnes, widenByte, BitVec.setWidth_setWidth_of_le _ (by decide),
        BitVec.setWidth_setWidth_of_le _ (by decide), BitVec.setWidth_eq]
    exact hbyte ▸ ⟨Memory.later_write hcell _ _, fun a => rfl⟩

/-- Without stencil bits nothing is open. -/
theorem unchanged_of_noStencil {f : Features} (h : f.format.hasStencil = false) (p : Fragment)
    (pixel stencil : BitVec 32) :
    (pixel &&& ~~~(f.openStencilBits p)) ||| (stencil &&& f.openStencilBits p) = pixel := by
  have hbits : f.format.stencilBits = 0#32 :=
    Classical.not_not.mp fun hb => by rw [f.format.hasStencil_iff.mpr hb] at h; cases h
  have hopen : f.openStencilBits p = 0#32 := by
    unfold Features.openStencilBits
    rw [hbits, BitVec.zero_and, ite_self]
  rw [hopen, BitVec.and_zero, BitVec.or_zero]
  exact BitVec.and_allOnes

/-- The stencil bits of the pixel are written, and nothing else. -/
theorem writeStencilOnly_leads {depth coordinates : Prop} {st : Reg} {v : BitVec 8}
    {Q : Unit → View → Prop} (hk : k.Sound) (hs : s.Idle) (hp : k.Places depth coordinates s)
    (hd : depth → needsDepthAddr k.features = true) (hc : coordinates → k.features.dither = true)
    (hr : s.roles .stencil = .word st (widenByte v))
    (h : ∀ s', k.PixelLater s.mem s'.mem → k.features.format.readPixel s'.mem k.pixelAddress =
      (k.features.format.readPixel s.mem k.pixelAddress &&&
        ~~~(k.features.openStencilBits k.fragment)) |||
      (k.features.format.stencilBitsFor v &&& k.features.openStencilBits k.fragment) → Q () s') :
    k.Leads (writeStencilOnly k.env st) s Q L := by
  refine .bind (.mark ?_)
  split
  · rename_i hhas
    have hdone (s' : View) (mask : BitVec 8)
        (hopen : k.features.format.openBits mask = k.features.openStencilBits k.fragment)
        (hst : k.StencilStored s.mem s'.mem (k.features.format.maskedByte mask
          (s.mem.read (k.pixelAddress + BitVec.ofNat 64 (stencilByte k.features.format).1)) v)) :
        Q () s' := by
      refine h s' hst.later ?_
      rw [readPixel_congr hst.reads, k.features.format.readPixel_masked hhas, hopen]
    refine .bind (colorAddr_leads hk hs hp hd hc fun addr s₁ hkeeps hg hp₁ => ?_)
    have hr₁ := (hkeeps.roles .stencil (by decide) (by decide)).trans hr
    rw [← hkeeps.mem] at hdone
    split
    · rename_i hmasked
      refine .bind (storeStencilMasked_leads hk hkeeps.idle hg hr₁ fun s₂ hst => .unlock rfl ?_)
      exact hdone s₂ _ (by rw [Features.openStencilBits, if_pos hmasked]; rfl) hst
    · rename_i hmasked
      refine .bind (storeStencilPlain_leads hg hr₁ fun s₂ hst => .unlock rfl ?_)
      refine hdone s₂ _ ?_ hst
      rw [Features.openStencilBits, if_neg hmasked]
      cases k.features.format <;> rfl
  · rename_i hno
    refine .pure (h s (.refl _ _) ?_)
    exact (unchanged_of_noStencil (by simpa using hno) k.fragment _ _).symm

/-! ## Fragments that fail -/

/-- The stored stencil, written where it was. -/
theorem withStencil_oldStencil (f : Features) (p : Fragment) :
    f.withStencil p (f.oldStencil p) = p.pixel := by
  have hopen : f.openStencilBits p = f.format.stencilBits &&& f.openStencilBits p := by
    unfold Features.openStencilBits
    split
    · rw [← BitVec.and_assoc, BitVec.and_self]
    · rw [BitVec.and_self]
  rw [Features.withStencil, Features.oldStencil, PixelFormat.stencilBitsFor_stencilOf,
    BitVec.and_assoc, ← hopen]
  apply BitVec.eq_of_getLsbD_eq
  intro i hi
  simp only [BitVec.getLsbD_or, BitVec.getLsbD_and, BitVec.getLsbD_not]
  grind

/-- The path of a fragment that fails ends with its stencil updated. -/
theorem failStencil_leads {depth coordinates : Prop} {action : StencilAction} {g : Reg}
    {Q : Unit → View → Prop} (hk : k.Sound) (hs : s.Idle) (hp : k.Places depth coordinates s)
    (hd : depth → needsDepthAddr k.features = true) (hc : coordinates → k.features.dither = true)
    (hmem : s.mem = k.entry.mem)
    (hr : s.roles .stencil = .word g (widenByte (k.features.oldStencil k.fragment)))
    (hverdict : k.exact → k.features.verdict k.fragment = .updated action) :
    k.Leads (failStencil k.env action) s Q k.Ended := by
  refine .diverging ?_
  split
  · refine .bind (.findGen hr (.bind (updateStencil_leads hk hs hr fun s₁ hkeeps hr₁ => ?_)))
    refine .bind (writeStencilOnly_leads hk hkeeps.idle (hp.of_keeps hkeeps (by decide)) hd hc hr₁
      fun s₂ hlater hpixel => .leave fun he => ?_)
    rw [hkeeps.mem, hmem] at hlater hpixel
    rw [Features.outcome, hverdict he]
    exact ⟨hpixel, depth_kept hk he hlater⟩
  · rename_i hkeep
    refine .leave fun he => ?_
    rw [Features.outcome, hverdict he, Classical.not_not.mp hkeep, hmem]
    exact ⟨(withStencil_oldStencil k.features k.fragment).symm, rfl⟩

/-! ## Comparisons -/

/-- The stored depth is compared, if anything is. -/
theorem compareDepth_leads {coordinates : Prop} {Q : Option Cond → View → Prop} (hk : k.Sound)
    (hs : s.Idle) (hp : k.Places (needsDepthAddr k.features = true) coordinates s)
    (hc : coordinates → k.features.dither = true)
    (hz : needsDepthAddr k.features = true → s.Has .argZ (k.entry.reg .rdx))
    (hmem : s.mem = k.entry.mem) (hnone : passCond k.features.depthFunc = none → Q none s)
    (hsome : ∀ pass s', passCond k.features.depthFunc = some pass →
      pass.holds s'.flags = k.features.depthPasses k.fragment → s.Keeps placeRoles s' →
      k.Places (needsDepthAddr k.features = true) coordinates s' → Q (some pass) s') :
    k.Leads (compareDepth k.env) s Q L := by
  unfold compareDepth
  split
  · rename_i hnothing
    exact .pure (hnone hnothing)
  · rename_i pass hpass
    have hneed : needsDepthAddr k.features = true := by
      rw [needsDepthAddr, compares_of_passCond hpass, Bool.or_true]
    refine .bind (depthAddr_leads hk hs (hp.weaken (fun _ => hneed) id) hneed hc
      fun g s₁ hkeeps hg hp₁ => ?_)
    obtain ⟨gz, hz⟩ := hkeeps.has (hz hneed) (by decide) (by decide)
    refine .bind (.findGen hz ?_)
    refine .bind (.cmpLoadWord (r := .argZ) hz (.start (r := .depthAddr) hg)
      (congrArg (Memory.read16 · _) (hkeeps.mem.trans hmem)) ?_)
    refine .bind (.unlock rfl (.bind (.unlock rfl (.pure ?_))))
    refine hsome pass _ hpass ?_ (hkeeps.setFlags _)
      ((hp₁.weaken (fun _ => trivial) id).of_keeps (hkeeps.idle.keeps [] |>.setFlags _) (by simp))
    exact holds_passCond (by decide) _ _ hpass

theorem dropDepthArg_leads {Q : Unit → View → Prop} (hs : s.Idle)
    (hz : needsDepthAddr k.features = true → s.Has .argZ (k.entry.reg .rdx))
    (h : ∀ s', s.Keeps [.argZ] s' →
      (k.features.depthWrite = true → s'.Has .argZ (k.entry.reg .rdx)) → Q () s') :
    k.Leads (dropDepthArg k.env) s Q L := by
  unfold dropDepthArg
  split
  · rename_i hno
    refine .forceRelease (h _ ((hs.keeps _).set (by decide) rfl) fun hw => ?_)
    rw [show k.env.features.depthWrite = true from hw] at hno
    cases hno
  · exact .pure (h s (hs.keeps _) fun hw => hz (by rw [needsDepthAddr, hw, Bool.true_or]))

theorem depthPasses_of_none (h : passCond k.features.depthFunc = none)
    (hnever : k.features.depthFunc ≠ .never) : k.features.depthPasses k.fragment = true := by
  rw [Features.depthPasses, passes_of_passCond_none h, decide_eq_true hnever]

/-- The depth test of a pipeline that has no stencil test. -/
theorem depthTest_leads {coordinates : Prop} {Q : Unit → View → Prop} (hk : k.Sound)
    (hs : s.Idle) (hp : k.Places (needsDepthAddr k.features = true) coordinates s)
    (hc : coordinates → k.features.dither = true)
    (hz : needsDepthAddr k.features = true → s.Has .argZ (k.entry.reg .rdx))
    (hmem : s.mem = k.entry.mem)
    (hfail : k.features.depthPasses k.fragment = false → L s.mem)
    (hpass : ∀ s', k.features.depthPasses k.fragment = true → s.Keeps (.argZ :: placeRoles) s' →
      k.Places (needsDepthAddr k.features = true) coordinates s' →
      (k.features.depthWrite = true → s'.Has .argZ (k.entry.reg .rdx)) → Q () s') :
    k.Leads (depthTest k.env) s Q L := by
  refine .bind (.mark ?_)
  extract_lets jp
  have tail (s₁ : View) (hkeeps : s.Keeps placeRoles s₁)
      (hp₁ : k.Places (needsDepthAddr k.features = true) coordinates s₁)
      (hdepth : k.features.depthPasses k.fragment = true) : k.Leads (jp ()) s₁ Q L :=
    dropDepthArg_leads hkeeps.idle (fun h => hkeeps.has (hz h) (by decide) (by decide))
      fun s₂ hkeeps₂ hz₂ => hpass s₂ hdepth
        ((hkeeps.mono fun _ => List.mem_cons_of_mem _).trans (hkeeps₂.mono (by simp)))
        (hp₁.of_keeps hkeeps₂ (by decide)) hz₂
  split
  · rename_i hnever
    refine .bind (.leave (hfail ?_))
    rw [Features.depthPasses, show k.features.depthFunc = .never from hnever]
    rfl
  · rename_i hnever
    refine .bind (compareDepth_leads hk hs hp hc hz hmem (fun hnone => ?_)
      fun pass s₁ hpass₁ hholds hkeeps hp₁ => ?_)
    · exact tail s (hs.keeps _) hp (depthPasses_of_none hnone hnever)
    · refine .bind (.leaveIf (fun h => ?_) fun h => ?_)
      · rw [Cond.holds_invert, hholds, Bool.not_eq_true'] at h
        exact hkeeps.mem ▸ hfail h
      · rw [Cond.holds_invert, hholds, Bool.not_eq_false'] at h
        exact tail s₁ hkeeps hp₁ h

/-- The stored stencil is compared, masked or not. -/
theorem compareStencil_leads {g : Reg} {Q : Unit → View → Prop} (hk : k.Sound) (hs : s.Idle)
    (hr : s.roles .stencil = .word g (widenByte (k.features.oldStencil k.fragment)))
    (h : ∀ s', s.Keeps [] s' → (∀ pass, mirroredPassCond k.features.stencilFunc = some pass →
      pass.holds s'.flags = k.features.stencilPasses k.fragment) → Q () s') :
    k.Leads (compareStencil k.env g) s Q L := by
  refine .of_later fun hm => ?_
  show k.Leads (if k.env.features.stencilMasked then _ else _) s Q L
  split
  · rename_i hmasked
    refine .bind (.allocGen fun gm vm => .bind (stateBase_leads hs.state fun b f => ?_))
    refine .bind (.loadExt (r := .gen0) rfl (.offset (r := .stateBase) rfl (by decide))
      (congrArg (BitVec.setWidth 32) (hm.state8 hk (by decide))) ?_)
    refine .bind (.unlock_made (g := b) rfl rfl ?_)
    refine .bind (.alu (r := .gen0) (q := .stencil) (o := .and) trivial rfl hr fun f₁ => ?_)
    refine .bind (.cmpImm (r := .gen0) rfl (.release rfl (h _
      ⟨⟨rfl, hs.pool, hs.zero⟩, by simp [Role.lasting], rfl, fun _ => rfl⟩ fun pass hpass => ?_)))
    rw [Features.stencilPasses, if_pos hmasked, BitVec.setWidth_and]
    simp only [View.flags_set, View.flags_setFlags, low_widened]
    exact holds_mirroredPassCond hpass _ _
  · rename_i hmasked
    refine .cmpImm (r := .stencil) hr (h _ ((hs.keeps _).setFlags _) fun pass hpass => ?_)
    rw [Features.stencilPasses, if_neg hmasked]
    simp only [View.flags_setFlags, low_widened]
    exact holds_mirroredPassCond hpass _ _

theorem passes_of_mirroredPassCond_none {c : Comparison} (h : mirroredPassCond c = none)
    (hnever : c ≠ .never) (a b : BitVec 32) : c.passes a b = true := by
  cases c <;> first | exact absurd rfl hnever | rfl | cases h

section

variable {coordinates : Prop} {g : Reg} {Q : Unit → View → Prop} (hk : k.Sound) (hs : s.Idle)
  (hp : k.Places (needsDepthAddr k.features = true) coordinates s)
  (hc : coordinates → k.features.dither = true) (hmem : s.mem = k.entry.mem)
  (hr : s.roles .stencil = .word g (widenByte (k.features.oldStencil k.fragment)))

include hk hs hp hc hmem hr

theorem stencilTest_leads
    (hfail : k.features.stencilPasses k.fragment = false →
      k.exact → k.features.verdict k.fragment = .updated k.features.stencilFail)
    (hpass : ∀ s', k.features.stencilPasses k.fragment = true → s.Keeps [] s' → Q () s') :
    k.Leads (stencilTest k.env g) s Q k.Ended := by
  unfold stencilTest
  split
  · rename_i hnever
    refine failStencil_leads hk hs hp id hc hmem hr (hfail ?_)
    rw [Features.stencilPasses, show k.features.stencilFunc = .never from hnever]
    rfl
  · rename_i hnever
    split
    · rename_i hnone
      exact .pure (hpass s (passes_of_mirroredPassCond_none hnone hnever _ _) (hs.keeps _))
    · rename_i pass hsome
      refine .bind (compareStencil_leads hk hs hr fun s₁ hkeeps hholds => ?_)
      refine .skipIf (failStencil_steady _) (fun h => hpass s₁ ((hholds pass hsome).symm.trans h) hkeeps)
        fun h => ?_
      exact failStencil_leads hk hkeeps.idle (hp.of_keeps hkeeps (by simp)) id hc
        (hkeeps.mem.trans hmem) ((hkeeps.roles .stencil (by decide) (by simp)).trans hr)
        (hfail ((hholds pass hsome).symm.trans h))

theorem depthTestUpdating_leads
    (hz : needsDepthAddr k.features = true → s.Has .argZ (k.entry.reg .rdx))
    (hfail : k.features.depthPasses k.fragment = false →
      k.exact → k.features.verdict k.fragment = .updated k.features.depthFail)
    (hpass : ∀ s', k.features.depthPasses k.fragment = true → s.Keeps (.argZ :: placeRoles) s' →
      k.Places (needsDepthAddr k.features = true) coordinates s' →
      (k.features.depthWrite = true → s'.Has .argZ (k.entry.reg .rdx)) → Q () s') :
    k.Leads (depthTestUpdating k.env) s Q k.Ended := by
  refine .bind (.mark ?_)
  extract_lets jp
  have tail (s₁ : View) (hkeeps : s.Keeps placeRoles s₁)
      (hp₁ : k.Places (needsDepthAddr k.features = true) coordinates s₁)
      (hdepth : k.features.depthPasses k.fragment = true) : k.Leads (jp ()) s₁ Q k.Ended :=
    dropDepthArg_leads hkeeps.idle (fun h => hkeeps.has (hz h) (by decide) (by decide))
      fun s₂ hkeeps₂ hz₂ => hpass s₂ hdepth
        ((hkeeps.mono fun _ => List.mem_cons_of_mem _).trans (hkeeps₂.mono (by simp)))
        (hp₁.of_keeps hkeeps₂ (by decide)) hz₂
  split
  · rename_i hnever
    refine .bind (failStencil_leads hk hs hp id hc hmem hr (hfail ?_))
    rw [Features.depthPasses, show k.features.depthFunc = .never from hnever]
    rfl
  · rename_i hnever
    refine .bind (compareDepth_leads hk hs hp hc hz hmem (fun hnone => ?_)
      fun pass s₁ hpass₁ hholds hkeeps hp₁ => ?_)
    · exact tail s (hs.keeps _) hp (depthPasses_of_none hnone hnever)
    · refine .bind (.skipIf (failStencil_steady _) (fun h => ?_) fun h => ?_)
      · exact tail s₁ hkeeps hp₁ (hholds.symm.trans h)
      · exact failStencil_leads hk hkeeps.idle hp₁ id hc (hkeeps.mem.trans hmem)
          ((hkeeps.roles .stencil (by decide) (by decide)).trans hr) (hfail (hholds.symm.trans h))

end

/-! ## The tests together -/

/-- Every test before those of stored values passed. -/
def Entered (k : Setting) : Prop :=
  k.exact → (k.features.rangePasses k.fragment && k.features.alphaPasses k.fragment &&
    k.features.colorPasses k.fragment) = true

/-- The stencil register holds the value that is stored with the color, and is
there only if one is. -/
def Carried (k : Setting) (s : View) : Prop :=
  match k.features.carriedStencil k.fragment with
  | some v => s.Has .stencil (widenByte v)
  | none => s.roles .stencil = .absent

theorem verdict_of_entered {f : Features} {p : Fragment}
    (h : (f.rangePasses p && f.alphaPasses p && f.colorPasses p) = true) :
    f.verdict p = if f.stencilTest then
        if !f.stencilPasses p then .updated f.stencilFail
        else if !f.depthPasses p then .updated f.depthFail
        else .passed
      else if f.depthPasses p then .passed
      else .discarded := by
  rw [Features.verdict, h]
  rfl

section

variable {coordinates : Prop} {Q : Unit → View → Prop} (hk : k.Sound) (hs : s.Idle)
  (hp : k.Places (needsDepthAddr k.features = true) coordinates s)
  (hc : coordinates → k.features.dither = true) (hmem : s.mem = k.entry.mem)
  (hz : needsDepthAddr k.features = true → s.Has .argZ (k.entry.reg .rdx))
  (hst : s.roles .stencil = .absent) (hentered : k.Entered)
  (hpass : ∀ s', (k.exact → k.features.verdict k.fragment = .passed) → s.Keeps testedRoles s' →
    k.Places (needsDepthAddr k.features = true) coordinates s' →
    (k.features.depthWrite = true → s'.Has .argZ (k.entry.reg .rdx)) → k.Carried s' → Q () s')

include hk hs hp hc hmem hz hst hentered hpass

/-- Stencil and depth. -/
theorem stencilAndDepthTest_leads (hon : k.features.stencilTest = true) :
    k.Leads (stencilAndDepthTest k.env) s Q k.Ended := by
  have hverdict (he : k.exact) := verdict_of_entered (hentered he)
  rw [hon, if_pos rfl] at hverdict
  refine .bind (.mark (.bind (storedStencil_leads hk hs hp id hc hmem (fun hno => ?_)
    fun hhas g s₁ hkeeps hr hp₁ => ?_)))
  · -- a format without stencil bits reads as zero, and no update of it is seen
    have hended (action : StencilAction)
        (h : k.exact → k.features.verdict k.fragment = .updated action) : k.Ended s.mem := by
      intro he
      rw [hmem, Features.outcome, h he]
      exact ⟨(unchanged_of_noStencil hno _ _ _).symm, rfl⟩
    have hpasses : k.features.stencilFunc.passes (k.features.stencilRef.setWidth 32) 0 =
        k.features.stencilPasses k.fragment := by
      have hold : k.features.oldStencil k.fragment = 0#8 := by
        unfold Features.oldStencil
        cases hf : k.features.format <;> rw [hf] at hno <;> first | rfl | cases hno
      rw [Features.stencilPasses, hold, BitVec.and_zero, ite_self]
      rfl
    show k.Leads (if (!k.features.stencilFunc.passes (k.features.stencilRef.setWidth 32) 0) = true
      then _ else _) s Q k.Ended
    rw [hpasses]
    have tail (hstencil : k.features.stencilPasses k.fragment = true) :
        k.Leads (depthTest k.env) s Q k.Ended := by
      refine depthTest_leads hk hs hp hc hz hmem (fun hfail => hended k.features.depthFail fun he => ?_)
        fun s₁ hdepth hkeeps hp₁ hz₁ => hpass s₁ (fun he => ?_) (hkeeps.mono (by decide)) hp₁ hz₁ ?_
      · rw [hverdict he, hstencil, hfail]
        rfl
      · rw [hverdict he, hstencil, hdepth]
        rfl
      · rw [Carried, Features.carriedStencil, hon, hno]
        exact (hkeeps.roles .stencil (by decide) (by decide)).trans hst
    split
    · rename_i hfail
      refine .bind (.leave (hended k.features.stencilFail fun he => ?_))
      rw [hverdict he, if_pos hfail]
    · rename_i hstencil
      exact tail (by simpa using hstencil)
  · refine .bind (stencilTest_leads hk hkeeps.idle hp₁ hc (hkeeps.mem.trans hmem) hr
      (fun hfail he => ?_) fun s₂ hpassed hkeeps₂ => ?_)
    · rw [hverdict he, hfail]
      rfl
    refine .bind (depthTestUpdating_leads hk hkeeps₂.idle (hp₁.of_keeps hkeeps₂ (by simp)) hc
      ((hkeeps₂.mem.trans hkeeps.mem).trans hmem) ((hkeeps₂.roles .stencil (by decide) (by simp)).trans hr)
      (fun h => hkeeps₂.has (hkeeps.has (hz h) (by decide) (by decide)) (by decide) (by simp))
      (fun hfail he => ?_) fun s₃ hdepth hkeeps₃ hp₃ hz₃ => ?_)
    · rw [hverdict he, hpassed, hfail]
      rfl
    have hr₃ := (hkeeps₃.roles .stencil (by decide) (by decide)).trans
      ((hkeeps₂.roles .stencil (by decide) (by simp)).trans hr)
    refine .bind (.mark (.bind (.findGen hr₃ (.bind (updateStencil_leads hk hkeeps₃.idle hr₃
      fun s₄ hkeeps₄ hr₄ => .bind (.unlock rfl (.unlock rfl ?_)))))))
    refine hpass s₄ (fun he => ?_) ?_ (hp₃.of_keeps hkeeps₄ (by decide)) (fun hw =>
      hkeeps₄.has (hz₃ hw) (by decide) (by decide)) ?_
    · rw [hverdict he, hpassed, hdepth]
      rfl
    · exact (hkeeps.mono (by decide)).trans ((hkeeps₂.mono (by simp)).trans
        ((hkeeps₃.mono (by decide)).trans (hkeeps₄.mono (by decide))))
    · rw [Carried, Features.carriedStencil, hon, hhas]
      exact ⟨g, hr₄⟩

/-- The tests of stored values. -/
theorem storedTests_leads : k.Leads (storedTests k.env) s Q k.Ended := by
  unfold storedTests
  split
  · rename_i hon
    exact stencilAndDepthTest_leads hk hs hp hc hmem hz hst hentered hpass hon
  · rename_i hoff
    have hoff : k.features.stencilTest = false := by simpa using hoff
    have hverdict (he : k.exact) := verdict_of_entered (hentered he)
    rw [hoff, if_neg Bool.false_ne_true] at hverdict
    refine depthTest_leads hk hs hp hc hz hmem (fun hfail => hmem ▸ ended_discarded fun he => ?_)
      fun s₁ hdepth hkeeps hp₁ hz₁ => hpass s₁ (fun he => ?_) (hkeeps.mono (by decide)) hp₁ hz₁ ?_
    · rw [hverdict he, hfail]
      rfl
    · rw [hverdict he, hdepth]
      rfl
    · rw [Carried, Features.carriedStencil, hoff]
      exact (hkeeps.roles .stencil (by decide) (by decide)).trans hst

end

/-! ## The depth write -/

/-- The depth is stored, if it is to be. -/
theorem writeDepth_leads {coordinates : Prop} {Q : Unit → View → Prop} (hk : k.Sound) (hs : s.Idle)
    (hp : k.Places (needsDepthAddr k.features = true) coordinates s)
    (hc : coordinates → k.features.dither = true)
    (hz : k.features.depthWrite = true → s.Has .argZ (k.entry.reg .rdx))
    (h : ∀ s', s.mem.Later (InCell k.depthAddress 2) s'.mem →
      s'.mem.read16 k.depthAddress =
        (if k.features.depthWrite then k.fragment.z else s.mem.read16 k.depthAddress) →
      (s.setMem s'.mem).Keeps (.argZ :: placeRoles) s' → k.Places False coordinates s' → Q () s') :
    k.Leads (writeDepth k.env) s Q L := by
  refine .bind (.mark ?_)
  extract_lets jp
  have tail (s₁ : View) (hlater : s.mem.Later (InCell k.depthAddress 2) s₁.mem)
      (hdepth : s₁.mem.read16 k.depthAddress =
        if k.features.depthWrite then k.fragment.z else s.mem.read16 k.depthAddress)
      (hkeeps : (s.setMem s₁.mem).Keeps (.argZ :: placeRoles) s₁)
      (hp₁ : k.Places False coordinates s₁) : k.Leads (jp ()) s₁ Q L := by
    refine .bind (.forceRelease (.forceRelease (h _ hlater hdepth
      ((hkeeps.set (by decide) rfl).set (by decide) rfl)
      ⟨hp₁.color, nofun, hp₁.coordinates⟩)))
  split
  · rename_i hon
    have hneed : needsDepthAddr k.features = true := by
      rw [needsDepthAddr, show k.features.depthWrite = true from hon, Bool.true_or]
    refine .bind (depthAddr_leads hk hs (hp.weaken (fun _ => hneed) id) hneed hc
      fun g s₁ hkeeps hg hp₁ => ?_)
    obtain ⟨gz, hz⟩ := hkeeps.has (hz hon) (by decide) (by decide)
    refine .bind (.findGen hz (.bind (.storeWord (r := .argZ) hz (.start (r := .depthAddr) hg)
      (fun i hi => writable_depth hi) ?_)))
    refine tail _ ?_ ?_ ?_ ⟨hp₁.color, nofun, hp₁.coordinates⟩
    · rw [← hkeeps.mem]
      exact Memory.later_writeAll _ _ _ fun i hi => inCell_add hi
    · rw [if_pos hon]
      exact Memory.read16_write16 _ _ _
    · exact ⟨⟨hkeeps.idle.state, hkeeps.idle.pool, hkeeps.idle.zero⟩,
        fun r hl hn => hkeeps.roles r hl fun hr => hn (List.mem_cons_of_mem _ hr), rfl,
        fun hn => hkeeps.wide fun hr => hn (List.mem_cons_of_mem _ hr)⟩
  · rename_i hoff
    refine tail s (.refl _ _) (if_neg hoff).symm (hs.keeps _) (hp.weaken nofun id)

end Setting

end PixelPipeline
