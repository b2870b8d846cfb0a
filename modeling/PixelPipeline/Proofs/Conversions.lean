/-
# Proofs.Conversions — rows that convert a pixel

A conversion works on three registers.  What a row does to their values is said
without a machine, one rule for each kind of step (`Conversion.Turns`): a whole row
is a word put together from its argument, and that the word is the converted pixel
is a fact about its bits.

A row that turns values does so wherever three registers hold them.
`Setting.turns_leads` carries it into the middle of a stage, where they are the
registers of roles.
-/
import PixelPipeline.Conversion
import PixelPipeline.Proofs.Pixels

namespace PixelPipeline

open X86 Compile

/-! ## Three values -/

/-- One value replaced. -/
def put (v : Fin 3 → BitVec 64) (i : Fin 3) (x : BitVec 32) : Fin 3 → BitVec 64 :=
  fun j => if j = i then x.setWidth 64 else v j

@[simp] theorem put_self (v : Fin 3 → BitVec 64) (i : Fin 3) (x : BitVec 32) :
    put v i x i = x.setWidth 64 := if_pos rfl

theorem put_ne (v : Fin 3 → BitVec 64) {i j : Fin 3} (h : j ≠ i) (x : BitVec 32) :
    put v i x j = v j := if_neg h

@[simp] theorem put_put (v : Fin 3 → BitVec 64) (i : Fin 3) (x y : BitVec 32) :
    put (put v i x) i y = put v i y := by
  funext j
  unfold put
  split <;> rfl

/-- Three values in order. -/
def triple {α : Type} (a b c : α) : Fin 3 → α
  | 0 => a
  | 1 => b
  | 2 => c

theorem triple_injective {α : Type} {a b c : α} (hab : a ≠ b) (hac : a ≠ c) (hbc : b ≠ c) :
    Function.Injective (triple a b c) := by
  intro i j h
  match i, j with
  | 0, 0 | 1, 1 | 2, 2 => rfl
  | 0, 1 => exact absurd h hab
  | 0, 2 => exact absurd h hac
  | 1, 2 => exact absurd h hbc
  | 1, 0 => exact absurd h.symm hab
  | 2, 0 => exact absurd h.symm hac
  | 2, 1 => exact absurd h.symm hbc

namespace Conversion

/-- A row on three registers turns their values into others.  Each step reads the
low halves and leaves a low half extended by zeros. -/
inductive Turns (g : Fin 3 → Reg) :
    List Instr → (Fin 3 → BitVec 64) → (Fin 3 → BitVec 64) → Prop
  | nil {v : Fin 3 → BitVec 64} : Turns g [] v v
  | mov {is : List Instr} {v v' : Fin 3 → BitVec 64} (i j : Fin 3) :
      Turns g is (put v i ((v j).setWidth 32)) v' → Turns g (.mov false (g i) (g j) :: is) v v'
  | and {is : List Instr} {v v' : Fin 3 → BitVec 64} {mask : BitVec 32} (i : Fin 3) :
      Turns g is (put v i ((v i).setWidth 32 &&& mask)) v' →
      Turns g (.aluImm .and false (g i) mask :: is) v v'
  | or {is : List Instr} {v v' : Fin 3 → BitVec 64} (i j : Fin 3) :
      Turns g is (put v i ((v i).setWidth 32 ||| (v j).setWidth 32)) v' →
      Turns g (.alu .or false (g i) (g j) :: is) v v'
  | shift {is : List Instr} {v v' : Fin 3 → BitVec 64} {op : ShiftOp} {n : BitVec 8} (i : Fin 3) :
      n.toNat % 32 ≠ 0 → Turns g is (put v i (op.value ((v i).setWidth 32) (n.toNat % 32))) v' →
      Turns g (.shift op false (g i) n :: is) v v'

namespace Turns

variable {g : Fin 3 → Reg} {is : List Instr} {v v' : Fin 3 → BitVec 64} (i j : Fin 3)

theorem merge (h : Turns g is (put v i ((v i).setWidth 32 ||| (v j).setWidth 32)) v') :
    Turns g (Conversion.merge (g i) (g j) ++ is) v v' := .or i j h

/-- A row that ends in a merge. -/
theorem merged : Turns g (Conversion.merge (g i) (g j)) v
    (put v i ((v i).setWidth 32 ||| (v j).setWidth 32)) := .or i j .nil

theorem extract {n : BitVec 8} {mask : BitVec 32} (hz : n.toNat % 32 ≠ 0)
    (h : Turns g is (put v i (((v j).setWidth 32 >>> (n.toNat % 32)) &&& mask)) v') :
    Turns g (Conversion.extract (g i) (g j) n mask ++ is) v v' := by
  have hne : n ≠ 0 := by rintro rfl; exact hz rfl
  rw [Conversion.extract, if_neg hne]
  simp only [List.cons_append, List.nil_append]
  refine .mov i j (.shift i hz (.and i ?_))
  simpa only [ShiftOp.value, put_self, put_put, low_widened] using h

theorem place {n : BitVec 8} {mask : BitVec 32} (hz : n.toNat % 32 ≠ 0)
    (h : Turns g is (put v i (((v j).setWidth 32 &&& mask) <<< (n.toNat % 32))) v') :
    Turns g (Conversion.place (g i) (g j) mask n ++ is) v v' := by
  have hne : n ≠ 0 := by rintro rfl; exact hz rfl
  rw [Conversion.place, if_neg hne]
  simp only [List.cons_append, List.nil_append]
  refine .mov i j (.and i (.shift i hz ?_))
  simpa only [ShiftOp.value, put_self, put_put, low_widened] using h

end Turns

/-! ## Narrowing -/

/-- A color narrowed; without `keepAlpha` a 16-bit pixel has no stencil bits. -/
def narrowed (f : PixelFormat) (c : BitVec 32) (keepAlpha : Bool) : BitVec 32 :=
  if keepAlpha = true ∨ f = .rgba8888 then f.narrow c else f.narrow c &&& ~~~f.stencilBits

section

variable {g : Fin 3 → Reg} {v : Fin 3 → BitVec 64} {c : BitVec 32} (hc : (v 0).setWidth 32 = c)

include hc

/-- Channels are brought to their places one by one; the last is the color's own
register. -/
theorem channels_turns (r n b : BitVec 8) (red green blue alpha : BitVec 32) (keepAlpha : Bool)
    (hr : r.toNat % 32 ≠ 0) (hn : n.toNat % 32 ≠ 0) (hb : b.toNat % 32 ≠ 0) :
    ∃ v', Turns g (Conversion.extract (g 1) (g 0) r red ++ Conversion.extract (g 2) (g 0) n green ++
        Conversion.merge (g 1) (g 2) ++
        (if keepAlpha then Conversion.extract (g 2) (g 0) 16 alpha ++ Conversion.merge (g 1) (g 2)
          else []) ++
        [.shift .shr false (g 0) b, .aluImm .and false (g 0) blue] ++
        Conversion.merge (g 0) (g 1)) v v' ∧
      v' 0 = ((c >>> (b.toNat % 32) &&& blue) ||| ((c >>> (r.toNat % 32) &&& red) |||
        (c >>> (n.toNat % 32) &&& green) |||
        if keepAlpha then c >>> 16 &&& alpha else 0#32)).setWidth 64 := by
  simp only [List.append_assoc, List.cons_append, List.nil_append]
  cases keepAlpha with
  | true =>
    rw [if_pos rfl, if_pos rfl, List.append_assoc]
    refine ⟨_, .extract 1 0 hr (.extract 2 0 hn (.merge 1 2 (.extract 2 0 (by decide)
      (.merge 1 2 (.shift 0 hb (.and 0 (.merged 0 1))))))), ?_⟩
    simp only [put_self, put_ne, low_widened, ne_eq, Fin.reduceEq, not_false_eq_true, ShiftOp.value, hc]
    rfl
  | false =>
    rw [if_neg Bool.false_ne_true, if_neg Bool.false_ne_true, List.nil_append]
    refine ⟨_, .extract 1 0 hr (.extract 2 0 hn (.merge 1 2
      (.shift 0 hb (.and 0 (.merged 0 1))))), ?_⟩
    simp only [put_self, put_ne, low_widened, ne_eq, Fin.reduceEq, not_false_eq_true, ShiftOp.value,
      hc]
    rw [BitVec.or_zero]

theorem narrow565_turns (keepAlpha : Bool) : ∃ v', Turns g (narrow565 (g 0) (g 1) (g 2)) v v' ∧
    v' 0 = (narrowed .rgb565 c keepAlpha).setWidth 64 := by
  obtain ⟨v', hturns, hv⟩ := channels_turns (g := g) hc 3 5 8 0x001F 0x07E0 0xF800 0 false
    (by decide) (by decide) (by decide)
  refine ⟨v', by simpa only [narrow565, if_neg Bool.false_ne_true, List.append_nil] using hturns,
    hv.trans (congrArg (BitVec.setWidth 64) ?_)⟩
  have hnarrow : narrowed .rgb565 c keepAlpha = PixelFormat.rgb565.narrow c := by
    rw [narrowed]
    split
    · rfl
    · exact BitVec.and_allOnes
  rw [hnarrow, if_neg Bool.false_ne_true, BitVec.or_zero, BitVec.or_comm]
  rfl

theorem narrow5551_turns (keepAlpha : Bool) :
    ∃ v', Turns g (narrow5551 (g 0) (g 1) (g 2) keepAlpha) v v' ∧
      v' 0 = (narrowed .rgba5551 c keepAlpha).setWidth 64 := by
  obtain ⟨v', hturns, hv⟩ := channels_turns (g := g) hc 3 6 9 0x001F 0x03E0 0x7C00 0x8000
    keepAlpha (by decide) (by decide) (by decide)
  refine ⟨v', hturns, hv.trans (congrArg (BitVec.setWidth 64) ?_)⟩
  apply BitVec.eq_of_getLsbD_eq
  intro i hi
  cases keepAlpha <;> interval_cases i <;>
    simp [narrowed, PixelFormat.narrow, PixelFormat.stencilBits, -BitVec.getLsbD_eq_getElem]

theorem narrow4444_turns (keepAlpha : Bool) :
    ∃ v', Turns g (narrow4444 (g 0) (g 1) (g 2) keepAlpha) v v' ∧
      v' 0 = (narrowed .rgba4444 c keepAlpha).setWidth 64 := by
  obtain ⟨v', hturns, hv⟩ := channels_turns (g := g) hc 4 8 12 0x000F 0x00F0 0x0F00 0xF000
    keepAlpha (by decide) (by decide) (by decide)
  refine ⟨v', hturns, hv.trans (congrArg (BitVec.setWidth 64) ?_)⟩
  apply BitVec.eq_of_getLsbD_eq
  intro i hi
  cases keepAlpha <;> interval_cases i <;>
    simp [narrowed, PixelFormat.narrow, PixelFormat.stencilBits, -BitVec.getLsbD_eq_getElem]

/-- A row that narrows to 16 bits. -/
theorem narrow_turns {f : PixelFormat} (hf : f ≠ .rgba8888) (keepAlpha : Bool) :
    ∃ v', Turns g (narrow f (g 0) (g 1) (g 2) keepAlpha) v v' ∧
      v' 0 = (narrowed f c keepAlpha).setWidth 64 := by
  cases f with
  | rgb565 => exact narrow565_turns hc keepAlpha
  | rgba5551 => exact narrow5551_turns hc keepAlpha
  | rgba4444 => exact narrow4444_turns hc keepAlpha
  | rgba8888 => exact absurd rfl hf

end

/-! ## Widening -/

/-- The alpha bit smeared across the top byte. -/
theorem smeared_bit (p : BitVec 32) :
    ((p &&& 0x8000) <<< 16).sshiftRight 7 = PixelFormat.rgba5551.widenAlpha p := by
  rw [PixelFormat.widenAlpha, and_bit15]
  cases p.getLsbD 15 <;> rfl

/-- The tops of three bytes, and the low bits that repeat them. -/
theorem filled5551 (p : BitVec 32) :
    let t := ((p &&& 0x1F) <<< 3 ||| (p &&& 0x3E0) <<< 6) ||| (p &&& 0x7C00) <<< 9
    t ||| (t >>> 5 &&& 0x70707) = PixelFormat.rgba5551.widenRGB p := by
  apply BitVec.eq_of_getLsbD_eq
  intro i hi
  interval_cases i <;> simp [PixelFormat.widenRGB, widen5, -BitVec.getLsbD_eq_getElem]

/-- The tops of three bytes, and the digits repeated below. -/
theorem filled4444 (p : BitVec 32) :
    let t := ((p &&& 0xF) <<< 4 ||| (p &&& 0xF0) <<< 8) ||| (p &&& 0xF00) <<< 12
    t ||| t >>> 4 = PixelFormat.rgba4444.widenRGB p := by
  apply BitVec.eq_of_getLsbD_eq
  intro i hi
  simp only [PixelFormat.widenRGB, widen4, BitVec.getLsbD_or, BitVec.getLsbD_and,
    BitVec.getLsbD_shiftLeft, BitVec.getLsbD_ushiftRight, BitVec.ofNat_eq_ofNat]
  interval_cases i <;>
    simp only [Nat.reduceLT, Nat.reduceAdd, Nat.reduceSub, BitVec.reduceGetLsb, decide_true,
      decide_false, Bool.and_true, Bool.true_and, Bool.and_false, Bool.false_and, Bool.or_false,
      Bool.false_or, Bool.not_true, Bool.not_false]

theorem filled4444_alpha (p : BitVec 32) :
    let t := (((p &&& 0xF) <<< 4 ||| (p &&& 0xF0) <<< 8) ||| (p &&& 0xF00) <<< 12) |||
      (p &&& 0xF000) <<< 16
    t ||| t >>> 4 = PixelFormat.rgba4444.widen p true := by
  apply BitVec.eq_of_getLsbD_eq
  intro i hi
  simp only [PixelFormat.widen, PixelFormat.widenRGB, PixelFormat.widenAlpha, widen4, if_true,
    BitVec.getLsbD_or, BitVec.getLsbD_and, BitVec.getLsbD_shiftLeft, BitVec.getLsbD_ushiftRight,
    BitVec.ofNat_eq_ofNat]
  interval_cases i <;>
    simp only [Nat.reduceLT, Nat.reduceAdd, Nat.reduceSub, BitVec.reduceGetLsb, decide_true,
      decide_false, Bool.and_true, Bool.true_and, Bool.and_false, Bool.false_and, Bool.or_false,
      Bool.false_or, Bool.not_true, Bool.not_false]

section

variable {g : Fin 3 → Reg} {v : Fin 3 → BitVec 64} {p : BitVec 32} (hp : (v 0).setWidth 32 = p)
  (keepAlpha : Bool)

include hp

theorem widen565_turns : ∃ v', Turns g (widen565 (g 0) (g 1) (g 2)) v v' ∧
    v' 0 = (PixelFormat.rgb565.widen p keepAlpha).setWidth 64 := by
  simp only [widen565, List.append_assoc, List.cons_append, List.nil_append]
  refine ⟨_, .place 1 0 (by decide) (.place 2 0 (by decide) (.merge 1 2
    (.place 2 0 (by decide) (.merge 1 2 (.mov 0 1 (.extract 2 1 (by decide) (.merge 0 2
      (.extract 2 1 (by decide) (.merged 0 2))))))))), ?_⟩
  simp only [put_self, put_ne, low_widened, ne_eq, Fin.reduceEq, not_false_eq_true, hp]
  apply congrArg (BitVec.setWidth 64)
  apply BitVec.eq_of_getLsbD_eq
  intro i hi
  interval_cases i <;>
    simp [PixelFormat.widen, PixelFormat.widenRGB, PixelFormat.widenAlpha, widen5, widen6,
      -BitVec.getLsbD_eq_getElem]

theorem widen5551_turns : ∃ v', Turns g (widen5551 (g 0) (g 1) (g 2) keepAlpha) v v' ∧
    v' 0 = (PixelFormat.rgba5551.widen p keepAlpha).setWidth 64 := by
  simp only [widen5551, List.append_assoc, List.cons_append, List.nil_append]
  cases keepAlpha with
  | true =>
    rw [if_pos rfl]
    refine ⟨_, .place 1 0 (by decide) (.place 2 0 (by decide) (.merge 1 2
      (.place 2 0 (by decide) (.merge 1 2 (.and 0 (.shift 0 (by decide) (.shift 0 (by decide)
        (.merge 0 1 (.extract 2 1 (by decide) (.merged 0 2)))))))))), ?_⟩
    simp only [put_self, put_ne, low_widened, ne_eq, Fin.reduceEq, not_false_eq_true,
      ShiftOp.value, hp]
    apply congrArg (BitVec.setWidth 64)
    rw [PixelFormat.widen, if_pos rfl, ← filled5551, ← smeared_bit]
    exact (BitVec.or_assoc _ _ _).trans (BitVec.or_comm _ _)
  | false =>
    rw [if_neg Bool.false_ne_true]
    refine ⟨_, .place 1 0 (by decide) (.place 2 0 (by decide) (.merge 1 2
      (.place 2 0 (by decide) (.merge 1 2 (.mov 0 1
        (.extract 2 1 (by decide) (.merged 0 2))))))), ?_⟩
    simp only [put_self, put_ne, low_widened, ne_eq, Fin.reduceEq, not_false_eq_true, hp]
    exact congrArg (BitVec.setWidth 64) (filled5551 _)

theorem widen4444_turns : ∃ v', Turns g (widen4444 (g 0) (g 1) (g 2) keepAlpha) v v' ∧
    v' 0 = (PixelFormat.rgba4444.widen p keepAlpha).setWidth 64 := by
  simp only [widen4444, List.append_assoc, List.cons_append, List.nil_append]
  cases keepAlpha with
  | true =>
    rw [if_pos rfl, List.append_assoc]
    refine ⟨_, .place 1 0 (by decide) (.place 2 0 (by decide) (.merge 1 2
      (.place 2 0 (by decide) (.merge 1 2 (.place 2 0 (by decide) (.merge 1 2
        (.mov 0 1 (.shift 1 (by decide) (.merged 0 1))))))))), ?_⟩
    simp only [put_self, put_ne, low_widened, ne_eq, Fin.reduceEq, not_false_eq_true,
      ShiftOp.value, hp]
    exact congrArg (BitVec.setWidth 64) (filled4444_alpha _)
  | false =>
    rw [if_neg Bool.false_ne_true, List.nil_append]
    refine ⟨_, .place 1 0 (by decide) (.place 2 0 (by decide) (.merge 1 2
      (.place 2 0 (by decide) (.merge 1 2 (.mov 0 1 (.shift 1 (by decide)
        (.merged 0 1))))))), ?_⟩
    simp only [put_self, put_ne, low_widened, ne_eq, Fin.reduceEq, not_false_eq_true,
      ShiftOp.value, hp]
    exact congrArg (BitVec.setWidth 64) (filled4444 _)

/-- A row that widens a 16-bit pixel.  Bits above the pixel are not looked at. -/
theorem widen_turns {f : PixelFormat} (hf : f ≠ .rgba8888) :
    ∃ v', Turns g (widen f (g 0) (g 1) (g 2) keepAlpha) v v' ∧
      v' 0 = (f.widen p keepAlpha).setWidth 64 := by
  cases f with
  | rgb565 => exact widen565_turns hp keepAlpha
  | rgba5551 => exact widen5551_turns hp keepAlpha
  | rgba4444 => exact widen4444_turns hp keepAlpha
  | rgba8888 => exact absurd rfl hf

end

end Conversion

/-! ## In a stage

The three registers are those of the temporary roles. -/

/-- The roles of the color and of the two scratch registers. -/
def workRole : Fin 3 → Role
  | 0 => .gen0
  | 1 => .gen1
  | 2 => .gen2

theorem workRole_mem (i : Fin 3) : workRole i ∈ [Role.gen0, .gen1, .gen2] := by
  revert i; decide

theorem workRole_inj {i j : Fin 3} (h : workRole i = workRole j) : i = j := by
  revert i j; decide

/-- Three registers hold values, and everything else is as it was. -/
structure View.Works (s : View) (g : Fin 3 → Reg) (v : Fin 3 → BitVec 64) (s' : View) : Prop where
  regs : ∀ i, s'.roles (workRole i) = .word (g i) (v i)
  others : ∀ r, (∀ i, r ≠ workRole i) → s'.roles r = s.roles r
  mem : s'.mem = s.mem
  wide : s'.wide = s.wide

theorem View.Works.frame {s s' : View} {g : Fin 3 → Reg} {v : Fin 3 → BitVec 64}
    (h : s.Works g v s') : s.Frame [.gen0, .gen1, .gen2] s' :=
  ⟨fun r hn => h.others r fun i e => hn (e ▸ workRole_mem i), h.mem, h.wide⟩

theorem View.works_self {s : View} {a b c : Reg} {u v w : BitVec 64} (h₀ : s.roles .gen0 = .word a u)
    (h₁ : s.roles .gen1 = .word b v) (h₂ : s.roles .gen2 = .word c w) :
    s.Works (triple a b c) (triple u v w) s :=
  ⟨fun i => match i with
    | 0 => h₀
    | 1 => h₁
    | 2 => h₂, fun _ _ => rfl, rfl, rfl⟩

namespace Setting

variable {k : Setting} {s s' : View} {g : Fin 3 → Reg} {v v' : Fin 3 → BitVec 64}
  {L : Memory → Prop} {Q : Unit → View → Prop} {is : List Instr}

theorem works_set (h : s.Works g v s') (i : Fin 3) (x : BitVec 32) (f : Flags) :
    s.Works g (put v i x) ((s'.set (workRole i) (.word (g i) (x.setWidth 64))).setFlags f) := by
  refine ⟨fun j => ?_, fun r hr => ?_, h.mem, h.wide⟩
  · rw [View.roles_setFlags, View.roles_set]
    by_cases hj : j = i
    · subst hj
      rw [if_pos rfl, put, if_pos rfl]
    · rw [if_neg fun e => hj (workRole_inj e), put, if_neg hj, h.regs]
  · rw [View.roles_setFlags, View.roles_set_ne (hr i)]
    exact h.others r hr

/-- A stage goes on behind a row with the values that the row leaves. -/
theorem turns_leads (ht : Conversion.Turns g is v v') (h : s.Works g v s')
    (hn : ∀ s₁, s.Works g v' s₁ → Q () s₁) : k.Leads (Emit.ops is) s' Q L := by
  induction ht generalizing s' with
  | nil => exact .ops_nil (hn s' h)
  | mov i j _ ih =>
    exact .ops_cons (.mov (h.regs i) (h.regs j) (ih (works_set h i _ s'.flags) hn))
  | and i _ ih =>
    exact .ops_cons (.aluImm (o := .and) trivial (h.regs i) fun f => ih (works_set h i _ f) hn)
  | or i j _ ih =>
    exact .ops_cons (.alu (o := .or) trivial (h.regs i) (h.regs j) fun f =>
      ih (works_set h i _ f) hn)
  | shift i hz _ ih =>
    exact .ops_cons (.shift hz (h.regs i) fun f => ih (works_set h i _ f) hn)

/-- A stage narrows a color. -/
theorem narrow_works (h : s.Works g v s') {c : BitVec 32} (hc : v 0 = c.setWidth 64)
    (f : PixelFormat) (keepAlpha : Bool) (hn : ∀ s₁ v₁, s.Works g v₁ s₁ →
      v₁ 0 = (Conversion.narrowed f c keepAlpha).setWidth 64 → Q () s₁) :
    k.Leads (Emit.ops (Conversion.narrow f (g 0) (g 1) (g 2) keepAlpha)) s' Q L := by
  by_cases hf : f = .rgba8888
  · subst hf
    exact .ops_nil (hn s' v h (hc.trans (congrArg _ (if_pos (.inr rfl)).symm)))
  · obtain ⟨v₁, ht, hv⟩ := Conversion.narrow_turns (g := g) (v := v) (c := c)
      (by rw [hc, low_widened]) hf keepAlpha
    exact turns_leads ht h fun s₁ h₁ => hn s₁ v₁ h₁ hv

/-- A stage widens a 16-bit pixel. -/
theorem widen_works (h : s.Works g v s') {w : BitVec 16} (hw : v 0 = (w.setWidth 32).setWidth 64)
    (keepAlpha : Bool) (f : PixelFormat) (hf : f ≠ .rgba8888) (hn : ∀ s₁ v₁, s.Works g v₁ s₁ →
      v₁ 0 = (f.widen (w.setWidth 32) keepAlpha).setWidth 64 → Q () s₁) :
    k.Leads (Emit.ops (Conversion.widen f (g 0) (g 1) (g 2) keepAlpha)) s' Q L := by
  obtain ⟨v₁, ht, hv⟩ := Conversion.widen_turns (g := g) (v := v) (p := w.setWidth 32)
    (by rw [hw, low_widened]) keepAlpha hf
  exact turns_leads ht h fun s₁ h₁ => hn s₁ v₁ h₁ hv

end Setting

end PixelPipeline
