/-
# Proofs.Effects — one rule for each instruction

What an instruction does to a view.  The rules name the roles whose registers
an instruction reads and writes; flags are kept only where something is
compared, and are otherwise anything at all.  Operands in memory are given by
their address.
-/
import Mathlib.Algebra.Group.Nat.Defs
import PixelPipeline.Proofs.Leads

namespace PixelPipeline

open X86 Compile

/-! ## Values of operations -/

/-- The result of a two-operand operation that does not read the carry. -/
def X86.AluOp.value {w : Nat} (op : AluOp) (a b : BitVec w) : BitVec w :=
  match op with
  | .add => a + b
  | .or => a ||| b
  | .and => a &&& b
  | .sub => a - b
  | .xor => a ^^^ b
  | .adc | .sbb | .cmp => a

/-- The operation stores its result and does not read the carry. -/
def X86.AluOp.IsPlain : AluOp → Prop
  | .adc | .sbb | .cmp => False
  | _ => True

/-- No carry, at one more bit. -/
theorem toNat_noCarry (w : Nat) : ((BitVec.ofBool false).setWidth (w + 1)).toNat = 0 := by
  rw [BitVec.toNat_setWidth, show (BitVec.ofBool false).toNat = 0 from rfl, Nat.zero_mod]

theorem toNat_extend {w : Nat} (a : BitVec w) : (a.setWidth (w + 1)).toNat = a.toNat := by
  rw [BitVec.toNat_setWidth, Nat.mod_eq_of_lt]
  exact Nat.lt_trans a.isLt (Nat.pow_lt_pow_right (by decide) (Nat.lt_succ_self w))

theorem fst_addWith {w : Nat} (a b : BitVec w) : (addWith a b false).1 = a + b := by
  apply BitVec.eq_of_toNat_eq
  simp only [addWith]
  rw [BitVec.toNat_setWidth, BitVec.toNat_add, BitVec.toNat_add, toNat_noCarry, toNat_extend,
    toNat_extend, Nat.add_zero, Nat.mod_mod, Nat.mod_mod_of_dvd _ (Nat.pow_dvd_pow 2 (Nat.le_succ w)),
    BitVec.toNat_add]

/-- A difference at one more bit. -/
theorem toNat_difference {w : Nat} (a b : BitVec w) :
    (a.setWidth (w + 1) - b.setWidth (w + 1) - (BitVec.ofBool false).setWidth (w + 1)).toNat =
      (2 * 2 ^ w - b.toNat + a.toNat) % (2 * 2 ^ w) := by
  rw [BitVec.toNat_sub, BitVec.toNat_sub, toNat_noCarry, toNat_extend, toNat_extend, Nat.sub_zero,
    Nat.add_mod_left, Nat.mod_mod, Nat.pow_succ, Nat.mul_comm]

theorem fst_subWith {w : Nat} (a b : BitVec w) : (subWith a b false).1 = a - b := by
  have ha := a.isLt
  have hb := b.isLt
  apply BitVec.eq_of_toNat_eq
  simp only [subWith]
  rw [BitVec.toNat_setWidth, toNat_difference, Nat.mod_mod_of_dvd _ (Nat.dvd_mul_left _ 2),
    BitVec.toNat_sub, show 2 * 2 ^ w - b.toNat + a.toNat = 2 ^ w - b.toNat + a.toNat + 2 ^ w by omega,
    Nat.add_mod_right]

theorem X86.AluOp.eval_plain {w : Nat} {op : AluOp} (h : op.IsPlain) (a b : BitVec w)
    (f : Flags) : (op.eval a b f).1 = op.value a b := by
  cases op
  case add => exact fst_addWith a b
  case sub => exact fst_subWith a b
  case adc => cases h
  case sbb => cases h
  case cmp => cases h
  all_goals rfl

theorem X86.AluOp.IsPlain.ne_cmp {op : AluOp} (h : op.IsPlain) : op ≠ .cmp := by
  rintro rfl; cases h

/-- The result of a shift by less than the width. -/
def X86.ShiftOp.value {w : Nat} (op : ShiftOp) (a : BitVec w) (n : Nat) : BitVec w :=
  match op with
  | .rol => a.rotateLeft n
  | .ror => a.rotateRight n
  | .shl => a <<< n
  | .shr => a >>> n
  | .sar => a.sshiftRight n

theorem X86.ShiftOp.eval_value {w : Nat} (op : ShiftOp) (a : BitVec w) {n : Nat} (hn : n ≠ 0)
    (f : Flags) : (op.eval a n f).1 = op.value a n := by
  unfold ShiftOp.eval
  rw [if_neg hn]
  cases op <;> rfl

/-! ## Flags of a comparison -/

/-- The flags that comparing two values leaves. -/
def X86.Flags.compared {w : Nat} (a b : BitVec w) : Flags := (subWith a b false).2

namespace X86.Cond

variable {w : Nat} (a b : BitVec w)

theorem holds_b : Cond.b.holds (.compared a b) = a.ult b := by
  have ha := a.isLt
  have hb := b.isLt
  show (subWith a b false).2.carry = _
  simp only [subWith, Flags.ofResult, BitVec.msb_eq_decide, BitVec.ult, toNat_difference,
    Nat.add_sub_cancel]
  refine decide_eq_decide.mpr ?_
  rcases Nat.lt_or_ge a.toNat b.toNat with h | h
  · rw [Nat.mod_eq_of_lt (by omega)]
    omega
  · rw [show 2 * 2 ^ w - b.toNat + a.toNat = a.toNat - b.toNat + 2 * 2 ^ w by omega,
      Nat.add_mod_right, Nat.mod_eq_of_lt (by omega)]
    omega

theorem holds_e : Cond.e.holds (.compared a b) = (a == b) := by
  show ((subWith a b false).1 == 0#w) = _
  rw [fst_subWith, Bool.eq_iff_iff, beq_iff_eq, beq_iff_eq, BitVec.sub_eq_iff_eq_add,
    BitVec.zero_add]

theorem holds_ne : Cond.ne.holds (.compared a b) = (a != b) := congrArg (!·) (holds_e a b)

theorem holds_ae : Cond.ae.holds (.compared a b) = b.ule a := by
  rw [show Cond.ae.holds (.compared a b) = !(Cond.b.holds (.compared a b)) from rfl, holds_b,
    BitVec.ule_eq_not_ult]

theorem holds_be : Cond.be.holds (.compared a b) = a.ule b := by
  rw [show Cond.be.holds (.compared a b) =
    (Cond.b.holds (.compared a b) || Cond.e.holds (.compared a b)) from rfl, holds_b, holds_e,
    Bool.eq_iff_iff, Bool.or_eq_true, beq_iff_eq, BitVec.ule_eq_decide, BitVec.ult_eq_decide,
    decide_eq_true_eq, decide_eq_true_eq, Nat.le_iff_lt_or_eq, ← BitVec.toNat_inj]

theorem holds_a : Cond.a.holds (.compared a b) = b.ult a := by
  rw [show Cond.a.holds (.compared a b) = !(Cond.be.holds (.compared a b)) from rfl, holds_be,
    BitVec.ule_eq_not_ult, Bool.not_not]

end X86.Cond

section

variable {w : Nat} (hw : w ≤ 32) (a b : BitVec w)

include hw

theorem ult_widened : (a.setWidth 32).ult (b.setWidth 32) = a.ult b := by
  simp only [BitVec.ult, BitVec.toNat_setWidth_of_le hw]

theorem ule_widened : (a.setWidth 32).ule (b.setWidth 32) = a.ule b := by
  simp only [BitVec.ule, BitVec.toNat_setWidth_of_le hw]

theorem beq_widened : (a.setWidth 32 == b.setWidth 32) = (a == b) := by
  rw [Bool.eq_iff_iff, beq_iff_eq, beq_iff_eq, ← BitVec.toNat_inj, ← BitVec.toNat_inj,
    BitVec.toNat_setWidth_of_le hw, BitVec.toNat_setWidth_of_le hw]

/-- The compiled condition says whether the comparison passes. -/
theorem holds_passCond {c : Comparison} {pass : Cond} (h : passCond c = some pass) :
    pass.holds (.compared a b) = c.passes (a.setWidth 32) (b.setWidth 32) := by
  cases c <;> cases h
  case equal => rw [Cond.holds_e]; exact (beq_widened hw a b).symm
  case notEqual => rw [Cond.holds_ne]; exact congrArg (!·) (beq_widened hw a b).symm
  case less => rw [Cond.holds_b]; exact (ult_widened hw a b).symm
  case lessEqual => rw [Cond.holds_be]; exact (ule_widened hw a b).symm
  case greater => rw [Cond.holds_a]; exact (ult_widened hw b a).symm
  case greaterEqual => rw [Cond.holds_ae]; exact (ule_widened hw b a).symm

end

/-- The condition for exchanged operands says whether the comparison passes. -/
theorem holds_mirroredPassCond {c : Comparison} {pass : Cond} (h : mirroredPassCond c = some pass)
    (value reference : BitVec 32) :
    pass.holds (.compared value reference) = c.passes reference value := by
  cases c <;> cases h
  case equal => rw [Cond.holds_e]; exact Bool.beq_comm
  case notEqual => rw [Cond.holds_ne]; exact congrArg (!·) Bool.beq_comm
  case less => exact Cond.holds_a _ _
  case lessEqual => exact Cond.holds_ae _ _
  case greater => exact Cond.holds_b _ _
  case greaterEqual => exact Cond.holds_be _ _

/-- The low bits of an immediate do not depend on its extension. -/
theorem setWidth_immediate {n : Nat} (h : n ≤ 32) (v : BitVec 32) :
    (v.signExtend 64).setWidth n = v.setWidth n := by
  apply BitVec.eq_of_getLsbD_eq
  intro i hi
  simp only [BitVec.getLsbD_setWidth, BitVec.getLsbD_signExtend]
  grind

namespace X86.Cpu

theorem alu_plain {w : Nat} {op : AluOp} (h : op.IsPlain) (c : Cpu) (a b : BitVec w)
    (keep : Cpu → BitVec w → Cpu) :
    c.alu op a b keep = (keep c (op.value a b)).setFlags (op.eval a b c.flags).2 := by
  rw [← AluOp.eval_plain h a b c.flags]
  simp only [alu, if_neg h.ne_cmp]

theorem aluReg_plain {op : AluOp} (h : op.IsPlain) (c : Cpu) (r : Reg) (v : BitVec 64) :
    c.aluReg op false r v =
      (c.setReg r ((op.value (c.reg32 r) (v.setWidth 32)).setWidth 64)).setFlags
        (op.eval (c.reg32 r) (v.setWidth 32) c.flags).2 := by
  rw [aluReg, if_neg Bool.false_ne_true, alu_plain h]
  rfl

end X86.Cpu

/-- The low half of a value that was widened. -/
@[simp] theorem low_widened (v : BitVec 32) : (v.setWidth 64).setWidth 32 = v := by
  rw [BitVec.setWidth_setWidth_of_le v (by decide), BitVec.setWidth_eq]

/-! ## Rules -/

namespace Setting.Leads

variable {k : Setting} {s : View} {L : Memory → Prop} {Q : Unit → View → Prop}

/-- An instruction that sets the register of a role. -/
theorem word {i : Instr} {r : Role} {g : Reg} {v v' : BitVec 64} {f : Flags}
    (hr : s.roles r = .word g v) (hi : i.encodable = true)
    (hexec : ∀ c, s.Fits c → ∀ next, c.exec next i = some ((c.setReg g v').setFlags f))
    (h : Q () ((s.set r (.word g v')).setFlags f)) : k.Leads (Emit.op i) s Q L :=
  op hi fun _ c hc next => ⟨_, _, hexec c hc.fits next, hc.setWord hr v' f, h⟩

/-- An instruction that sets the register of a role and keeps the flags. -/
theorem wordKeeping {i : Instr} {r : Role} {g : Reg} {v v' : BitVec 64}
    (hr : s.roles r = .word g v) (hi : i.encodable = true)
    (hexec : ∀ c, s.Fits c → ∀ next, c.exec next i = some (c.setReg g v'))
    (h : Q () (s.set r (.word g v'))) : k.Leads (Emit.op i) s Q L :=
  word (f := s.flags) hr hi (fun c hc next => by rw [hexec c hc next, ← hc.flags]; rfl) h

/-- An instruction that sets the vector register of a role. -/
theorem lanes {i : Instr} {r : Role} {x : Xmm} {v v' : Lanes}
    (hr : s.roles r = .lanes x v) (hi : i.encodable = true)
    (hexec : ∀ c, s.Fits c → ∀ next, c.exec next i = some (c.setVec x v'))
    (h : Q () (s.set r (.lanes x v'))) : k.Leads (Emit.op i) s Q L :=
  op hi fun _ c hc next => ⟨_, _, hexec c hc.fits next, hc.setLanes hr v', h⟩

/-- An instruction that sets flags alone. -/
theorem flags {i : Instr} {f : Flags} (hi : i.encodable = true)
    (hexec : ∀ c, s.Fits c → ∀ next, c.exec next i = some (c.setFlags f))
    (h : Q () (s.setFlags f)) : k.Leads (Emit.op i) s Q L :=
  op hi fun _ c hc next => ⟨_, _, hexec c hc.fits next, hc.setFlags f, h⟩

/-- An instruction that stores. -/
theorem stores {i : Instr} {m : Memory} {f : Flags} (hi : i.encodable = true)
    (hm : s.mem.Later k.Writable m)
    (hexec : ∀ c, s.Fits c → ∀ next, c.exec next i = some ((c.setMem m).setFlags f))
    (h : Q () ((s.setMem m).setFlags f)) : k.Leads (Emit.op i) s Q L :=
  op hi fun _ c hc next =>
    ⟨_, _, hexec c hc.fits next, (hc.setMem (hc.later.trans hm)).setFlags f, h⟩

/-! ### General registers -/

variable {r q : Role} {g g' : Reg} {v w : BitVec 64}

theorem alu {o : AluOp} (hop : o.IsPlain) (hd : s.roles r = .word g v)
    (hs : s.roles q = .word g' w)
    (h : ∀ f, Q () ((s.set r
      (.word g ((o.value (v.setWidth 32) (w.setWidth 32)).setWidth 64))).setFlags f)) :
    k.Leads (Emit.op (.alu o false g g')) s Q L := by
  refine word (f := (o.eval (v.setWidth 32) (w.setWidth 32) s.flags).2) hd rfl
    (fun c hc next => ?_) (h _)
  rw [Cpu.exec, Cpu.aluReg_plain hop, Cpu.reg32, hc.word hd, hc.word hs, hc.flags]

theorem aluImm {o : AluOp} {imm : BitVec 32} (hop : o.IsPlain) (hd : s.roles r = .word g v)
    (h : ∀ f, Q () ((s.set r
      (.word g ((o.value (v.setWidth 32) imm).setWidth 64))).setFlags f)) :
    k.Leads (Emit.op (.aluImm o false g imm)) s Q L := by
  refine word (f := (o.eval (v.setWidth 32) imm s.flags).2) hd rfl (fun c hc next => ?_) (h _)
  rw [Cpu.exec, Cpu.aluReg_plain hop, Cpu.reg32, hc.word hd, hc.flags,
    setWidth_immediate (by decide), BitVec.setWidth_eq]

theorem cmp (hd : s.roles r = .word g v) (hs : s.roles q = .word g' w)
    (h : Q () (s.setFlags (.compared (v.setWidth 32) (w.setWidth 32)))) :
    k.Leads (Emit.op (.alu .cmp false g g')) s Q L := by
  refine flags rfl (fun c hc next => ?_) h
  rw [← hc.word hd, ← hc.word hs]
  rfl

theorem cmpImm {imm : BitVec 32} (hd : s.roles r = .word g v)
    (h : Q () (s.setFlags (.compared (v.setWidth 32) imm))) :
    k.Leads (Emit.op (.aluImm .cmp false g imm)) s Q L := by
  refine flags rfl (fun c hc next => ?_) h
  rw [← hc.word hd]
  show some (c.setFlags (subWith (c.reg32 g) ((imm.signExtend 64).setWidth 32) false).2) = _
  rw [setWidth_immediate (by decide), BitVec.setWidth_eq]
  rfl

/-- A test of a register for zero. -/
theorem testSelf (hd : s.roles r = .word g v)
    (h : ∀ f, (Cond.e.holds f = (v.setWidth 32 == 0#32)) → Q () (s.setFlags f)) :
    k.Leads (Emit.op (.test false g g)) s Q L := by
  refine flags (f := (bitwise (v.setWidth 32 &&& v.setWidth 32)).2) rfl (fun c hc next => ?_)
    (h _ ?_)
  · rw [← hc.word hd]
    rfl
  · show (v.setWidth 32 &&& v.setWidth 32 == 0#32) = _
    rw [BitVec.and_self]

theorem not (hd : s.roles r = .word g v)
    (h : Q () (s.set r (.word g ((~~~(v.setWidth 32)).setWidth 64)))) :
    k.Leads (Emit.op (.not false g)) s Q L := by
  refine wordKeeping hd rfl (fun c hc next => ?_) h
  rw [← hc.word hd, ← BitVec.setWidth_not (by decide)]
  rfl

theorem shift {o : ShiftOp} {n : BitVec 8} (hn : n.toNat % 32 ≠ 0) (hd : s.roles r = .word g v)
    (h : ∀ f, Q () ((s.set r
      (.word g ((o.value (v.setWidth 32) (n.toNat % 32)).setWidth 64))).setFlags f)) :
    k.Leads (Emit.op (.shift o false g n)) s Q L := by
  refine word (f := (o.eval (v.setWidth 32) (n.toNat % 32) s.flags).2) hd rfl
    (fun c hc next => ?_) (h _)
  rw [← hc.word hd, ← ShiftOp.eval_value o _ hn s.flags, ← hc.flags]
  rfl

theorem shiftWide {o : ShiftOp} {n : BitVec 8} (hn : n.toNat % 64 ≠ 0) (hd : s.roles r = .word g v)
    (h : ∀ f, Q () ((s.set r (.word g (o.value v (n.toNat % 64)))).setFlags f)) :
    k.Leads (Emit.op (.shift o true g n)) s Q L := by
  refine word (f := (o.eval v (n.toNat % 64) s.flags).2) hd rfl (fun c hc next => ?_) (h _)
  rw [← hc.word hd, ← ShiftOp.eval_value o _ hn s.flags, ← hc.flags]
  rfl

theorem mov (hd : s.roles r = .word g v) (hs : s.roles q = .word g' w)
    (h : Q () (s.set r (.word g ((w.setWidth 32).setWidth 64)))) :
    k.Leads (Emit.op (.mov false g g')) s Q L := by
  refine wordKeeping hd rfl (fun c hc next => ?_) h
  rw [← hc.word hs]
  rfl

theorem movImm32 {imm : BitVec 32} (hd : s.roles r = .word g v)
    (h : Q () (s.set r (.word g (imm.setWidth 64)))) :
    k.Leads (Emit.op (.movImm32 g imm)) s Q L :=
  wordKeeping hd rfl (fun _ _ _ => rfl) h

theorem imul (hd : s.roles r = .word g v) (hs : s.roles q = .word g' w)
    (h : ∀ f, Q () ((s.set r
      (.word g ((v.setWidth 32 * w.setWidth 32 : BitVec 32).setWidth 64))).setFlags f)) :
    k.Leads (Emit.op (.imul false g g')) s Q L := by
  refine word (f := (mulSigned (v.setWidth 32 : BitVec 32) (w.setWidth 32) s.flags).2) hd rfl
    (fun c hc next => ?_) (h _)
  rw [← hc.word hd, ← hc.word hs, ← hc.flags]
  rfl

theorem setWidth_of_ule {a : BitVec 64} (h : a.ule 0xFFFFFFFF = true) :
    (a.setWidth 32).setWidth 64 = a := by
  apply BitVec.eq_of_toNat_eq
  rw [BitVec.toNat_setWidth, BitVec.toNat_setWidth]
  have : a.toNat ≤ 0xFFFFFFFF := by simpa [BitVec.ule] using h
  omega

/-- A constant in any of its three forms. -/
theorem movConst {a : BitVec 64} (hd : s.roles r = .word g v)
    (h : ∀ f, Q () ((s.set r (.word g a)).setFlags f)) :
    k.Leads (Emit.op (.movConst true g a)) s Q L := by
  unfold Instr.movConst
  split
  · rename_i ha
    subst ha
    refine word (f := (bitwise (v.setWidth 32 ^^^ v.setWidth 32 : BitVec 32)).2) hd rfl
      (fun c hc next => ?_) (h _)
    rw [← hc.word hd]
    show some ((c.setReg g ((c.reg32 g ^^^ c.reg32 g).setWidth 64)).setFlags _) = _
    rw [BitVec.xor_self]
    rfl
  · split
    · rename_i ha
      refine wordKeeping hd rfl (fun c hc next => ?_) (h s.flags)
      rw [Bool.not_true, Bool.false_or] at ha
      rw [Cpu.exec, Cpu.setReg32, setWidth_of_ule ha]
    · exact wordKeeping hd rfl (fun _ _ _ => rfl) (h s.flags)

/-! ### Operands in memory -/

/-- An offset that is not too great is added as it is. -/
theorem signExtend_offset {n : Nat} (hn : n < 0x80000000) :
    (BitVec.ofNat 32 n).signExtend 64 = BitVec.ofNat 64 n := by
  have hmsb : (BitVec.ofNat 32 n).msb = false := by
    rw [BitVec.msb_eq_false_iff_two_mul_lt, BitVec.toNat_ofNat]
    omega
  rw [BitVec.signExtend_eq_setWidth_of_msb_false hmsb]
  apply BitVec.eq_of_toNat_eq
  rw [BitVec.toNat_setWidth, BitVec.toNat_ofNat, BitVec.toNat_ofNat]
  omega

/-- The operand is at the address, in every machine that fits. -/
def At (s : View) (m : MemOperand) (a : Address) : Prop :=
  m.encodable = true ∧ ∀ c, s.Fits c → c.address m = a

theorem At.offset {n : Nat} (hb : s.roles r = .word g v) (hn : n < 0x80000000) :
    At s (Compile.atOffset g n) (v + BitVec.ofNat 64 n) :=
  ⟨rfl, fun c hc => by rw [Compile.atOffset, Cpu.address, hc.word hb, signExtend_offset hn]⟩

/-- An operand with no offset. -/
theorem At.start (hb : s.roles r = .word g v) : At s (Compile.atOffset g 0) v := by
  have := At.offset hb (n := 0) (by decide)
  rwa [show v + BitVec.ofNat 64 0 = v from BitVec.add_zero v] at this

/-- An operand with a scaled index. -/
theorem At.indexed {scale : BitVec 2} {n : Nat} (hb : s.roles r = .word g v)
    (hi : s.roles q = .word g' w) (hscratch : g' ∈ scratchRegs) (hn : n < 0x80000000) :
    At s (.indexed g g' scale (BitVec.ofNat 32 n)) (v + (w <<< scale.toNat) + BitVec.ofNat 64 n) :=
  ⟨decide_eq_true fun e => rsp_not_scratch (e ▸ hscratch), fun c hc => by
    rw [Cpu.address, hc.word hb, hc.word hi, signExtend_offset hn]⟩

variable {m : MemOperand} {a : Address}

theorem cmpLoadWord {b : BitVec 16} (hd : s.roles r = .word g v) (hm : At s m a)
    (hb : s.mem.read16 a = b) (h : Q () (s.setFlags (.compared (v.setWidth 16) b))) :
    k.Leads (Emit.op (.aluLoad .cmp .word g m)) s Q L := by
  refine flags hm.1 (fun c hc next => ?_) h
  rw [← hc.word hd, ← hb, ← hc.mem, ← hm.2 c hc]
  rfl

theorem andLoadByte {b : BitVec 8} (hd : s.roles r = .word g v) (hm : At s m a)
    (hb : s.mem.read a = b)
    (h : ∀ f, Q () ((s.set r (.word g (v.extractLsb' 8 56 ++ (v.setWidth 8 &&& b)))).setFlags f)) :
    k.Leads (Emit.op (.aluLoad .and .byte g m)) s Q L := by
  refine word (f := (bitwise (v.setWidth 8 &&& b)).2) hd hm.1 (fun c hc next => ?_) (h _)
  rw [← hc.word hd, ← hb, ← hc.mem, ← hm.2 c hc]
  rfl

theorem addLoadWide {b : BitVec 64} (hd : s.roles r = .word g v) (hm : At s m a)
    (hb : s.mem.read64 a = b) (h : ∀ f, Q () ((s.set r (.word g (v + b))).setFlags f)) :
    k.Leads (Emit.op (.aluLoad .add .qword g m)) s Q L := by
  refine word (f := (addWith v b false).2) hd hm.1 (fun c hc next => ?_) (h _)
  rw [← hc.word hd, ← hb, ← hc.mem, ← hm.2 c hc, ← fst_addWith]
  rfl

theorem loadWide {b : BitVec 64} (hd : s.roles r = .word g v) (hm : At s m a)
    (hb : s.mem.read64 a = b) (h : Q () (s.set r (.word g b))) :
    k.Leads (Emit.op (.load true g m)) s Q L := by
  refine wordKeeping hd hm.1 (fun c hc next => ?_) h
  rw [← hb, ← hc.mem, ← hm.2 c hc]
  rfl

theorem load {b : BitVec 32} (hd : s.roles r = .word g v) (hm : At s m a)
    (hb : s.mem.read32 a = b) (h : Q () (s.set r (.word g (b.setWidth 64)))) :
    k.Leads (Emit.op (.load false g m)) s Q L := by
  refine wordKeeping hd hm.1 (fun c hc next => ?_) h
  rw [← hb, ← hc.mem, ← hm.2 c hc]
  rfl

theorem loadExt {ext : Extension} {b : BitVec 32} (hd : s.roles r = .word g v) (hm : At s m a)
    (hb : Cpu.extended s.mem ext a = b) (h : Q () (s.set r (.word g (b.setWidth 64)))) :
    k.Leads (Emit.op (.loadExt ext g m)) s Q L := by
  refine wordKeeping hd hm.1 (fun c hc next => ?_) h
  rw [← hb, ← hc.mem, ← hm.2 c hc]
  rfl

theorem lea (hd : s.roles r = .word g v) (hm : At s m a) (h : Q () (s.set r (.word g a))) :
    k.Leads (Emit.op (.lea true g m)) s Q L := by
  refine wordKeeping hd hm.1 (fun c hc next => ?_) h
  rw [← hm.2 c hc]
  rfl

/-! ### Stores -/

variable {n : Nat}

theorem later_write16 (hw : ∀ i, i < 2 → k.Writable (a + BitVec.ofNat 64 i)) (v : BitVec 16) :
    s.mem.Later k.Writable (s.mem.write16 a v) :=
  Memory.later_writeAll _ _ _ hw

theorem later_write32 (hw : ∀ i, i < 4 → k.Writable (a + BitVec.ofNat 64 i)) (v : BitVec 32) :
    s.mem.Later k.Writable (s.mem.write32 a v) :=
  Memory.later_writeAll _ _ _ hw

theorem storeByte (hs : s.roles r = .word g v) (hm : At s m a) (hw : k.Writable a)
    (h : Q () (s.setMem (s.mem.write a (v.setWidth 8)))) :
    k.Leads (Emit.op (.store .byte g m)) s Q L := by
  refine stores (f := s.flags) hm.1 (Memory.later_write hw _ _) (fun c hc next => ?_) h
  rw [← hc.word hs, ← hc.mem, ← hc.flags, ← hm.2 c hc]
  rfl

theorem storeWord (hs : s.roles r = .word g v) (hm : At s m a)
    (hw : ∀ i, i < 2 → k.Writable (a + BitVec.ofNat 64 i))
    (h : Q () (s.setMem (s.mem.write16 a (v.setWidth 16)))) :
    k.Leads (Emit.op (.store .word g m)) s Q L := by
  refine stores (f := s.flags) hm.1 (later_write16 hw _) (fun c hc next => ?_) h
  rw [← hc.word hs, ← hc.mem, ← hc.flags, ← hm.2 c hc]
  rfl

theorem storeDword (hs : s.roles r = .word g v) (hm : At s m a)
    (hw : ∀ i, i < 4 → k.Writable (a + BitVec.ofNat 64 i))
    (h : Q () (s.setMem (s.mem.write32 a (v.setWidth 32)))) :
    k.Leads (Emit.op (.store .dword g m)) s Q L := by
  refine stores (f := s.flags) hm.1 (later_write32 hw _) (fun c hc next => ?_) h
  rw [← hc.word hs, ← hc.mem, ← hc.flags, ← hm.2 c hc]
  rfl

/-- A plain operation on a byte in memory. -/
theorem aluStoreByte {o : AluOp} (hop : o.IsPlain) (hs : s.roles r = .word g v) (hm : At s m a)
    (hw : k.Writable a)
    (h : ∀ f, Q () ((s.setMem
      (s.mem.write a (o.value (s.mem.read a) (v.setWidth 8)))).setFlags f)) :
    k.Leads (Emit.op (.aluStore o .byte m g)) s Q L := by
  refine stores (f := (o.eval (s.mem.read a) (v.setWidth 8) s.flags).2) hm.1
    (Memory.later_write hw _ _) (fun c hc next => ?_) (h _)
  rw [Cpu.exec, hc.word hs, hm.2 c hc, Cpu.aluMem, Cpu.alu_plain hop, hc.mem, hc.flags]

theorem aluStoreWord {o : AluOp} (hop : o.IsPlain) (hs : s.roles r = .word g v) (hm : At s m a)
    (hw : ∀ i, i < 2 → k.Writable (a + BitVec.ofNat 64 i))
    (h : ∀ f, Q () ((s.setMem
      (s.mem.write16 a (o.value (s.mem.read16 a) (v.setWidth 16)))).setFlags f)) :
    k.Leads (Emit.op (.aluStore o .word m g)) s Q L := by
  refine stores (f := (o.eval (s.mem.read16 a) (v.setWidth 16) s.flags).2) hm.1 (later_write16 hw _)
    (fun c hc next => ?_) (h _)
  rw [Cpu.exec, hc.word hs, hm.2 c hc, Cpu.aluMem, Cpu.alu_plain hop, hc.mem, hc.flags]

theorem aluStoreDword {o : AluOp} (hop : o.IsPlain) (hs : s.roles r = .word g v) (hm : At s m a)
    (hw : ∀ i, i < 4 → k.Writable (a + BitVec.ofNat 64 i))
    (h : ∀ f, Q () ((s.setMem
      (s.mem.write32 a (o.value (s.mem.read32 a) (v.setWidth 32)))).setFlags f)) :
    k.Leads (Emit.op (.aluStore o .dword m g)) s Q L := by
  refine stores (f := (o.eval (s.mem.read32 a) (v.setWidth 32) s.flags).2) hm.1 (later_write32 hw _)
    (fun c hc next => ?_) (h _)
  rw [Cpu.exec, hc.word hs, hm.2 c hc, Cpu.aluMem, Cpu.alu_plain hop, hc.mem, hc.flags]

theorem aluStoreImmByte {o : AluOp} {imm : BitVec 32} (hop : o.IsPlain) (hm : At s m a)
    (hw : k.Writable a)
    (h : ∀ f, Q () ((s.setMem
      (s.mem.write a (o.value (s.mem.read a) (imm.setWidth 8)))).setFlags f)) :
    k.Leads (Emit.op (.aluStoreImm o .byte m imm)) s Q L := by
  refine stores (f := (o.eval (s.mem.read a) (imm.setWidth 8) s.flags).2) hm.1
    (Memory.later_write hw _ _) (fun c hc next => ?_) (h _)
  rw [Cpu.exec, hm.2 c hc, Cpu.aluMem, Cpu.alu_plain hop, hc.mem, hc.flags,
    setWidth_immediate (by decide)]

theorem aluStoreImmWord {o : AluOp} {imm : BitVec 32} (hop : o.IsPlain) (hm : At s m a)
    (hw : ∀ i, i < 2 → k.Writable (a + BitVec.ofNat 64 i))
    (h : ∀ f, Q () ((s.setMem
      (s.mem.write16 a (o.value (s.mem.read16 a) (imm.setWidth 16)))).setFlags f)) :
    k.Leads (Emit.op (.aluStoreImm o .word m imm)) s Q L := by
  refine stores (f := (o.eval (s.mem.read16 a) (imm.setWidth 16) s.flags).2) hm.1 (later_write16 hw _)
    (fun c hc next => ?_) (h _)
  rw [Cpu.exec, hm.2 c hc, Cpu.aluMem, Cpu.alu_plain hop, hc.mem, hc.flags,
    setWidth_immediate (by decide)]

/-! ### Vector registers -/

variable {x x' : Xmm} {u u' : Lanes}

theorem packed {o : PackedOp} (hd : s.roles r = .lanes x u) (hs : s.roles q = .lanes x' u')
    (h : Q () (s.set r (.lanes x (Lanes.packed o u u')))) :
    k.Leads (Emit.op (.packed o x x')) s Q L := by
  refine lanes hd rfl (fun c hc next => ?_) h
  rw [Cpu.exec, hc.lanes hd, hc.lanes hs]

theorem packedLoad {o : PackedOp} (hd : s.roles r = .lanes x u) (hm : At s m a)
    (ha : Cpu.aligned a = true) (hb : Cpu.lanesAt s.mem a = u')
    (h : Q () (s.set r (.lanes x (Lanes.packed o u u')))) :
    k.Leads (Emit.op (.packedLoad o x m)) s Q L := by
  refine lanes hd hm.1 (fun c hc next => ?_) h
  simp only [Cpu.exec, hm.2 c hc, ha, if_true, hc.lanes hd, hc.mem, hb]

theorem movdToVec (hd : s.roles r = .lanes x u) (hs : s.roles q = .word g v)
    (h : Q () (s.set r (.lanes x (Lanes.ofWord32 (v.setWidth 32))))) :
    k.Leads (Emit.op (.movdToVec x g)) s Q L := by
  refine lanes hd rfl (fun c hc next => ?_) h
  rw [Cpu.exec, Cpu.reg32, hc.word hs]

theorem movdToReg (hd : s.roles r = .word g v) (hs : s.roles q = .lanes x u)
    (h : Q () (s.set r (.word g (u.toWord32.setWidth 64)))) :
    k.Leads (Emit.op (.movdToReg g x)) s Q L := by
  refine wordKeeping hd rfl (fun c hc next => ?_) h
  rw [Cpu.exec, hc.lanes hs, Cpu.setReg32]

theorem movdLoad {b : BitVec 32} (hd : s.roles r = .lanes x u) (hm : At s m a)
    (hb : s.mem.read32 a = b) (h : Q () (s.set r (.lanes x (Lanes.ofWord32 b)))) :
    k.Leads (Emit.op (.movdLoad x m)) s Q L := by
  refine lanes hd hm.1 (fun c hc next => ?_) h
  rw [Cpu.exec, hm.2 c hc, hc.mem, hb]

theorem laneShift {o : LaneShift} {imm : BitVec 8} (hd : s.roles r = .lanes x u)
    (h : Q () (s.set r (.lanes x (Lanes.shift o u imm)))) :
    k.Leads (Emit.op (.laneShift o x imm)) s Q L := by
  refine lanes hd rfl (fun c hc next => ?_) h
  rw [Cpu.exec, hc.lanes hd]

theorem pshuflw {imm : BitVec 8} (hd : s.roles r = .lanes x u) (hs : s.roles q = .lanes x' u')
    (h : Q () (s.set r (.lanes x (u'.shuffleLow imm)))) :
    k.Leads (Emit.op (.pshuflw x x' imm)) s Q L := by
  refine lanes hd rfl (fun c hc next => ?_) h
  rw [Cpu.exec, hc.lanes hs]

theorem pextrw {i : BitVec 8} (hd : s.roles r = .word g v) (hs : s.roles q = .lanes x u)
    (h : Q () (s.set r (.word g (((u.lane (i.setWidth 3)).setWidth 32).setWidth 64)))) :
    k.Leads (Emit.op (.pextrw g x i)) s Q L := by
  refine wordKeeping hd rfl (fun c hc next => ?_) h
  rw [Cpu.exec, hc.lanes hs, Cpu.setReg32]

theorem pinsrw {i : BitVec 8} (hd : s.roles r = .lanes x u) (hs : s.roles q = .word g v)
    (h : Q () (s.set r (.lanes x (u.insertLane (i.setWidth 3) (v.setWidth 16))))) :
    k.Leads (Emit.op (.pinsrw x g i)) s Q L := by
  refine lanes hd rfl (fun c hc next => ?_) h
  rw [Cpu.exec, hc.lanes hd, Cpu.reg16, hc.word hs]

end Setting.Leads

end PixelPipeline
