/-
# Proofs.Routines — conversions carried out

A conversion is a routine of its own: it lies anywhere in memory and works on any
three registers, none of them twice.  What its row does to three values
(`Conversion.Turns`) is what the machine does to the registers that hold them,
and it does nothing else.
-/
import PixelPipeline.ConversionCall
import PixelPipeline.Proofs.Conversions
import PixelPipeline.Proofs.Running

namespace PixelPipeline

open X86

/-! ## Code in memory -/

namespace X86

/-- A block holds its bytes, wherever it ends before the end of memory. -/
theorem Block.laidOver_holds (m : Memory) (a : Address) {bs : List Byte}
    (h : a.toNat + bs.length ≤ 2 ^ 64) :
    (Block.laidOver ⟨a.toNat, bs.toArray⟩ m).Holds a bs := by
  intro i b hb
  have hi : i < bs.length := (List.getElem?_eq_some_iff.mp hb).1
  have haddr : (a + BitVec.ofNat 64 i).toNat = a.toNat + i := by
    rw [BitVec.toNat_add, BitVec.toNat_ofNat, Nat.mod_eq_of_lt (show i < 2 ^ 64 by omega),
      Nat.mod_eq_of_lt (by omega)]
  show ((Block.at? ⟨a.toNat, bs.toArray⟩ (a + BitVec.ofNat 64 i).toNat).getD _) = b
  rw [Block.at?, haddr, if_pos (Nat.le_add_right _ _), Nat.add_sub_cancel_left,
    List.getElem?_toArray, hb]
  rfl

/-- At an instruction that lies in memory the machine carries it out. -/
theorem Machine.step_of_holds {i : Instr} {bs : List Byte} {c : Cpu} {a : Address}
    (hi : i.encodable = true) (h : c.mem.Holds a (i.bytes ++ bs)) :
    Machine.step ⟨c, a⟩ = perform c (a + BitVec.ofNat 64 i.size) i := by
  have hres : Chunk.Resident (fun _ => False) a 0 [.instr i, .data bs] c.mem := by
    intro j b hb
    rw [Nat.zero_add]
    exact ⟨h j b (by simpa [Chunk.code, Chunk.bytes] using hb), id⟩
  have hstep := (hres.step hi).2
  rwa [show a + BitVec.ofNat 64 0 = a from BitVec.add_zero a, Nat.zero_add] at hstep

/-- A run goes on from where it came to. -/
theorem Machine.run_add {n : Nat} {m m' : Machine} (h : run n m = .running m') (fuel : Nat) :
    run (n + fuel) m = run fuel m' := by
  induction n generalizing m with
  | zero =>
    cases h
    rw [Nat.zero_add]
  | succ n ih =>
    rw [run] at h
    rw [Nat.add_right_comm, run]
    split at h
    · exact ih h
    · rename_i hstep
      exact absurd h (hstep m')

/-- Three registers hold values, and everything else but the flags is as it was. -/
structure Cpu.Works (c : Cpu) (g : Fin 3 → Reg) (v : Fin 3 → BitVec 64) (c' : Cpu) : Prop where
  regs : ∀ i, c'.reg (g i) = v i
  others : ∀ r, (∀ i, r ≠ g i) → c'.reg r = c.reg r
  vector : c'.vector = c.vector
  mem : c'.mem = c.mem

theorem Cpu.works_self (c : Cpu) (g : Fin 3 → Reg) : c.Works g (fun i => c.reg (g i)) c :=
  ⟨fun _ => rfl, fun _ _ => rfl, rfl, rfl⟩

variable {g : Fin 3 → Reg} {v : Fin 3 → BitVec 64} {c c' : Cpu}

theorem Cpu.Works.set (h : c.Works g v c') (hg : Function.Injective g) (i : Fin 3)
    (x : BitVec 32) (f : Flags) :
    c.Works g (put v i x) ((c'.setReg (g i) (x.setWidth 64)).setFlags f) := by
  refine ⟨fun j => ?_, fun r hr => ?_, h.vector, h.mem⟩
  · rw [reg_setFlags, reg_setReg]
    by_cases hj : j = i
    · rw [if_pos (congrArg g hj), hj, put_self]
    · rw [if_neg fun e => hj (hg e), put_ne v hj, h.regs]
  · rw [reg_setFlags, reg_setReg, if_neg (hr i)]
    exact h.others r hr

end X86

namespace Conversion

/-! ## Rows -/

section

variable {g : Fin 3 → Reg} {v v' : Fin 3 → BitVec 64} {is : List Instr} {c c₁ c₂ : Cpu}
  {a : Address}

/-- The machine runs on behind an instruction that leaves memory alone. -/
theorem run_cons {i : Instr} (hi : i.encodable = true)
    (hcode : c₁.mem.Holds a (Code.rowBytes (i :: is)))
    (hexec : c₁.exec (a + BitVec.ofNat 64 i.size) i = some c₂) (hmem : c₂.mem = c₁.mem)
    (ih : ∀ {b}, c₂.mem.Holds b (Code.rowBytes is) →
      ∃ c₃, Machine.run is.length ⟨c₂, b⟩ = .running ⟨c₃, b + BitVec.ofNat 64 (Code.rowSize is)⟩ ∧
        c.Works g v c₃) :
    ∃ c₃, Machine.run (i :: is).length ⟨c₁, a⟩ =
      .running ⟨c₃, a + BitVec.ofNat 64 (Code.rowSize (i :: is))⟩ ∧ c.Works g v c₃ := by
  have hsplit : Code.rowBytes (i :: is) = i.bytes ++ Code.rowBytes is := rfl
  rw [hsplit] at hcode
  obtain ⟨c₃, hrun, hworks⟩ := ih (hmem ▸ hcode.right)
  refine ⟨c₃, ?_, hworks⟩
  rw [List.length_cons, Machine.run, Machine.step_of_holds hi hcode,
    Machine.perform_of_exec hexec]
  rw [BitVec.add_assoc, ← BitVec.ofNat_add] at hrun
  exact hrun

/-- The machine runs through a row, and leaves the values that the row leaves. -/
theorem Turns.run (hg : Function.Injective g) (ht : Turns g is v v') (h : c.Works g v c₁)
    (hcode : c₁.mem.Holds a (Code.rowBytes is)) :
    ∃ c₂, Machine.run is.length ⟨c₁, a⟩ = .running ⟨c₂, a + BitVec.ofNat 64 (Code.rowSize is)⟩ ∧
      c.Works g v' c₂ := by
  induction ht generalizing a c₁ with
  | nil => exact ⟨c₁, congrArg (fun b => Outcome.running ⟨c₁, b⟩) (BitVec.add_zero a).symm, h⟩
  | mov i j _ ih =>
    refine run_cons rfl hcode rfl rfl (ih ?_)
    rw [← h.regs j]
    exact h.set hg i _ c₁.flags
  | and i _ ih =>
    have hplain : AluOp.IsPlain .and := trivial
    refine run_cons rfl hcode (congrArg some (Cpu.aluReg_plain hplain _ _ _)) rfl (ih ?_)
    rw [setWidth_immediate (by decide), BitVec.setWidth_eq, Cpu.reg32, h.regs i]
    exact h.set hg i _ _
  | or i j _ ih =>
    have hplain : AluOp.IsPlain .or := trivial
    refine run_cons rfl hcode (congrArg some (Cpu.aluReg_plain hplain _ _ _)) rfl (ih ?_)
    rw [Cpu.reg32, h.regs i, h.regs j]
    exact h.set hg i _ _
  | @shift is v v' op n i hz _ ih =>
    refine run_cons rfl hcode rfl rfl (ih ?_)
    rw [← h.regs i, ← ShiftOp.eval_value op _ hz c₁.flags]
    exact h.set hg i _ _

end

/-! ## Routines -/

/-- Wherever a routine lies in memory, the machine runs through it and leaves a word
in one register, with zeros above it.  Two others are used up, and nothing else
changes but the flags. -/
def Leaves (color t₁ t₂ : Reg) (routine : List Instr) (c : Cpu) (w : BitVec 32) : Prop :=
  ∀ entry, c.mem.Holds entry (Code.rowBytes routine) → ∃ c',
    Machine.run routine.length ⟨c, entry⟩ =
      .running ⟨c', entry + BitVec.ofNat 64 (Code.rowSize routine)⟩ ∧
    c'.reg color = w.setWidth 64 ∧
    (∀ r, r ≠ color → r ≠ t₁ → r ≠ t₂ → c'.reg r = c.reg r) ∧
    c'.vector = c.vector ∧ c'.mem = c.mem

theorem leaves_of_turns {color t₁ t₂ : Reg} (h₁ : color ≠ t₁) (h₂ : color ≠ t₂) (h₁₂ : t₁ ≠ t₂)
    {routine : List Instr} {c : Cpu} {w : BitVec 32} {v' : Fin 3 → BitVec 64}
    (ht : Turns (triple color t₁ t₂) routine (fun i => c.reg (triple color t₁ t₂ i)) v')
    (hv : v' 0 = w.setWidth 64) : Leaves color t₁ t₂ routine c w := by
  intro entry hcode
  obtain ⟨c', hrun, hworks⟩ := ht.run (triple_injective h₁ h₂ h₁₂) (c.works_self _) hcode
  refine ⟨c', hrun, (hworks.regs 0).trans hv, fun r h h' h'' => ?_, hworks.vector, hworks.mem⟩
  apply hworks.others
  intro i
  match i with
  | 0 => exact h
  | 1 => exact h'
  | 2 => exact h''

/-- The bits of a word above a 16-bit pixel do not matter to what it widens to. -/
theorem widen_pixel {f : PixelFormat} (hf : f ≠ .rgba8888) (p : BitVec 32) (keepAlpha : Bool) :
    f.widen (p &&& 0xFFFF) keepAlpha = f.widen p keepAlpha := by
  cases f with
  | rgba8888 => exact absurd rfl hf
  | _ =>
    simp only [PixelFormat.widen, PixelFormat.widenRGB, PixelFormat.widenAlpha,
      BitVec.ushiftRight_and_distrib, BitVec.and_assoc]
    rfl

section

variable {f : PixelFormat} (hf : f ≠ .rgba8888) (keepAlpha : Bool) {color t₁ t₂ : Reg}
  (h₁ : color ≠ t₁) (h₂ : color ≠ t₂) (h₁₂ : t₁ ≠ t₂) (c : Cpu)

include hf h₁ h₂ h₁₂

theorem narrow_leaves : Leaves color t₁ t₂ (narrow f color t₁ t₂ keepAlpha) c
    (narrowed f (c.reg32 color) keepAlpha) := by
  obtain ⟨v, hturns, hv⟩ := narrow_turns (g := triple color t₁ t₂)
    (v := fun i => c.reg (triple color t₁ t₂ i)) rfl hf keepAlpha
  exact leaves_of_turns h₁ h₂ h₁₂ hturns hv

theorem widen_leaves : Leaves color t₁ t₂ (widen f color t₁ t₂ keepAlpha) c
    (f.widen (c.reg32 color) keepAlpha) := by
  obtain ⟨v, hturns, hv⟩ := widen_turns (g := triple color t₁ t₂)
    (v := fun i => c.reg (triple color t₁ t₂ i)) rfl keepAlpha hf
  exact leaves_of_turns h₁ h₂ h₁₂ hturns hv

end

/-- Each routine leaves in the color's register what the conversion of its low half is,
without stencil bits where a narrowed color keeps no alpha.  Of a pixel that is
widened only the low sixteen bits count. -/
theorem routines_exact {f : PixelFormat} (hf : f.bytesPerPixel = 2) (keepAlpha : Bool)
    {color t₁ t₂ : Reg} (h₁ : color ≠ t₁) (h₂ : color ≠ t₂) (h₁₂ : t₁ ≠ t₂) (c : Cpu) :
    Leaves color t₁ t₂ (narrow f color t₁ t₂ keepAlpha) c
      (if keepAlpha then f.narrow (c.reg32 color)
        else f.narrow (c.reg32 color) &&& ~~~f.stencilBits) ∧
    Leaves color t₁ t₂ (widen f color t₁ t₂ keepAlpha) c (f.widen (c.reg32 color) keepAlpha) ∧
    f.widen (c.reg32 color &&& 0xFFFF) keepAlpha = f.widen (c.reg32 color) keepAlpha := by
  have hne : f ≠ .rgba8888 := by
    rintro rfl
    cases hf
  have hnarrow := narrow_leaves hne keepAlpha h₁ h₂ h₁₂ c
  simp only [narrowed, hne, or_false] at hnarrow
  exact ⟨hnarrow, widen_leaves hne keepAlpha h₁ h₂ h₁₂ c, widen_pixel hne _ keepAlpha⟩

/-- Two routines one behind the other, the color in `r12` and the stack pointer among the
registers they use up. -/
theorem routines_exact_r12 :
    let narrowing := narrow .rgba5551 .r12 .rsp .r8 true
    let widening := widen .rgba5551 .r12 .rsp .r8 true
    let code := Code.rowBytes narrowing ++ Code.rowBytes widening
    let c := (Cpu.reset (Block.laidOver ⟨0x1000, code.toArray⟩ (Block.memory []))).setReg .r12
      0xFFFFFFFF80402010
    (∃ c', Machine.run narrowing.length ⟨c, 0x1000⟩ =
        .running ⟨c', 0x1000 + BitVec.ofNat 64 (Code.rowSize narrowing)⟩ ∧
      c'.reg .r12 = 0xA082 ∧ c'.reg .rbx = 0 ∧ c'.mem = c.mem) ∧
    ∃ c', Machine.run widening.length
        ⟨c, 0x1000 + BitVec.ofNat 64 (Code.rowBytes narrowing).length⟩ =
        .running ⟨c', 0x1000 + BitVec.ofNat 64 (Code.rowBytes narrowing).length +
          BitVec.ofNat 64 (Code.rowSize widening)⟩ ∧
      c'.reg .r12 = 0x00420084 ∧ c'.reg .rbx = 0 ∧ c'.mem = c.mem := by
  intro narrowing widening code c
  have hcolor : c.reg32 .r12 = 0x80402010 := by
    show (Cpu.reg (Cpu.setReg _ _ _) _).setWidth 32 = _
    rw [Cpu.reg_setReg_self]
    rfl
  have hcode : c.mem.Holds 0x1000 code := Block.laidOver_holds (Block.memory []) 0x1000 (by decide +kernel)
  have h₁ : Reg.r12 ≠ .rsp := by decide
  have h₂ : Reg.r12 ≠ .r8 := by decide
  have h₁₂ : Reg.rsp ≠ .r8 := by decide
  obtain ⟨hnarrow, hwiden, -⟩ := routines_exact (f := .rgba5551) rfl true h₁ h₂ h₁₂ c
  rw [hcolor] at hnarrow hwiden
  obtain ⟨c₁, hrun₁, hreg₁, hothers₁, -, hmem₁⟩ := hnarrow 0x1000 hcode.left
  obtain ⟨c₂, hrun₂, hreg₂, hothers₂, -, hmem₂⟩ := hwiden _ hcode.right
  exact ⟨⟨c₁, hrun₁, hreg₁, hothers₁ .rbx (by decide) (by decide) (by decide), hmem₁⟩,
    c₂, hrun₂, hreg₂, hothers₂ .rbx (by decide) (by decide) (by decide), hmem₂⟩

/-! ## Calls -/

/-- A routine that is called returns. -/
theorem result?_of_leaves (t₁ t₂ : Reg) {routine : List Instr} {color w : BitVec 32}
    (hsize : (Code.rowBytes (routine ++ [Instr.ret])).length ≤ 2 ^ 32)
    (h : ∀ c : Cpu, c.reg32 .rax = color → Leaves .rax t₁ t₂ routine c w) :
    result? routine color = some w := by
  let c := (Cpu.reset (Block.memory [])).setReg32 .rax color
  let m := Block.laidOver ⟨routineBase.toNat, (Code.rowBytes (routine ++ [.ret])).toArray⟩ c.mem
  have hcode : m.Holds routineBase (Code.rowBytes routine ++ Instr.ret.bytes) := by
    have hsplit : Code.rowBytes (routine ++ [.ret]) = Code.rowBytes routine ++ Instr.ret.bytes := by
      rw [Code.rowBytes, List.flatMap_append, List.flatMap_singleton]
      rfl
    rw [← hsplit]
    exact Block.laidOver_holds c.mem routineBase (Nat.le_trans (Nat.add_le_add_left hsize _) (by decide))
  have hcolor : (c.setMem m).reg32 .rax = color := by
    show ((Cpu.setReg _ _ _).reg _).setWidth 32 = _
    rw [Cpu.reg_setReg_self, low_widened]
  obtain ⟨c', hrun, hreg, -, -, hmem⟩ := h (c.setMem m) hcolor routineBase hcode.left
  have hret : Machine.step ⟨c', routineBase + BitVec.ofNat 64 (Code.rowSize routine)⟩ = .returned c' := by
    have hlast : c'.mem.Holds (routineBase + BitVec.ofNat 64 (Code.rowSize routine))
        (Instr.ret.bytes ++ []) := by
      rw [hmem, ← Code.length_rowBytes, List.append_nil]
      exact hcode.right
    exact Machine.step_of_holds (i := .ret) rfl hlast
  have hcall : Machine.callRow routine routineBase c = some c' := by
    show Machine.call (routine.length + 1) routineBase (c.setMem m) = _
    rw [Machine.call, Machine.run_add hrun, Machine.run, hret]
  show (Machine.callRow routine routineBase c).map (·.reg32 .rax) = _
  rw [hcall, Option.map_some, Cpu.reg32, hreg, low_widened]

theorem narrowed?_eq {f : PixelFormat} (hf : f ≠ .rgba8888) (keepAlpha : Bool) (color : BitVec 32) :
    narrowed? f keepAlpha color = some (narrowed f color keepAlpha) := by
  refine result?_of_leaves .rcx .rdx
    (by cases f <;> cases keepAlpha <;> decide +kernel) fun c hc => ?_
  rw [← hc]
  exact narrow_leaves hf keepAlpha (by decide) (by decide) (by decide) c

theorem widened?_eq {f : PixelFormat} (hf : f ≠ .rgba8888) (keepAlpha : Bool) (pixel : BitVec 32) :
    widened? f keepAlpha pixel = some (f.widen pixel keepAlpha) := by
  refine result?_of_leaves .rcx .rdx
    (by cases f <;> cases keepAlpha <;> decide +kernel) fun c hc => ?_
  rw [← hc]
  exact widen_leaves hf keepAlpha (by decide) (by decide) (by decide) c

end Conversion

end PixelPipeline
