/-
# X86.Register — the registers of the machine

General and vector registers are known by their four-bit numbers, as the
encoding knows them: the low three bits go into an operand byte and the
high bit into a prefix.
-/
import PixelPipeline.Named

namespace PixelPipeline.X86

/-- A general register. -/
structure Reg where
  num : BitVec 4
deriving DecidableEq

namespace Reg

def rax : Reg := ⟨0⟩
def rcx : Reg := ⟨1⟩
def rdx : Reg := ⟨2⟩
def rbx : Reg := ⟨3⟩
def rsp : Reg := ⟨4⟩
def rbp : Reg := ⟨5⟩
def rsi : Reg := ⟨6⟩
def rdi : Reg := ⟨7⟩
def r8 : Reg := ⟨8⟩
def r9 : Reg := ⟨9⟩
def r10 : Reg := ⟨10⟩
def r11 : Reg := ⟨11⟩
def r12 : Reg := ⟨12⟩
def r13 : Reg := ⟨13⟩
def r14 : Reg := ⟨14⟩
def r15 : Reg := ⟨15⟩

/-- The register with a number, taken modulo sixteen. -/
def ofNat (n : Nat) : Reg := ⟨BitVec.ofNat 4 n⟩

/-- The low three bits of the number. -/
def low (r : Reg) : BitVec 3 := r.num.setWidth 3

/-- The high bit of the number, set for `r8` to `r15`. -/
def high (r : Reg) : Bool := r.num.msb

end Reg

instance : Named Reg where
  members :=
    [.rax, .rcx, .rdx, .rbx, .rsp, .rbp, .rsi, .rdi, .r8, .r9, .r10, .r11, .r12, .r13, .r14, .r15]
  spelling r :=
    ["Rax", "Rcx", "Rdx", "Rbx", "Rsp", "Rbp", "Rsi", "Rdi",
     "R8", "R9", "R10", "R11", "R12", "R13", "R14", "R15"].getD r.num.toNat ""
  mem_members := by rintro ⟨n⟩; revert n; decide

/-- A vector register. -/
structure Xmm where
  num : BitVec 4
deriving DecidableEq

namespace Xmm

/-- The register with a number, taken modulo sixteen. -/
def ofNat (n : Nat) : Xmm := ⟨BitVec.ofNat 4 n⟩

/-- The low three bits of the number. -/
def low (x : Xmm) : BitVec 3 := x.num.setWidth 3

end Xmm

instance : Named Xmm where
  members := (List.range 16).map Xmm.ofNat
  spelling x := "Xmm" ++ toString x.num.toNat
  mem_members := by rintro ⟨n⟩; revert n; decide

/-! ## Calling convention -/

/-- Registers of the six arguments, in order. -/
def argumentRegs : List Reg := [.rdi, .rsi, .rdx, .rcx, .r8, .r9]

/-- General registers that a function may change without saving them. -/
def scratchRegs : List Reg := [.rax, .rcx, .rdx, .rsi, .rdi, .r8, .r9, .r10, .r11]

end PixelPipeline.X86
