/-
# X86.Flags — condition flags and what conditions say about them

Integer operations leave a carry, a zero, a sign, an overflow and a parity
flag behind; a conditional jump tests a combination of them.
-/
import PixelPipeline.X86.Instruction

namespace PixelPipeline.X86

/-- The condition flags. -/
structure Flags where
  carry : Bool := false
  zero : Bool := false
  sign : Bool := false
  overflow : Bool := false
  parity : Bool := false
deriving DecidableEq

namespace Flags

/-- The low byte has an even number of ones. -/
def evenParity {w : Nat} (v : BitVec w) : Bool :=
  !((List.range 8).foldl (fun p i => p ^^ v.getLsbD i) false)

/-- Flags of a result, with given carry and overflow. -/
def ofResult {w : Nat} (v : BitVec w) (carry overflow : Bool) : Flags where
  carry := carry
  zero := v == 0
  sign := v.msb
  overflow := overflow
  parity := evenParity v

end Flags

/-- The condition holds. -/
def Cond.holds (c : Cond) (f : Flags) : Bool :=
  match c with
  | o => f.overflow
  | no => !f.overflow
  | b => f.carry
  | ae => !f.carry
  | e => f.zero
  | ne => !f.zero
  | be => f.carry || f.zero
  | a => !(f.carry || f.zero)
  | s => f.sign
  | ns => !f.sign
  | p => f.parity
  | np => !f.parity
  | l => f.sign != f.overflow
  | ge => f.sign == f.overflow
  | le => f.zero || f.sign != f.overflow
  | g => !(f.zero || f.sign != f.overflow)

theorem Cond.holds_invert (c : Cond) (f : Flags) : c.invert.holds f = !c.holds f := by
  rcases f with ⟨c', z, s, o, p⟩
  cases c <;> cases c' <;> cases z <;> cases s <;> cases o <;> cases p <;> rfl

/-! ## Integer operations -/

/-- Result and flags of a sum with a carry. -/
def addWith {w : Nat} (a b : BitVec w) (carry : Bool) : BitVec w × Flags :=
  let full := a.setWidth (w + 1) + b.setWidth (w + 1) + (BitVec.ofBool carry).setWidth (w + 1)
  let r := full.setWidth w
  (r, .ofResult r full.msb ((a.msb == b.msb) && (r.msb != a.msb)))

/-- Result and flags of a difference with a borrow. -/
def subWith {w : Nat} (a b : BitVec w) (borrow : Bool) : BitVec w × Flags :=
  let full := a.setWidth (w + 1) - b.setWidth (w + 1) - (BitVec.ofBool borrow).setWidth (w + 1)
  let r := full.setWidth w
  (r, .ofResult r full.msb ((a.msb != b.msb) && (r.msb != a.msb)))

/-- Result and flags of a bitwise operation. -/
def bitwise {w : Nat} (r : BitVec w) : BitVec w × Flags := (r, .ofResult r false false)

/-- Result and flags of a two-operand operation. -/
def AluOp.eval {w : Nat} (op : AluOp) (a b : BitVec w) (f : Flags) : BitVec w × Flags :=
  match op with
  | add => addWith a b false
  | or => bitwise (a ||| b)
  | adc => addWith a b f.carry
  | sbb => subWith a b f.carry
  | and => bitwise (a &&& b)
  | sub => subWith a b false
  | xor => bitwise (a ^^^ b)
  | cmp => (a, (subWith a b false).2)

/-- Result and flags of a shift by `n`, less than the width.  A shift by zero
changes no flag, a rotation only carry and overflow, and a shift by more than
one leaves the overflow flag alone. -/
def ShiftOp.eval {w : Nat} (op : ShiftOp) (a : BitVec w) (n : Nat) (f : Flags) :
    BitVec w × Flags :=
  if n = 0 then (a, f)
  else
    match op with
    | rol =>
        let r := a.rotateLeft n
        let c := r.getLsbD 0
        (r, { f with carry := c, overflow := if n = 1 then r.msb ^^ c else f.overflow })
    | ror =>
        let r := a.rotateRight n
        let c := r.msb
        (r, { f with carry := c, overflow := if n = 1 then c ^^ r.getMsbD 1 else f.overflow })
    | shl =>
        let r := a <<< n
        let c := a.getLsbD (w - n)
        (r, .ofResult r c (if n = 1 then r.msb ^^ c else f.overflow))
    | shr =>
        let r := a >>> n
        (r, .ofResult r (a.getLsbD (n - 1)) (if n = 1 then a.msb else f.overflow))
    | sar =>
        let r := a.sshiftRight n
        (r, .ofResult r (a.getLsbD (n - 1)) (if n = 1 then false else f.overflow))

/-- Result and flags of a signed product: carry and overflow say that it does
not fit. -/
def mulSigned {w : Nat} (a b : BitVec w) (f : Flags) : BitVec w × Flags :=
  let r := a * b
  let lost := r.toInt != a.toInt * b.toInt
  (r, { f with carry := lost, overflow := lost })

end PixelPipeline.X86
