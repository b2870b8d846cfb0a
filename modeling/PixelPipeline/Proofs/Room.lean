/-
# Proofs.Room — how long code can be

The length of code does not depend on what it does: branches have one length,
and no instruction has more than thirteen bytes.  `Code.room` adds that up,
position by position, and `Code.stop_le` says that no code is longer.

Code has no return of its own (`Code.returns`): the one return of a function is
put behind it.
-/
import PixelPipeline.Code.Layout
import PixelPipeline.Proofs.Decoding
import PixelPipeline.Proofs.Padding

namespace PixelPipeline

open X86

namespace Code

/-- Room for the bodies of a selection, their jumps and their entries. -/
def bodiesRoom : List (Option (List Instr)) → Nat
  | [] => 0
  | some is :: rest => 13 * is.length + 13 + bodiesRoom rest
  | none :: rest => 13 + bodiesRoom rest

/-- Room for code wherever it is placed. -/
def room : Code → Nat
  | done => 0
  | instr _ next => 13 + next.room
  | mark _ next => next.room
  | leave next => jumpSize + next.room
  | leaveIf _ next => jumpIfSize + next.room
  | skipIf _ body next => jumpIfSize + body.room + next.room
  | choose _ no yes next => jumpIfSize + jumpSize + no.room + yes.room + next.room
  | select _ _ bodies next =>
      jumpSize + bodiesRoom bodies + 7 + 26 + next.room

theorem room_append (a b : Code) : (a ++ b).room = a.room + b.room := by
  show (a.append b).room = _
  induction a with
  | done => exact (Nat.zero_add _).symm
  | _ => simp_all only [append, room, Nat.add_assoc]

theorem room_ofInstrs (is : List Instr) : (ofInstrs is).room = 13 * is.length := by
  induction is with
  | nil => rfl
  | cons i rest ih =>
    show 13 + (ofInstrs rest).room = _
    rw [ih, List.length_cons, Nat.mul_succ, Nat.add_comm]

theorem rowSize_le (is : List Instr) : rowSize is ≤ 13 * is.length := by
  induction is with
  | nil => exact Nat.le_refl 0
  | cons i rest ih =>
    have hi := i.size_le
    simp only [rowSize, List.length_cons]
    omega

theorem bodiesSize_le (bodies : List (Option (List Instr))) :
    bodiesSize bodies + 8 * bodies.length ≤ bodiesRoom bodies := by
  induction bodies with
  | nil => exact Nat.le_refl 0
  | cons b rest ih =>
    cases b with
    | none =>
      simp only [bodiesSize, bodySize, bodiesRoom, jumpSize, List.length_cons]
      omega
    | some is =>
      have := rowSize_le is
      simp only [bodiesSize, bodySize, bodiesRoom, jumpSize, List.length_cons]
      omega

theorem selectEnd_le (pos : Nat) (table index : Reg) (bodies : List (Option (List Instr))) :
    selectEnd pos table index bodies ≤
      pos + (jumpSize + bodiesRoom bodies + 7 + 26) := by
  have hb := bodiesSize_le bodies
  have hd := (@Padding.distance_spec 3 8 rfl (by decide)
    (pos + jumpSize + bodiesSize bodies)).1
  have hl := (Instr.leaRip table 0).size_le
  have hj := (tableJump table index).size_le
  simp only [selectEnd, dispatchStart, tableStart] at *
  omega

/-- Code is no longer than its room. -/
theorem stop_le (c : Code) (pos : Nat) : c.stop pos ≤ pos + c.room := by
  induction c generalizing pos with
  | done => exact Nat.le_refl pos
  | instr i next ih =>
    have hi := i.size_le
    have := ih (pos + i.size)
    simp only [stop, room] at *
    omega
  | mark s next ih => exact ih pos
  | leave next ih =>
    have := ih (pos + jumpSize)
    simp only [stop, room] at *
    omega
  | leaveIf c next ih =>
    have := ih (pos + jumpIfSize)
    simp only [stop, room] at *
    omega
  | skipIf c body next ihBody ih =>
    have := ihBody (pos + jumpIfSize)
    have := ih (body.stop (pos + jumpIfSize))
    simp only [stop, room] at *
    omega
  | choose c no yes next ihNo ihYes ih =>
    have := ihNo (pos + jumpIfSize)
    have := ihYes (no.stop (pos + jumpIfSize) + jumpSize)
    have := ih (yes.stop (no.stop (pos + jumpIfSize) + jumpSize))
    simp only [stop, room] at *
    omega
  | select table index bodies next ih =>
    have := selectEnd_le pos table index bodies
    have := ih (selectEnd pos table index bodies)
    simp only [stop, room] at *
    omega

end Code

/-! ## Returns -/

/-- The instruction is a return. -/
def X86.Instr.isReturn : Instr → Bool
  | .ret => true
  | _ => false

namespace Code

/-- There is a return in the code. -/
def returns : Code → Bool
  | done => false
  | instr i next => i.isReturn || next.returns
  | mark _ next => next.returns
  | leave next => next.returns
  | leaveIf _ next => next.returns
  | skipIf _ body next => body.returns || next.returns
  | choose _ no yes next => no.returns || yes.returns || next.returns
  | select _ _ bodies next => bodies.any (·.any (·.any (·.isReturn))) || next.returns

theorem returns_append (a b : Code) : (a ++ b).returns = (a.returns || b.returns) := by
  show (a.append b).returns = _
  induction a with
  | done => rfl
  | _ => simp_all only [append, returns, Bool.or_assoc]

theorem returns_ofInstrs (is : List Instr) : (ofInstrs is).returns = is.any (·.isReturn) := by
  induction is with
  | nil => rfl
  | cons i rest ih =>
    rw [List.any_cons, ← ih]
    rfl

end Code

end PixelPipeline
