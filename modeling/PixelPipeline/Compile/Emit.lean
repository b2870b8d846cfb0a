/-
# Compile.Emit — generating code step by step

A stage of the compiler is an action that asks the role table for registers
and puts code behind what is there.  `Emit` keeps the table, remembers
whether the working color is packed or widened, and joins the code of
successive actions.  An action that fails has put down some code by then,
which is kept with the reason.
-/
import PixelPipeline.Allocation.RoleTable
import PixelPipeline.Code.Tree

namespace PixelPipeline

open X86

/-- What is known about the registers at a point of the code. -/
structure Draft where
  table : RoleTable
  /-- The working color holds 16-bit lanes instead of packed bytes. -/
  wideColor : Bool

/-- The result of an action: its value, what is known after it, its code. -/
structure Emission (α : Type) where
  value : α
  draft : Draft
  code : Code

/-- Where an action failed: the reason, and the code before it. -/
structure Stopped where
  failure : Failure
  code : Code

/-- An action that generates code. -/
def Emit (α : Type) : Type := Draft → Except Stopped (Emission α)

namespace Emit

instance : Monad Emit where
  pure a d := .ok ⟨a, d, .done⟩
  bind x f d :=
    match x d with
    | .error s => .error s
    | .ok r =>
        match f r.value r.draft with
        | .error s => .error { s with code := r.code ++ s.code }
        | .ok r' => .ok ⟨r'.value, r'.draft, r.code ++ r'.code⟩

/-- Steps may be put together in any way. -/
instance : LawfulMonad Emit := by
  refine .mk' Emit (fun m => ?_) (fun a k => ?_) fun m k l => ?_
  · funext d
    simp only [Functor.map]
    cases m d with
    | error e => rfl
    | ok r =>
      exact congrArg (fun c => Except.ok (Emission.mk r.value r.draft c)) (Code.append_done r.code)
  · funext d
    simp only [Bind.bind, pure]
    cases k a d <;> rfl
  · funext d
    simp only [Bind.bind]
    cases m d with
    | error e => rfl
    | ok r =>
      simp only
      cases k r.value r.draft with
      | error e => rfl
      | ok r' =>
        simp only
        cases l r'.value r'.draft with
        | error e => simp only [Code.append_assoc]
        | ok r'' => simp only [Code.append_assoc]

/-! ## Code -/

/-- Put down code. -/
def put (c : Code) : Emit Unit := fun d => .ok ⟨(), d, c⟩

/-- One instruction. -/
def op (i : Instr) : Emit Unit := put (.instr i .done)

/-- A row of instructions. -/
def ops (is : List Instr) : Emit Unit := put (.ofInstrs is)

/-- What follows belongs to a stage. -/
def mark (s : Stage) : Emit Unit := put (.mark s .done)

/-- Go to the return. -/
def leave : Emit Unit := put (.leave .done)

/-- Go to the return if the condition holds. -/
def leaveIf (c : Cond) : Emit Unit := put (.leaveIf c .done)

/-- The code of an action, not put down but if it fails, and then behind `opening`. -/
def captured (opening : Code) (m : Emit Unit) : Emit Code := fun d =>
  match m d with
  | .error s => .error { s with code := opening ++ s.code }
  | .ok r => .ok ⟨r.code, r.draft, .done⟩

/-- Skip the body if the condition holds.  While the body is not finished the branch
around it has no target, just like one to the return. -/
def skipIf (c : Cond) (body : Emit Unit) : Emit Unit := do
  put (.skipIf c (← captured (.leaveIf c .done) body) .done)

/-- Run `yes` if the condition holds, else `no`.  While `yes` is not finished the first
branch has a target, and the jump behind `no` has none. -/
def choose (c : Cond) (no yes : Emit Unit) : Emit Unit := do
  let noCode ← captured (.leaveIf c .done) no
  let yesCode ← captured (.skipIf c (noCode ++ .leave .done) .done) yes
  put (.choose c noCode yesCode .done)

/-- Run a path that never comes back, and forget what it did to the table. -/
def diverging (path : Emit Unit) : Emit Unit := fun d =>
  match path d with
  | .error s => .error s
  | .ok r =>
      .ok { r with draft := { r.draft with table := r.draft.table.restore d.table.bindings } }

/-! ## Registers

The actions of the role table under their own names. -/

/-- The role has a register. -/
def has (r : Role) : Emit Bool := fun d => .ok ⟨d.table.has r, d, .done⟩

/-- Change the table by an action that may fail. -/
def onTable {α : Type} (action : RoleTable → Except Failure (α × RoleTable)) : Emit α := fun d =>
  match action d.table with
  | .error e => .error ⟨e, .done⟩
  | .ok (a, t) => .ok ⟨a, { d with table := t }, .done⟩

/-- Change the table. -/
def adjust (change : RoleTable → RoleTable) : Emit Unit := fun d =>
  .ok ⟨(), { d with table := change d.table }, .done⟩

def allocGen (r : Role) : Emit Reg := onTable (·.allocGen r)
def allocVec (r : Role) : Emit Xmm := onTable (·.allocVec r)
def findGen (r : Role) : Emit Reg := onTable (·.findGen r)
def findVec (r : Role) : Emit Xmm := onTable (·.findVec r)
def unlock (r : Role) : Emit Unit := adjust (·.unlock r)
def release (r : Role) : Emit Unit := adjust (·.release r)
def retain (r : Role) : Emit Unit := adjust (·.retain r)
def forceRelease (r : Role) : Emit Unit := adjust (·.forceRelease r)

/-- Give the register of one role to another. -/
def rename (old new : Role) : Emit Unit :=
  onTable fun t => (t.rename old new).map fun t => ((), t)

/-! ## The working color -/

/-- The working color holds 16-bit lanes. -/
def isWide : Emit Bool := fun d => .ok ⟨d.wideColor, d, .done⟩

/-- Record the form of the working color. -/
def setWide (wide : Bool) : Emit Unit := fun d => .ok ⟨(), { d with wideColor := wide }, .done⟩

end Emit

end PixelPipeline
