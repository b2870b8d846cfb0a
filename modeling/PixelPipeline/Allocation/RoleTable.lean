/-
# Allocation.RoleTable — which register holds which role

A table binds roles to registers.  A role that is asked for is given the
lowest free register of its file.  When none is free, the binding that was
used longest ago gives up its register, if it is neither locked nor
retained and its value can be made again.  Every use is stamped by a clock
that runs on even when an earlier table is restored.  A register is free
when no role of its file is bound to it.
-/
import PixelPipeline.Allocation.RegSet
import PixelPipeline.CompileError
import PixelPipeline.X86.Register

namespace PixelPipeline

open X86

/-- A role and its register. -/
structure Binding where
  role : Role
  reg : Nat
  /-- Outstanding uses; a locked register is not taken away. -/
  locks : Nat
  /-- Released only by force. -/
  retained : Bool
  lastUse : Nat
deriving DecidableEq

/-- Bindings of roles to registers, and the registers there are. -/
structure RoleTable where
  bindings : List Binding
  general : RegSet
  vector : RegSet
  clock : Nat

/-- Remove an element; the last one takes its place. -/
def swapRemove {α : Type} (l : List α) (i : Nat) : List α :=
  match l.getLast? with
  | none => []
  | some z => if i < l.length then (l.set i z).dropLast else l

namespace RoleTable

/-- General registers that generated code may use. -/
def allocatableGeneral : RegSet := .ofList (scratchRegs.map fun r => r.num.toNat)

/-- Vector registers that generated code may use: all sixteen. -/
def allocatableVector : RegSet := ⟨0xFFFF⟩

/-- An empty table over given registers. -/
def withRegisters (general vector : RegSet) : RoleTable := ⟨[], general, vector, 0⟩

/-- An empty table over the scratch registers. -/
def fresh : RoleTable := withRegisters allocatableGeneral allocatableVector

/-! ## Views -/

/-- The binding of a role. -/
def find? (t : RoleTable) (r : Role) : Option Binding := t.bindings.find? (·.role == r)

/-- The role has a register. -/
def has (t : RoleTable) (r : Role) : Bool := (t.find? r).isSome

/-- Outstanding locks on a role, none if it is unbound. -/
def lockCount (t : RoleTable) (r : Role) : Nat := ((t.find? r).map (·.locks)).getD 0

/-- The register number of a role. -/
def regOf? (t : RoleTable) (r : Role) : Option Nat := (t.find? r).map (·.reg)

/-- The registers of a file. -/
def pool (t : RoleTable) : RegFile → RegSet
  | .general => t.general
  | .vector => t.vector

/-- The registers of a file that are bound. -/
def used (t : RoleTable) (f : RegFile) : RegSet :=
  .ofList ((t.bindings.filter (·.role.file == f)).map (·.reg))

/-! ## Changes that cannot fail -/

/-- Change the binding of a role, if there is one. -/
def update (t : RoleTable) (r : Role) (change : Binding → Binding) : RoleTable :=
  { t with bindings := t.bindings.map fun b => if b.role == r then change b else b }

/-- Drop the binding of a role, if there is one. -/
def remove (t : RoleTable) (r : Role) : RoleTable :=
  { t with bindings := swapRemove t.bindings (t.bindings.findIdx (·.role == r)) }

/-- Forget every binding. -/
def reset (t : RoleTable) : RoleTable := { t with bindings := [], clock := 0 }

/-- Append a binding, stamped with the next tick. -/
def bind (t : RoleTable) (role : Role) (reg locks : Nat) : RoleTable :=
  { t with
    bindings := t.bindings ++ [⟨role, reg, locks, false, t.clock + 1⟩]
    clock := t.clock + 1 }

/-- Bind the arguments to the registers they arrive in, and nothing else. -/
def setupArguments (t : RoleTable) : RoleTable :=
  (Role.arguments.zip argumentRegs).foldl (fun t (r, g) => t.bind r g.num.toNat 0) t.reset

/-- Drop one lock; the binding stays. -/
def unlock (t : RoleTable) (r : Role) : RoleTable :=
  t.update r fun b => { b with locks := b.locks - 1 }

/-- Drop one lock, and the binding too unless it is retained. -/
def release (t : RoleTable) (r : Role) : RoleTable :=
  match t.find? r with
  | some b => if b.retained then t.unlock r else t.remove r
  | none => t

/-- Keep a role bound until it is released by force. -/
def retain (t : RoleTable) (r : Role) : RoleTable :=
  t.update r fun b => { b with retained := true }

/-- Drop a binding whatever its locks. -/
def forceRelease (t : RoleTable) (r : Role) : RoleTable := t.remove r

/-- Return to earlier bindings; the clock runs on. -/
def restore (t : RoleTable) (saved : List Binding) : RoleTable := { t with bindings := saved }

/-! ## Lookup, allocation, renaming -/

/-- Lock the register of a bound role. -/
def find (t : RoleTable) (r : Role) : Except Failure (Nat × RoleTable) :=
  match t.find? r with
  | none => .error (.error (.unbound r))
  | some b =>
      let t' := t.update r fun b => { b with locks := b.locks + 1, lastUse := t.clock + 1 }
      .ok (b.reg, { t' with clock := t.clock + 1 })

/-- The binding gives up its register when asked to. -/
def evictable (f : RegFile) (b : Binding) : Bool :=
  b.role.file == f && b.locks == 0 && !b.retained && b.role.isReconstructible

/-- The binding used longest ago, the first of equals. -/
def earliest : List Binding → Option Binding
  | [] => none
  | b :: rest =>
      match earliest rest with
      | none => some b
      | some c => if c.lastUse < b.lastUse then some c else some b

/-- The binding that gives up its register. -/
def victim? (t : RoleTable) (f : RegFile) : Option Binding :=
  earliest (t.bindings.filter (evictable f))

/-- Give a role a register and lock it: its own if it has one, else the lowest
free one, else one taken away. -/
def alloc (t : RoleTable) (r : Role) : Except Failure (Nat × RoleTable) :=
  if t.has r then t.find r
  else
    match ((t.pool r.file).subtract (t.used r.file)).first? with
    | some reg => .ok (reg, t.bind r reg 1)
    | none =>
        match t.victim? r.file with
        | some v => .ok (v.reg, (t.remove v.role).bind r v.reg 1)
        | none => .error (.error (.outOfRegisters r))

/-- Only roles of the given file may be asked for. -/
def inFile (r : Role) (f : RegFile) (answer : Except Failure (Nat × RoleTable)) :
    Except Failure (Nat × RoleTable) :=
  if r.file = f then answer else .error (.fault .violation)

/-- Give a role a general register and lock it. -/
def allocGen (t : RoleTable) (r : Role) : Except Failure (Reg × RoleTable) :=
  (inFile r .general (t.alloc r)).map fun (n, t) => (.ofNat n, t)

/-- Give a role a vector register and lock it. -/
def allocVec (t : RoleTable) (r : Role) : Except Failure (Xmm × RoleTable) :=
  (inFile r .vector (t.alloc r)).map fun (n, t) => (.ofNat n, t)

/-- Lock the general register of a role. -/
def findGen (t : RoleTable) (r : Role) : Except Failure (Reg × RoleTable) :=
  (inFile r .general (t.find r)).map fun (n, t) => (.ofNat n, t)

/-- Lock the vector register of a role. -/
def findVec (t : RoleTable) (r : Role) : Except Failure (Xmm × RoleTable) :=
  (inFile r .vector (t.find r)).map fun (n, t) => (.ofNat n, t)

/-- Give the register of one role to another that has none; locks stay. -/
def rename (t : RoleTable) (old new : Role) : Except Failure RoleTable :=
  if old.file ≠ new.file ∨ t.has new then .error (.fault .violation)
  else if t.has old then
    let t' := t.update old fun b => { b with role := new, lastUse := t.clock + 1 }
    .ok { t' with clock := t.clock + 1 }
  else .error (.error (.unbound old))

end RoleTable

end PixelPipeline
