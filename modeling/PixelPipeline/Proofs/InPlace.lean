/-
# Proofs.InPlace — failures that leave no trace

`RoleTable` answers a request with a new table, so that a request which fails has
none to give.  A table in memory is changed as the work goes on, and what was
written before a failure stays written.  Here finding, allocating and renaming are
programs that change a table in place, tick by tick and binding by binding; they
answer as the functions on tables do, and when they fail the table is the one they
were given.
-/
import PixelPipeline.Allocation.RoleTable

namespace PixelPipeline

namespace RoleTable

/-- Changes to a table, one after the other; those made before a failure stay. -/
abbrev InPlace (α : Type) := ExceptT Failure (StateM RoleTable) α

namespace InPlace

/-- Let the clock tick. -/
def tick : InPlace Nat := do
  modify fun t => { t with clock := t.clock + 1 }
  return (← get).clock

/-- Lock the register of a bound role. -/
def find (r : Role) : InPlace Nat := do
  match (← get).find? r with
  | none => throw (.error (.unbound r))
  | some b =>
      let now ← tick
      modify (·.update r fun b => { b with locks := b.locks + 1, lastUse := now })
      return b.reg

/-- The lowest free register, or one taken away. -/
def vacate (r : Role) : InPlace Nat := do
  let t ← get
  match ((t.pool r.file).subtract (t.used r.file)).first? with
  | some reg => return reg
  | none =>
      match t.victim? r.file with
      | none => throw (.error (.outOfRegisters r))
      | some v =>
          modify (·.remove v.role)
          return v.reg

/-- Give a role a register and lock it. -/
def alloc (r : Role) : InPlace Nat := do
  if (← get).has r then find r
  else
    let reg ← vacate r
    let now ← tick
    modify fun t => { t with bindings := t.bindings ++ [⟨r, reg, 1, false, now⟩] }
    return reg

/-- Give the register of one role to another that has none. -/
def rename (old new : Role) : InPlace Unit := do
  if old.file ≠ new.file ∨ (← get).has new then throw (.fault .violation)
  if (← get).has old then
    let now ← tick
    modify (·.update old fun b => { b with role := new, lastUse := now })
  else throw (.error (.unbound old))

end InPlace

/-- An answer with the table that is there afterwards: the old one after a failure. -/
def settle {α : Type} (t : RoleTable) : Except Failure (α × RoleTable) → Except Failure α × RoleTable
  | .ok (a, t') => (.ok a, t')
  | .error e => (.error e, t)

section Runs

variable {α β : Type}

theorem run_bind (x : InPlace α) (f : α → InPlace β) (t : RoleTable) :
    (x >>= f).run t = match x.run t with
      | (.ok a, t') => (f a).run t'
      | (.error e, t') => (.error e, t') := by
  show ExceptT.bindCont f (x.run t).1 (x.run t).2 = _
  rcases x.run t with ⟨_ | _, _⟩ <;> rfl

theorem run_tick (t : RoleTable) :
    InPlace.tick.run t = (.ok (t.clock + 1), { t with clock := t.clock + 1 }) := rfl

theorem run_get (t : RoleTable) : (get : InPlace RoleTable).run t = (.ok t, t) := rfl

theorem run_modify (f : RoleTable → RoleTable) (t : RoleTable) :
    (modify f : InPlace Unit).run t = (.ok (), f t) := rfl

theorem run_pure (a : α) (t : RoleTable) : (pure a : InPlace α).run t = (.ok a, t) := rfl

theorem run_throw (e : Failure) (t : RoleTable) :
    (throw e : InPlace α).run t = (.error e, t) := rfl

end Runs

/-- Nothing has been changed when finding fails. -/
theorem run_find (t : RoleTable) (r : Role) : (InPlace.find r).run t = t.settle (t.find r) := by
  unfold RoleTable.find InPlace.find
  rw [run_bind, run_get]
  cases hfind : t.find? r with
  | none => simp only [hfind, run_throw, settle]
  | some b => simp only [hfind, run_bind, run_tick, run_modify, run_pure, settle, update]

/-- Nothing has been changed when there is no register for a role. -/
theorem run_alloc (t : RoleTable) (r : Role) : (InPlace.alloc r).run t = t.settle (t.alloc r) := by
  unfold RoleTable.alloc InPlace.alloc
  rw [run_bind, run_get]
  by_cases hhas : t.has r
  · simp only [if_pos hhas]
    exact run_find t r
  · simp only [if_neg hhas, InPlace.vacate, run_bind, run_get]
    cases hfree : ((t.pool r.file).subtract (t.used r.file)).first? with
    | some reg => simp only [run_pure, run_tick, run_modify, settle, bind]
    | none =>
      cases hv : t.victim? r.file with
      | none => simp only [run_throw, settle]
      | some v => simp only [run_pure, run_bind, run_tick, run_modify, settle, bind, remove]

/-- Nothing has been changed when a role cannot be renamed. -/
theorem run_rename (t : RoleTable) (old new : Role) :
    (InPlace.rename old new).run t = t.settle ((t.rename old new).map fun t' => ((), t')) := by
  unfold RoleTable.rename InPlace.rename
  rw [run_bind, run_get]
  by_cases hbad : old.file ≠ new.file ∨ t.has new
  · simp only [if_pos hbad, run_bind, run_throw, Except.map, settle]
  · simp only [if_neg hbad, run_bind, run_get]
    by_cases hhas : t.has old
    · simp only [if_pos hhas, run_bind, run_tick, run_modify, Except.map, settle, update]
    · simp only [if_neg hhas, run_throw, Except.map, settle]

end RoleTable

end PixelPipeline
