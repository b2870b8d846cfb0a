/-
# Allocation.Session — a table under a sequence of requests

A session is a table with the bindings saved so far.  Saved bindings can be
restored any number of times.  A request that fails leaves the session as
it was.
-/
import PixelPipeline.Allocation.RoleTable

namespace PixelPipeline

open X86

namespace Allocation

/-- A request to a table. -/
inductive Request where
  | setupArguments
  | reset
  | allocGen (r : Role)
  | allocVec (r : Role)
  | findGen (r : Role)
  | findVec (r : Role)
  | unlock (r : Role)
  | release (r : Role)
  | retain (r : Role)
  | forceRelease (r : Role)
  | rename (old new : Role)
  | checkpoint
  | restore (index : Nat)

/-- What a request answers. -/
inductive Answer where
  | done
  | renamed
  | general (r : Reg)
  | vector (x : Xmm)
  | saved (index : Nat)

/-- A table and the bindings saved so far, oldest first. -/
structure Session where
  table : RoleTable
  saved : List (List Binding) := []

namespace Session

/-- Keep the session and change its table. -/
def withTable (s : Session) (t : RoleTable) : Session := { s with table := t }

/-- Answer a request. -/
def answer (s : Session) : Request → Except Failure (Answer × Session)
  | .setupArguments => .ok (.done, s.withTable s.table.setupArguments)
  | .reset => .ok (.done, s.withTable s.table.reset)
  | .allocGen r => (s.table.allocGen r).map fun (g, t) => (.general g, s.withTable t)
  | .allocVec r => (s.table.allocVec r).map fun (x, t) => (.vector x, s.withTable t)
  | .findGen r => (s.table.findGen r).map fun (g, t) => (.general g, s.withTable t)
  | .findVec r => (s.table.findVec r).map fun (x, t) => (.vector x, s.withTable t)
  | .unlock r => .ok (.done, s.withTable (s.table.unlock r))
  | .release r => .ok (.done, s.withTable (s.table.release r))
  | .retain r => .ok (.done, s.withTable (s.table.retain r))
  | .forceRelease r => .ok (.done, s.withTable (s.table.forceRelease r))
  | .rename old new => (s.table.rename old new).map fun t => (.renamed, s.withTable t)
  | .checkpoint => .ok (.saved s.saved.length, { s with saved := s.saved ++ [s.table.bindings] })
  | .restore i =>
      match s.saved[i]? with
      | some bindings => .ok (.done, s.withTable (s.table.restore bindings))
      | none => .error (.fault .violation)

/-- The session after a request. -/
def step (s : Session) (r : Request) : Session :=
  match s.answer r with
  | .ok (_, s') => s'
  | .error _ => s

/-- The session after a sequence of requests. -/
def run (s : Session) (rs : List Request) : Session := rs.foldl step s

end Session

end Allocation

end PixelPipeline
