/-
# Proofs.Unmarked — code without the marks of its stages

Marks say to which stage code belongs and put down no bytes.  Code is the same but for its
marks if it is the same without them (`Code.unmarked`), and then it lies in the same bytes
wherever it is put.  An action without the marks in its code (`Emit.unmarked`) is one step
after another as before, and a step that only leaves can be put in front of one that only
changes the table, or behind it.
-/
import PixelPipeline.Compile.Function

namespace PixelPipeline

open X86

/-! ## Code -/

namespace Code

/-- The code without its marks. -/
def unmarked : Code → Code
  | done => done
  | instr i next => .instr i next.unmarked
  | mark _ next => next.unmarked
  | leave next => .leave next.unmarked
  | leaveIf c next => .leaveIf c next.unmarked
  | skipIf c body next => .skipIf c body.unmarked next.unmarked
  | choose c no yes next => .choose c no.unmarked yes.unmarked next.unmarked
  | select table index bodies next => .select table index bodies next.unmarked

theorem unmarked_append (a b : Code) : (a ++ b).unmarked = a.unmarked ++ b.unmarked := by
  show (a.append b).unmarked = a.unmarked.append b.unmarked
  induction a <;> simp_all only [append, unmarked]

theorem stop_unmarked (c : Code) (pos : Nat) : c.unmarked.stop pos = c.stop pos := by
  induction c generalizing pos <;> simp_all only [unmarked, stop]

theorem bytes_unmarked (c : Code) (base : BitVec 64) (exit pos : Nat) :
    c.unmarked.bytes base exit pos = c.bytes base exit pos := by
  induction c generalizing pos <;> simp_all only [unmarked, bytes, stop_unmarked]

end Code

/-! ## Actions -/

namespace Emit

variable {α β : Type}

/-- The action without the marks in its code. -/
def unmarked (m : Emit α) : Emit α := fun d =>
  match m d with
  | .error s => .error { s with code := s.code.unmarked }
  | .ok r => .ok { r with code := r.code.unmarked }

theorem unmarked_pure (a : α) : (pure a : Emit α).unmarked = pure a := rfl

theorem unmarked_mark (s : Stage) : (mark s).unmarked = pure () := rfl

theorem unmarked_bind (m : Emit α) (k : α → Emit β) :
    (m >>= k).unmarked = m.unmarked >>= fun a => (k a).unmarked := by
  funext d
  simp only [unmarked, Bind.bind]
  cases m d with
  | error e => rfl
  | ok r =>
    simp only
    cases k r.value r.draft <;> simp only [Code.unmarked_append]

/-- What only changes the table may come before a leave or after it. -/
theorem leave_adjust (change : RoleTable → RoleTable) (k : Emit β) :
    (leave >>= fun _ => adjust change >>= fun _ => k) =
      adjust change >>= fun _ => leave >>= fun _ => k := by
  funext d
  simp only [Bind.bind, leave, put, adjust]
  cases k { d with table := change d.table } <;> rfl

end Emit

/-! ## Pipelines -/

namespace Compile

open Emit

/-- The code of a pipeline without its marks. -/
def bare (env : Env) : Except Stopped Code :=
  ((stages env (.ofFeatures env.features)).unmarked entry).map (·.code)

theorem bare_of_ok {env : Env} {code : Code} (h : body env = .ok code) :
    bare env = .ok code.unmarked := by
  unfold body at h
  unfold bare Emit.unmarked
  cases hstages : stages env (.ofFeatures env.features) entry with
  | error s =>
    rw [hstages] at h
    cases h
  | ok r =>
    rw [hstages] at h
    cases h
    rfl

/-- Code that is the same but for its marks lies in the same bytes. -/
theorem functionBytes_congr {code code' : Code} (h : code.unmarked = code'.unmarked)
    (base : BitVec 64) (start : Nat) :
    functionBytes code base start = functionBytes code' base start := by
  rw [functionBytes, functionBytes, ← Code.bytes_unmarked code, ← Code.stop_unmarked code, h,
    Code.bytes_unmarked, Code.stop_unmarked]

/-- The stages in front of the tests. -/
def early (env : Env) : Emit Unit := do
  Emit.mark .init
  if !env.features.needsConstants then
    Emit.forceRelease .argKey
  depthRange env
  enterColor

/-- The tests of the color and of stored values, and the fog between them. -/
def tests (env : Env) : Emit Unit := do
  alphaTest env
  fog env
  colorTest env
  storedTests env

/-- The stages behind the tests. -/
def late (env : Env) (plan : BlendPlan) : Emit Unit := do
  writeDepth env
  blendBy env plan
  dither env
  writeColor env

theorem stages_eq (env : Env) (plan : BlendPlan) : stages env plan = (do
    early env
    tests env
    late env plan) := by
  unfold stages early tests late
  cases env.features.needsConstants <;>
    simp only [bind_assoc, Bool.not_true, Bool.not_false, if_true, Bool.false_eq_true, if_false]

/-- Pipelines have the same code but for the marks if their stages have. -/
theorem bare_congr {env env' : Env} (hearly : (early env).unmarked = (early env').unmarked)
    (htests : (tests env).unmarked = (tests env').unmarked)
    (hlate : (late env (.ofFeatures env.features)).unmarked =
      (late env' (.ofFeatures env'.features)).unmarked) : bare env = bare env' := by
  simp only [bare, stages_eq, unmarked_bind, hearly, htests, hlate]

end Compile

end PixelPipeline
