/-
# CompileError — why a function was not compiled
-/
import PixelPipeline.Allocation.Role
import PixelPipeline.Code.Buffer

namespace PixelPipeline

/-- Why a pixel function could not be compiled. -/
inductive CompileError where
  /-- Fewer bytes are left than a function may need. -/
  | bufferFull (remaining needed : Nat)
  /-- No register is free or can be taken away. -/
  | outOfRegisters (role : Role)
  /-- The role has no register. -/
  | unbound (role : Role)
deriving DecidableEq

/-- The text of an error. -/
def CompileError.message : CompileError → String
  | bufferFull remaining needed =>
      "code buffer full: " ++ toString remaining ++ " bytes free, " ++ toString needed ++
        " required"
  | outOfRegisters role => "out of registers while binding " ++ Named.spelling role
  | unbound role => "no register is bound to " ++ Named.spelling role

/-- Why a call did not answer: an error that is part of its contract, or a
fault in how it was called. -/
inductive Failure where
  | error (e : CompileError)
  | fault (f : Fault)
deriving DecidableEq

end PixelPipeline
