/-
# Comparison — the functions of the alpha, depth and stencil tests

A comparison is applied to unsigned 32-bit operands.  Two of the eight
have a fixed answer, and a pipeline that uses them compares nothing.
-/
import PixelPipeline.Named

namespace PixelPipeline

/-- Comparison function shared by the alpha, depth and stencil tests. -/
inductive Comparison where
  | never | always | equal | notEqual | less | lessEqual | greater | greaterEqual
deriving DecidableEq

namespace Comparison

/-- The three bits that stand for a comparison in a key. -/
def code : Comparison → BitVec 3
  | never => 0
  | always => 1
  | equal => 2
  | notEqual => 3
  | less => 4
  | lessEqual => 5
  | greater => 6
  | greaterEqual => 7

/-- The comparison three key bits stand for. -/
def ofCode : BitVec 3 → Comparison
  | 0 => never
  | 1 => always
  | 2 => equal
  | 3 => notEqual
  | 4 => less
  | 5 => lessEqual
  | 6 => greater
  | _ => greaterEqual

theorem ofCode_code (c : Comparison) : ofCode c.code = c := by
  cases c <;> rfl

/-- Whether `lhs` stands in the relation to `rhs`, both unsigned. -/
def passes (c : Comparison) (lhs rhs : BitVec 32) : Bool :=
  match c with
  | never => false
  | always => true
  | equal => lhs == rhs
  | notEqual => lhs != rhs
  | less => lhs.ult rhs
  | lessEqual => lhs.ule rhs
  | greater => rhs.ult lhs
  | greaterEqual => rhs.ule lhs

/-- Whether the answer depends on the operands. -/
def compares : Comparison → Bool
  | never | always => false
  | _ => true

/-- Two-letter form used in key descriptions. -/
def tag : Comparison → String
  | never => "NV"
  | always => "AL"
  | equal => "EQ"
  | notEqual => "NE"
  | less => "LT"
  | lessEqual => "LE"
  | greater => "GT"
  | greaterEqual => "GE"

/-- A comparison that does not look at its operands has one answer for all. -/
theorem passes_eq_of_not_compares {c : Comparison} (h : c.compares = false)
    (a b a' b' : BitVec 32) : c.passes a b = c.passes a' b' := by
  cases c <;> first | rfl | simp [compares] at h

end Comparison

instance : Named Comparison where
  members := [.never, .always, .equal, .notEqual, .less, .lessEqual, .greater, .greaterEqual]
  spelling
    | .never => "Never"
    | .always => "Always"
    | .equal => "Equal"
    | .notEqual => "NotEqual"
    | .less => "Less"
    | .lessEqual => "LessEqual"
    | .greater => "Greater"
    | .greaterEqual => "GreaterEqual"
  mem_members := by intro a; cases a <;> simp

end PixelPipeline
