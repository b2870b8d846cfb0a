/-
# Allocation.RegSet — sets of host registers

A set of register numbers below 64, one bit each.
-/

namespace PixelPipeline

/-- A set of register numbers below 64. -/
structure RegSet where
  bits : BitVec 64
deriving DecidableEq

namespace RegSet

/-- No register. -/
def empty : RegSet := ⟨0⟩

/-- The register is in the set. -/
def contains (s : RegSet) (r : Nat) : Bool := s.bits.getLsbD r

/-- Add a register. -/
def insert (s : RegSet) (r : Nat) : RegSet := ⟨s.bits ||| (1 <<< r)⟩

/-- The set of some registers. -/
def ofList (rs : List Nat) : RegSet := rs.foldl insert empty

/-- Registers of `s` that are not in `t`. -/
def subtract (s t : RegSet) : RegSet := ⟨s.bits &&& ~~~t.bits⟩

/-- Members, lowest first. -/
def toList (s : RegSet) : List Nat := (List.range 64).filter s.contains

/-- The lowest member. -/
def first? (s : RegSet) : Option Nat := (List.range 64).find? s.contains

theorem contains_subtract (s t : RegSet) (r : Nat) (h : r < 64) :
    (s.subtract t).contains r = (s.contains r && !t.contains r) := by
  simp [subtract, contains, h]

theorem contains_of_first? {s : RegSet} {r : Nat} (h : s.first? = some r) : s.contains r = true :=
  List.find?_some h

end RegSet

end PixelPipeline
