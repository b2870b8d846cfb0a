/-
# Code.Tree — generated code with its control flow

Generated code runs forward.  It is a row of instructions in which some
stretches are skipped under a condition, some are chosen by one, and one
may be selected through a table; from anywhere it can leave for its single
return.  Kept as a tree, code has a meaning and a size before it has a
place.
-/
import PixelPipeline.Stage
import PixelPipeline.X86.Instruction

namespace PixelPipeline

open X86

/-- Code and what follows it. -/
inductive Code where
  /-- Nothing more. -/
  | done
  | instr (i : Instr) (next : Code)
  /-- What follows belongs to a stage. -/
  | mark (s : Stage) (next : Code)
  /-- Go to the return. -/
  | leave (next : Code)
  /-- Go to the return if the condition holds. -/
  | leaveIf (c : Cond) (next : Code)
  /-- Skip the body if the condition holds. -/
  | skipIf (c : Cond) (body next : Code)
  /-- Run `yes` if the condition holds, else `no`. -/
  | choose (c : Cond) (no yes next : Code)
  /-- Run the body whose number is in `index`, with `table` as scratch register.
  A body that is absent leaves. -/
  | select (table index : Reg) (bodies : List (Option (List Instr))) (next : Code)

namespace Code

/-- Code followed by more code. -/
def append : Code → Code → Code
  | done, k => k
  | instr i n, k => instr i (n.append k)
  | mark s n, k => mark s (n.append k)
  | leave n, k => leave (n.append k)
  | leaveIf c n, k => leaveIf c (n.append k)
  | skipIf c b n, k => skipIf c b (n.append k)
  | choose c x y n, k => choose c x y (n.append k)
  | select t i bs n, k => select t i bs (n.append k)

instance : Append Code := ⟨append⟩

/-- A row of instructions. -/
def ofInstrs (is : List Instr) : Code := is.foldr instr done

@[simp] theorem done_append (k : Code) : done ++ k = k := rfl

@[simp] theorem append_done (k : Code) : k ++ done = k := by
  show k.append done = k
  induction k <;> simp_all [append]

theorem append_assoc (a b c : Code) : a ++ b ++ c = a ++ (b ++ c) := by
  show (a.append b).append c = a.append (b.append c)
  induction a <;> simp_all [append]

end Code

end PixelPipeline
