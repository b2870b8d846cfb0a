/-
# Code.Layout — where code lies and what its bytes are

All branches have 32-bit displacements, so the size of code does not depend
on how far its branches go: positions are found first, bytes second.  Only
the entries of a selection table hold absolute addresses, and only the
padding before a table depends on where the code starts.  `length_bytes`
says that positions and bytes agree.
-/
import PixelPipeline.Code.Padding
import PixelPipeline.Code.Tree
import PixelPipeline.X86.Encoding

namespace PixelPipeline

open X86

namespace Code

/-- Size of a jump. -/
def jumpSize : Nat := 5

/-- Size of a conditional jump. -/
def jumpIfSize : Nat := 6

/-- Size of a row of instructions. -/
def rowSize : List Instr → Nat
  | [] => 0
  | i :: rest => i.size + rowSize rest

/-! ## Positions -/

/-- Size of one body of a selection with the jump that ends it. -/
def bodySize : Option (List Instr) → Nat
  | some is => rowSize is + jumpSize
  | none => jumpSize

/-- Size of the bodies of a selection. -/
def bodiesSize : List (Option (List Instr)) → Nat
  | [] => 0
  | b :: rest => bodySize b + bodiesSize rest

/-- Where the bodies of a selection start, the first of them at `pos`. -/
def bodyStarts (pos : Nat) : List (Option (List Instr)) → List Nat
  | [] => []
  | b :: rest => pos :: bodyStarts (pos + bodySize b) rest

/-- Where the table of a selection at `pos` starts: behind the jump to the
dispatch, the bodies, and padding to a multiple of eight. -/
def tableStart (pos : Nat) (bodies : List (Option (List Instr))) : Nat :=
  let bodiesEnd := pos + jumpSize + bodiesSize bodies
  bodiesEnd + Padding.distance bodiesEnd 8

/-- Where the dispatch of a selection starts. -/
def dispatchStart (pos : Nat) (bodies : List (Option (List Instr))) : Nat :=
  tableStart pos bodies + 8 * bodies.length

/-- The indirect jump through a table of addresses. -/
def tableJump (table index : Reg) : Instr := .jumpMem (.indexed table index 3 0)

/-- Where a selection ends. -/
def selectEnd (pos : Nat) (table index : Reg) (bodies : List (Option (List Instr))) : Nat :=
  dispatchStart pos bodies + (Instr.leaRip table 0).size + (tableJump table index).size

/-- Where code that starts at `pos` ends. -/
def stop (pos : Nat) : Code → Nat
  | done => pos
  | instr i next => next.stop (pos + i.size)
  | mark _ next => next.stop pos
  | leave next => next.stop (pos + jumpSize)
  | leaveIf _ next => next.stop (pos + jumpIfSize)
  | skipIf _ body next => next.stop (body.stop (pos + jumpIfSize))
  | choose _ no yes next => next.stop (yes.stop (no.stop (pos + jumpIfSize) + jumpSize))
  | select table index bodies next => next.stop (selectEnd pos table index bodies)

/-- Where stages start, in code order. -/
def marks (pos : Nat) : Code → List (Nat × Stage)
  | done => []
  | instr i next => next.marks (pos + i.size)
  | mark s next => (pos, s) :: next.marks pos
  | leave next => next.marks (pos + jumpSize)
  | leaveIf _ next => next.marks (pos + jumpIfSize)
  | skipIf _ body next =>
      let start := pos + jumpIfSize
      body.marks start ++ next.marks (body.stop start)
  | choose _ no yes next =>
      let noStart := pos + jumpIfSize
      let yesStart := no.stop noStart + jumpSize
      no.marks noStart ++ yes.marks yesStart ++ next.marks (yes.stop yesStart)
  | select table index bodies next => next.marks (selectEnd pos table index bodies)

/-! ## Bytes -/

/-- The displacement that leads to `target` from the end of a branch. -/
def displacementTo (target after : Nat) : BitVec 32 := BitVec.ofInt 32 (target - after)

/-- A jump at `pos`. -/
def jumpTo (target pos : Nat) : List Byte :=
  (Instr.jump (displacementTo target (pos + jumpSize))).bytes

/-- A conditional jump at `pos`. -/
def jumpIfTo (c : Cond) (target pos : Nat) : List Byte :=
  (Instr.jumpIf c (displacementTo target (pos + jumpIfSize))).bytes

/-- The bytes of a row of instructions. -/
def rowBytes (is : List Instr) : List Byte := is.flatMap Instr.bytes

/-- The bytes of the bodies of a selection, which end by going to `finish` or
to `exit`. -/
def bodyBytes (exit finish pos : Nat) : List (Option (List Instr)) → List Byte
  | [] => []
  | some is :: rest =>
      rowBytes is ++ jumpTo finish (pos + rowSize is) ++
        bodyBytes exit finish (pos + bodySize (some is)) rest
  | none :: rest => jumpTo exit pos ++ bodyBytes exit finish (pos + bodySize none) rest

/-- The bytes of a selection at `pos`: a jump to the dispatch, the bodies,
padding, the table of their addresses, and the dispatch. -/
def selectBytes (base : BitVec 64) (exit pos : Nat) (table index : Reg)
    (bodies : List (Option (List Instr))) : List Byte :=
  let bodiesStart := pos + jumpSize
  let dispatch := dispatchStart pos bodies
  let afterLea := dispatch + (Instr.leaRip table 0).size
  let bodiesEnd := bodiesStart + bodiesSize bodies
  jumpTo dispatch pos ++
    bodyBytes exit (selectEnd pos table index bodies) bodiesStart bodies ++
    Padding.bytes (Padding.distance bodiesEnd 8) ++
    (bodyStarts bodiesStart bodies).flatMap (fun start => le64 (base + BitVec.ofNat 64 start)) ++
    (Instr.leaRip table (displacementTo (tableStart pos bodies) afterLea)).bytes ++
    (tableJump table index).bytes

/-- The bytes of code at `pos` in a buffer at address `base`, whose return is
at `exit`. -/
def bytes (base : BitVec 64) (exit : Nat) (pos : Nat) : Code → List Byte
  | done => []
  | instr i next => i.bytes ++ next.bytes base exit (pos + i.size)
  | mark _ next => next.bytes base exit pos
  | leave next => jumpTo exit pos ++ next.bytes base exit (pos + jumpSize)
  | leaveIf c next => jumpIfTo c exit pos ++ next.bytes base exit (pos + jumpIfSize)
  | skipIf c body next =>
      let start := pos + jumpIfSize
      let finish := body.stop start
      jumpIfTo c finish pos ++ body.bytes base exit start ++ next.bytes base exit finish
  | choose c no yes next =>
      let noStart := pos + jumpIfSize
      let noEnd := no.stop noStart
      let yesStart := noEnd + jumpSize
      let finish := yes.stop yesStart
      jumpIfTo c yesStart pos ++ no.bytes base exit noStart ++ jumpTo finish noEnd ++
        yes.bytes base exit yesStart ++ next.bytes base exit finish
  | select table index bodies next =>
      selectBytes base exit pos table index bodies ++
        next.bytes base exit (selectEnd pos table index bodies)

/-! ## Laws of layout

The stages of code after code start where the first ends, and the bytes of code
are as many as its size says. -/

theorem marks_append (a b : Code) (pos : Nat) :
    (a ++ b).marks pos = a.marks pos ++ b.marks (a.stop pos) := by
  show (a.append b).marks pos = _
  induction a generalizing pos with
  | done => rfl
  | instr i next ih => exact ih _
  | mark s next ih => simp only [append, marks, stop, ih, List.cons_append]
  | leave next ih => exact ih _
  | leaveIf c next ih => exact ih _
  | skipIf c body next _ ih => simp only [append, marks, stop, ih, List.append_assoc]
  | choose c no yes next _ _ ih => simp only [append, marks, stop, ih, List.append_assoc]
  | select table index bodies next ih => exact ih _

theorem length_jumpTo (target pos : Nat) : (jumpTo target pos).length = jumpSize := rfl

theorem length_jumpIfTo (c : Cond) (target pos : Nat) :
    (jumpIfTo c target pos).length = jumpIfSize := rfl

theorem length_rowBytes (is : List Instr) : (rowBytes is).length = rowSize is := by
  induction is with
  | nil => rfl
  | cons i rest ih =>
    rw [rowBytes, List.flatMap_cons, List.length_append]
    exact congrArg (i.size + ·) ih

theorem length_bodyBytes (exit finish pos : Nat) (bodies : List (Option (List Instr))) :
    (bodyBytes exit finish pos bodies).length = bodiesSize bodies := by
  induction bodies generalizing pos with
  | nil => rfl
  | cons b rest ih =>
    cases b with
    | none =>
      simp only [bodyBytes, bodiesSize, bodySize, List.length_append, length_jumpTo, ih]
    | some is =>
      simp only [bodyBytes, bodiesSize, bodySize, List.length_append, length_jumpTo,
        length_rowBytes, ih]

theorem length_bodyStarts (pos : Nat) (bodies : List (Option (List Instr))) :
    (bodyStarts pos bodies).length = bodies.length := by
  induction bodies generalizing pos with
  | nil => rfl
  | cons b rest ih => simp only [bodyStarts, List.length_cons, ih]

theorem length_tableBytes (base : BitVec 64) (starts : List Nat) :
    (starts.flatMap fun start => le64 (base + BitVec.ofNat 64 start)).length =
      8 * starts.length := by
  induction starts with
  | nil => rfl
  | cons s rest ih =>
    rw [List.flatMap_cons, List.length_append, ih, List.length_cons]
    simp only [le64, List.length_cons, List.length_nil]
    omega

theorem length_leaRip (table : Reg) (d : BitVec 32) :
    (Instr.leaRip table d).bytes.length = (Instr.leaRip table 0).size := by
  simp only [Instr.size, Instr.bytes, Instr.encode, List.flatten_append, List.length_append,
    List.flatten_cons, le32, List.length_cons, List.length_nil]

theorem length_selectBytes (base : BitVec 64) (exit pos : Nat) (table index : Reg)
    (bodies : List (Option (List Instr))) :
    pos + (selectBytes base exit pos table index bodies).length =
      selectEnd pos table index bodies := by
  unfold selectBytes
  simp only [List.length_append, length_jumpTo, length_bodyBytes,
    Padding.length_bytes, length_tableBytes, length_bodyStarts]
  rw [length_leaRip]
  simp only [selectEnd, dispatchStart, tableStart, Instr.size]
  omega

/-- Code fills the bytes from where it starts to where it ends. -/
theorem length_bytes (base : BitVec 64) (exit pos : Nat) (c : Code) :
    pos + (c.bytes base exit pos).length = c.stop pos := by
  induction c generalizing pos with
  | done => rfl
  | instr i next ih => rw [bytes, List.length_append, ← Nat.add_assoc]; exact ih _
  | mark s next ih => exact ih _
  | leave next ih => rw [bytes, List.length_append, ← Nat.add_assoc]; exact ih _
  | leaveIf c next ih => rw [bytes, List.length_append, ← Nat.add_assoc]; exact ih _
  | skipIf c body next ihBody ih =>
    rw [bytes, List.length_append, List.length_append, length_jumpIfTo, ← Nat.add_assoc,
      ← Nat.add_assoc, ihBody]
    exact ih _
  | choose c no yes next ihNo ihYes ih =>
    simp only [bytes, List.length_append, length_jumpIfTo, length_jumpTo, ← Nat.add_assoc]
    rw [ihNo, ihYes]
    exact ih _
  | select table index bodies next ih =>
    rw [bytes, List.length_append, ← Nat.add_assoc, length_selectBytes]
    exact ih _

theorem le_stop (pos : Nat) (c : Code) : pos ≤ c.stop pos := Nat.le.intro (c.length_bytes 0 0 pos)

end Code

end PixelPipeline
