/-
# Proofs.Chronicle — code as it is put down

Code is put down from the front to the back, and on its way it comes to stages.  A
chronicle has both in the order in which they happen, and nothing of places
(`Code.chronicle`).  A place is how many bytes were written before: so the bytes of a
chronicle are those of the code (`written_chronicle`), and its stages, each with how far
the writing had come, are the marks of the code (`marks_chronicle`).
-/
import PixelPipeline.Code.Layout

namespace PixelPipeline

open X86

/-- What happens while code is put down: it comes to a stage, or a byte is written. -/
inductive Event where
  | mark (s : Stage)
  | byte (v : Byte)
deriving DecidableEq

namespace Event

/-- The byte that is written. -/
def byte? : Event → Option Byte
  | byte v => some v
  | mark _ => none

/-- The stage that the code comes to. -/
def mark? : Event → Option Stage
  | mark s => some s
  | byte _ => none

/-- The bytes that are written. -/
def written (es : List Event) : List Byte := es.filterMap byte?

/-- The stages that the code comes to. -/
def stages (es : List Event) : List Stage := es.filterMap mark?

/-- The stages with the places at which they begin, the first byte going to `pos`. -/
def marks (pos : Nat) : List Event → List (Nat × Stage)
  | [] => []
  | mark s :: es => (pos, s) :: marks pos es
  | byte _ :: es => marks (pos + 1) es

variable {pos : Nat} {es : List Event}

@[simp] theorem written_append (es es' : List Event) :
    written (es ++ es') = written es ++ written es' :=
  List.filterMap_append

@[simp] theorem written_bytes (bs : List Byte) : written (bs.map byte) = bs := by
  induction bs with
  | nil => rfl
  | cons v bs ih => exact congrArg (v :: ·) ih

@[simp] theorem marks_bytes (pos : Nat) (bs : List Byte) : marks pos (bs.map byte) = [] := by
  induction bs generalizing pos with
  | nil => rfl
  | cons v bs ih => exact ih (pos + 1)

theorem marks_append (pos : Nat) (es es' : List Event) :
    marks pos (es ++ es') = marks pos es ++ marks (pos + (written es).length) es' := by
  induction es generalizing pos with
  | nil => rfl
  | cons e es ih =>
    cases e with
    | mark s => exact congrArg ((pos, s) :: ·) (ih pos)
    | byte v =>
      have hnext : pos + (written (byte v :: es)).length = pos + 1 + (written es).length := by
        show pos + ((written es).length + 1) = _
        omega
      rw [hnext]
      exact ih (pos + 1)

/-- Without their places the marks are the stages. -/
theorem map_marks (pos : Nat) (es : List Event) : (marks pos es).map (·.2) = stages es := by
  induction es generalizing pos with
  | nil => rfl
  | cons e es ih =>
    cases e with
    | mark s => exact congrArg (s :: ·) (ih pos)
    | byte v => exact ih (pos + 1)

/-- Stages begin where something has been written or will be. -/
theorem marks_bounds {m : Nat × Stage} (h : m ∈ marks pos es) :
    pos ≤ m.1 ∧ m.1 ≤ pos + (written es).length := by
  induction es generalizing pos with
  | nil => cases h
  | cons e es ih =>
    cases e with
    | mark s =>
      rcases List.mem_cons.mp h with rfl | h
      · exact ⟨Nat.le_refl _, Nat.le_add_right _ _⟩
      · exact ih h
    | byte v =>
      obtain ⟨hle, hstop⟩ := ih h
      have hlen : (written (byte v :: es)).length = (written es).length + 1 := rfl
      omega

/-- Stages are in the order of their places. -/
theorem marks_sorted (pos : Nat) (es : List Event) :
    (marks pos es).Pairwise fun m m' => m.1 ≤ m'.1 := by
  induction es generalizing pos with
  | nil => exact .nil
  | cons e es ih =>
    cases e with
    | mark s => exact .cons (fun _ hm => (marks_bounds hm).1) (ih pos)
    | byte v => exact ih (pos + 1)

end Event

namespace Code

/-- What happens while code is put down at `pos`, for a return at `exit`. -/
def chronicle (base : BitVec 64) (exit : Nat) (pos : Nat) : Code → List Event
  | done => []
  | instr i next => i.bytes.map .byte ++ next.chronicle base exit (pos + i.size)
  | mark s next => .mark s :: next.chronicle base exit pos
  | leave next => (jumpTo exit pos).map .byte ++ next.chronicle base exit (pos + jumpSize)
  | leaveIf c next =>
      (jumpIfTo c exit pos).map .byte ++ next.chronicle base exit (pos + jumpIfSize)
  | skipIf c body next =>
      let start := pos + jumpIfSize
      let finish := body.stop start
      (jumpIfTo c finish pos).map .byte ++ body.chronicle base exit start ++
        next.chronicle base exit finish
  | choose c no yes next =>
      let noStart := pos + jumpIfSize
      let noEnd := no.stop noStart
      let yesStart := noEnd + jumpSize
      let finish := yes.stop yesStart
      (jumpIfTo c yesStart pos).map .byte ++ no.chronicle base exit noStart ++
        (jumpTo finish noEnd).map .byte ++ yes.chronicle base exit yesStart ++
        next.chronicle base exit finish
  | select table index bodies next =>
      (selectBytes base exit pos table index bodies).map .byte ++
        next.chronicle base exit (selectEnd pos table index bodies)

/-- The bytes of code are written in their order. -/
theorem written_chronicle (base : BitVec 64) (exit pos : Nat) (c : Code) :
    Event.written (c.chronicle base exit pos) = c.bytes base exit pos := by
  induction c generalizing pos with
  | done => rfl
  | mark s next ih => exact ih pos
  | _ => simp_all only [chronicle, bytes, Event.written_append, Event.written_bytes]

/-- A stage of code begins where the writing has come to. -/
theorem marks_chronicle (base : BitVec 64) (exit pos : Nat) (c : Code) :
    Event.marks pos (c.chronicle base exit pos) = c.marks pos := by
  -- behind a part of code writing goes on where that part stops
  have hstop (pos : Nat) (part : Code) :
      pos + (Event.written (part.chronicle base exit pos)).length = part.stop pos := by
    rw [written_chronicle, length_bytes]
  induction c generalizing pos with
  | done => rfl
  | instr i next ih =>
    rw [chronicle, Event.marks_append, Event.marks_bytes, Event.written_bytes]
    exact ih _
  | mark s next ih => exact congrArg ((pos, s) :: ·) (ih pos)
  | leave next ih =>
    rw [chronicle, Event.marks_append, Event.marks_bytes, Event.written_bytes]
    exact ih _
  | leaveIf c next ih =>
    rw [chronicle, Event.marks_append, Event.marks_bytes, Event.written_bytes]
    exact ih _
  | skipIf c body next ihBody ih =>
    simp only [chronicle, marks, Event.marks_append, Event.marks_bytes, Event.written_append,
      Event.written_bytes, List.length_append, length_jumpIfTo, ← Nat.add_assoc, hstop, ihBody, ih,
      List.nil_append]
  | choose c no yes next ihNo ihYes ih =>
    simp only [chronicle, marks, Event.marks_append, Event.marks_bytes, Event.written_append,
      Event.written_bytes, List.length_append, length_jumpIfTo, length_jumpTo, ← Nat.add_assoc,
      hstop, ihNo, ihYes, ih, List.nil_append, List.append_nil]
  | select table index bodies next ih =>
    rw [chronicle, Event.marks_append, Event.marks_bytes, Event.written_bytes, length_selectBytes]
    exact ih _

/-- Marks are in the order of their places. -/
theorem marks_sorted (c : Code) (pos : Nat) : (c.marks pos).Pairwise fun m m' => m.1 ≤ m'.1 := by
  rw [← marks_chronicle 0 0]
  exact Event.marks_sorted pos _

end Code

end PixelPipeline
