/-
# Code.Buffer — where code is written

A code buffer has a fixed capacity and a write offset.  Bytes are written
at the offset, which moves past them; earlier bytes change only when they
are patched.  Bytes that were never written are zero.  A write that would
pass the end is refused as a whole.
-/
import PixelPipeline.Bytes

namespace PixelPipeline

/-- A call that breaks the rules of what it is called on. -/
inductive Fault where
  /-- Code does not fit into its buffer. -/
  | bufferOverflow
  /-- Some other condition on the arguments does not hold. -/
  | violation
deriving DecidableEq

/-- Size of a page of memory. -/
def pageSize : Nat := 4096

/-- Memory that code is written to, from the front to the back. -/
structure CodeBuffer where
  capacity : Nat
  offset : Nat
  /-- What has been written; bytes behind the end of the array are zero. -/
  written : Array Byte
  offset_le : offset ≤ capacity
  /-- A place in memory is a positive signed word. -/
  capacity_lt : capacity < 0x8000000000000000

namespace CodeBuffer

/-- The most whole pages that memory can have. -/
def largest : Nat := 0x8000000000000000 - pageSize

/-- An empty buffer of a size rounded up to whole pages, one at least and no more than there
can be. -/
def ofSize (size : Nat) : CodeBuffer where
  capacity := min ((max size 1 + (pageSize - 1)) / pageSize * pageSize) largest
  offset := 0
  written := #[]
  offset_le := Nat.zero_le _
  capacity_lt := Nat.lt_of_le_of_lt (Nat.min_le_right _ _) (by decide)

/-- Bytes left to write. -/
def remaining (b : CodeBuffer) : Nat := b.capacity - b.offset

/-- The byte at a position. -/
def byteAt (b : CodeBuffer) (i : Nat) : Byte := b.written.getD i 0

/-- Bytes from `start` on. -/
def bytesAt (b : CodeBuffer) (start count : Nat) : List Byte :=
  (List.range count).map fun i => b.byteAt (start + i)

/-- Bytes of the buffer are known when each of them is. -/
theorem bytesAt_of_byteAt {b : CodeBuffer} {start : Nat} {bs : List Byte}
    (h : ∀ i v, bs[i]? = some v → b.byteAt (start + i) = v) : b.bytesAt start bs.length = bs := by
  refine List.ext_getElem (by simp [bytesAt]) fun i hi hi' => ?_
  simp only [bytesAt, List.getElem_map, List.getElem_range]
  exact h i _ (List.getElem?_eq_getElem hi')

/-- Put one byte into an array, which grows with zeros as needed. -/
def put (a : Array Byte) (i : Nat) (v : Byte) : Array Byte :=
  if h : i < a.size then a.set i v else (a ++ Array.replicate (i - a.size) 0).push v

/-- Put bytes into an array one after another. -/
def putAll (a : Array Byte) (i : Nat) : List Byte → Array Byte
  | [] => a
  | v :: rest => putAll (put a i v) (i + 1) rest

theorem getD_put (a : Array Byte) (i : Nat) (v : Byte) (j : Nat) :
    (put a i v).getD j 0 = if j = i then v else a.getD j 0 := by
  simp only [Array.getD_eq_getD_getElem?]
  unfold put
  split
  · rename_i h
    rw [Array.getElem?_set h]
    by_cases hj : j = i
    · rw [if_pos hj.symm, if_pos hj, Option.getD_some]
    · rw [if_neg (Ne.symm hj), if_neg hj]
  · rename_i h
    have size : (a ++ Array.replicate (i - a.size) (0 : Byte)).size = i := by
      rw [Array.size_append, Array.size_replicate]
      omega
    rw [Array.getElem?_push, size, Array.getElem?_append, Array.getElem?_replicate]
    by_cases hj : j = i
    · rw [if_pos hj, if_pos hj, Option.getD_some]
    · rw [if_neg hj, if_neg hj]
      by_cases hs : j < a.size
      · rw [if_pos hs]
      · rw [if_neg hs, Array.getElem?_eq_none (by omega)]
        split <;> rfl

theorem getD_putAll (a : Array Byte) (i : Nat) (vs : List Byte) (j : Nat) :
    (putAll a i vs).getD j 0 =
      if i ≤ j ∧ j < i + vs.length then vs.getD (j - i) 0 else a.getD j 0 := by
  induction vs generalizing a i with
  | nil =>
    rw [putAll, if_neg (by rw [List.length_nil]; omega)]
  | cons v rest ih =>
    rw [putAll, ih, getD_put, List.length_cons]
    rcases Nat.lt_trichotomy j i with h | h | h
    · rw [if_neg (by omega), if_neg (by omega), if_neg (by omega)]
    · rw [if_neg (by omega), if_pos h, if_pos (by omega), h, Nat.sub_self, List.getD_cons_zero]
    · obtain ⟨k, rfl⟩ := Nat.exists_eq_add_of_lt h
      rw [show i + k + 1 - i = k + 1 by omega, show i + k + 1 - (i + 1) = k by omega,
        List.getD_cons_succ]
      by_cases hk : k < rest.length
      · rw [if_pos (by omega), if_pos (by omega)]
      · rw [if_neg (by omega), if_neg (by omega), if_neg (by omega)]

/-- Actions on a buffer.  What was written before an action fails stays. -/
abbrev Action := EStateM Fault CodeBuffer

/-- The buffer with bytes put at the offset. -/
def extended (b : CodeBuffer) (piece : List Byte) (h : b.offset + piece.length ≤ b.capacity) :
    CodeBuffer :=
  { b with
    offset := b.offset + piece.length
    written := putAll b.written b.offset piece
    offset_le := h }

section

variable (b : CodeBuffer) (piece : List Byte) (h : b.offset + piece.length ≤ b.capacity)

@[simp] theorem extended_offset : (b.extended piece h).offset = b.offset + piece.length := rfl

@[simp] theorem extended_capacity : (b.extended piece h).capacity = b.capacity := rfl

theorem byteAt_extended (i : Nat) : (b.extended piece h).byteAt i =
    if b.offset ≤ i ∧ i < b.offset + piece.length then piece.getD (i - b.offset) 0
    else b.byteAt i :=
  getD_putAll b.written b.offset piece i

end

/-- Write bytes at the offset, all of them or none. -/
def emit (piece : List Byte) : Action Unit := do
  let b ← get
  if h : b.offset + piece.length ≤ b.capacity then set (b.extended piece h)
  else throw .bufferOverflow

/-- Write pieces until one does not fit. -/
def emitAll : List (List Byte) → Action Unit
  | [] => pure ()
  | piece :: rest => do
      emit piece
      emitAll rest

/-- Bytes that fit are written. -/
theorem emit_ok {b : CodeBuffer} {piece : List Byte} (h : b.offset + piece.length ≤ b.capacity) :
    emit piece b = .ok () (b.extended piece h) := by
  show (if h : b.offset + piece.length ≤ b.capacity then _ else _ : Action Unit) b = _
  rw [dif_pos h]
  rfl

/-- Bytes that do not fit are refused as a whole. -/
theorem emit_full {b : CodeBuffer} {piece : List Byte}
    (h : ¬b.offset + piece.length ≤ b.capacity) : emit piece b = .error .bufferOverflow b := by
  show (if h : b.offset + piece.length ≤ b.capacity then _ else _ : Action Unit) b = _
  rw [dif_neg h]
  rfl

/-- Move the write offset; what has been written stays. -/
def setOffset (offset : Nat) : Action Unit := do
  let b ← get
  if h : offset ≤ b.capacity then set { b with offset := offset, offset_le := h }
  else throw .violation

/-- Overwrite four bytes anywhere in the buffer. -/
def patch32 (pos : Nat) (v : BitVec 32) : Action Unit := do
  let b ← get
  if pos + 4 ≤ b.capacity then set { b with written := putAll b.written pos (le32 v) }
  else throw .violation

/-- Read four bytes anywhere in the buffer. -/
def read32 (pos : Nat) : Action (BitVec 32) := do
  let b ← get
  if pos + 4 ≤ b.capacity then
    pure (word32 (b.byteAt pos) (b.byteAt (pos + 1)) (b.byteAt (pos + 2)) (b.byteAt (pos + 3)))
  else throw .violation

/-- Read eight bytes anywhere in the buffer. -/
def read64 (pos : Nat) : Action (BitVec 64) := do
  let b ← get
  if pos + 8 ≤ b.capacity then
    pure (word64 (b.byteAt pos) (b.byteAt (pos + 1)) (b.byteAt (pos + 2)) (b.byteAt (pos + 3))
      (b.byteAt (pos + 4)) (b.byteAt (pos + 5)) (b.byteAt (pos + 6)) (b.byteAt (pos + 7)))
  else throw .violation

/-- Distance from the base of a position, which may be the end of the buffer. -/
def position (pos : Nat) : Action Nat := do
  let b ← get
  if pos ≤ b.capacity then pure pos else throw .violation

/-- The offset a distance from the base stands for, if that byte has been
emitted. -/
def offsetOf? (b : CodeBuffer) (distance : Int) : Option Nat :=
  if 0 ≤ distance ∧ distance < b.offset then some distance.toNat else none

end CodeBuffer

end PixelPipeline
