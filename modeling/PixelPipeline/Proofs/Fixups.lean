/-
# Proofs.Fixups — every branch leads to its label

A program writes bytes as they are, branches to labels, and binds labels, in any
order.  A branch in front of its label leaves a displacement of zero and waits in the
label's list; a branch behind it is resolved at once.  Both come to the same, for what
the labels and the displacements hold is a function of the lines alone
(`Assembly.Linked`).

The lines lie in the buffer one behind the other (`Line.At`), so that no two of them
share a byte, and the displacement that is filled in is the only thing that changes.
One lemma for a line, and by induction one for a program.
-/
import Mathlib.Algebra.Group.Nat.Defs
import Mathlib.Data.List.Induction
import PixelPipeline.Code.Label

namespace PixelPipeline

/-- What is done first is done before the rest. -/
theorem run_bind {ε σ α β : Type} {m : EStateM ε σ α} {f : α → EStateM ε σ β} {v : α} {s s' : σ}
    (h : m s = .ok v s') : (m >>= f) s = f v s' := by
  show EStateM.bind m f s = _
  rw [EStateM.bind, h]

/-! ## Words of a buffer -/

namespace CodeBuffer

variable {b b' b'' : CodeBuffer} {pos : Nat}

/-- The word at a position. -/
def wordAt (b : CodeBuffer) (pos : Nat) : BitVec 32 :=
  word32 (b.byteAt pos) (b.byteAt (pos + 1)) (b.byteAt (pos + 2)) (b.byteAt (pos + 3))

theorem read32_ok (h : pos + 4 ≤ b.capacity) : read32 pos b = .ok (b.wordAt pos) b := by
  refine (run_bind (m := get) rfl).trans ?_
  rw [if_pos h]
  rfl

theorem wordAt_congr (h : ∀ i, pos ≤ i → i < pos + 4 → b'.byteAt i = b.byteAt i) :
    b'.wordAt pos = b.wordAt pos := by
  unfold wordAt
  rw [h pos (by omega) (by omega), h (pos + 1) (by omega) (by omega),
    h (pos + 2) (by omega) (by omega), h (pos + 3) (by omega) (by omega)]

/-- A word is known when its bytes are. -/
theorem wordAt_of_bytes {v : BitVec 32}
    (h : ∀ i x, (le32 v)[i]? = some x → b.byteAt (pos + i) = x) : b.wordAt pos = v := by
  have h0 := h 0 _ rfl
  rw [Nat.add_zero] at h0
  rw [wordAt, h0, h 1 _ rfl, h 2 _ rfl, h 3 _ rfl]
  exact word32_le32 v

/-- The buffer with one word overwritten. -/
def withWord (b : CodeBuffer) (pos : Nat) (v : BitVec 32) : CodeBuffer :=
  { b with written := putAll b.written pos (le32 v) }

theorem written_withWord (b : CodeBuffer) (pos : Nat) (v : BitVec 32) :
    (b.withWord pos v).written = putAll b.written pos (le32 v) := by
  rw [withWord]

theorem patch32_ok (h : pos + 4 ≤ b.capacity) (v : BitVec 32) :
    patch32 pos v b = .ok () (b.withWord pos v) := by
  refine (run_bind (m := get) rfl).trans ?_
  rw [if_pos h]
  rfl

/-- A word that would not end in the buffer is refused. -/
theorem patch32_full (h : ¬pos + 4 ≤ b.capacity) (v : BitVec 32) :
    patch32 pos v b = .error .violation b := by
  refine (run_bind (m := get) rfl).trans ?_
  rw [if_neg h]
  rfl

theorem byteAt_withWord {v : BitVec 32} {i : Nat} (h : i < pos ∨ pos + 4 ≤ i) :
    (b.withWord pos v).byteAt i = b.byteAt i := by
  have hlen : (le32 v).length = 4 := rfl
  rw [byteAt, written_withWord, getD_putAll, if_neg (by omega), byteAt]

theorem byteAt_withWord_self {v : BitVec 32} {i : Nat} {x : Byte} (h : (le32 v)[i]? = some x) :
    (b.withWord pos v).byteAt (pos + i) = x := by
  have hi : i < (le32 v).length := (List.getElem?_eq_some_iff.mp h).1
  rw [byteAt, written_withWord, getD_putAll, if_pos (by omega), Nat.add_sub_cancel_left,
    List.getD_eq_getElem?_getD, h]
  rfl

theorem wordAt_withWord (b : CodeBuffer) (pos : Nat) (v : BitVec 32) :
    (b.withWord pos v).wordAt pos = v :=
  wordAt_of_bytes fun _ _ h => byteAt_withWord_self h

/-! ## Pieces that fit -/

theorem putAll_append (a : Array Byte) (i : Nat) (xs ys : List Byte) :
    putAll a i (xs ++ ys) = putAll (putAll a i xs) (i + xs.length) ys := by
  induction xs generalizing a i with
  | nil => rfl
  | cons x xs ih =>
    rw [List.cons_append, putAll, ih, putAll, List.length_cons, Nat.add_right_comm, Nat.add_assoc]

/-- Two pieces that fit are written like one. -/
theorem emit_append {xs ys : List Byte} (h : b.offset + (xs ++ ys).length ≤ b.capacity) :
    EStateM.bind (emit xs) (fun _ => emit ys) b = emit (xs ++ ys) b := by
  have hlen : (xs ++ ys).length = xs.length + ys.length := List.length_append
  have hxs : b.offset + xs.length ≤ b.capacity := by omega
  have hys : b.offset + xs.length + ys.length ≤ b.capacity := by omega
  rw [EStateM.bind, emit_ok hxs, emit_ok h]
  show emit ys (b.extended xs hxs) = _
  rw [emit_ok hys]
  simp only [extended, putAll_append, List.length_append, Nat.add_assoc]

/-- So are any number of pieces. -/
theorem emitAll_eq {pieces : List (List Byte)}
    (h : b.offset + pieces.flatten.length ≤ b.capacity) :
    emitAll pieces b = emit pieces.flatten b := by
  induction pieces generalizing b with
  | nil => exact (emit_ok h).symm
  | cons piece rest ih =>
    rw [List.flatten_cons] at h ⊢
    rw [← emit_append h]
    have hlen : (piece ++ rest.flatten).length = piece.length + rest.flatten.length :=
      List.length_append
    have hpiece : b.offset + piece.length ≤ b.capacity := by omega
    show EStateM.bind (emit piece) (fun _ => emitAll rest) b = _
    rw [EStateM.bind, EStateM.bind, emit_ok hpiece]
    exact ih (b := b.extended piece hpiece) (by rw [extended_offset, extended_capacity]; omega)

/-! ## Bytes that are appended -/

theorem size_put_le (a : Array Byte) (i : Nat) (v : Byte) :
    (put a i v).size ≤ max a.size (i + 1) := by
  unfold put
  split
  · rw [Array.size_set]
    exact Nat.le_max_left _ _
  · rw [Array.size_push, Array.size_append, Array.size_replicate]
    omega

/-- What is written reaches no further than before, or to the end of the bytes. -/
theorem size_putAll_le (a : Array Byte) (i : Nat) (bytes : List Byte) :
    (putAll a i bytes).size ≤ max a.size (i + bytes.length) := by
  induction bytes generalizing a i with
  | nil => exact Nat.le_max_left _ _
  | cons v rest ih =>
    have hput := size_put_le a i v
    have hrest := ih (put a i v) (i + 1)
    rw [putAll, List.length_cons]
    omega

/-- The second buffer holds some bytes more than the first. -/
structure Appends (b : CodeBuffer) (bytes : List Byte) (b' : CodeBuffer) : Prop where
  offset : b'.offset = b.offset + bytes.length
  capacity : b'.capacity = b.capacity
  before : ∀ i, i < b.offset → b'.byteAt i = b.byteAt i
  bytes : ∀ i v, bytes[i]? = some v → b'.byteAt (b.offset + i) = v
  /-- Behind the new offset nothing is written that was not there. -/
  size : b'.written.size ≤ max b.written.size b'.offset

theorem emit_appends {piece : List Byte} (h : b.offset + piece.length ≤ b.capacity) :
    ∃ b', emit piece b = .ok () b' ∧ b.Appends piece b' := by
  refine ⟨_, emit_ok h, rfl, rfl, fun i hi => ?_, fun i v hv => ?_, size_putAll_le _ _ _⟩
  · rw [byteAt_extended, if_neg (by omega)]
  · have hi : i < piece.length := (List.getElem?_eq_some_iff.mp hv).1
    rw [byteAt_extended, if_pos (by omega), Nat.add_sub_cancel_left,
      List.getD_eq_getElem?_getD, hv]
    rfl

theorem emitAll_appends {pieces : List (List Byte)}
    (h : b.offset + pieces.flatten.length ≤ b.capacity) :
    ∃ b', emitAll pieces b = .ok () b' ∧ b.Appends pieces.flatten b' := by
  rw [emitAll_eq h]
  exact emit_appends h

theorem Appends.trans {xs ys : List Byte} (h : b.Appends xs b') (h' : b'.Appends ys b'') :
    b.Appends (xs ++ ys) b'' where
  offset := by rw [h'.offset, h.offset, List.length_append, Nat.add_assoc]
  capacity := h'.capacity.trans h.capacity
  before i hi := (h'.before i (h.offset ▸ Nat.lt_add_right _ hi)).trans (h.before i hi)
  bytes i v hv := by
    by_cases hi : i < xs.length
    · rw [List.getElem?_append_left hi] at hv
      rw [h'.before _ (by rw [h.offset]; omega), h.bytes i v hv]
    · rw [List.getElem?_append_right (Nat.le_of_not_lt hi)] at hv
      have hlast := h'.bytes _ v hv
      rwa [h.offset, Nat.add_assoc, Nat.add_sub_cancel' (Nat.le_of_not_lt hi)] at hlast
  size := by
    have hsize := h.size
    have hsize' := h'.size
    have hoffset := h'.offset
    omega

/-- A word that was appended may be overwritten. -/
theorem Appends.withWord {v : BitVec 32} (h : b.Appends (le32 v) b') (w : BitVec 32) :
    b.Appends (le32 w) (b'.withWord b.offset w) where
  offset := h.offset
  capacity := h.capacity
  before i hi := (byteAt_withWord (.inl hi)).trans (h.before i hi)
  bytes _ _ hx := byteAt_withWord_self hx
  size := by
    have hput := size_putAll_le b'.written b.offset (le32 w)
    have hlen : (le32 w).length = 4 := rfl
    have hoffset : b'.offset = b.offset + 4 := h.offset
    have hsize := h.size
    have hend : (b'.withWord b.offset w).offset = b'.offset := rfl
    rw [written_withWord, hend]
    omega

end CodeBuffer

namespace Assembly

/-! ## Programs -/

/-- A line of a program. -/
inductive Line where
  /-- Bytes as they are. -/
  | raw (piece : List Byte)
  | jump (l : Nat)
  | jumpIf (l : Nat) (cond : X86.Cond)
  | bind (l : Nat)
deriving DecidableEq

namespace Line

/-- Write a line down. -/
def write : Line → Action Unit
  | raw piece => onBuffer (CodeBuffer.emit piece)
  | jump l => Assembly.jump l
  | jumpIf l cond => Assembly.jumpIf l cond
  | bind l => Assembly.bind l

/-- The label that a line branches to. -/
def target? : Line → Option Nat
  | jump l | jumpIf l _ => some l
  | raw _ | bind _ => none

/-- The label that a line binds. -/
def bound? : Line → Option Nat
  | bind l => some l
  | raw _ | jump _ | jumpIf _ _ => none

/-- The bytes of a line in front of its displacement. -/
def opening : Line → List Byte
  | raw piece => piece
  | jump _ => [0xE9]
  | jumpIf _ cond => [0x0F, (8 : BitVec 4) ++ cond.code]
  | bind _ => []

/-- How many bytes a line takes. -/
def size (line : Line) : Nat := line.opening.length + if line.target?.isSome then 4 else 0

/-- Where the displacement of a line that starts at `pos` lies. -/
def field (line : Line) (pos : Nat) : Nat := pos + line.opening.length

end Line

/-- Write lines down one after another. -/
def writeAll : List Line → Action Unit
  | [] => pure ()
  | line :: rest => do
      line.write
      writeAll rest

/-- Where lines end that start at `pos`. -/
def stop (pos : Nat) : List Line → Nat
  | [] => pos
  | line :: rest => stop (pos + line.size) rest

/-- Among lines that start at `start` there is one at `pos`. -/
def Line.At (start : Nat) (lines : List Line) (pos : Nat) (line : Line) : Prop :=
  ∃ before after, lines = before ++ line :: after ∧ stop start before = pos

variable {start pos pos' : Nat} {line line' : Line} {lines : List Line} {l : Nat}

theorem stop_append (start : Nat) (xs ys : List Line) :
    stop start (xs ++ ys) = stop (stop start xs) ys := by
  induction xs generalizing start with
  | nil => rfl
  | cons x xs ih => exact ih _

theorem le_stop (start : Nat) (lines : List Line) : start ≤ stop start lines := by
  induction lines generalizing start with
  | nil => exact Nat.le_refl _
  | cons line rest ih => exact Nat.le_trans (Nat.le_add_right _ _) (ih _)

namespace Line.At

theorem mem (h : Line.At start lines pos line) : line ∈ lines := by
  obtain ⟨before, after, rfl, -⟩ := h
  exact List.mem_append_right _ List.mem_cons_self

theorem stop_le (h : Line.At start lines pos line) : pos + line.size ≤ stop start lines := by
  obtain ⟨before, after, rfl, rfl⟩ := h
  rw [stop_append]
  exact le_stop _ after

theorem concat_iff : Line.At start (lines ++ [line']) pos line ↔
    Line.At start lines pos line ∨ pos = stop start lines ∧ line = line' := by
  constructor
  · rintro ⟨before, after, heq, rfl⟩
    rcases List.eq_nil_or_concat after with rfl | ⟨init, z, rfl⟩
    · obtain ⟨rfl, hline⟩ := List.append_inj' heq rfl
      exact .inr ⟨rfl, (List.head_eq_of_cons_eq hline).symm⟩
    · rw [List.concat_eq_append, ← List.cons_append, ← List.append_assoc] at heq
      exact .inl ⟨before, init, (List.append_inj' heq rfl).1, rfl⟩
  · rintro (⟨before, after, rfl, rfl⟩ | ⟨rfl, rfl⟩)
    · exact ⟨before, after ++ [line'], by rw [List.append_assoc, List.cons_append], rfl⟩
    · exact ⟨lines, [], rfl, rfl⟩

/-- Of two lines one lies behind the other. -/
theorem apart (h : Line.At start lines pos line) (h' : Line.At start lines pos' line') :
    pos = pos' ∧ line = line' ∨ pos + line.size ≤ pos' ∨ pos' + line'.size ≤ pos := by
  induction lines using List.reverseRecOn with
  | nil => cases h.mem
  | append_singleton init last ih =>
    rcases concat_iff.mp h with hinit | ⟨hpos, hline⟩
    · rcases concat_iff.mp h' with hinit' | ⟨hpos', -⟩
      · exact ih hinit hinit'
      · exact .inr (.inl (hpos' ▸ hinit.stop_le))
    · rcases concat_iff.mp h' with hinit' | ⟨hpos', hline'⟩
      · exact .inr (.inr (hpos ▸ hinit'.stop_le))
      · exact .inl ⟨hpos.trans hpos'.symm, hline.trans hline'.symm⟩

end Line.At

/-! ## Displacements -/

/-- Among lines that start at `start` there is a branch to the label with its
displacement at `field`. -/
def Refers (start : Nat) (lines : List Line) (l field : Nat) : Prop :=
  ∃ pos line, Line.At start lines pos line ∧ line.target? = some l ∧ line.field pos = field

theorem Line.field_end (h : line.target? = some l) (pos : Nat) :
    line.field pos + 4 = pos + line.size := by
  rw [Line.field, Line.size, h, Option.isSome_some, if_pos rfl, Nat.add_assoc]

namespace Refers

variable {l' field field' : Nat}

theorem concat_iff : Refers start (lines ++ [line]) l field ↔
    Refers start lines l field ∨ line.target? = some l ∧ line.field (stop start lines) = field := by
  constructor
  · rintro ⟨pos, line', h, htarget, hfield⟩
    rcases Line.At.concat_iff.mp h with h | ⟨rfl, rfl⟩
    · exact .inl ⟨pos, line', h, htarget, hfield⟩
    · exact .inr ⟨htarget, hfield⟩
  · rintro (⟨pos, line', h, hrest⟩ | h)
    · exact ⟨pos, line', Line.At.concat_iff.mpr (.inl h), hrest⟩
    · exact ⟨_, line, Line.At.concat_iff.mpr (.inr ⟨rfl, rfl⟩), h⟩

theorem le_stop (h : Refers start lines l field) : field + 4 ≤ stop start lines := by
  obtain ⟨pos, line, hat, htarget, rfl⟩ := h
  exact line.field_end htarget pos ▸ hat.stop_le

/-- Displacements do not overlap. -/
theorem apart (h : Refers start lines l field) (h' : Refers start lines l' field') :
    l = l' ∧ field = field' ∨ field + 4 ≤ field' ∨ field' + 4 ≤ field := by
  obtain ⟨pos, line, hat, htarget, rfl⟩ := h
  obtain ⟨pos', line', hat', htarget', rfl⟩ := h'
  have hend := line.field_end htarget pos
  have hend' := line'.field_end htarget' pos'
  have hle : pos ≤ line.field pos := Nat.le_add_right _ _
  have hle' : pos' ≤ line'.field pos' := Nat.le_add_right _ _
  rcases hat.apart hat' with ⟨rfl, rfl⟩ | h | h
  · exact .inl ⟨Option.some.inj (htarget.symm.trans htarget'), rfl⟩
  · exact .inr (.inl (by omega))
  · exact .inr (.inr (by omega))

/-- Nor do they reach into what stands in front of one. -/
theorem apart_opening (h : Refers start lines l field) (hat : Line.At start lines pos line)
    {i : Nat} (hi : i < line.opening.length) : pos + i < field ∨ field + 4 ≤ pos + i := by
  obtain ⟨pos', line', hat', htarget, rfl⟩ := h
  have hend := line'.field_end htarget pos'
  have hle : pos' ≤ line'.field pos' := Nat.le_add_right _ _
  have hsize : line.opening.length ≤ line.size := Nat.le_add_right _ _
  rcases hat.apart hat' with ⟨rfl, rfl⟩ | h | h
  · exact .inl (Nat.add_lt_add_left hi pos)
  · exact .inl (by omega)
  · exact .inr (by omega)

end Refers

/-- The displacement at `field` to a label, which is zero until the label is bound. -/
def displacement (field : Nat) : Option Nat → BitVec 32
  | some target => BitVec.ofInt 32 (target - (field + 4))
  | none => 0

/-- In small buffers a displacement leads to its target. -/
theorem displacement_reaches {field target n : Nat} (hn : n < 2 ^ 31) (hfield : field + 4 ≤ n)
    (htarget : target ≤ n) :
    (field : Int) + 4 + (displacement field (some target)).toInt = target := by
  rw [displacement, BitVec.toInt_ofInt, Int.bmod_eq_of_le] <;> omega

/-! ## Filling in -/

theorem signed64_of_lt {n : Nat} (h : n < 2 ^ 63) : signed64 n = n := by
  have hword : (BitVec.ofNat 64 n).toNat = n := by
    rw [BitVec.toNat_ofNat, Nat.mod_eq_of_lt (by omega)]
  rw [signed64, BitVec.toInt_eq_toNat_of_lt (by omega), hword]

variable {a : Assembly}

theorem patchDisplacement_ok {field target : Nat} (hfield : field + 4 ≤ a.buffer.capacity)
    (htarget : target ≤ a.buffer.capacity) :
    patchDisplacement field target a = .ok ()
      { a with buffer := a.buffer.withWord field (displacement field (some target)) } := by
  have hlt := a.buffer.capacity_lt
  have hfits : (fitsSigned64 (signed64 field + 4) &&
      fitsSigned64 (signed64 target - (signed64 field + 4))) = true := by
    rw [signed64_of_lt (by omega), signed64_of_lt (by omega)]
    simp only [fitsSigned64, Bool.and_eq_true, decide_eq_true_eq]
    omega
  show (if _ then _ else _ : Action Unit) a = _
  rw [if_pos hfits, onBuffer, CodeBuffer.patch32_ok hfield, signed64_of_lt (by omega),
    signed64_of_lt (by omega)]
  rfl

/-- What filling in does: the displacements get their values, and no other byte
changes. -/
theorem resolve_spec (target : Nat) (uses : List Nat)
    (huses : ∀ field ∈ uses, field + 4 ≤ a.buffer.capacity) (htarget : target ≤ a.buffer.capacity)
    (hapart : ∀ field ∈ uses, ∀ field' ∈ uses,
      field = field' ∨ field + 4 ≤ field' ∨ field' + 4 ≤ field) :
    ∃ b, resolve target uses a = .ok () { a with buffer := b } ∧
      b.offset = a.buffer.offset ∧ b.capacity = a.buffer.capacity ∧
      (∀ field ∈ uses, b.wordAt field = displacement field (some target)) ∧
      ∀ i, (∀ field ∈ uses, i < field ∨ field + 4 ≤ i) → b.byteAt i = a.buffer.byteAt i := by
  induction uses generalizing a with
  | nil => exact ⟨a.buffer, rfl, rfl, rfl, nofun, fun _ _ => rfl⟩
  | cons field rest ih =>
    generalize hpatched : a.buffer.withWord field (displacement field (some target)) = b₁
    have hcapacity : b₁.capacity = a.buffer.capacity := hpatched ▸ rfl
    obtain ⟨b, hrest, hoffset, hcap, hword, hbyte⟩ := ih (a := { a with buffer := b₁ })
      (fun f hf => hcapacity.symm ▸ huses f (List.mem_cons_of_mem _ hf)) (hcapacity.symm ▸ htarget)
      fun f hf f' hf' => hapart f (List.mem_cons_of_mem _ hf) f' (List.mem_cons_of_mem _ hf')
    refine ⟨b, ?_, hoffset.trans (hpatched ▸ rfl), hcap.trans hcapacity, fun f hf => ?_,
      fun i hi => ?_⟩
    · refine (run_bind (patchDisplacement_ok (huses field List.mem_cons_self) htarget)).trans ?_
      rw [hpatched]
      exact hrest
    · by_cases hlater : f ∈ rest
      · exact hword f hlater
      · -- the first of the displacements is not touched again
        obtain rfl : f = field := (List.mem_cons.mp hf).resolve_right hlater
        have hsame : b.wordAt f = b₁.wordAt f := CodeBuffer.wordAt_congr fun i hi hi' => by
          refine hbyte i fun f' hf' => ?_
          rcases hapart f hf f' (List.mem_cons_of_mem _ hf') with rfl | h | h
          · exact absurd hf' hlater
          · exact .inl (by omega)
          · exact .inr (by omega)
        rw [hsame, ← hpatched, CodeBuffer.wordAt_withWord]
    · rw [hbyte i fun f hf => hi f (List.mem_cons_of_mem _ hf), ← hpatched]
      exact CodeBuffer.byteAt_withWord (hi field List.mem_cons_self)

section

variable {α : Type} {a' : Assembly} {l : Nat}

theorem onBuffer_ok {action : CodeBuffer.Action α} {v : α} {b : CodeBuffer}
    (h : action a.buffer = .ok v b) : onBuffer action a = .ok v { a with buffer := b } := by
  rw [onBuffer, h]

/-- A displacement that has been written is filled in, if its label has a value. -/
theorem reference_bound {target : Nat} (hemit : onBuffer (CodeBuffer.emit (le32 0)) a = .ok () a')
    (hvalue : (a'.labels l).value = some target) :
    reference l a = patchDisplacement a.buffer.offset target a' := by
  refine (run_bind (m := get) rfl).trans ((run_bind hemit).trans ((run_bind (m := get) rfl).trans ?_))
  simp only [hvalue]

/-- A label without a value remembers it. -/
theorem reference_waits (hemit : onBuffer (CodeBuffer.emit (le32 0)) a = .ok () a')
    (hvalue : (a'.labels l).value = none) :
    reference l a =
      setLabel l { a'.labels l with uses := (a'.labels l).uses ++ [a.buffer.offset] } a' := by
  refine (run_bind (m := get) rfl).trans ((run_bind hemit).trans ((run_bind (m := get) rfl).trans ?_))
  simp only [hvalue]

/-- Without room for it there is none. -/
theorem reference_full {e : Fault} (hemit : onBuffer (CodeBuffer.emit (le32 0)) a = .error e a') :
    reference l a = .error e a' := by
  refine (run_bind (m := get) rfl).trans ?_
  show EStateM.bind (onBuffer (CodeBuffer.emit (le32 0))) _ a = _
  rw [EStateM.bind, hemit]

end

/-- Writing a displacement: it is appended as it will be, or as zero for a label that
has no value yet, which then remembers it. -/
theorem reference_spec (l : Nat) (hroom : a.buffer.offset + 4 ≤ a.buffer.capacity)
    (hvalue : ∀ target, (a.labels l).value = some target → target ≤ a.buffer.capacity) :
    ∃ a', reference l a = .ok () a' ∧
      a.buffer.Appends (le32 (displacement a.buffer.offset (a.labels l).value)) a'.buffer ∧
      (∀ k, (a'.labels k).value = (a.labels k).value) ∧
      ∀ k field, field ∈ (a'.labels k).uses ↔ field ∈ (a.labels k).uses ∨
        k = l ∧ (a.labels l).value = none ∧ field = a.buffer.offset := by
  have hfits : a.buffer.offset + (le32 0).length ≤ a.buffer.capacity := hroom
  obtain ⟨b, hemit, happ⟩ := CodeBuffer.emit_appends hfits
  have hzero : onBuffer (CodeBuffer.emit (le32 0)) a = .ok () { a with buffer := b } :=
    onBuffer_ok hemit
  cases hbound : (a.labels l).value with
  | none =>
    refine ⟨_, reference_waits hzero hbound, happ, fun k => ?_, fun k field => ?_⟩
    · show (if k = l then _ else a.labels k : Label).value = _
      split
      · rename_i hk
        rw [hk, hbound]
      · rfl
    · show field ∈ (if k = l then _ else a.labels k : Label).uses ↔ _
      split
      · rename_i hk
        rw [hk, List.mem_append, List.mem_singleton]
        simp
      · rename_i hk
        simp [hk]
  | some target =>
    have hpatched : patchDisplacement a.buffer.offset target { a with buffer := b } = .ok () _ :=
      patchDisplacement_ok (happ.capacity.symm ▸ hroom) (happ.capacity.symm ▸ hvalue target hbound)
    exact ⟨_, (reference_bound hzero hbound).trans hpatched, happ.withWord _, fun _ => rfl, by simp⟩

/-! ## One line -/

/-- What lines leave that were written down at the end of a buffer. -/
structure Linked (b : CodeBuffer) (lines : List Line) (a : Assembly) : Prop where
  offset : a.buffer.offset = stop b.offset lines
  capacity : a.buffer.capacity = b.capacity
  /-- A label is bound where a line binds it. -/
  value : ∀ l pos, (a.labels l).value = some pos ↔ Line.At b.offset lines pos (.bind l)
  /-- What waits for a label is every branch to it, until it is bound. -/
  uses : ∀ l field, field ∈ (a.labels l).uses ↔
    .bind l ∉ lines ∧ Refers b.offset lines l field
  opening : ∀ pos line, Line.At b.offset lines pos line → ∀ i v, line.opening[i]? = some v →
    a.buffer.byteAt (pos + i) = v
  word : ∀ l field, Refers b.offset lines l field →
    a.buffer.wordAt field = displacement field (a.labels l).value

namespace Linked

variable {b : CodeBuffer}

theorem nil (b : CodeBuffer) : Linked b [] { buffer := b } where
  offset := rfl
  capacity := rfl
  value _ _ := ⟨nofun, fun h => nomatch h.mem⟩
  uses _ _ := ⟨nofun, fun ⟨_, _, _, h, _⟩ => nomatch h.mem⟩
  opening _ _ h := nomatch h.mem
  word _ _ := fun ⟨_, _, h, _⟩ => nomatch h.mem

/-- A label without a value is one that no line binds. -/
theorem value_eq_none_iff (h : Linked b lines a) : (a.labels l).value = none ↔ .bind l ∉ lines := by
  rw [Option.eq_none_iff_forall_ne_some]
  constructor
  · intro hnone hmem
    obtain ⟨before, after, hsplit⟩ := List.append_of_mem hmem
    exact hnone _ ((h.value l _).mpr ⟨before, after, hsplit, rfl⟩)
  · intro hnot pos hpos
    exact hnot ((h.value l pos).mp hpos).mem

/-- Bytes behind the last line change nothing of what is in front of them. -/
theorem appends (h : Linked b lines a) {bytes : List Byte} {b' : CodeBuffer}
    (happ : a.buffer.Appends bytes b') :
    (∀ pos line, Line.At b.offset lines pos line → ∀ i v, line.opening[i]? = some v →
      b'.byteAt (pos + i) = v) ∧
    ∀ l field, Refers b.offset lines l field →
      b'.wordAt field = displacement field (a.labels l).value := by
  have hbefore (i) (hi : i < stop b.offset lines) : b'.byteAt i = a.buffer.byteAt i :=
    happ.before i (h.offset ▸ hi)
  constructor
  · intro pos line hat i v hv
    have hi : i < line.opening.length := (List.getElem?_eq_some_iff.mp hv).1
    have hend := hat.stop_le
    have hsize : line.opening.length ≤ line.size := Nat.le_add_right _ _
    rw [hbefore _ (by omega)]
    exact h.opening pos line hat i v hv
  · intro l field href
    have hend := href.le_stop
    rw [CodeBuffer.wordAt_congr fun i _ hi => hbefore i (by omega)]
    exact h.word l field href

theorem raw (h : Linked b lines a) {piece : List Byte}
    (hroom : stop b.offset (lines ++ [.raw piece]) ≤ b.capacity) :
    ∃ a', (Line.raw piece).write a = .ok () a' ∧ Linked b (lines ++ [.raw piece]) a' := by
  have hend : stop b.offset (lines ++ [.raw piece]) = a.buffer.offset + piece.length := by
    rw [stop_append, ← h.offset]
    rfl
  have hfits : a.buffer.offset + piece.length ≤ a.buffer.capacity := by
    rw [h.capacity, ← hend]
    exact hroom
  obtain ⟨b', hemit, happ⟩ := CodeBuffer.emit_appends hfits
  obtain ⟨hopening, hword⟩ := h.appends happ
  refine ⟨{ a with buffer := b' }, ?_, happ.offset.trans hend.symm, happ.capacity.trans h.capacity,
    fun l pos => ?_, fun l field => ?_, fun pos line hat => ?_, fun l field href => ?_⟩
  · show onBuffer (CodeBuffer.emit piece) a = _
    rw [onBuffer, hemit]
  · rw [Line.At.concat_iff, ← h.value l pos]
    simp
  · rw [Refers.concat_iff, List.mem_append, ← or_false (Refers _ _ _ _), h.uses l field]
    simp [Line.target?]
  · rcases Line.At.concat_iff.mp hat with hat | ⟨rfl, rfl⟩
    · exact hopening pos line hat
    · exact h.offset ▸ happ.bytes
  · rcases Refers.concat_iff.mp href with href | ⟨htarget, -⟩
    · exact hword l field href
    · cases htarget

theorem value_le (h : Linked b lines a) {l target : Nat} (hl : (a.labels l).value = some target) :
    target ≤ stop b.offset lines :=
  Nat.le_trans (Nat.le_add_right _ _) ((h.value l target).mp hl).stop_le

/-- A branch: what it begins with, and its displacement. -/
theorem branch (h : Linked b lines a) (htarget : line.target? = some l) {b₁ : CodeBuffer} {opened : Action Unit}
    (hopened : opened a = .ok () { a with buffer := b₁ }) (happ : a.buffer.Appends line.opening b₁)
    (hroom : stop b.offset (lines ++ [line]) ≤ b.capacity) :
    ∃ a', (opened >>= fun _ => reference l) a = .ok () a' ∧ Linked b (lines ++ [line]) a' := by
  have hfield : b₁.offset = line.field (stop b.offset lines) := by
    rw [happ.offset, h.offset, Line.field]
  have hend : stop b.offset (lines ++ [line]) = b₁.offset + 4 := by
    rw [stop_append, hfield, line.field_end htarget]
    rfl
  have hcapacity : b₁.capacity = b.capacity := happ.capacity.trans h.capacity
  obtain ⟨a', href, hdisp, hvalue, huses⟩ := reference_spec (a := { a with buffer := b₁ }) l
    (by rw [hcapacity, ← hend]; exact hroom) fun target hl => by
      have hle := h.value_le hl
      have hlast := stop_append b.offset lines [line] ▸ le_stop (stop b.offset lines) [line]
      show target ≤ b₁.capacity
      omega
  obtain ⟨hopening, hword⟩ := h.appends (happ.trans hdisp)
  dsimp only at hdisp hvalue huses
  refine ⟨a', ?_, ?_, hdisp.capacity.trans hcapacity, fun k pos => ?_, fun k field => ?_,
    fun pos line' hat i v hv => ?_, fun k field hrefers => ?_⟩
  · show EStateM.bind opened _ a = _
    rw [EStateM.bind, hopened]
    exact href
  · rw [hdisp.offset, hend]
    rfl
  · rw [hvalue, h.value, Line.At.concat_iff, or_iff_left]
    rintro ⟨-, rfl⟩
    cases htarget
  · have hnot : Line.bind k ∉ [line] := by
      intro hmem
      cases List.mem_singleton.mp hmem
      cases htarget
    rw [huses, h.uses, Refers.concat_iff, List.mem_append, or_iff_left hnot, ← hfield, htarget,
      h.value_eq_none_iff]
    constructor
    · rintro (⟨hunbound, hk⟩ | ⟨rfl, hunbound, rfl⟩)
      · exact ⟨hunbound, .inl hk⟩
      · exact ⟨hunbound, .inr ⟨rfl, rfl⟩⟩
    · rintro ⟨hunbound, hk | ⟨hk, rfl⟩⟩
      · exact .inl ⟨hunbound, hk⟩
      · cases hk
        exact .inr ⟨rfl, hunbound, rfl⟩
  · rcases Line.At.concat_iff.mp hat with hat | ⟨rfl, rfl⟩
    · exact hopening pos line' hat i v hv
    · have hi : i < line'.opening.length := (List.getElem?_eq_some_iff.mp hv).1
      rw [hdisp.before _ (by rw [happ.offset, h.offset]; omega), ← h.offset]
      exact happ.bytes i v hv
  · rw [hvalue]
    rcases Refers.concat_iff.mp hrefers with hold | ⟨hk, rfl⟩
    · exact hword k field hold
    · cases htarget.symm.trans hk
      rw [← hfield]
      exact CodeBuffer.wordAt_of_bytes hdisp.bytes

/-- A label that is bound: what waits for it is filled in. -/
theorem bind (h : Linked b lines a) (hroom : stop b.offset lines ≤ b.capacity) (hnew : .bind l ∉ lines) :
    ∃ a', (Line.bind l).write a = .ok () a' ∧ Linked b (lines ++ [.bind l]) a' ∧
      ∀ i, (∀ field, Refers b.offset lines l field → i < field ∨ field + 4 ≤ i) →
        a'.buffer.byteAt i = a.buffer.byteAt i := by
  have hwaits (field) (hf : field ∈ (a.labels l).uses) : Refers b.offset lines l field :=
    ((h.uses l field).mp hf).2
  have hcapacity : a.buffer.capacity = b.capacity := h.capacity
  obtain ⟨b', hresolve, hoffset, hcap, hword, hbyte⟩ :=
    resolve_spec a.buffer.offset (a.labels l).uses
    (a := { a with
      labels := fun k => if k = l then { value := some a.buffer.offset } else a.labels k })
    (fun field hf => hcapacity.symm ▸ Nat.le_trans (hwaits field hf).le_stop hroom)
    (by rw [hcapacity, h.offset]; exact hroom) fun field hf field' hf' =>
      ((hwaits field hf).apart (hwaits field' hf')).imp_left And.right
  have hvalue (k) : ((if k = l then { value := some a.buffer.offset } else a.labels k : Label)).value =
      if k = l then some (stop b.offset lines) else (a.labels k).value := by
    split
    · rw [h.offset]
    · rfl
  have hrefers (k field) : Refers b.offset (lines ++ [.bind l]) k field ↔
      Refers b.offset lines k field := by
    rw [Refers.concat_iff]
    exact or_iff_left fun hl => nomatch hl.1
  have houtside (i) (hi : ∀ field, Refers b.offset lines l field → i < field ∨ field + 4 ≤ i) :
      b'.byteAt i = a.buffer.byteAt i := hbyte i fun field hf => hi field (hwaits field hf)
  refine ⟨_, hresolve, ⟨?_, hcap.trans hcapacity, fun k pos => ?_, fun k field => ?_,
    fun pos line hat i v hv => ?_, fun k field hf => ?_⟩, houtside⟩
  · rw [stop_append]
    exact hoffset.trans h.offset
  · rw [Line.At.concat_iff, hvalue]
    split
    · rename_i hk
      subst hk
      rw [or_iff_right fun hat => hnew hat.mem, Option.some.injEq, eq_comm, and_iff_left rfl]
    · rename_i hk
      rw [h.value, or_iff_left]
      rintro ⟨-, hl⟩
      cases hl
      exact hk rfl
  · rw [hrefers, List.mem_append, List.mem_singleton, Line.bind.injEq]
    show field ∈ (if k = l then { value := some a.buffer.offset } else a.labels k : Label).uses ↔ _
    split
    · rename_i hk
      simp [hk]
    · rename_i hk
      rw [h.uses, or_iff_left hk]
  · rcases Line.At.concat_iff.mp hat with hat | ⟨-, rfl⟩
    · have hi : i < line.opening.length := (List.getElem?_eq_some_iff.mp hv).1
      refine (houtside _ fun field hf => ?_).trans (h.opening pos line hat i v hv)
      exact hf.apart_opening hat hi
    · cases hv
  · have hold := (hrefers k field).mp hf
    rw [hvalue]
    split
    · rename_i hk
      subst hk
      rw [← h.offset]
      exact hword field ((h.uses k field).mpr ⟨hnew, hold⟩)
    · rename_i hk
      rw [CodeBuffer.wordAt_congr fun i hi hi' => houtside i fun field' hf' => ?_]
      · exact h.word k field hold
      · rcases hold.apart hf' with ⟨hkl, -⟩ | h | h
        · exact absurd hkl hk
        · exact .inl (by omega)
        · exact .inr (by omega)

/-- A line is written down, and everything is where the lines say. -/
theorem write (h : Linked b lines a) (hroom : stop b.offset (lines ++ [line]) ≤ b.capacity)
    (hnew : ∀ l, line = .bind l → .bind l ∉ lines) :
    ∃ a', line.write a = .ok () a' ∧ Linked b (lines ++ [line]) a' := by
  have hend : stop b.offset (lines ++ [line]) = a.buffer.offset + line.size := by
    rw [stop_append, ← h.offset]
    rfl
  have hopening : a.buffer.offset + line.opening.length ≤ a.buffer.capacity := by
    have hsize : line.opening.length ≤ line.size := Nat.le_add_right _ _
    rw [h.capacity]
    omega
  cases line with
  | raw piece => exact h.raw hroom
  | jump l =>
    obtain ⟨b₁, hemit, happ⟩ := CodeBuffer.emit_appends hopening
    have hopened : onBuffer (CodeBuffer.emit [0xE9]) a = .ok () { a with buffer := b₁ } := by
      rw [onBuffer, show CodeBuffer.emit [0xE9] a.buffer = _ from hemit]
    exact h.branch rfl hopened happ hroom
  | jumpIf l cond =>
    have hfits : a.buffer.offset + [[0x0F], [(8 : BitVec 4) ++ cond.code]].flatten.length ≤
        a.buffer.capacity := hopening
    obtain ⟨b₁, hemit, happ⟩ := CodeBuffer.emitAll_appends hfits
    exact h.branch rfl (by rw [onBuffer, hemit]) happ hroom
  | bind l =>
    rw [stop_append] at hroom
    obtain ⟨a', hwrite, hlinked, -⟩ := h.bind hroom (hnew l rfl)
    exact ⟨a', hwrite, hlinked⟩

end Linked

/-! ## Whole programs -/

variable {b : CodeBuffer}

theorem writeAll_append {xs ys : List Line} {a' : Assembly} (h : writeAll xs a = .ok () a') :
    writeAll (xs ++ ys) a = writeAll ys a' := by
  induction xs generalizing a with
  | nil =>
    cases h
    rfl
  | cons x xs ih =>
    change EStateM.bind x.write (fun _ => writeAll xs) a = _ at h
    show EStateM.bind x.write (fun _ => writeAll (xs ++ ys)) a = _
    rw [EStateM.bind] at h ⊢
    split at h
    · exact ih h
    · cases h

/-- Lines that have room are written down, one after another. -/
theorem exists_linked (hroom : stop b.offset lines ≤ b.capacity)
    (honce : (lines.filterMap Line.bound?).Nodup) :
    ∃ a, writeAll lines { buffer := b } = .ok () a ∧ Linked b lines a := by
  induction lines using List.reverseRecOn with
  | nil => exact ⟨_, rfl, .nil b⟩
  | append_singleton init line ih =>
    rw [List.filterMap_append, List.nodup_append] at honce
    have hinit : stop b.offset init ≤ b.capacity := by
      have hle := le_stop (stop b.offset init) [line]
      rw [stop_append] at hroom
      omega
    obtain ⟨a, hwritten, hlinked⟩ := ih hinit honce.1
    obtain ⟨a', hwrite, hlinked'⟩ := hlinked.write hroom fun l hl hmem =>
      honce.2.2 l (List.mem_filterMap.mpr ⟨_, hmem, rfl⟩) l (by rw [hl]; exact List.mem_singleton_self l) rfl
    refine ⟨a', (writeAll_append hwritten).trans ?_, hlinked'⟩
    exact run_bind hwrite

/-- Lines that have room in a small buffer and bind no label twice are written down
without a fault.  Every branch to a label that is bound, in front of it or behind it,
leads from the end of its displacement to where the label is bound; a branch to a
label that is not bound has a displacement of zero.  What waits for a label is
something just if there is a branch to it and it is not bound.  Binding a label changes
no byte but those of the displacements of earlier branches to it, and what stands in
front of a displacement is what the line puts there. -/
theorem branches_reach_labels (b : CodeBuffer) (hsmall : b.capacity < 2 ^ 31) (lines : List Line)
    (hroom : stop b.offset lines ≤ b.capacity) (honce : (lines.filterMap Line.bound?).Nodup) :
    ∃ a, writeAll lines { buffer := b } = .ok () a ∧
      (∀ l target, (a.labels l).value = some target ↔
        Line.At b.offset lines target (.bind l)) ∧
      (∀ l target pos line, Line.At b.offset lines target (.bind l) →
        Line.At b.offset lines pos line → line.target? = some l →
        ∃ f, CodeBuffer.read32 (line.field pos) a.buffer = .ok f a.buffer ∧
          (line.field pos : Int) + 4 + f.toInt = target) ∧
      (∀ l, (a.labels l).uses ≠ [] ↔ .bind l ∉ lines ∧ ∃ line ∈ lines, line.target? = some l) ∧
      (∀ l pos line, .bind l ∉ lines → Line.At b.offset lines pos line → line.target? = some l →
        CodeBuffer.read32 (line.field pos) a.buffer = .ok 0 a.buffer) ∧
      (∀ pos line, Line.At b.offset lines pos line → ∀ i v, line.opening[i]? = some v →
        a.buffer.byteAt (pos + i) = v) ∧
      ∀ before l after, lines = before ++ .bind l :: after →
        ∃ a₁ a₂, writeAll before { buffer := b } = .ok () a₁ ∧
          (Line.bind l).write a₁ = .ok () a₂ ∧
          ∀ i, a₂.buffer.byteAt i ≠ a₁.buffer.byteAt i →
            ∃ pos line, Line.At b.offset before pos line ∧ line.target? = some l ∧
              line.field pos ≤ i ∧ i < line.field pos + 4 := by
  obtain ⟨a, hwritten, h⟩ := exists_linked hroom honce
  have hread {l pos : Nat} {line : Line} (hat : Line.At b.offset lines pos line)
      (htarget : line.target? = some l) : CodeBuffer.read32 (line.field pos) a.buffer =
        .ok (displacement (line.field pos) (a.labels l).value) a.buffer := by
    have hrefers : Refers b.offset lines l (line.field pos) := ⟨pos, line, hat, htarget, rfl⟩
    rw [← h.word l _ hrefers]
    exact CodeBuffer.read32_ok (h.capacity ▸ Nat.le_trans hrefers.le_stop hroom)
  refine ⟨a, hwritten, h.value, fun l target pos line hbind hat htarget => ?_, fun l => ?_,
    fun l pos line hnot hat htarget => ?_, h.opening, fun before l after hsplit => ?_⟩
  · have hvalue := (h.value l target).mpr hbind
    refine ⟨_, hvalue ▸ hread hat htarget, ?_⟩
    have hend := line.field_end htarget pos
    exact displacement_reaches hsmall (hend ▸ Nat.le_trans hat.stop_le hroom)
      (Nat.le_trans (h.value_le hvalue) hroom)
  · constructor
    · intro hne
      obtain ⟨field, hmem⟩ := List.exists_mem_of_ne_nil _ hne
      obtain ⟨hnot, pos, line, hat, htarget, -⟩ := (h.uses l field).mp hmem
      exact ⟨hnot, line, hat.mem, htarget⟩
    · rintro ⟨hnot, line, hmem, htarget⟩
      obtain ⟨before, after, hsplit⟩ := List.append_of_mem hmem
      exact List.ne_nil_of_mem
        ((h.uses l _).mpr ⟨hnot, _, line, ⟨before, after, hsplit, rfl⟩, htarget, rfl⟩)
  · rw [hread hat htarget, h.value_eq_none_iff.mpr hnot]
    rfl
  · subst hsplit
    rw [List.filterMap_append, List.nodup_append] at honce
    have hbefore : stop b.offset before ≤ b.capacity := by
      have hle := le_stop (stop b.offset before) (.bind l :: after)
      rw [stop_append] at hroom
      omega
    obtain ⟨a₁, hwritten₁, h₁⟩ := exists_linked hbefore honce.1
    obtain ⟨a₂, hwrite, -, houtside⟩ := h₁.bind (l := l) hbefore fun hmem =>
      honce.2.2 l (List.mem_filterMap.mpr ⟨_, hmem, rfl⟩) l List.mem_cons_self rfl
    refine ⟨a₁, a₂, hwritten₁, hwrite, fun i hi => ?_⟩
    by_contra hnone
    refine hi (houtside i fun field ⟨pos, line, hat, htarget, hfield⟩ => ?_)
    by_contra hin
    exact hnone ⟨pos, line, hat, htarget, by omega, by omega⟩

/-- Two labels with branches on both sides of the first, and none behind the second,
which stays open. -/
theorem branches_reach_labels_crossed :
    let b := CodeBuffer.ofSize 4096
    let lines : List Line := [.jumpIf 0 .e, .jump 1, .bind 0, .raw [0x90], .jump 0]
    ∃ a, writeAll lines { buffer := b } = .ok () a ∧
      (∃ f, CodeBuffer.read32 2 a.buffer = .ok f a.buffer ∧ (2 : Int) + 4 + f.toInt = 11) ∧
      (∃ f, CodeBuffer.read32 13 a.buffer = .ok f a.buffer ∧ (13 : Int) + 4 + f.toInt = 11) ∧
      CodeBuffer.read32 7 a.buffer = .ok 0 a.buffer ∧ (a.labels 1).uses ≠ [] := by
  intro b lines
  obtain ⟨a, hwritten, -, hbound, hwaits, hopen, -⟩ := branches_reach_labels b (by decide) lines
    (by decide) (by decide)
  have hbind : Line.At 0 lines 11 (.bind 0) := ⟨[.jumpIf 0 .e, .jump 1], _, rfl, rfl⟩
  refine ⟨a, hwritten, ?_, ?_, ?_, ?_⟩
  · exact hbound 0 11 0 (.jumpIf 0 .e) hbind ⟨[], _, rfl, rfl⟩ rfl
  · exact hbound 0 11 12 (.jump 0) hbind ⟨[.jumpIf 0 .e, .jump 1, .bind 0, .raw [0x90]], _, rfl, rfl⟩ rfl
  · exact hopen 1 6 (.jump 1) (by decide) ⟨[.jumpIf 0 .e], _, rfl, rfl⟩ rfl
  · exact (hwaits 1).mpr ⟨by decide, .jump 1, by decide, rfl⟩

end Assembly

end PixelPipeline
