/-
# Proofs.Running — generated code carried out

Code is a tree, and a tree has a meaning of its own: `Code.run` carries it out
by recursion on its shape, with branches taken where they stand.  It says
where the code ends, by running through or by leaving for the return, and it
is undefined where an instruction cannot be carried out.

`Code.run_steps` is the statement that the machine agrees.  The bytes of laid
out code are a row of chunks, some of them instructions and the others the
padding and the table of a selection; if a run of the tree is defined, and
nothing it stores lies in the code, the machine goes from the first
instruction to where the tree says, and every instruction on its way is one
of the chunks.

That the code stays intact is asked of the end of the run only: what was
stored halfway is among what was stored at the end.
-/
import PixelPipeline.Code.Layout
import PixelPipeline.Proofs.Cpu
import PixelPipeline.Proofs.Decoding
import PixelPipeline.X86.Call

namespace PixelPipeline

open X86

/-! ## Chunks

Laid out code is a row of chunks.  The machine may start at the ones that are
instructions. -/

/-- A stretch of laid out code. -/
inductive Chunk where
  | instr (i : Instr)
  /-- Padding or a table of addresses. -/
  | data (bytes : List Byte)

namespace Chunk

/-- The bytes of a chunk. -/
def bytes : Chunk → List Byte
  | instr i => i.bytes
  | data bs => bs

/-- The bytes of chunks one after another. -/
def code (cs : List Chunk) : List Byte := cs.flatMap bytes

/-- The length of chunks one after another. -/
def span (cs : List Chunk) : Nat := (code cs).length

theorem code_append (cs ds : List Chunk) : code (cs ++ ds) = code cs ++ code ds :=
  List.flatMap_append

theorem span_append (cs ds : List Chunk) : span (cs ++ ds) = span cs + span ds := by
  rw [span, code_append, List.length_append]; rfl

theorem code_cons (c : Chunk) (cs : List Chunk) : code (c :: cs) = c.bytes ++ code cs := rfl

theorem span_cons (c : Chunk) (cs : List Chunk) : span (c :: cs) = c.bytes.length + span cs := by
  rw [span, code_cons, List.length_append]; rfl

/-- A row of instructions. -/
def row (is : List Instr) : List Chunk := is.map instr

theorem code_row (is : List Instr) : code (row is) = Code.rowBytes is := by
  rw [code, row, List.flatMap_map]
  rfl

end Chunk

namespace Code

/-- A jump at `pos`. -/
def jumpChunk (target pos : Nat) : Chunk := .instr (.jump (displacementTo target (pos + jumpSize)))

/-- A conditional jump at `pos`. -/
def jumpIfChunk (c : Cond) (target pos : Nat) : Chunk :=
  .instr (.jumpIf c (displacementTo target (pos + jumpIfSize)))

/-- The bodies of a selection, as `bodyBytes` lays them out. -/
def bodyChunks (exit finish pos : Nat) : List (Option (List Instr)) → List Chunk
  | [] => []
  | some is :: rest =>
      Chunk.row is ++ jumpChunk finish (pos + rowSize is) ::
        bodyChunks exit finish (pos + bodySize (some is)) rest
  | none :: rest => jumpChunk exit pos :: bodyChunks exit finish (pos + bodySize none) rest

/-- The addresses of the bodies of a selection. -/
def tableBytes (base : Address) (pos : Nat) (bodies : List (Option (List Instr))) : List Byte :=
  (bodyStarts (pos + jumpSize) bodies).flatMap fun start => le64 (base + BitVec.ofNat 64 start)

/-- The padding in front of the table of a selection. -/
def tablePadding (pos : Nat) (bodies : List (Option (List Instr))) : List Byte :=
  Padding.bytes (Padding.distance (pos + jumpSize + bodiesSize bodies) 8)

/-- The dispatch of a selection. -/
def dispatchChunks (pos : Nat) (table index : Reg) (bodies : List (Option (List Instr))) :
    List Chunk :=
  [.instr (.leaRip table (displacementTo (tableStart pos bodies)
      (dispatchStart pos bodies + (Instr.leaRip table 0).size))),
    .instr (tableJump table index)]

/-- A selection, as `selectBytes` lays it out. -/
def selectChunks (base : Address) (exit pos : Nat) (table index : Reg)
    (bodies : List (Option (List Instr))) : List Chunk :=
  jumpChunk (dispatchStart pos bodies) pos ::
    (bodyChunks exit (selectEnd pos table index bodies) (pos + jumpSize) bodies ++
      (.data (tablePadding pos bodies) :: .data (tableBytes base pos bodies) ::
        dispatchChunks pos table index bodies))

/-- Code at `pos`, as `bytes` lays it out. -/
def chunks (base : Address) (exit : Nat) (pos : Nat) : Code → List Chunk
  | done => []
  | instr i next => .instr i :: next.chunks base exit (pos + i.size)
  | mark _ next => next.chunks base exit pos
  | leave next => jumpChunk exit pos :: next.chunks base exit (pos + jumpSize)
  | leaveIf c next => jumpIfChunk c exit pos :: next.chunks base exit (pos + jumpIfSize)
  | skipIf c body next =>
      let start := pos + jumpIfSize
      let finish := body.stop start
      jumpIfChunk c finish pos :: (body.chunks base exit start ++ next.chunks base exit finish)
  | choose c no yes next =>
      let noStart := pos + jumpIfSize
      let noEnd := no.stop noStart
      let yesStart := noEnd + jumpSize
      let finish := yes.stop yesStart
      jumpIfChunk c yesStart pos :: (no.chunks base exit noStart ++
        jumpChunk finish noEnd :: (yes.chunks base exit yesStart ++ next.chunks base exit finish))
  | select table index bodies next =>
      selectChunks base exit pos table index bodies ++
        next.chunks base exit (selectEnd pos table index bodies)

theorem code_bodyChunks (exit finish pos : Nat) (bodies : List (Option (List Instr))) :
    Chunk.code (bodyChunks exit finish pos bodies) = bodyBytes exit finish pos bodies := by
  induction bodies generalizing pos with
  | nil => rfl
  | cons b rest ih =>
    cases b with
    | none => rw [bodyChunks, Chunk.code_cons, ih]; rfl
    | some is =>
      rw [bodyChunks, Chunk.code_append, Chunk.code_cons, Chunk.code_row, ih, bodyBytes,
        List.append_assoc]
      rfl

theorem code_selectChunks (base : Address) (exit pos : Nat) (table index : Reg)
    (bodies : List (Option (List Instr))) :
    Chunk.code (selectChunks base exit pos table index bodies) =
      selectBytes base exit pos table index bodies := by
  simp only [selectChunks, dispatchChunks, Chunk.code_cons, Chunk.code_append, code_bodyChunks,
    selectBytes, List.append_assoc]
  simp only [Chunk.bytes, Chunk.code, List.flatMap_nil, List.append_nil]
  rfl

/-- The chunks of code have its bytes. -/
theorem code_chunks (base : Address) (exit pos : Nat) (c : Code) :
    Chunk.code (c.chunks base exit pos) = c.bytes base exit pos := by
  induction c generalizing pos with
  | done => rfl
  | instr i next ih => rw [chunks, Chunk.code_cons, ih]; rfl
  | mark s next ih => exact ih _
  | leave next ih => rw [chunks, Chunk.code_cons, ih]; rfl
  | leaveIf c next ih => rw [chunks, Chunk.code_cons, ih]; rfl
  | skipIf c body next ihBody ih =>
    simp only [chunks, Chunk.code_cons, Chunk.code_append, ih, ihBody, bytes, List.append_assoc]
    rfl
  | choose c no yes next ihNo ihYes ih =>
    simp only [chunks, Chunk.code_cons, Chunk.code_append, ih, ihNo, ihYes, bytes,
      List.append_assoc]
    rfl
  | select table index bodies next ih =>
    rw [chunks, Chunk.code_append, ih, code_selectChunks]
    rfl

theorem stop_eq_span (base : Address) (exit pos : Nat) (c : Code) :
    c.stop pos = pos + Chunk.span (c.chunks base exit pos) := by
  rw [Chunk.span, code_chunks, length_bytes]

/-! ## Runs of the tree -/

/-- How a run of code ends. -/
inductive Exit where
  /-- The run came to the end of the code. -/
  | fell (c : Cpu)
  /-- The run left for the return. -/
  | left (c : Cpu)

namespace Exit

/-- The state at the end of a run. -/
def cpu : Exit → Cpu
  | fell c => c
  | left c => c

/-- Where a run ends, between the end of the code and the return. -/
def target (stop exit : Nat) : Exit → Nat
  | fell _ => stop
  | left _ => exit

/-- Go on where the code was run through. -/
def andThen (e : Exit) (next : Cpu → Option Exit) : Option Exit :=
  match e with
  | fell c => next c
  | left c => some (left c)

end Exit

/-- Carry out one instruction that is at `pos`. -/
def perform (base : Address) (pos : Nat) (i : Instr) (c : Cpu) : Option Cpu :=
  if i.encodable then c.exec (base + BitVec.ofNat 64 (pos + i.size)) i else none

/-- Carry out a row of instructions. -/
def performRow (base : Address) (pos : Nat) : List Instr → Cpu → Option Cpu
  | [], c => some c
  | i :: is, c => (perform base pos i c).bind (performRow base (pos + i.size) is)

/-- Carry out code that is at `pos` in a buffer at `base`. -/
def run (base : Address) (pos : Nat) : Code → Cpu → Option Exit
  | done, c => some (.fell c)
  | instr i next, c => (perform base pos i c).bind (next.run base (pos + i.size))
  | mark _ next, c => next.run base pos c
  | leave _, c => some (.left c)
  | leaveIf k next, c =>
      if k.holds c.flags then some (.left c) else next.run base (pos + jumpIfSize) c
  | skipIf k body next, c =>
      let start := pos + jumpIfSize
      if k.holds c.flags then next.run base (body.stop start) c
      else (body.run base start c).bind (·.andThen (next.run base (body.stop start)))
  | choose k no yes next, c =>
      let noStart := pos + jumpIfSize
      let yesStart := no.stop noStart + jumpSize
      let finish := yes.stop yesStart
      (if k.holds c.flags then yes.run base yesStart c else no.run base noStart c).bind
        (·.andThen (next.run base finish))
  | select table index bodies next, c =>
      if index = .rsp then none
      else
        let c := c.setReg table (base + BitVec.ofNat 64 (tableStart pos bodies))
        let k := (c.reg index).toNat
        match bodies[k]? with
        | none => none
        | some none => some (.left c)
        | some (some is) =>
            (performRow base ((bodyStarts (pos + jumpSize) bodies).getD k 0) is c).bind
              (next.run base (selectEnd pos table index bodies))

/-- A run only adds to what was stored. -/
theorem perform_extends {base : Address} {pos : Nat} {i : Instr} {c c' : Cpu}
    (h : perform base pos i c = some c') : c.mem.Extends c'.mem := by
  unfold perform at h
  split at h
  · exact Cpu.exec_extends h
  · cases h

theorem performRow_extends {base : Address} {pos : Nat} {is : List Instr} {c c' : Cpu}
    (h : performRow base pos is c = some c') : c.mem.Extends c'.mem := by
  induction is generalizing pos c with
  | nil => cases h; exact .refl _ _
  | cons i rest ih =>
    obtain ⟨c₁, h₁, h₂⟩ := Option.bind_eq_some_iff.mp h
    exact (perform_extends h₁).trans (ih h₂)

theorem Exit.andThen_extends {e e' : Exit} {next : Cpu → Option Exit}
    (hnext : ∀ c e', next c = some e' → c.mem.Extends e'.cpu.mem)
    (h : e.andThen next = some e') : e.cpu.mem.Extends e'.cpu.mem := by
  cases e with
  | fell c => exact hnext c e' h
  | left c => cases h; exact .refl _ _

theorem run_extends {base : Address} {pos : Nat} {code : Code} {c : Cpu} {e : Exit}
    (h : code.run base pos c = some e) : c.mem.Extends e.cpu.mem := by
  induction code generalizing pos c e with
  | done => cases h; exact .refl _ _
  | instr i next ih =>
    obtain ⟨c₁, h₁, h₂⟩ := Option.bind_eq_some_iff.mp h
    exact (perform_extends h₁).trans (ih h₂)
  | mark s next ih => exact ih h
  | leave next ih => cases h; exact .refl _ _
  | leaveIf k next ih =>
    simp only [run] at h
    split at h
    · cases h; exact .refl _ _
    · exact ih h
  | skipIf k body next ihBody ih =>
    simp only [run] at h
    split at h
    · exact ih h
    · obtain ⟨e₁, h₁, h₂⟩ := Option.bind_eq_some_iff.mp h
      exact (ihBody h₁).trans (e₁.andThen_extends (fun _ _ => ih) h₂)
  | choose k no yes next ihNo ihYes ih =>
    obtain ⟨e₁, h₁, h₂⟩ := Option.bind_eq_some_iff.mp h
    refine Memory.Later.trans ?_ (e₁.andThen_extends (fun _ _ => ih) h₂)
    split at h₁
    · exact ihYes h₁
    · exact ihNo h₁
  | select table index bodies next ih =>
    simp only [run] at h
    split at h
    · cases h
    · split at h
      · cases h
      · cases h; exact .refl _ _
      · obtain ⟨c₁, h₁, h₂⟩ := Option.bind_eq_some_iff.mp h
        exact (performRow_extends h₁).trans (ih h₂)

/-- Going on twice is going on once. -/
theorem Exit.andThen_bind (e : Exit) (f g : Cpu → Option Exit) :
    (e.andThen f).bind (·.andThen g) = e.andThen fun c => (f c).bind (·.andThen g) := by
  cases e <;> rfl

/-- Code after code is run where the first was run through. -/
theorem run_append (base : Address) (pos : Nat) (a b : Code) (c : Cpu) :
    (a ++ b).run base pos c = (a.run base pos c).bind (·.andThen (b.run base (a.stop pos))) := by
  show (a.append b).run base pos c = _
  induction a generalizing pos c with
  | done => rfl
  | instr i next ih =>
    simp only [append, run, Option.bind_assoc]
    exact congrArg _ (funext fun c => ih _ c)
  | mark s next ih => exact ih _ _
  | leave next _ => rfl
  | leaveIf k next ih =>
    simp only [append, run, ih]
    split <;> rfl
  | skipIf k body next _ ih =>
    simp only [append, run, stop]
    split
    · rw [ih]
    · simp only [Option.bind_assoc, Exit.andThen_bind]
      refine congrArg _ (funext fun e => congrArg _ (funext fun c => ih _ c))
  | choose k no yes next _ _ ih =>
    simp only [append, run, stop, Option.bind_assoc, Exit.andThen_bind]
    exact congrArg _ (funext fun e => congrArg _ (funext fun c => ih _ c))
  | select table index bodies next ih =>
    simp only [append, run, stop]
    split
    · rfl
    · split
      · rfl
      · rfl
      · simp only [Option.bind_assoc]
        exact congrArg _ (funext fun c => ih _ c)

end Code

/-! ## The machine beside the tree -/

namespace X86.Machine

/-- `n` instructions, each carried out in a state that satisfies `P`. -/
inductive Steps (P : Machine → Prop) : Nat → Machine → Machine → Prop
  | none (m : Machine) : Steps P 0 m m
  | more {n : Nat} {m m' m'' : Machine} : P m → m.step = .running m' → Steps P n m' m'' →
      Steps P (n + 1) m m''

theorem Steps.one {P : Machine → Prop} {m m' : Machine} (h : P m) (hs : m.step = .running m') :
    Steps P 1 m m' := .more h hs (.none m')

theorem Steps.trans {P : Machine → Prop} {n k : Nat} {m m' m'' : Machine}
    (h : Steps P n m m') (h' : Steps P k m' m'') : Steps P (n + k) m m'' := by
  induction h with
  | none m => rwa [Nat.zero_add]
  | more hp hs _ ih => rw [Nat.add_right_comm]; exact .more hp hs (ih h')

theorem Steps.mono {P Q : Machine → Prop} (hPQ : ∀ m, P m → Q m) {n : Nat} {m m' : Machine}
    (h : Steps P n m m') : Steps Q n m m' := by
  induction h with
  | none m => exact .none m
  | more hp hs _ ih => exact .more (hPQ _ hp) hs ih

/-- A run goes on from where steps lead. -/
theorem Steps.run_add {P : Machine → Prop} {n : Nat} {m m' : Machine} (h : Steps P n m m')
    (fuel : Nat) : run (n + fuel) m = run fuel m' := by
  induction h with
  | none m => rw [Nat.zero_add]
  | more _ hs _ ih => rw [Nat.add_right_comm, run, hs]; exact ih

end X86.Machine

namespace Chunk

open X86.Machine

/-- The chunks lie in memory at `pos`, where nothing is stored that satisfies
`P`. -/
def Resident (P : Address → Prop) (base : Address) (pos : Nat) (cs : List Chunk)
    (m : Memory) : Prop :=
  ∀ i b, (code cs)[i]? = some b →
    m.read (base + BitVec.ofNat 64 (pos + i)) = b ∧ ¬P (base + BitVec.ofNat 64 (pos + i))

variable {P : Address → Prop} {base : Address} {pos : Nat} {m : Memory}

theorem Resident.right {cs ds : List Chunk} (h : Resident P base pos (cs ++ ds) m) :
    Resident P base (pos + span cs) ds m := by
  intro i b hb
  have := h ((code cs).length + i) b (by
    rw [code_append, List.getElem?_append_right (Nat.le_add_right _ _), Nat.add_sub_cancel_left,
      hb])
  rwa [← Nat.add_assoc, ← span] at this

theorem Resident.tail {c : Chunk} {ds : List Chunk} (h : Resident P base pos (c :: ds) m) :
    Resident P base (pos + c.bytes.length) ds m := by
  have := Resident.right (show Resident P base pos ([c] ++ ds) m from h)
  rwa [span_cons, span, code, List.flatMap_nil, List.length_nil, Nat.add_zero] at this

theorem Resident.later {cs : List Chunk} (h : Resident P base pos cs m) {m' : Memory}
    (hm : m.Later P m') : Resident P base pos cs m' := by
  intro i b hb
  obtain ⟨hread, hp⟩ := h i b hb
  exact ⟨(hm.read_eq hp).trans hread, hp⟩

/-- The machine is at an instruction among the chunks, and will carry out that one. -/
def Begins (base : Address) (pos : Nat) (cs : List Chunk) (m : Machine) : Prop :=
  ∃ before i after, cs = before ++ instr i :: after ∧
    m.rip = base + BitVec.ofNat 64 (pos + span before) ∧
    ∃ rest, decode (fetch m.cpu.mem m.rip) = some (i.decoded, rest)

theorem Begins.right (cs : List Chunk) {ds : List Chunk} {m : Machine}
    (h : Begins base (pos + span cs) ds m) : Begins base pos (cs ++ ds) m := by
  obtain ⟨before, i, after, rfl, hrip, hdec⟩ := h
  exact ⟨cs ++ before, i, after, by rw [List.append_assoc],
    by rw [hrip, span_append, Nat.add_assoc], hdec⟩

theorem Begins.tail (c : Chunk) {ds : List Chunk} {m : Machine}
    (h : Begins base (pos + c.bytes.length) ds m) : Begins base pos (c :: ds) m := by
  refine Begins.right [c] ?_
  rwa [span_cons, span, code, List.flatMap_nil, List.length_nil, Nat.add_zero]

/-- What is fetched at an instruction begins with its bytes. -/
theorem Resident.fetch {i : Instr} {ds : List Chunk}
    (h : Resident P base pos (instr i :: ds) m) :
    ∃ rest, fetch m (base + BitVec.ofNat 64 pos) = i.bytes ++ rest ∧
      rest.length = maxLength - i.size := by
  have hle : i.bytes.length ≤ maxLength := i.size_le_maxLength
  refine ⟨(X86.Machine.fetch m (base + BitVec.ofNat 64 pos)).drop i.size, ?_, ?_⟩
  · have take : (X86.Machine.fetch m (base + BitVec.ofNat 64 pos)).take i.size = i.bytes := by
      apply List.ext_getElem?
      intro k
      by_cases hk : k < i.bytes.length
      · have hb : (code (instr i :: ds))[k]? = some i.bytes[k] := by
          show (i.bytes ++ code ds)[k]? = _
          rw [List.getElem?_append_left hk]
          exact List.getElem?_eq_getElem hk
        have hread := (h k _ hb).1
        rw [BitVec.ofNat_add, ← BitVec.add_assoc] at hread
        rw [List.getElem?_take_of_lt (show k < i.size from hk), X86.Machine.fetch, List.getElem?_map,
          List.getElem?_range (by omega), Option.map_some, hread, List.getElem?_eq_getElem hk]
      · rw [List.getElem?_eq_none (by rw [List.length_take]; unfold Instr.size; omega),
          List.getElem?_eq_none (by omega)]
    rw [← take]
    exact (List.take_append_drop _ _).symm
  · rw [List.length_drop, X86.Machine.fetch, List.length_map, List.length_range]

/-- At an instruction that lies in memory the machine carries it out. -/
theorem Resident.step {i : Instr} {ds : List Chunk} {c : Cpu} (hi : i.encodable = true)
    (h : Resident P base pos (instr i :: ds) c.mem) :
    Begins base pos (instr i :: ds) ⟨c, base + BitVec.ofNat 64 pos⟩ ∧
      Machine.step ⟨c, base + BitVec.ofNat 64 pos⟩ =
        perform c (base + BitVec.ofNat 64 (pos + i.size)) i := by
  obtain ⟨rest, hfetch, hlen⟩ := h.fetch
  have hdec : decode (X86.Machine.fetch c.mem (base + BitVec.ofNat 64 pos)) =
      some (i.decoded, rest) := by
    rw [hfetch]; exact decode_bytes hi rest
  have hle : i.size ≤ maxLength := i.size_le_maxLength
  refine ⟨⟨[], i, ds, rfl, rfl, rest, hdec⟩, ?_⟩
  unfold Machine.step
  rw [hdec]
  dsimp only
  rw [perform_decoded, hlen, Nat.sub_sub_self hle, BitVec.add_assoc, ← BitVec.ofNat_add]

end Chunk

namespace Code

open X86.Machine Chunk

/-- A displacement that is not too great leads to its target. -/
theorem displacementTo_reaches {target after : Nat} (h : target ≤ after + 0x7FFFFFFF)
    (h' : after ≤ target + 0x80000000) (base : Address) :
    base + BitVec.ofNat 64 after + (displacementTo target after).signExtend 64 =
      base + BitVec.ofNat 64 target := by
  have hz : (displacementTo target after).toInt = (target : Int) - after := by
    rw [displacementTo, BitVec.toInt_ofInt]
    exact Int.bmod_eq_of_le (by omega) (by omega)
  rw [BitVec.signExtend, hz, BitVec.add_assoc, ← BitVec.ofInt_natCast, ← BitVec.ofInt_natCast,
    ← BitVec.ofInt_add]
  congr 2
  omega

variable {P : Address → Prop} {base : Address}

/-- One instruction of a tree is one of the machine. -/
theorem perform_step {pos : Nat} {i : Instr} {d : List Chunk} {c c' : Cpu}
    (h : perform base pos i c = some c') (hres : Resident P base pos (.instr i :: d) c.mem) :
    0 < i.size ∧ Begins base pos (.instr i :: d) ⟨c, base + BitVec.ofNat 64 pos⟩ ∧
      Machine.step ⟨c, base + BitVec.ofNat 64 pos⟩ =
        .running ⟨c', base + BitVec.ofNat 64 (pos + i.size)⟩ := by
  unfold perform at h
  split at h
  · rename_i henc
    obtain ⟨hbegins, hstep⟩ := hres.step henc
    exact ⟨Instr.size_pos henc, hbegins, by rw [hstep, perform_of_exec h]⟩
  · cases h

theorem Resident.behindJump {target at_ pos : Nat} {ds : List Chunk} {m : Memory}
    (h : Resident P base pos (jumpChunk target at_ :: ds) m) :
    Resident P base (pos + jumpSize) ds m := h.tail

theorem Begins.behindJump {target at_ pos : Nat} {ds : List Chunk} {m : Machine}
    (h : Begins base (pos + jumpSize) ds m) : Begins base pos (jumpChunk target at_ :: ds) m :=
  Begins.tail (jumpChunk target at_) h

theorem Resident.behindJumpIf {k : Cond} {target at_ pos : Nat} {ds : List Chunk} {m : Memory}
    (h : Resident P base pos (jumpIfChunk k target at_ :: ds) m) :
    Resident P base (pos + jumpIfSize) ds m := h.tail

theorem Begins.behindJumpIf {k : Cond} {target at_ pos : Nat} {ds : List Chunk} {m : Machine}
    (h : Begins base (pos + jumpIfSize) ds m) :
    Begins base pos (jumpIfChunk k target at_ :: ds) m :=
  Begins.tail (jumpIfChunk k target at_) h

/-- A jump leads to its target. -/
theorem jumpChunk_step {pos t : Nat} {ds : List Chunk} {c : Cpu}
    (hres : Resident P base pos (jumpChunk t pos :: ds) c.mem)
    (h : t ≤ pos + 0x7FFFFFFF) (h' : pos ≤ t) :
    Steps (Begins base pos (jumpChunk t pos :: ds)) 1 ⟨c, base + BitVec.ofNat 64 pos⟩
      ⟨c, base + BitVec.ofNat 64 t⟩ := by
  obtain ⟨hbegins, hstep⟩ := hres.step rfl
  refine .one hbegins (hstep.trans ?_)
  show Outcome.running ⟨c, base + BitVec.ofNat 64 (pos + jumpSize) + _⟩ = _
  rw [displacementTo_reaches (by unfold jumpSize; omega) (by unfold jumpSize; omega)]

/-- A conditional jump leads to its target or goes on. -/
theorem jumpIfChunk_step {pos target : Nat} {k : Cond} {ds : List Chunk} {c : Cpu}
    (hres : Resident P base pos (jumpIfChunk k target pos :: ds) c.mem)
    (h : target ≤ pos + 0x7FFFFFFF) (h' : pos ≤ target) :
    Steps (Begins base pos (jumpIfChunk k target pos :: ds)) 1 ⟨c, base + BitVec.ofNat 64 pos⟩
      ⟨c, base + BitVec.ofNat 64 (if k.holds c.flags then target else pos + jumpIfSize)⟩ := by
  obtain ⟨hbegins, hstep⟩ := hres.step rfl
  refine .one hbegins (hstep.trans ?_)
  show Outcome.running ⟨c, if k.holds c.flags then
    base + BitVec.ofNat 64 (pos + jumpIfSize) + _ else _⟩ = _
  rw [displacementTo_reaches (by unfold jumpIfSize; omega) (by unfold jumpIfSize; omega)]
  split <;> rfl

theorem performRow_steps {pos : Nat} {is : List Instr} {ds : List Chunk} {c c' : Cpu}
    (h : performRow base pos is c = some c')
    (hres : Resident P base pos (Chunk.row is ++ ds) c.mem) (hl : c.mem.Later P c'.mem) :
    ∃ n, n ≤ rowSize is ∧ Steps (Begins base pos (Chunk.row is ++ ds)) n
      ⟨c, base + BitVec.ofNat 64 pos⟩ ⟨c', base + BitVec.ofNat 64 (pos + rowSize is)⟩ := by
  induction is generalizing pos c with
  | nil => cases h; exact ⟨0, Nat.le_refl 0, .none _⟩
  | cons i rest ih =>
    obtain ⟨c₁, h₁, h₂⟩ := Option.bind_eq_some_iff.mp h
    obtain ⟨hl₁, hl₂⟩ := hl.of_extends (perform_extends h₁) (performRow_extends h₂)
    obtain ⟨hpos, hbegins, hstep⟩ := perform_step (d := Chunk.row rest ++ ds) h₁ hres
    obtain ⟨n, hn, hsteps⟩ := ih h₂ (hres.tail.later hl₁) hl₂
    refine ⟨n + 1, by rw [rowSize]; omega, .more hbegins hstep ?_⟩
    rw [Nat.add_assoc] at hsteps
    exact hsteps.mono fun m hm => Begins.tail (.instr i) hm

/-! ### Selections -/

/-- One body of a selection with the jump that ends it. -/
def bodyChunk (exit finish pos : Nat) : Option (List Instr) → List Chunk
  | some is => Chunk.row is ++ [jumpChunk finish (pos + rowSize is)]
  | none => [jumpChunk exit pos]

theorem bodyChunks_cons (exit finish pos : Nat) (b : Option (List Instr))
    (rest : List (Option (List Instr))) :
    bodyChunks exit finish pos (b :: rest) =
      bodyChunk exit finish pos b ++ bodyChunks exit finish (pos + bodySize b) rest := by
  cases b with
  | none => rfl
  | some is => simp only [bodyChunks, bodyChunk, List.append_assoc, List.cons_append,
      List.nil_append]

theorem span_row (is : List Instr) : Chunk.span (Chunk.row is) = rowSize is := by
  rw [Chunk.span, Chunk.code_row, length_rowBytes]

theorem span_bodyChunk (exit finish pos : Nat) (b : Option (List Instr)) :
    Chunk.span (bodyChunk exit finish pos b) = bodySize b := by
  cases b with
  | none => rfl
  | some is => rw [bodyChunk, span_append, span_row]; rfl

theorem span_bodyChunks (exit finish pos : Nat) (bodies : List (Option (List Instr))) :
    Chunk.span (bodyChunks exit finish pos bodies) = bodiesSize bodies := by
  rw [Chunk.span, code_bodyChunks, length_bodyBytes]

/-- Each body lies where it is said to start. -/
theorem exists_bodyChunk (exit finish pos : Nat) {bodies : List (Option (List Instr))} {k : Nat}
    {b : Option (List Instr)} (hb : bodies[k]? = some b) :
    ∃ before after start, (bodyStarts pos bodies)[k]? = some start ∧
      start = pos + Chunk.span before ∧
      bodyChunks exit finish pos bodies =
        before ++ (bodyChunk exit finish start b ++ after) := by
  induction bodies generalizing pos k with
  | nil => cases hb
  | cons b₀ rest ih =>
    rw [bodyChunks_cons]
    cases k with
    | zero =>
      cases hb
      exact ⟨[], _, pos, rfl, rfl, rfl⟩
    | succ k =>
      obtain ⟨before, after, start, hstart, hpos, hchunks⟩ := ih (pos + bodySize b₀) hb
      refine ⟨bodyChunk exit finish pos b₀ ++ before, after, start, hstart, ?_, ?_⟩
      · rw [hpos, span_append, span_bodyChunk, Nat.add_assoc]
      · rw [hchunks, List.append_assoc]

/-- An entry of a table of addresses. -/
theorem getElem?_table {f : Nat → List Byte} (hf : ∀ s, (f s).length = 8) (starts : List Nat)
    {k s : Nat} (hk : starts[k]? = some s) {j : Nat} (hj : j < 8) :
    (starts.flatMap f)[8 * k + j]? = (f s)[j]? := by
  induction starts generalizing k with
  | nil => cases hk
  | cons s₀ rest ih =>
    rw [List.flatMap_cons]
    cases k with
    | zero =>
      cases hk
      rw [List.getElem?_append_left (by rw [hf]; omega), Nat.mul_zero, Nat.zero_add]
    | succ k =>
      rw [List.getElem?_append_right (by rw [hf]; omega), hf,
        show 8 * (k + 1) + j - 8 = 8 * k + j by omega]
      exact ih hk

/-- The address in an entry of the table of a selection. -/
theorem read_table {pos tpos k start : Nat} {bodies : List (Option (List Instr))} {m : Memory}
    {ds : List Chunk}
    (hres : Resident P base tpos (.data (tableBytes base pos bodies) :: ds) m)
    (hk : (bodyStarts (pos + jumpSize) bodies)[k]? = some start) :
    m.read64 (base + BitVec.ofNat 64 tpos + BitVec.ofNat 64 (8 * k)) =
      base + BitVec.ofNat 64 start := by
  refine Memory.Holds.read64 fun j b hb => ?_
  have hj : j < 8 := (List.getElem?_eq_some_iff.mp hb).1
  have hentry : (tableBytes base pos bodies)[8 * k + j]? = some b :=
    (getElem?_table (fun _ => rfl) _ hk hj).trans hb
  have hlt := (List.getElem?_eq_some_iff.mp hentry).1
  have := (hres (8 * k + j) b ((List.getElem?_append_left hlt).trans hentry)).1
  rwa [BitVec.ofNat_add, BitVec.ofNat_add, ← BitVec.add_assoc, ← BitVec.add_assoc] at this

theorem length_tableOf (base : Address) (pos : Nat) (bodies : List (Option (List Instr))) :
    (tableBytes base pos bodies).length = 8 * bodies.length := by
  rw [tableBytes, length_tableBytes, length_bodyStarts]

/-- What lies in front of the table of a selection. -/
def beforeTable (exit pos : Nat) (table index : Reg) (bodies : List (Option (List Instr))) :
    List Chunk :=
  jumpChunk (dispatchStart pos bodies) pos ::
    (bodyChunks exit (selectEnd pos table index bodies) (pos + jumpSize) bodies ++
      [.data (tablePadding pos bodies)])

theorem span_beforeTable (exit pos : Nat) (table index : Reg)
    (bodies : List (Option (List Instr))) :
    pos + Chunk.span (beforeTable exit pos table index bodies) = tableStart pos bodies := by
  have hjump : (jumpChunk (dispatchStart pos bodies) pos).bytes.length = jumpSize := rfl
  have hpad : Chunk.span [.data (tablePadding pos bodies)] =
      Padding.distance (pos + jumpSize + bodiesSize bodies) 8 := by
    show (tablePadding pos bodies ++ []).length = _
    rw [List.append_nil, tablePadding, Padding.length_bytes]
  rw [beforeTable, span_cons, span_append, span_bodyChunks, hjump, hpad, tableStart]
  omega

theorem selectChunks_eq (base : Address) (exit pos : Nat) (table index : Reg)
    (bodies : List (Option (List Instr))) :
    selectChunks base exit pos table index bodies =
      beforeTable exit pos table index bodies ++
        (.data (tableBytes base pos bodies) :: dispatchChunks pos table index bodies) := by
  simp only [selectChunks, beforeTable, List.cons_append, List.append_assoc, List.nil_append]

/-- An address with an index scaled by eight. -/
theorem shiftLeft_three (v : BitVec 64) :
    v <<< (3 : BitVec 2).toNat = BitVec.ofNat 64 (8 * v.toNat) := by
  apply BitVec.eq_of_toNat_eq
  rw [BitVec.toNat_shiftLeft, BitVec.toNat_ofNat, Nat.shiftLeft_eq, Nat.mul_comm]
  rfl

/-- The two instructions of a dispatch lead to the body that is named. -/
theorem dispatch_steps {pos : Nat} {table index : Reg} {bodies : List (Option (List Instr))}
    {ds : List Chunk} {c : Cpu} {start : Nat} (hindex : index ≠ .rsp)
    (hres : Resident P base (tableStart pos bodies)
      (.data (tableBytes base pos bodies) :: (dispatchChunks pos table index bodies ++ ds)) c.mem)
    (hlim : tableStart pos bodies + 8 * bodies.length ≤ tableStart pos bodies + 0x7FFFFFF0)
    (hk : (bodyStarts (pos + jumpSize) bodies)[
      ((c.setReg table (base + BitVec.ofNat 64 (tableStart pos bodies))).reg index).toNat]? =
        some start) :
    Steps (Begins base (dispatchStart pos bodies) (dispatchChunks pos table index bodies ++ ds)) 2
      ⟨c, base + BitVec.ofNat 64 (dispatchStart pos bodies)⟩
      ⟨c.setReg table (base + BitVec.ofNat 64 (tableStart pos bodies)),
        base + BitVec.ofNat 64 start⟩ := by
  have hlea := hres.tail
  rw [show (Chunk.data (tableBytes base pos bodies)).bytes = tableBytes base pos bodies from rfl,
    length_tableOf] at hlea
  have hjmp := hlea.tail
  rw [show (Chunk.instr (.leaRip table (displacementTo (tableStart pos bodies)
      (dispatchStart pos bodies + (Instr.leaRip table 0).size)))).bytes.length =
      (Instr.leaRip table 0).size from length_leaRip _ _] at hjmp
  obtain ⟨hbegins₁, hstep₁⟩ := hlea.step (c := c) rfl
  obtain ⟨hbegins₂, hstep₂⟩ := hjmp.step
    (c := c.setReg table (base + BitVec.ofNat 64 (tableStart pos bodies)))
    (show (tableJump table index).encodable = true from decide_eq_true hindex)
  have hsize : (Instr.leaRip table 0).size ≤ 13 := Instr.size_le _
  have hlea_eq : (Instr.leaRip table (displacementTo (tableStart pos bodies)
      (dispatchStart pos bodies + (Instr.leaRip table 0).size))).size =
      (Instr.leaRip table 0).size := length_leaRip _ _
  have hfirst : Machine.step ⟨c, base + BitVec.ofNat 64 (dispatchStart pos bodies)⟩ =
      .running ⟨c.setReg table (base + BitVec.ofNat 64 (tableStart pos bodies)),
        base + BitVec.ofNat 64 (dispatchStart pos bodies + (Instr.leaRip table 0).size)⟩ := by
    refine hstep₁.trans ?_
    rw [hlea_eq]
    show Outcome.running ⟨c.setReg table (base + BitVec.ofNat 64 (dispatchStart pos bodies +
      (Instr.leaRip table 0).size) + _), _⟩ = _
    rw [displacementTo_reaches (by unfold dispatchStart; omega) (by unfold dispatchStart; omega)]
    rfl
  refine .more hbegins₁ hfirst (.one (Begins.tail _ ?_) ?_)
  · rw [show (Chunk.instr (.leaRip table (displacementTo (tableStart pos bodies)
      (dispatchStart pos bodies + (Instr.leaRip table 0).size)))).bytes.length =
      (Instr.leaRip table 0).size from length_leaRip _ _]
    exact hbegins₂
  · refine hstep₂.trans ?_
    show Outcome.running ⟨_, c.mem.read64 (((c.setReg table _).reg table +
      (c.setReg table _).reg index <<< (3 : BitVec 2).toNat) + 0)⟩ = _
    rw [Cpu.reg_setReg_self, shiftLeft_three, show ∀ a : BitVec 64, a + 0 = a from BitVec.add_zero,
      read_table hres hk]

/-- What a selection holds behind its jump to the dispatch. -/
theorem selectEnd_eq (base : Address) (exit pos : Nat) (table index : Reg)
    (bodies : List (Option (List Instr))) :
    selectEnd pos table index bodies =
      pos + Chunk.span (selectChunks base exit pos table index bodies) := by
  rw [Chunk.span, code_selectChunks, length_selectBytes]

theorem bodyEnd_le {pos k start : Nat} {bodies : List (Option (List Instr))}
    {b : Option (List Instr)} (hb : bodies[k]? = some b)
    (hstart : (bodyStarts pos bodies)[k]? = some start) :
    pos ≤ start ∧ start + bodySize b ≤ pos + bodiesSize bodies := by
  induction bodies generalizing pos k with
  | nil => cases hb
  | cons b₀ rest ih =>
    cases k with
    | zero =>
      cases hb; cases hstart
      exact ⟨Nat.le_refl _, by rw [bodiesSize]; omega⟩
    | succ k =>
      have := ih hb hstart
      rw [bodiesSize]
      omega

theorem le_tableStart (pos : Nat) (bodies : List (Option (List Instr))) :
    pos + jumpSize + bodiesSize bodies ≤ tableStart pos bodies :=
  Nat.le_add_right _ _

theorem tableStart_le (pos : Nat) (table index : Reg) (bodies : List (Option (List Instr))) :
    tableStart pos bodies + 8 * bodies.length + (Instr.leaRip table 0).size +
      (tableJump table index).size = selectEnd pos table index bodies :=
  rfl

/-- A selection leads to the body that is named. -/
theorem select_reaches {exit pos : Nat} {table index : Reg}
    {bodies : List (Option (List Instr))} {ds : List Chunk} {c : Cpu} {start : Nat}
    (hindex : index ≠ .rsp)
    (hres : Resident P base pos (selectChunks base exit pos table index bodies ++ ds) c.mem)
    (hlim : selectEnd pos table index bodies ≤ pos + 0x7FFFFFF0)
    (hk : (bodyStarts (pos + jumpSize) bodies)[
      ((c.setReg table (base + BitVec.ofNat 64 (tableStart pos bodies))).reg index).toNat]? =
        some start) :
    Steps (Begins base pos (selectChunks base exit pos table index bodies ++ ds)) 3
      ⟨c, base + BitVec.ofNat 64 pos⟩
      ⟨c.setReg table (base + BitVec.ofNat 64 (tableStart pos bodies)),
        base + BitVec.ofNat 64 start⟩ := by
  have hdispatch : dispatchStart pos bodies ≤ selectEnd pos table index bodies := by
    unfold selectEnd; omega
  have htable : tableStart pos bodies + 8 * bodies.length = dispatchStart pos bodies := rfl
  have hpos := le_tableStart pos bodies
  have hjump := jumpChunk_step (t := dispatchStart pos bodies) (c := c) hres (by omega)
    (by omega)
  refine Steps.trans (n := 1) (k := 2) hjump ?_
  rw [selectChunks_eq, List.append_assoc] at hres ⊢
  have hright := hres.right
  rw [span_beforeTable] at hright
  refine (dispatch_steps hindex hright (by omega) hk).mono fun m hm => ?_
  refine Begins.right _ ?_
  rw [span_beforeTable]
  refine Begins.tail _ ?_
  rwa [show (Chunk.data (tableBytes base pos bodies)).bytes = tableBytes base pos bodies from rfl,
    length_tableOf]

/-- The bodies of a selection lie behind its first jump. -/
theorem Resident.bodies {exit pos : Nat} {table index : Reg}
    {bodies : List (Option (List Instr))} {ds : List Chunk} {m : Memory} {k : Nat}
    {b : Option (List Instr)} (hb : bodies[k]? = some b)
    (hres : Resident P base pos (selectChunks base exit pos table index bodies ++ ds) m) :
    ∃ start after, (bodyStarts (pos + jumpSize) bodies)[k]? = some start ∧
      Resident P base start
        (bodyChunk exit (selectEnd pos table index bodies) start b ++ after) m ∧
      ∀ m', Begins base start (bodyChunk exit (selectEnd pos table index bodies) start b ++ after)
          m' →
        Begins base pos (selectChunks base exit pos table index bodies ++ ds) m' := by
  obtain ⟨before, after, start, hstart, hpos, hchunks⟩ :=
    exists_bodyChunk exit (selectEnd pos table index bodies) (pos + jumpSize) hb
  have hjump : (jumpChunk (dispatchStart pos bodies) pos).bytes.length = jumpSize := rfl
  rw [selectChunks, List.cons_append, List.append_assoc, hchunks, List.append_assoc,
    List.append_assoc] at hres ⊢
  have hbody := hres.tail.right
  rw [hjump, ← hpos] at hbody
  refine ⟨start, _, hstart, hbody, fun m' hm' => Begins.tail _ (Begins.right before ?_)⟩
  rwa [hjump, ← hpos]

/-- A selection carries out the body that is named and goes behind itself. -/
theorem select_steps {exit pos : Nat} {table index : Reg} {bodies : List (Option (List Instr))}
    {ds : List Chunk} {c c' : Cpu} {is : List Instr} (hindex : index ≠ .rsp)
    (hres : Resident P base pos (selectChunks base exit pos table index bodies ++ ds) c.mem)
    (hlim : selectEnd pos table index bodies ≤ pos + 0x7FFFFFF0)
    (hb : bodies[((c.setReg table
      (base + BitVec.ofNat 64 (tableStart pos bodies))).reg index).toNat]? = some (some is))
    (h : performRow base ((bodyStarts (pos + jumpSize) bodies).getD
        ((c.setReg table (base + BitVec.ofNat 64 (tableStart pos bodies))).reg index).toNat 0) is
      (c.setReg table (base + BitVec.ofNat 64 (tableStart pos bodies))) = some c')
    (hl : c.mem.Later P c'.mem) :
    ∃ n, n ≤ selectEnd pos table index bodies - pos ∧
      Steps (Begins base pos (selectChunks base exit pos table index bodies ++ ds)) n
        ⟨c, base + BitVec.ofNat 64 pos⟩
        ⟨c', base + BitVec.ofNat 64 (selectEnd pos table index bodies)⟩ := by
  obtain ⟨start, after, hstart, hbody, hbegins⟩ := Resident.bodies hb hres
  have hreach := select_reaches hindex hres hlim hstart
  obtain ⟨hle, hend⟩ := bodyEnd_le hb hstart
  have hsel : pos + jumpSize + bodiesSize bodies + 2 ≤ selectEnd pos table index bodies := by
    have h₁ := Instr.size_pos (i := .leaRip table 0) rfl
    have h₂ := Instr.size_pos (i := tableJump table index)
      (show (tableJump table index).encodable = true from decide_eq_true hindex)
    have h₃ := le_tableStart pos bodies
    rw [← tableStart_le]
    omega
  rw [bodySize] at hend
  rw [List.getD_eq_getElem?_getD, hstart, Option.getD_some] at h
  rw [bodyChunk, List.append_assoc] at hbody hbegins
  obtain ⟨n, hn, hrow⟩ := performRow_steps h hbody hl
  have hjump := jumpChunk_step (c := c') (by
      have := (hbody.later hl).right
      rwa [span_row] at this) (by omega) (by omega)
  refine ⟨3 + n + 1, by unfold jumpSize at *; omega, (hreach.trans (hrow.mono hbegins)).trans
    (hjump.mono fun m hm => hbegins m (Begins.right _ ?_))⟩
  rwa [span_row]

/-- A selection of an absent body leaves. -/
theorem select_leaves {exit pos : Nat} {table index : Reg} {bodies : List (Option (List Instr))}
    {ds : List Chunk} {c : Cpu} (hindex : index ≠ .rsp)
    (hres : Resident P base pos (selectChunks base exit pos table index bodies ++ ds) c.mem)
    (hlim : exit ≤ pos + 0x7FFFFFF0) (hexit : selectEnd pos table index bodies ≤ exit)
    (hb : bodies[((c.setReg table
      (base + BitVec.ofNat 64 (tableStart pos bodies))).reg index).toNat]? = some none) :
    Steps (Begins base pos (selectChunks base exit pos table index bodies ++ ds)) 4
      ⟨c, base + BitVec.ofNat 64 pos⟩
      ⟨c.setReg table (base + BitVec.ofNat 64 (tableStart pos bodies)),
        base + BitVec.ofNat 64 exit⟩ := by
  obtain ⟨start, after, hstart, hbody, hbegins⟩ := Resident.bodies hb hres
  have hreach := select_reaches hindex hres (by omega) hstart
  obtain ⟨hle, hend⟩ := bodyEnd_le hb hstart
  have hsel : pos + jumpSize + bodiesSize bodies ≤ selectEnd pos table index bodies := by
    have := le_tableStart pos bodies
    rw [← tableStart_le]
    omega
  have hjump := jumpChunk_step (t := exit)
    (c := c.setReg table (base + BitVec.ofNat 64 (tableStart pos bodies))) hbody (by omega)
    (by rw [bodySize] at hend; omega)
  exact hreach.trans (hjump.mono hbegins)

/-! ### Code as a whole -/

theorem Resident.after {exit pos : Nat} {code : Code} {ds : List Chunk} {m : Memory}
    (h : Resident P base pos (code.chunks base exit pos ++ ds) m) :
    Resident P base (code.stop pos) ds m := by
  rw [stop_eq_span base exit]
  exact h.right

theorem Begins.after {exit pos : Nat} {code : Code} {ds : List Chunk} {m : Machine}
    (h : Begins base (code.stop pos) ds m) : Begins base pos (code.chunks base exit pos ++ ds) m :=
  Begins.right _ (by rwa [← stop_eq_span])

/-- Steps go on where the code was run through. -/
theorem andThen_steps {Q : Machine → Prop} {m : Machine} {pos mid stop exit n : Nat}
    {e₁ e : Exit} {next : Cpu → Option Exit} (h : e₁.andThen next = some e)
    (hn : pos + n ≤ mid) (hle : mid ≤ stop)
    (h₁ : Steps Q n m ⟨e₁.cpu, base + BitVec.ofNat 64 (e₁.target mid exit)⟩)
    (hnext : ∀ c₁, e₁ = .fell c₁ → next c₁ = some e → ∃ n₂, mid + n₂ ≤ stop ∧
      Steps Q n₂ ⟨c₁, base + BitVec.ofNat 64 mid⟩
        ⟨e.cpu, base + BitVec.ofNat 64 (e.target stop exit)⟩) :
    ∃ n, pos + n ≤ stop ∧
      Steps Q n m ⟨e.cpu, base + BitVec.ofNat 64 (e.target stop exit)⟩ := by
  cases e₁ with
  | fell c₁ =>
    obtain ⟨n₂, hn₂, h₂⟩ := hnext c₁ rfl h
    exact ⟨n + n₂, by omega, h₁.trans h₂⟩
  | left c₁ =>
    cases h
    exact ⟨n, by omega, h₁⟩

/-- The machine goes where the tree says, in no more steps than the code has
bytes. -/
def Followed (P : Address → Prop) (base : Address) (code : Code) : Prop :=
  ∀ (exit pos : Nat) (ds : List Chunk) (c : Cpu) (e : Exit), code.run base pos c = some e →
    Resident P base pos (code.chunks base exit pos ++ ds) c.mem → c.mem.Later P e.cpu.mem →
    code.stop pos ≤ exit → exit ≤ pos + 0x7FFFFFF0 →
    ∃ n, pos + n ≤ code.stop pos ∧
      Steps (Begins base pos (code.chunks base exit pos ++ ds)) n
        ⟨c, base + BitVec.ofNat 64 pos⟩
        ⟨e.cpu, base + BitVec.ofNat 64 (e.target (code.stop pos) exit)⟩

theorem Followed.instr {i : Instr} {next : Code} (ih : Followed P base next) :
    Followed P base (.instr i next) := by
  intro exit pos ds c e h hres hl hstop hlim
  obtain ⟨c₁, h₁, h₂⟩ := Option.bind_eq_some_iff.mp h
  obtain ⟨hl₁, hl₂⟩ := hl.of_extends (perform_extends h₁) (run_extends h₂)
  obtain ⟨hpos, hbegins, hstep⟩ := perform_step h₁ hres
  obtain ⟨n, hn, hsteps⟩ := ih _ _ _ _ _ h₂ (hres.tail.later hl₁) hl₂ hstop (by omega)
  rw [stop]
  exact ⟨n + 1, by omega, .more hbegins hstep (hsteps.mono fun m hm => Begins.tail (.instr i) hm)⟩

theorem Followed.leave (next : Code) : Followed P base (.leave next) := by
  intro exit pos ds c e h hres hl hstop hlim
  cases h
  have := le_stop (pos + jumpSize) next
  rw [stop] at hstop ⊢
  exact ⟨1, by unfold jumpSize at *; omega, jumpChunk_step hres (by omega) (by omega)⟩

theorem Followed.leaveIf {k : Cond} {next : Code} (ih : Followed P base next) :
    Followed P base (.leaveIf k next) := by
  intro exit pos ds c e h hres hl hstop hlim
  have hle := le_stop (pos + jumpIfSize) next
  rw [stop] at hstop ⊢
  have hjump := jumpIfChunk_step hres (c := c) (by omega) (by omega)
  simp only [run] at h
  split at h
  · rename_i hk
    cases h
    rw [if_pos hk] at hjump
    exact ⟨1, by unfold jumpIfSize at *; omega, hjump⟩
  · rename_i hk
    rw [if_neg hk] at hjump
    obtain ⟨n, hn, hsteps⟩ := ih _ _ _ _ _ h (Resident.behindJumpIf hres) hl hstop (by omega)
    exact ⟨1 + n, by unfold jumpIfSize at *; omega,
      hjump.trans (hsteps.mono fun m hm => Begins.behindJumpIf hm)⟩

theorem Followed.skipIf {k : Cond} {body next : Code} (ihBody : Followed P base body)
    (ih : Followed P base next) : Followed P base (.skipIf k body next) := by
  intro exit pos ds c e h hres hl hstop hlim
  simp only [chunks, List.cons_append, List.append_assoc] at hres ⊢
  have hle := le_stop (pos + jumpIfSize) body
  have hle' := le_stop (body.stop (pos + jumpIfSize)) next
  rw [stop] at hstop ⊢
  have hjump := jumpIfChunk_step hres (c := c) (by omega) (by omega)
  have hbody := Resident.behindJumpIf hres
  simp only [run] at h
  split at h
  · rename_i hk
    rw [if_pos hk] at hjump
    obtain ⟨n, hn, hsteps⟩ := ih _ _ _ _ _ h (Resident.after hbody) hl hstop (by omega)
    exact ⟨1 + n, by unfold jumpIfSize at *; omega,
      hjump.trans (hsteps.mono fun m hm => Begins.behindJumpIf (Begins.after hm))⟩
  · rename_i hk
    rw [if_neg hk] at hjump
    obtain ⟨e₁, h₁, h₂⟩ := Option.bind_eq_some_iff.mp h
    obtain ⟨hl₁, hl₂⟩ := hl.of_extends (run_extends h₁)
      (e₁.andThen_extends (fun _ _ => run_extends) h₂)
    obtain ⟨n, hn, hsteps⟩ := ihBody _ _ _ _ _ h₁ hbody hl₁ (by omega) (by omega)
    refine andThen_steps h₂ (n := 1 + n) (by unfold jumpIfSize at *; omega) hle'
      (hjump.trans (hsteps.mono fun m hm => Begins.behindJumpIf hm)) fun c₁ hc₁ hnext => ?_
    subst hc₁
    obtain ⟨n₂, hn₂, hsteps₂⟩ :=
      ih _ _ _ _ _ hnext ((Resident.after hbody).later hl₁) hl₂ hstop (by omega)
    exact ⟨n₂, hn₂, hsteps₂.mono fun m hm => Begins.behindJumpIf (Begins.after hm)⟩

/-- The two sides of a choice come together behind it. -/
theorem choose_steps {exit pos : Nat} {k : Cond} {no yes : Code} {ds : List Chunk} {c : Cpu}
    {e : Exit} (ihNo : Followed P base no) (ihYes : Followed P base yes)
    (h : (if k.holds c.flags then yes.run base (no.stop (pos + jumpIfSize) + jumpSize) c
      else no.run base (pos + jumpIfSize) c) = some e)
    (hres : Resident P base pos
      (jumpIfChunk k (no.stop (pos + jumpIfSize) + jumpSize) pos ::
        (no.chunks base exit (pos + jumpIfSize) ++
          jumpChunk (yes.stop (no.stop (pos + jumpIfSize) + jumpSize))
              (no.stop (pos + jumpIfSize)) ::
            (yes.chunks base exit (no.stop (pos + jumpIfSize) + jumpSize) ++ ds))) c.mem)
    (hl : c.mem.Later P e.cpu.mem)
    (hstop : yes.stop (no.stop (pos + jumpIfSize) + jumpSize) ≤ exit)
    (hlim : exit ≤ pos + 0x7FFFFFF0) :
    ∃ n, pos + n ≤ yes.stop (no.stop (pos + jumpIfSize) + jumpSize) ∧
      Steps (Begins base pos
        (jumpIfChunk k (no.stop (pos + jumpIfSize) + jumpSize) pos ::
          (no.chunks base exit (pos + jumpIfSize) ++
            jumpChunk (yes.stop (no.stop (pos + jumpIfSize) + jumpSize))
                (no.stop (pos + jumpIfSize)) ::
              (yes.chunks base exit (no.stop (pos + jumpIfSize) + jumpSize) ++ ds)))) n
        ⟨c, base + BitVec.ofNat 64 pos⟩
        ⟨e.cpu, base + BitVec.ofNat 64
          (e.target (yes.stop (no.stop (pos + jumpIfSize) + jumpSize)) exit)⟩ := by
  have hno := le_stop (pos + jumpIfSize) no
  have hyes := le_stop (no.stop (pos + jumpIfSize) + jumpSize) yes
  have hjump := jumpIfChunk_step hres (c := c) (by omega) (by omega)
  have hresNo := Resident.behindJumpIf hres
  have hresJump := Resident.after hresNo
  split at h
  · rename_i hk
    rw [if_pos hk] at hjump
    obtain ⟨n, hn, hsteps⟩ := ihYes _ _ _ _ _ h (Resident.behindJump hresJump) hl (by omega) (by omega)
    exact ⟨1 + n, by unfold jumpIfSize jumpSize at *; omega, hjump.trans (hsteps.mono
      fun m hm => Begins.behindJumpIf (Begins.after (Begins.behindJump hm)))⟩
  · rename_i hk
    rw [if_neg hk] at hjump
    obtain ⟨n, hn, hsteps⟩ := ihNo _ _ _ _ _ h hresNo hl (by omega) (by omega)
    have hsteps' := hjump.trans (hsteps.mono fun m hm => Begins.behindJumpIf hm)
    cases e with
    | left c₁ => exact ⟨1 + n, by unfold jumpIfSize jumpSize at *; omega, hsteps'⟩
    | fell c₁ =>
      have hskip := jumpChunk_step (hresJump.later hl) (c := c₁) (by omega) (by omega)
      exact ⟨1 + n + 1, by unfold jumpIfSize jumpSize at *; omega,
        hsteps'.trans (hskip.mono fun m hm => Begins.behindJumpIf (Begins.after hm))⟩

theorem Followed.choose {k : Cond} {no yes next : Code} (ihNo : Followed P base no)
    (ihYes : Followed P base yes) (ih : Followed P base next) :
    Followed P base (.choose k no yes next) := by
  intro exit pos ds c e h hres hl hstop hlim
  simp only [chunks, List.cons_append, List.append_assoc] at hres ⊢
  have hno := le_stop (pos + jumpIfSize) no
  have hyes := le_stop (no.stop (pos + jumpIfSize) + jumpSize) yes
  have hle := le_stop (yes.stop (no.stop (pos + jumpIfSize) + jumpSize)) next
  rw [stop] at hstop ⊢
  obtain ⟨e₁, h₁, h₂⟩ := Option.bind_eq_some_iff.mp h
  have hext : c.mem.Extends e₁.cpu.mem := by
    split at h₁ <;> exact run_extends h₁
  obtain ⟨hl₁, hl₂⟩ := hl.of_extends hext (e₁.andThen_extends (fun _ _ => run_extends) h₂)
  have hresNext := Resident.after (Resident.behindJump (Resident.after (Resident.behindJumpIf hres)))
  obtain ⟨n, hn, hsteps⟩ := choose_steps ihNo ihYes h₁ hres hl₁ (by omega) hlim
  refine andThen_steps h₂ hn hle hsteps fun c₁ hc₁ hnext => ?_
  subst hc₁
  obtain ⟨n₂, hn₂, hsteps₂⟩ :=
    ih _ _ _ _ _ hnext (hresNext.later hl₁) hl₂ hstop (by omega)
  exact ⟨n₂, hn₂, hsteps₂.mono
    fun m hm => Begins.behindJumpIf (Begins.after (Begins.behindJump (Begins.after hm)))⟩

theorem Followed.select {table index : Reg} {bodies : List (Option (List Instr))} {next : Code}
    (ih : Followed P base next) : Followed P base (.select table index bodies next) := by
  intro exit pos ds c e h hres hl hstop hlim
  rw [chunks, List.append_assoc] at hres ⊢
  have hle := le_stop (selectEnd pos table index bodies) next
  have hend := selectEnd_eq base exit pos table index bodies
  rw [stop] at hstop ⊢
  simp only [run] at h
  split at h
  · cases h
  · rename_i hindex
    split at h
    · cases h
    · rename_i hb
      cases h
      refine ⟨4, ?_, select_leaves hindex hres hlim (by omega) hb⟩
      have h₁ := le_tableStart pos bodies
      have h₂ := tableStart_le pos table index bodies
      have h₃ : 0 < bodies.length := by
        rcases bodies with - | ⟨b, rest⟩
        · cases hb
        · exact Nat.succ_pos _
      omega
    · rename_i is hb
      obtain ⟨c₁, h₁, h₂⟩ := Option.bind_eq_some_iff.mp h
      have hext := performRow_extends h₁
      rw [Cpu.mem_setReg] at hext
      obtain ⟨hl₁, hl₂⟩ := hl.of_extends hext (run_extends h₂)
      obtain ⟨n, hn, hsteps⟩ := select_steps hindex hres (by omega) hb h₁ hl₁
      have hresNext := hres.right
      rw [← hend] at hresNext
      obtain ⟨n₂, hn₂, hsteps₂⟩ := ih _ _ _ _ _ h₂ (hresNext.later hl₁) hl₂ hstop (by omega)
      exact ⟨n + n₂, by omega, hsteps.trans (hsteps₂.mono fun m hm => Begins.right _ (by
        rwa [← hend]))⟩

/-- The machine follows all code. -/
theorem followed (code : Code) : Followed P base code := by
  induction code with
  | done => intro exit pos ds c e h _ _ _ _; cases h; exact ⟨0, Nat.le_refl _, .none _⟩
  | instr i next ih => exact ih.instr
  | mark s next ih => exact ih
  | leave next => exact .leave next
  | leaveIf k next ih => exact ih.leaveIf
  | skipIf k body next ihBody ih => exact ihBody.skipIf ih
  | choose k no yes next ihNo ihYes ih => exact ihNo.choose ihYes ih
  | select table index bodies next ih => exact ih.select

/-! ### Functions -/

/-- The chunks of a function: its code and its return. -/
def functionChunks (base : Address) (start : Nat) (code : Code) : List Chunk :=
  code.chunks base (code.stop start) start ++ [.instr .ret]

theorem code_functionChunks (base : Address) (start : Nat) (code : Code) :
    Chunk.code (functionChunks base start code) =
      code.bytes base (code.stop start) start ++ Instr.ret.bytes := by
  rw [functionChunks, Chunk.code_append, code_chunks]
  rfl

/-- A function goes from its start to its return. -/
theorem function_steps {start : Nat} {code : Code} {c : Cpu} {e : Exit}
    (h : code.run base start c = some e)
    (hres : Resident P base start (functionChunks base start code) c.mem)
    (hl : c.mem.Later P e.cpu.mem) (hlim : code.stop start ≤ start + 0x7FFFFFF0) :
    ∃ n, start + n ≤ code.stop start ∧
      Steps (Begins base start (functionChunks base start code)) n
        ⟨c, base + BitVec.ofNat 64 start⟩ ⟨e.cpu, base + BitVec.ofNat 64 (code.stop start)⟩ ∧
      Begins base start (functionChunks base start code)
        ⟨e.cpu, base + BitVec.ofNat 64 (code.stop start)⟩ ∧
      Machine.step ⟨e.cpu, base + BitVec.ofNat 64 (code.stop start)⟩ = .returned e.cpu := by
  obtain ⟨n, hn, hsteps⟩ := followed code _ _ _ c e h hres hl (Nat.le_refl _) hlim
  have htarget : e.target (code.stop start) (code.stop start) = code.stop start := by
    cases e <;> rfl
  rw [htarget] at hsteps
  obtain ⟨hbegins, hstep⟩ := ((Resident.after hres).later hl).step (i := .ret) rfl
  exact ⟨n, hn, hsteps, Begins.after hbegins, hstep⟩

/-- A call of a function ends at its return, within as many instructions as the
function has bytes. -/
theorem function_call {start fuel : Nat} {code : Code} {c : Cpu} {e : Exit}
    (h : code.run base start c = some e)
    (hres : Resident P base start (functionChunks base start code) c.mem)
    (hl : c.mem.Later P e.cpu.mem) (hlim : code.stop start ≤ start + 0x7FFFFFF0)
    (hfuel : code.stop start + 1 ≤ start + fuel) :
    Machine.call fuel (base + BitVec.ofNat 64 start) c = some e.cpu := by
  obtain ⟨n, hn, hsteps, -, hstep⟩ := function_steps h hres hl hlim
  obtain ⟨k, rfl⟩ : ∃ k, fuel = n + (k + 1) := ⟨fuel - n - 1, by omega⟩
  rw [Machine.call, hsteps.run_add, Machine.run, hstep]

end Code

end PixelPipeline
