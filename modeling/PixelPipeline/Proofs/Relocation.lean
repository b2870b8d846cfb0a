/-
# Proofs.Relocation — functions without a place

What is compiled depends on the word of a key, and hardly on the place: two
functions with the same word differ in the entries of one table, and in nothing
else.  `Image` is a function without a place, with the table as offsets from the
start.

Two facts about layout carry this.  Code that is moved by a multiple of eight has
the bytes that it would have if the buffer were moved (`Code.bytes_moved`), since
branches count from where they are and padding looks at the offset modulo eight.
And the address of the buffer is in no byte but those of a table
(`Code.encloses_bytes`).
-/
import PixelPipeline.Proofs.Markers
import PixelPipeline.Proofs.NormalForm
import PixelPipeline.Proofs.Selections

namespace PixelPipeline

open X86 Compile

namespace Code

/-! ## Code that is moved -/

theorem displacementTo_moved (δ target after : Nat) :
    displacementTo (δ + target) (δ + after) = displacementTo target after := by
  unfold displacementTo
  congr 1
  omega

theorem jumpTo_moved (δ target pos : Nat) : jumpTo (δ + target) (δ + pos) = jumpTo target pos := by
  rw [jumpTo, Nat.add_assoc, displacementTo_moved]
  rfl

theorem jumpIfTo_moved (c : Cond) (δ target pos : Nat) :
    jumpIfTo c (δ + target) (δ + pos) = jumpIfTo c target pos := by
  rw [jumpIfTo, Nat.add_assoc, displacementTo_moved]
  rfl

theorem bodyBytes_moved (δ exit finish pos : Nat) (bodies : List (Option (List Instr))) :
    bodyBytes (δ + exit) (δ + finish) (δ + pos) bodies = bodyBytes exit finish pos bodies := by
  induction bodies generalizing pos with
  | nil => rfl
  | cons b rest ih =>
    cases b with
    | none => rw [bodyBytes, jumpTo_moved, Nat.add_assoc, ih, bodyBytes]
    | some is =>
      rw [bodyBytes, Nat.add_assoc δ pos (rowSize is), jumpTo_moved, Nat.add_assoc, ih, bodyBytes]

theorem bodyStarts_moved (δ pos : Nat) (bodies : List (Option (List Instr))) :
    bodyStarts (δ + pos) bodies = (bodyStarts pos bodies).map (δ + ·) := by
  induction bodies generalizing pos with
  | nil => rfl
  | cons b rest ih => rw [bodyStarts, Nat.add_assoc, ih, bodyStarts, List.map_cons]

section

variable {δ : Nat} (hδ : 8 ∣ δ)

include hδ

theorem distance_moved (n : Nat) : Padding.distance (δ + n) 8 = Padding.distance n 8 := by
  have hdistance := @Padding.distance_eq 3 8 rfl (by decide)
  rw [hdistance, hdistance]
  omega

theorem tableStart_moved (pos : Nat) (bodies : List (Option (List Instr))) :
    tableStart (δ + pos) bodies = δ + tableStart pos bodies := by
  simp only [tableStart, Nat.add_assoc]
  rw [distance_moved hδ]

theorem dispatchStart_moved (pos : Nat) (bodies : List (Option (List Instr))) :
    dispatchStart (δ + pos) bodies = δ + dispatchStart pos bodies := by
  rw [dispatchStart, tableStart_moved hδ, Nat.add_assoc, dispatchStart]

theorem selectEnd_moved (pos : Nat) (table index : Reg) (bodies : List (Option (List Instr))) :
    selectEnd (δ + pos) table index bodies = δ + selectEnd pos table index bodies := by
  simp only [selectEnd, dispatchStart_moved hδ, Nat.add_assoc]

theorem stop_moved (c : Code) (pos : Nat) : c.stop (δ + pos) = δ + c.stop pos := by
  induction c generalizing pos with
  | done => rfl
  | instr i next ih => rw [stop, Nat.add_assoc, ih, stop]
  | mark s next ih => exact ih pos
  | leave next ih => rw [stop, Nat.add_assoc, ih, stop]
  | leaveIf c next ih => rw [stop, Nat.add_assoc, ih, stop]
  | skipIf c body next ihBody ih => rw [stop, Nat.add_assoc, ihBody, ih, stop]
  | choose c no yes next ihNo ihYes ih =>
    rw [stop, Nat.add_assoc, ihNo, Nat.add_assoc, ihYes, ih, stop]
  | select table index bodies next ih => rw [stop, selectEnd_moved hδ, ih, stop]

theorem marks_moved (c : Code) (pos : Nat) :
    c.marks (δ + pos) = (c.marks pos).map fun (offset, s) => (δ + offset, s) := by
  induction c generalizing pos with
  | done => rfl
  | instr i next ih => rw [marks, Nat.add_assoc, ih, marks]
  | mark s next ih => rw [marks, ih, marks, List.map_cons]
  | leave next ih => rw [marks, Nat.add_assoc, ih, marks]
  | leaveIf c next ih => rw [marks, Nat.add_assoc, ih, marks]
  | skipIf c body next ihBody ih =>
    simp only [marks, Nat.add_assoc, stop_moved hδ, ihBody, ih, List.map_append]
  | choose c no yes next ihNo ihYes ih =>
    simp only [marks, Nat.add_assoc, stop_moved hδ, ihNo, ihYes, ih, List.map_append]
  | select table index bodies next ih => rw [marks, selectEnd_moved hδ, ih, marks]

theorem selectBytes_moved (base : Address) (exit pos : Nat) (table index : Reg)
    (bodies : List (Option (List Instr))) :
    selectBytes base (δ + exit) (δ + pos) table index bodies =
      selectBytes (base + BitVec.ofNat 64 δ) exit pos table index bodies := by
  have hentry (start : Nat) : base + BitVec.ofNat 64 (δ + start) =
      base + BitVec.ofNat 64 δ + BitVec.ofNat 64 start := by
    rw [BitVec.ofNat_add, BitVec.add_assoc]
  simp only [selectBytes, dispatchStart_moved hδ, tableStart_moved hδ, selectEnd_moved hδ,
    Nat.add_assoc, jumpTo_moved, bodyBytes_moved, bodyStarts_moved, distance_moved hδ,
    displacementTo_moved, List.flatMap_map, hentry]

/-- Moving code in its buffer is moving the buffer. -/
theorem bytes_moved (base : Address) (exit : Nat) (c : Code) (pos : Nat) :
    c.bytes base (δ + exit) (δ + pos) = c.bytes (base + BitVec.ofNat 64 δ) exit pos := by
  induction c generalizing pos with
  | done => rfl
  | instr i next ih => rw [bytes, Nat.add_assoc, ih, bytes]
  | mark s next ih => exact ih pos
  | leave next ih => rw [bytes, jumpTo_moved, Nat.add_assoc, ih, bytes]
  | leaveIf c next ih => rw [bytes, jumpIfTo_moved, Nat.add_assoc, ih, bytes]
  | skipIf c body next ihBody ih =>
    simp only [bytes, Nat.add_assoc, stop_moved hδ, jumpIfTo_moved, ihBody, ih]
  | choose c no yes next ihNo ihYes ih =>
    simp only [bytes, Nat.add_assoc, stop_moved hδ, jumpIfTo_moved, jumpTo_moved, ihNo, ihYes, ih]
  | select table index bodies next ih =>
    rw [bytes, selectBytes_moved hδ, selectEnd_moved hδ, ih, bytes]

end

/-! ## Bytes that have the address of the buffer in them -/

/-- Bytes from `pos` on that enclose selections with these bodies, and have the
address of the buffer in no other byte. -/
def Encloses (exit : Nat) :
    Nat → List (List (Option (List Instr))) → (Address → List Byte) → Prop
  | _, [], f => ∃ bs, ∀ base, f base = bs
  | pos, bodies :: rest, f => ∃ bs table index g,
      (∀ base, f base = bs ++ selectBytes base exit (pos + bs.length) table index bodies ++ g base) ∧
      Encloses exit (selectEnd (pos + bs.length) table index bodies) rest g

namespace Encloses

variable {exit pos : Nat} {ts ts' : List (List (Option (List Instr)))} {f g : Address → List Byte}

theorem behind (bs : List Byte) (h : Encloses exit (pos + bs.length) ts f) :
    Encloses exit pos ts fun base => bs ++ f base := by
  cases ts with
  | nil =>
    obtain ⟨cs, hf⟩ := h
    exact ⟨bs ++ cs, fun base => congrArg (bs ++ ·) (hf base)⟩
  | cons bodies rest =>
    obtain ⟨cs, table, index, g, hf, hg⟩ := h
    rw [Nat.add_assoc, ← List.length_append] at hf hg
    refine ⟨bs ++ cs, table, index, g, fun base => ?_, hg⟩
    dsimp only
    rw [hf]
    simp only [List.append_assoc]

theorem append {mid : Nat} (hlen : ∀ base, pos + (f base).length = mid)
    (hf : Encloses exit pos ts f) (hg : Encloses exit mid ts' g) :
    Encloses exit pos (ts ++ ts') fun base => f base ++ g base := by
  induction ts generalizing pos f with
  | nil =>
    obtain ⟨bs, hf⟩ := hf
    have hmid : pos + bs.length = mid := hf 0 ▸ hlen 0
    simp only [hf]
    exact behind bs (hmid ▸ hg)
  | cons bodies rest ih =>
    obtain ⟨bs, table, index, f', hf, hf'⟩ := hf
    refine ⟨bs, table, index, fun base => f' base ++ g base, fun base => ?_, ih (fun base => ?_) hf'⟩
    · dsimp only
      rw [hf, List.append_assoc]
    · have hsize := length_selectBytes base exit (pos + bs.length) table index bodies
      rw [← hlen base, hf, List.length_append, List.length_append]
      omega

end Encloses

/-- Code has the address of its buffer in its tables and nowhere else. -/
theorem encloses_bytes (exit : Nat) (c : Code) (pos : Nat) :
    Encloses exit pos c.tables fun base => c.bytes base exit pos := by
  induction c generalizing pos with
  | done => exact ⟨[], fun _ => rfl⟩
  | instr i next ih => exact (ih (pos + i.size)).behind i.bytes
  | mark s next ih => exact ih pos
  | leave next ih => exact (ih (pos + jumpSize)).behind (jumpTo exit pos)
  | leaveIf c next ih => exact (ih (pos + jumpIfSize)).behind (jumpIfTo c exit pos)
  | skipIf c body next ihBody ih =>
    have hbody := ihBody (pos + jumpIfSize)
    have hnext := ih (body.stop (pos + jumpIfSize))
    have hrest := hbody.append (fun base => length_bytes base exit _ body) hnext
    simp only [bytes, List.append_assoc]
    exact hrest.behind (jumpIfTo c (body.stop (pos + jumpIfSize)) pos)
  | choose c no yes next ihNo ihYes ih =>
    have hno := ihNo (pos + jumpIfSize)
    have hyes := ihYes (no.stop (pos + jumpIfSize) + jumpSize)
    have hnext := ih (yes.stop (no.stop (pos + jumpIfSize) + jumpSize))
    have hrest := hyes.append (fun base => length_bytes base exit _ yes) hnext
    have hboth := hno.append (fun base => length_bytes base exit _ no)
      (hrest.behind (jumpTo (yes.stop (no.stop (pos + jumpIfSize) + jumpSize))
        (no.stop (pos + jumpIfSize))))
    simp only [bytes, tables, List.append_assoc]
    exact hboth.behind (jumpIfTo c (no.stop (pos + jumpIfSize) + jumpSize) pos)
  | select table index bodies next ih =>
    exact ⟨[], table, index, _, fun _ => rfl, ih _⟩

end Code

/-! ## Functions without a place -/

/-- A marker further on. -/
def StageMarker.moved (δ : Nat) (m : StageMarker) : StageMarker := { m with offset := δ + m.offset }

/-- A function without a place. -/
structure Image where
  /-- Bytes in front of the table. -/
  before : List Byte
  /-- Where the entries of the table lead, from the start of the function. -/
  entries : List Nat
  /-- Bytes behind the table. -/
  after : List Byte
  /-- Stages, from the start of the function. -/
  markers : List StageMarker

namespace Image

/-- The length of the function. -/
def size (m : Image) : Nat := m.before.length + 8 * m.entries.length + m.after.length

/-- The bytes of the function, if it starts at an address. -/
def bytesAt (m : Image) (origin : Address) : List Byte :=
  m.before ++ m.entries.flatMap (fun e => le64 (origin + BitVec.ofNat 64 e)) ++ m.after

/-- The function, if it starts at an offset. -/
def placedAt (m : Image) (start : Nat) : CompiledFunction where
  start := start
  stop := start + m.size
  markers := m.markers.map (·.moved start)

theorem length_bytesAt (m : Image) (origin : Address) : (m.bytesAt origin).length = m.size := by
  have htable : (m.entries.flatMap fun e => le64 (origin + BitVec.ofNat 64 e)).length =
      8 * m.entries.length := Code.length_tableBytes origin m.entries
  rw [bytesAt, List.length_append, List.length_append, htable, size]

/-- The table has an entry for each body, and what an entry leads to is its
body with the jump that ends it, to the return or behind the selection. -/
def LeadsTo (m : Image) (bodies : List (Option (List Instr))) : Prop :=
  m.entries.length = bodies.length ∧
    ∃ finish : Nat, ∀ (i : Nat) (body : Option (List Instr)), bodies[i]? = some body →
      ∃ e, m.entries[i]? = some e ∧
        Code.bodyBytes (m.size - 1) finish e [body] <+: m.before.drop e

end Image

/-- A body lies where its entry says, with its jump behind it. -/
theorem Code.exists_bodyStart {bodies : List (Option (List Instr))} {i : Nat}
    {body : Option (List Instr)} (hi : bodies[i]? = some body) (exit finish pos : Nat) :
    ∃ e, (bodyStarts pos bodies)[i]? = some e ∧ pos ≤ e ∧
      bodyBytes exit finish e [body] <+: (bodyBytes exit finish pos bodies).drop (e - pos) := by
  induction bodies generalizing i pos with
  | nil => cases hi
  | cons b rest ih =>
    have hcons (pos : Nat) : bodyBytes exit finish pos (b :: rest) =
        bodyBytes exit finish pos [b] ++ bodyBytes exit finish (pos + bodySize b) rest := by
      cases b <;> simp only [bodyBytes, List.append_nil]
    cases i with
    | zero =>
      cases hi
      refine ⟨pos, rfl, Nat.le_refl _, ?_⟩
      rw [Nat.sub_self, List.drop_zero, hcons]
      exact List.prefix_append _ _
    | succ i =>
      obtain ⟨e, he, hle, hprefix⟩ := ih hi (pos + bodySize b)
      refine ⟨e, he, by omega, ?_⟩
      have hsize : (bodyBytes exit finish pos [b]).length = bodySize b :=
        (length_bodyBytes _ _ _ _).trans (Nat.add_zero _)
      have hdrop : e - pos = (bodyBytes exit finish pos [b]).length + (e - (pos + bodySize b)) := by
        omega
      rwa [hcons, hdrop, List.drop_length_add_append]

namespace Image

/-- A function around one selection. -/
def around (front back : List Byte) (exit : Nat) (table index : Reg)
    (bodies : List (Option (List Instr))) (markers : List StageMarker) : Image where
  before := front ++ Code.jumpTo (Code.dispatchStart front.length bodies) front.length ++
    Code.bodyBytes exit (Code.selectEnd front.length table index bodies)
      (front.length + Code.jumpSize) bodies ++
    Padding.bytes (Padding.distance (front.length + Code.jumpSize + Code.bodiesSize bodies) 8)
  entries := Code.bodyStarts (front.length + Code.jumpSize) bodies
  after := (Instr.leaRip table (Code.displacementTo (Code.tableStart front.length bodies)
      (Code.dispatchStart front.length bodies + (Instr.leaRip table 0).size))).bytes ++
    (Code.tableJump table index).bytes ++ back
  markers := markers

variable (front back : List Byte) (exit : Nat) (table index : Reg)
  (bodies : List (Option (List Instr))) (markers : List StageMarker)

theorem bytesAt_around (origin : Address) :
    (around front back exit table index bodies markers).bytesAt origin =
      front ++ Code.selectBytes origin exit front.length table index bodies ++ back := by
  simp only [bytesAt, around, Code.selectBytes, List.append_assoc]

theorem leadsTo_around
    (h : (around front back exit table index bodies markers).size = exit + 1) :
    (around front back exit table index bodies markers).LeadsTo bodies := by
  refine ⟨Code.length_bodyStarts _ _, Code.selectEnd front.length table index bodies,
    fun i body hi => ?_⟩
  obtain ⟨e, he, hle, hprefix⟩ := Code.exists_bodyStart hi exit
    (Code.selectEnd front.length table index bodies) (front.length + Code.jumpSize)
  refine ⟨e, he, ?_⟩
  have hjump := Code.length_jumpTo (Code.dispatchStart front.length bodies) front.length
  have hdrop : e = (front ++ Code.jumpTo (Code.dispatchStart front.length bodies) front.length).length +
      (e - (front.length + Code.jumpSize)) := by
    rw [List.length_append]
    omega
  rw [h, Nat.add_sub_cancel, around]
  dsimp only
  rw [List.append_assoc (front ++ _), hdrop, List.drop_length_add_append, ← hdrop]
  exact hprefix.trans (List.prefix_append _ _ |>.drop _)

end Image

namespace Compile

variable {code : Code} {δ : Nat}

theorem markersOf_moved (δ : Nat) (marks : List (Nat × Stage)) :
    markersOf (marks.map fun (offset, s) => (δ + offset, s)) =
      (markersOf marks).map (·.moved δ) := by
  induction marks with
  | nil => rfl
  | cons mark rest ih =>
    have hhead : (markersOf rest).head?.any (fun m => δ + m.offset == δ + mark.1) =
        (markersOf rest).head?.any (·.offset == mark.1) := by
      refine congrArg (Option.any · _) (funext fun m => ?_)
      rw [Bool.eq_iff_iff, beq_iff_eq, beq_iff_eq, Nat.add_left_cancel_iff]
    rw [List.map_cons, markersOf_cons, ih, List.head?_map, Option.any_map, markersOf_cons]
    show (if (markersOf rest).head?.any (fun m => δ + m.offset == δ + mark.1) = true then _ else _) = _
    rw [hhead]
    split <;> rfl

theorem functionBytes_moved (hδ : 8 ∣ δ) (base : Address) :
    functionBytes code base δ = functionBytes code (base + BitVec.ofNat 64 δ) 0 := by
  have hstop : code.stop δ = δ + code.stop 0 := Code.stop_moved hδ code 0
  have hbytes := Code.bytes_moved hδ base (code.stop 0) code 0
  rw [functionBytes, hstop, functionBytes]
  exact congrArg (· ++ _) hbytes

theorem placement_moved (hδ : 8 ∣ δ) {m : Image} (hsize : m.size = code.stop 0 + 1)
    (hmarkers : m.markers = markersOf (trace code 0)) : placement code δ = m.placedAt δ := by
  have hstop : code.stop δ = δ + code.stop 0 := Code.stop_moved hδ code 0
  have htrace : trace code δ = (trace code 0).map fun (offset, s) => (δ + offset, s) :=
    Code.marks_moved hδ (withExit code) 0
  rw [placement, Image.placedAt, hstop, htrace, markersOf_moved, hmarkers, hsize]
  rfl

/-- Code at the start of its buffer says what it is in any other place. -/
theorem placed_of_bytes {m : Image} (hmarkers : m.markers = markersOf (trace code 0))
    (hbytes : ∀ origin, functionBytes code origin 0 = m.bytesAt origin) :
    m.size = code.stop 0 + 1 ∧
      ∀ base δ, 8 ∣ δ → functionBytes code base δ = m.bytesAt (base + BitVec.ofNat 64 δ) ∧
        placement code δ = m.placedAt δ := by
  have hlen := length_functionBytes code 0 0
  have hsize : m.size = code.stop 0 + 1 := by
    rw [← m.length_bytesAt 0, ← hbytes, ← hlen, Nat.zero_add]
  exact ⟨hsize, fun base δ hδ =>
    ⟨(functionBytes_moved hδ base).trans (hbytes _), placement_moved hδ hsize hmarkers⟩⟩

/-- Code without a table is an image without entries. -/
theorem exists_image_plain (h : code.tables = []) :
    ∃ m : Image, m.entries = [] ∧
      ∀ base δ, 8 ∣ δ → functionBytes code base δ = m.bytesAt (base + BitVec.ofNat 64 δ) ∧
        placement code δ = m.placedAt δ := by
  have hencl := Code.encloses_bytes (code.stop 0) code 0
  rw [h] at hencl
  obtain ⟨bs, hf⟩ := hencl
  refine ⟨⟨bs ++ Instr.ret.bytes, [], [], markersOf (trace code 0)⟩, rfl,
    (placed_of_bytes rfl fun origin => ?_).2⟩
  have hcode : code.bytes origin (code.stop 0) 0 = bs := hf origin
  rw [functionBytes, hcode, Image.bytesAt, List.flatMap_nil, List.append_nil, List.append_nil]

/-- Code with one table is an image whose entries lead to the bodies. -/
theorem exists_image_table {bodies : List (Option (List Instr))} (h : code.tables = [bodies]) :
    ∃ m : Image, m.LeadsTo bodies ∧
      ∀ base δ, 8 ∣ δ → functionBytes code base δ = m.bytesAt (base + BitVec.ofNat 64 δ) ∧
        placement code δ = m.placedAt δ := by
  have hencl := Code.encloses_bytes (code.stop 0) code 0
  rw [h] at hencl
  obtain ⟨front, table, index, g, hf, post, hg⟩ := hencl
  rw [Nat.zero_add] at hf
  have hbytes (origin : Address) : functionBytes code origin 0 =
      (Image.around front (post ++ Instr.ret.bytes) (code.stop 0) table index bodies
        (markersOf (trace code 0))).bytesAt origin := by
    have hcode : code.bytes origin (code.stop 0) 0 =
        front ++ Code.selectBytes origin (code.stop 0) front.length table index bodies ++ g origin :=
      hf origin
    rw [functionBytes, hcode, hg, Image.bytesAt_around, List.append_assoc]
  obtain ⟨hsize, hplaced⟩ := placed_of_bytes rfl hbytes
  exact ⟨_, Image.leadsTo_around _ _ _ _ _ _ _ hsize, hplaced⟩

/-! ## Compilation, wherever it puts the function -/

/-- A buffer with the function that a compilation has put there. -/
def Compiled (features : Features) (addresses : DataAddresses) (base : Address) (b : CodeBuffer)
    (m : Image) : Prop :=
  ∃ f b', function features addresses base b = .ok f b' ∧ f = m.placedAt f.start ∧
    b'.bytesAt f.start m.size = m.bytesAt (base + BitVec.ofNat 64 f.start)

theorem compiled_of_image {features : Features} {addresses : DataAddresses} {m : Image}
    (hcode : body ⟨features, addresses⟩ = .ok code)
    (hm : ∀ base δ, 8 ∣ δ → functionBytes code base δ = m.bytesAt (base + BitVec.ofNat 64 δ) ∧
      placement code δ = m.placedAt δ)
    (base : Address) {b : CodeBuffer} (h : 4096 ≤ b.remaining) :
    Compiled features addresses base b m := by
  obtain ⟨code', f, b', hcode', hok, happ, -⟩ := function_ok features addresses base h
  obtain rfl : code' = code := Except.ok.inj (hcode'.symm.trans hcode)
  obtain ⟨hdvd, -, -⟩ := nextStart_spec b.offset
  obtain ⟨hbytes, hplaced⟩ := hm base f.start (happ.start ▸ Nat.dvd_trans (by decide) hdvd)
  refine ⟨f, b', hok, happ.eq_placement.trans hplaced, ?_⟩
  rw [← m.length_bytesAt (base + BitVec.ofNat 64 f.start), ← hbytes]
  exact CodeBuffer.bytesAt_of_byteAt happ.bytes

/-- Two keys with the same word have the same function wherever it is put, but for
the table of a raster operation: its sixteen entries are the addresses of the
bodies. -/
theorem relocates {c c' : Config} {s s' : DrawState} (addresses : DataAddresses)
    (base base' : Address) {b b' : CodeBuffer}
    (hword : (Key.ofConfig c s).word = (Key.ofConfig c' s').word)
    (h : 4096 ≤ b.remaining) (h' : 4096 ≤ b'.remaining) :
    ∃ m : Image, Compiled (Key.ofConfig c s).features addresses base b m ∧
      Compiled (Key.ofConfig c' s').features addresses base' b' m ∧
      if (Key.ofConfig c s).features.rasterOp then
        m.entries.length = 16 ∧
          ∃ color dst hasStencil, m.LeadsTo (rasterOpBodies color dst hasStencil)
      else m.entries = [] := by
  have hfeatures : (Key.ofConfig c' s').features = (Key.ofConfig c s).features := by
    rw [Key.features, ← hword]
    rfl
  rw [hfeatures]
  obtain ⟨code, hcode, -⟩ := exists_body ⟨(Key.ofConfig c s).features, addresses⟩
  cases hop : (Key.ofConfig c s).features.rasterOp with
  | false =>
    obtain ⟨m, hentries, hm⟩ := exists_image_plain (tables_plain hop hcode)
    exact ⟨m, compiled_of_image hcode hm base h, compiled_of_image hcode hm base' h', hentries⟩
  | true =>
    have hclear : (Key.ofConfig c s).features.clearMode = false := by
      rw [Key.features_ofConfig, Features.ofConfig_eq] at hop ⊢
      exact NormalForm.clearMode_of_rasterOp hop
    obtain ⟨color, dst, hasStencil, htables⟩ := tables_rasterOp hop hclear hcode
    obtain ⟨m, hleads, hm⟩ := exists_image_table htables
    exact ⟨m, compiled_of_image hcode hm base h, compiled_of_image hcode hm base' h',
      hleads.1, color, dst, hasStencil, hleads⟩

/-- A dithered draw with a raster operation under two dither tables: the constants
differ, the functions in a fresh buffer and in a used one do not. -/
theorem relocates_dithered :
    let c : Config := { dither := true, rasterOp := true }
    let s : DrawState := { dither := Vector.replicate 16 1 }
    (Key.ofConfig c {}).constants ≠ (Key.ofConfig c s).constants ∧
    ∃ m : Image,
      Compiled (Key.ofConfig c {}).features ⟨0x1000, 0x2000⟩ 0x10000 (.ofSize 4096) m ∧
      Compiled (Key.ofConfig c s).features ⟨0x1000, 0x2000⟩ 0x50000
        ⟨8192, 100, #[], by decide, by decide⟩ m ∧
      m.entries.length = 16 := by
  intro c s
  have hword : (Key.ofConfig c {}).word = (Key.ofConfig c s).word := rfl
  have hroom : 4096 ≤ (CodeBuffer.ofSize 4096).remaining := by decide
  have hroom' : 4096 ≤ (CodeBuffer.mk 8192 100 #[] (by decide) (by decide)).remaining := by decide
  obtain ⟨m, hm, hm', hentries⟩ :=
    relocates ⟨0x1000, 0x2000⟩ 0x10000 0x50000 hword hroom hroom'
  rw [if_pos (by decide)] at hentries
  exact ⟨by decide, m, hm, hm', hentries.1⟩

end Compile

end PixelPipeline
