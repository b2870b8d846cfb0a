/-
# Proofs.Calls — calling a compiled function

A call is the machine at the start of a function that was compiled for a key
(`PixelCall`).  What callers promise is that the function is in memory, and
that nothing it is made of and nothing it reads lies in the two cells it may
store to (`PixelCall.Safe`).  Then every call comes to the one return, whatever
the arguments are and whatever bytes the register block has.

The code of a function has no return but the last, since no stage emits one.
-/
import PixelPipeline.Drawing
import PixelPipeline.Proofs.Placement
import PixelPipeline.Proofs.Stages

namespace PixelPipeline

open X86 Compile

/-! ## The return is the last instruction -/

namespace Code

theorem ret_not_mem_row {is : List Instr} (h : is.any (·.isReturn) = false) :
    Chunk.instr .ret ∉ Chunk.row is := by
  intro hmem
  obtain ⟨i, hi, he⟩ := List.mem_map.mp hmem
  cases he
  exact Bool.false_ne_true (h.symm.trans (List.any_eq_true.mpr ⟨_, hi, rfl⟩))

theorem ret_not_mem_bodyChunks {bodies : List (Option (List Instr))}
    (h : bodies.any (·.any (·.any (·.isReturn))) = false) (exit finish pos : Nat) :
    Chunk.instr .ret ∉ bodyChunks exit finish pos bodies := by
  induction bodies generalizing pos with
  | nil => exact List.not_mem_nil
  | cons b rest ih =>
    rw [List.any_cons, Bool.or_eq_false_iff] at h
    cases b with
    | none => simp [bodyChunks, jumpChunk, ih h.2]
    | some is => simp [bodyChunks, jumpChunk, ih h.2, ret_not_mem_row h.1]

/-- Code without a return is laid out without one. -/
theorem ret_not_mem_chunks {code : Code} (h : code.returns = false) (base : Address)
    (exit pos : Nat) : Chunk.instr .ret ∉ code.chunks base exit pos := by
  induction code generalizing pos with
  | done => exact List.not_mem_nil
  | instr i next ih =>
    rw [returns, Bool.or_eq_false_iff] at h
    rw [chunks, List.mem_cons, not_or]
    exact ⟨fun e => by cases e; exact Bool.false_ne_true h.1.symm, ih h.2 _⟩
  | mark _ next ih => exact ih h _
  | leave next ih => simp [chunks, jumpChunk, ih h]
  | leaveIf _ next ih => simp [chunks, jumpIfChunk, ih h]
  | skipIf _ body next ihBody ih =>
    rw [returns, Bool.or_eq_false_iff] at h
    simp [chunks, jumpIfChunk, ihBody h.1, ih h.2]
  | choose _ no yes next ihNo ihYes ih =>
    rw [returns, Bool.or_eq_false_iff, Bool.or_eq_false_iff] at h
    simp [chunks, jumpIfChunk, jumpChunk, ihNo h.1.1, ihYes h.1.2, ih h.2]
  | select _ _ bodies next ih =>
    rw [returns, Bool.or_eq_false_iff] at h
    simp [chunks, selectChunks, jumpChunk, dispatchChunks, tableJump, ret_not_mem_bodyChunks h.1,
      ih h.2]

end Code

/-! ## Calls -/

/-- A function, where it lies, and the machine that enters it. -/
structure PixelCall where
  key : Key
  /-- Addresses that the function was compiled with. -/
  addresses : DataAddresses
  /-- The address of the code buffer. -/
  base : Address
  function : CompiledFunction
  entry : Cpu

namespace PixelCall

variable (p : PixelCall)

/-- The register block, as memory has it. -/
def block : RegisterBlock := .read p.entry.mem p.addresses.state

/-- The address of the pixel. -/
def pixelAddress : Address :=
  p.key.features.pixelAddress p.block (p.entry.reg32 .rdi) (p.entry.reg32 .rsi)

/-- The address of the depth. -/
def depthAddress : Address :=
  p.key.features.depthAddress p.block (p.entry.reg32 .rdi) (p.entry.reg32 .rsi)

/-- The address is in the pixel or in its depth. -/
def InCells (a : Address) : Prop :=
  InCell p.pixelAddress p.key.features.format.bytesPerPixel a ∨ InCell p.depthAddress 2 a

/-- The machine at the start of the function. -/
def start : Machine := ⟨p.entry, p.base + BitVec.ofNat 64 p.function.start⟩

/-- The machine after the call. -/
def result : Option Cpu :=
  Machine.call Drawing.callFuel (p.base + BitVec.ofNat 64 p.function.start) p.entry

/-- The function as it is laid out: the chunks of its code, and its return. -/
def chunks (code : Code) : List Chunk := code.functionChunks p.base p.function.start

/-- What every caller promises: the function was compiled for the key and is in
memory, and its code, the registers and the key lie apart from the two cells.  The
vector constants are where they can be loaded. -/
structure Safe : Prop where
  compiled : ∃ b b', Compile.function p.key.features p.addresses p.base b = .ok p.function b' ∧
    ∀ i, p.function.start ≤ i → i < p.function.stop →
      p.entry.mem.read (p.base + BitVec.ofNat 64 i) = b'.byteAt i
  aligned : Cpu.aligned p.addresses.pool = true
  code : ∀ i, p.function.start ≤ i → i < p.function.stop →
    ¬p.InCells (p.base + BitVec.ofNat 64 i)
  state : ∀ i, i < DrawState.ditherAt → ¬p.InCells (p.addresses.state + BitVec.ofNat 64 i)
  key : ∀ i, i < p.key.bytes.length → ¬p.InCells (p.entry.reg .r9 + BitVec.ofNat 64 i)

/-- The same of a function that was compiled with a given plan for its blend. -/
structure SafeBy (plan : BlendPlan) : Prop where
  compiled : ∃ b b', functionBy p.key.features plan p.addresses p.base b = .ok p.function b' ∧
    ∀ i, p.function.start ≤ i → i < p.function.stop →
      p.entry.mem.read (p.base + BitVec.ofNat 64 i) = b'.byteAt i
  aligned : Cpu.aligned p.addresses.pool = true
  code : ∀ i, p.function.start ≤ i → i < p.function.stop →
    ¬p.InCells (p.base + BitVec.ofNat 64 i)
  state : ∀ i, i < DrawState.ditherAt → ¬p.InCells (p.addresses.state + BitVec.ofNat 64 i)
  key : ∀ i, i < p.key.bytes.length → ¬p.InCells (p.entry.reg .r9 + BitVec.ofNat 64 i)

/-- The call, as the stages see it. -/
def setting (exact : Prop) : Setting := ⟨⟨p.key.features, p.addresses⟩, p.entry, exact⟩

variable {p} {plan : BlendPlan}

/-- A function is compiled with the plan for its factors. -/
theorem Safe.by_plan (h : p.Safe) : p.SafeBy (.ofFeatures p.key.features) where
  compiled := by
    rw [functionBy_ofFeatures]
    exact h.compiled
  aligned := h.aligned
  code := h.code
  state := h.state
  key := h.key

theorem length_keyBytes (k : Key) : k.bytes.length = 28 := by
  simp [Key.bytes, le64, le32]

/-- A function in memory is code that was compiled, with a return behind it. -/
theorem SafeBy.exists_code (h : p.SafeBy plan) :
    ∃ code, bodyBy ⟨p.key.features, p.addresses⟩ plan = .ok code ∧
      p.function.stop = code.stop p.function.start + 1 ∧
      code.stop p.function.start < p.function.start + maxFunctionSize ∧
      Chunk.Resident p.InCells p.base p.function.start
        (p.chunks code) p.entry.mem := by
  obtain ⟨b, b', hok, hread⟩ := h.compiled
  obtain ⟨code, hcode, happ, hle⟩ := appendedBy_of_ok hok
  obtain ⟨-, hstart, -⟩ := nextStart_spec b.offset
  have hlen := length_functionBytes code p.base p.function.start
  have hstop := happ.stop
  have hfirst := happ.start
  refine ⟨code, hcode, happ.stop, by omega, fun i v hv => ?_⟩
  rw [chunks, Code.code_functionChunks] at hv
  have hi : i < (functionBytes code p.base p.function.start).length :=
    (List.getElem?_eq_some_iff.mp hv).1
  exact ⟨(hread _ (Nat.le_add_right _ _) (by omega)).trans (happ.bytes i v hv),
    h.code _ (Nat.le_add_right _ _) (by omega)⟩

theorem Safe.exists_code (h : p.Safe) :
    ∃ code, body ⟨p.key.features, p.addresses⟩ = .ok code ∧
      p.function.stop = code.stop p.function.start + 1 ∧
      code.stop p.function.start < p.function.start + maxFunctionSize ∧
      Chunk.Resident p.InCells p.base p.function.start
        (p.chunks code) p.entry.mem :=
  h.by_plan.exists_code

/-- The stages run a call to its return. -/
theorem exists_runBy {exact : Prop} (hplan : plan.Serves p.key.features) (hk : (p.setting exact).Sound)
    (hcover : exact → p.key.features.Covered (p.setting exact).fragment)
    (hclear : exact → p.key.features.clearMode = true → p.key.features.blend = false)
    {code : Code} (hcode : bodyBy ⟨p.key.features, p.addresses⟩ plan = .ok code) :
    ∃ e, code.run p.base p.function.start p.entry = some e ∧
      p.entry.mem.Later p.InCells e.cpu.mem ∧ (p.setting exact).Kept e.cpu ∧
      (p.setting exact).Ended e.cpu.mem := by
  obtain ⟨r, hr, rfl⟩ := map_ok hcode
  obtain ⟨e, hrun, hends⟩ := Setting.stages_leads hplan hk hcover hclear Compile.entry r hr p.entry
    (Setting.models_entry (p.setting exact)) p.base p.function.start
  refine ⟨e, hrun, ?_⟩
  cases e with
  | fell c =>
    obtain ⟨s, hc, hended⟩ := hends
    exact ⟨hc.mem ▸ hc.later, hc.kept, hc.mem ▸ hended⟩
  | left c => exact hends

theorem exists_run {exact : Prop} (hk : (p.setting exact).Sound)
    (hcover : exact → p.key.features.Covered (p.setting exact).fragment)
    (hclear : exact → p.key.features.clearMode = true → p.key.features.blend = false)
    {code : Code} (hcode : body ⟨p.key.features, p.addresses⟩ = .ok code) :
    ∃ e, code.run p.base p.function.start p.entry = some e ∧
      p.entry.mem.Later p.InCells e.cpu.mem ∧ (p.setting exact).Kept e.cpu ∧
      (p.setting exact).Ended e.cpu.mem :=
  exists_runBy (.inl rfl) hk hcover hclear hcode

/-- Where the run of the code leads, the machine gets in a call. -/
theorem result_of_run {code : Code} {e : Code.Exit}
    (hrun : code.run p.base p.function.start p.entry = some e)
    (hres : Chunk.Resident p.InCells p.base p.function.start (p.chunks code) p.entry.mem)
    (hlater : p.entry.mem.Later p.InCells e.cpu.mem)
    (hlt : code.stop p.function.start < p.function.start + maxFunctionSize) :
    p.result = some e.cpu := by
  unfold maxFunctionSize at hlt
  refine Code.function_call hrun hres hlater (by omega) ?_
  unfold Drawing.callFuel maxFunctionSize
  omega

theorem Safe.sound_unexact (h : p.Safe) : (p.setting False).Sound where
  state := h.state
  key i hi := h.key i (by rwa [length_keyBytes])
  aligned := h.aligned
  constants he := he.elim
  pool he := he.elim
  apart he := he.elim
  fog he := he.elim

end PixelCall

/-! ## Calls that drawings make -/

namespace X86.Block

theorem at?_eq_none {b : Block} {a : Nat} (h : a < b.base ∨ b.base + b.bytes.size ≤ a) :
    b.at? a = none := by
  unfold at?
  split
  · exact Array.getElem?_eq_none (by omega)
  · rfl

/-- Blocks in ascending order: what lies in one of them is read from it. -/
theorem memory_read (before : List Block) {after : List Block} (b : Block) {i : Nat}
    (hlt : b.base + i < 18446744073709551616)
    (hbefore : ∀ b' ∈ before, b'.base + b'.bytes.size ≤ b.base)
    (hafter : ∀ n ∈ after.map (·.base), b.base + i < n) :
    (memory (before ++ b :: after)).read (BitVec.ofNat 64 (b.base + i)) = b.bytes.getD i 0 := by
  have hread : (memory (before ++ b :: after)).read (BitVec.ofNat 64 (b.base + i)) =
      ((before ++ b :: after).findSome? (·.at? (b.base + i))).getD 0 := by
    show ((before ++ b :: after).findSome? (·.at? (BitVec.ofNat 64 (b.base + i)).toNat)).getD 0 = _
    rw [BitVec.toNat_ofNat, Nat.mod_eq_of_lt hlt]
  have hself : b.at? (b.base + i) = b.bytes[i]? := by
    rw [at?, if_pos (Nat.le_add_right _ _), Nat.add_sub_cancel_left]
  rw [hread, List.findSome?_append, List.findSome?_eq_none_iff.mpr fun b' hb' =>
      at?_eq_none (.inr (Nat.le_trans (hbefore b' hb') (Nat.le_add_right _ _))),
    Option.none_or, List.findSome?_cons, hself, Array.getD_eq_getD_getElem?]
  cases b.bytes[i]? with
  | some v => rfl
  | none =>
    show ((after.findSome? (·.at? (b.base + i))).getD 0 : Byte) = 0
    rw [List.findSome?_eq_none_iff.mpr fun b' hb' =>
      at?_eq_none (.inl (hafter _ (List.mem_map_of_mem hb')))]
    rfl

/-- Blocks in ascending order: memory holds each of them. -/
theorem memory_holds (before : List Block) (bases : List Nat) {after : List Block} {base n : Nat}
    {bs : List Byte}
    (hlen : bs.length = n) (hbases : after.map (·.base) = bases)
    (hbefore : ∀ b' ∈ before, b'.base + b'.bytes.size ≤ base)
    (hlt : base + n ≤ 18446744073709551616) (hafter : ∀ m ∈ bases, base + n ≤ m) :
    (memory (before ++ ⟨base, bs.toArray⟩ :: after)).Holds (BitVec.ofNat 64 base) bs := by
  intro i v hv
  have hi : i < n := hlen ▸ (List.getElem?_eq_some_iff.mp hv).1
  have hat := memory_read before ⟨base, bs.toArray⟩ (i := i)
    (Nat.lt_of_lt_of_le (Nat.add_lt_add_left hi base) hlt) hbefore fun m hm =>
      Nat.lt_of_lt_of_le (Nat.add_lt_add_left hi base) (hafter m (hbases ▸ hm))
  rw [← BitVec.ofNat_add, hat, Array.getD_eq_getD_getElem?, List.getElem?_toArray, hv]
  rfl

/-- What lies behind some blocks is read from the others. -/
theorem memory_read_behind (before : List Block) {after : List Block} {a : Address}
    (hbefore : ∀ b ∈ before, b.base + b.bytes.size ≤ a.toNat) :
    (memory (before ++ after)).read a = (memory after).read a := by
  show ((before ++ after).findSome? (·.at? a.toNat)).getD 0 =
    (after.findSome? (·.at? a.toNat)).getD 0
  rw [List.findSome?_append, List.findSome?_eq_none_iff.mpr fun b hb =>
    at?_eq_none (.inr (hbefore b hb)), Option.none_or]

end X86.Block

theorem PixelFormat.bytesPerPixel_le (f : PixelFormat) : f.bytesPerPixel ≤ 4 := by
  cases f <;> decide

namespace Drawing

variable {d : Drawing} {bound : BoundKey}

/-- The call that draws one pixel. -/
def callOf (d : Drawing) (bound : BoundKey) (a : PixelArgs) : PixelCall where
  key := bound.key
  addresses := dataAddresses
  base := BitVec.ofNat 64 codeBase
  function := bound.function
  entry := (Cpu.reset (d.memory bound.key)).withArguments (arguments a)

theorem result_callOf (d : Drawing) (bound : BoundKey) (a : PixelArgs) :
    (d.callOf bound a).result = d.call bound a := by
  rw [call, BitVec.ofNat_add]
  rfl

/-- The function of a key is in the code buffer, which ends in front of the
registers. -/
structure Holds (d : Drawing) (bound : BoundKey) : Prop where
  compiled : ∃ b b', Compile.function bound.key.features dataAddresses (BitVec.ofNat 64 codeBase) b =
      .ok bound.function b' ∧ ∀ i, bound.function.start ≤ i → i < bound.function.stop →
        d.cache.buffer.byteAt i = b'.byteAt i
  stop : codeBase + bound.function.stop ≤ stateBase
  size : codeBase + d.cache.buffer.written.size ≤ stateBase

/-- The code buffer and a function in it end in front of the registers. -/
structure Fits (d : Drawing) (bound : BoundKey) : Prop where
  stop : codeBase + bound.function.stop ≤ stateBase
  size : codeBase + d.cache.buffer.written.size ≤ stateBase

/-- The same of a function that was compiled with a given plan for its blend. -/
structure HoldsBy (d : Drawing) (bound : BoundKey) (plan : BlendPlan) : Prop extends
    d.Fits bound where
  compiled : ∃ b b', functionBy bound.key.features plan dataAddresses (BitVec.ofNat 64 codeBase) b =
      .ok bound.function b' ∧ ∀ i, bound.function.start ≤ i → i < bound.function.stop →
        d.cache.buffer.byteAt i = b'.byteAt i

theorem Holds.fits {d : Drawing} {bound : BoundKey} (h : d.Holds bound) : d.Fits bound :=
  ⟨h.stop, h.size⟩

theorem Holds.by_plan {d : Drawing} {bound : BoundKey} (h : d.Holds bound) :
    d.HoldsBy bound (.ofFeatures bound.key.features) :=
  ⟨h.fits, h.compiled⟩

/-- Where the bytes of a cell are. -/
theorem elementAddress_bytes {base size : Nat} {index : BitVec 32} {a : Address}
    (h : InCell (elementAddress (BitVec.ofNat 64 base) size index) size a) (hsize : size ≤ 4)
    (hbase : base ≤ depthBase) :
    base + size * index.toNat ≤ a.toNat ∧ a.toNat < base + size * (index.toNat + 1) ∧
      size * (index.toNat + 1) ≤ 0x400000000 := by
  obtain ⟨i, hi, rfl⟩ := h
  have hindex : size * (index.toNat + 1) ≤ 4 * 0x100000000 := Nat.mul_le_mul hsize index.isLt
  rw [Nat.mul_add, Nat.mul_one] at hindex ⊢
  unfold depthBase at hbase
  rw [elementAddress, BitVec.add_assoc, ← BitVec.ofNat_add, ← BitVec.ofNat_add, BitVec.toNat_ofNat]
  omega

/-- A cell lies at its base or behind it, not far. -/
theorem elementAddress_range {base size : Nat} {index : BitVec 32} {a : Address}
    (h : InCell (elementAddress (BitVec.ofNat 64 base) size index) size a) (hsize : size ≤ 4)
    (hbase : base ≤ depthBase) : base ≤ a.toNat ∧ a.toNat < base + 0x400000000 := by
  obtain ⟨hfirst, hlast, hfar⟩ := elementAddress_bytes h hsize hbase
  omega

/-- The color buffer ends in front of the depth. -/
theorem cells_apart {size : Nat} {i j : BitVec 32} {a : Address} (hsize : size ≤ 4)
    (hpixel : InCell (elementAddress (BitVec.ofNat 64 colorBase) size i) size a) :
    ¬InCell (elementAddress (BitVec.ofNat 64 depthBase) 2 j) 2 a := by
  intro hdepth
  have hlt := (elementAddress_range hpixel hsize (by decide)).2
  have hle := (elementAddress_range hdepth (by decide) (by decide)).1
  unfold colorBase at hlt
  unfold depthBase at hle
  omega

/-- Memory with the two buffers alone. -/
def buffers (d : Drawing) : Memory := Block.memory [⟨colorBase, d.color⟩, ⟨depthBase, d.depth⟩]

namespace Fits

theorem length_stateBytes (s : DrawState) (fbBase depthBase : Address) :
    (s.bytes fbBase depthBase).length = 70 := by
  simp [DrawState.bytes, le64, le32, le16]

variable (h : d.Fits bound)

include h

/-- The registers are in memory. -/
theorem state : (d.memory bound.key).Holds dataAddresses.state
    (d.state.bytes (BitVec.ofNat 64 colorBase) (BitVec.ofNat 64 depthBase)) :=
  Block.memory_holds [⟨codeBase, d.cache.buffer.written⟩] [poolBase, keyBase, colorBase, depthBase]
    (length_stateBytes _ _ _) rfl (List.forall_mem_singleton.mpr h.size) (by decide) (by decide)

/-- So are the vector constants. -/
theorem pool : (d.memory bound.key).Holds dataAddresses.pool VectorPool.bytes := by
  refine Block.memory_holds [⟨codeBase, d.cache.buffer.written⟩, ⟨stateBase, _⟩]
    [keyBase, colorBase, depthBase] rfl rfl ?_ (by decide) (by decide)
  refine List.forall_mem_cons.mpr ⟨Nat.le_trans h.size (by decide), List.forall_mem_singleton.mpr ?_⟩
  show stateBase + _ ≤ poolBase
  rw [List.size_toArray, length_stateBytes]
  decide

/-- So is the key. -/
theorem key : (d.memory bound.key).Holds (BitVec.ofNat 64 keyBase) bound.key.bytes := by
  have hsize : codeBase + d.cache.buffer.written.size ≤ keyBase := Nat.le_trans h.size (by decide)
  refine Block.memory_holds [⟨codeBase, d.cache.buffer.written⟩, ⟨stateBase, _⟩,
    ⟨poolBase, VectorPool.bytes.toArray⟩] [colorBase, depthBase]
    (PixelCall.length_keyBytes _) rfl ?_ (by decide) (by decide)
  refine List.forall_mem_cons.mpr ⟨hsize, List.forall_mem_cons.mpr
    ⟨?_, List.forall_mem_singleton.mpr (show poolBase + 64 ≤ keyBase by decide)⟩⟩
  show stateBase + _ ≤ keyBase
  rw [List.size_toArray, length_stateBytes]
  decide

/-- Everything else lies in front of the buffers. -/
theorem read_buffers {a : Address} (ha : colorBase ≤ a.toNat) :
    (d.memory bound.key).read a = d.buffers.read a := by
  refine Block.memory_read_behind [⟨codeBase, d.cache.buffer.written⟩, ⟨stateBase, _⟩,
    ⟨poolBase, VectorPool.bytes.toArray⟩, ⟨keyBase, bound.key.bytes.toArray⟩] fun b hb => ?_
  refine Nat.le_trans ?_ ha
  rcases List.mem_cons.mp hb with rfl | hb
  · exact Nat.le_trans h.size (by decide)
  rcases List.mem_cons.mp hb with rfl | hb
  · show stateBase + _ ≤ colorBase
    rw [List.size_toArray, length_stateBytes]
    decide
  rcases List.mem_cons.mp hb with rfl | hb
  · exact (by decide : poolBase + 64 ≤ colorBase)
  · rw [List.mem_singleton.mp hb]
    show keyBase + _ ≤ colorBase
    rw [List.size_toArray, PixelCall.length_keyBytes]
    decide

/-- So is the function. -/
theorem code {i : Nat} (hi : i < bound.function.stop) :
    (d.memory bound.key).read (BitVec.ofNat 64 codeBase + BitVec.ofNat 64 i) =
      d.cache.buffer.byteAt i := by
  have hlt : codeBase + i < stateBase := Nat.lt_of_lt_of_le (Nat.add_lt_add_left hi _) h.stop
  have hbases : ∀ m ∈ [stateBase, poolBase, keyBase, colorBase, depthBase], stateBase ≤ m := by
    decide
  rw [← BitVec.ofNat_add]
  exact Block.memory_read [] ⟨codeBase, d.cache.buffer.written⟩
    (Nat.lt_trans hlt (by decide)) (List.forall_mem_nil _)
    fun m hm => Nat.lt_of_lt_of_le hlt (hbases m hm)

theorem block_callOf (a : PixelArgs) : (d.callOf bound a).block =
    .ofState d.state (BitVec.ofNat 64 colorBase) (BitVec.ofNat 64 depthBase) :=
  RegisterBlock.read_of_holds h.state

/-- The cells lie behind everything else. -/
theorem not_inCells (a : PixelArgs) {n : Nat} (hn : n < colorBase) :
    ¬(d.callOf bound a).InCells (BitVec.ofNat 64 n) := by
  have hbase : (BitVec.ofNat 64 n).toNat < colorBase := by
    rw [BitVec.toNat_ofNat]
    exact Nat.lt_of_le_of_lt (Nat.mod_le _ _) hn
  rintro (hcell | hcell)
  · rw [PixelCall.pixelAddress, h.block_callOf] at hcell
    have := (elementAddress_range hcell bound.key.features.format.bytesPerPixel_le (by decide)).1
    omega
  · rw [PixelCall.depthAddress, h.block_callOf] at hcell
    have hrange := (elementAddress_range hcell (by decide) (by decide)).1
    unfold colorBase depthBase at *
    omega

end Fits

/-- What a drawing calls is safe to call. -/
theorem HoldsBy.safe {plan : BlendPlan} (h : d.HoldsBy bound plan) (a : PixelArgs) :
    (d.callOf bound a).SafeBy plan where
  compiled := by
    obtain ⟨b, b', hok, hbytes⟩ := h.compiled
    exact ⟨b, b', hok, fun i hstart hstop => (h.code hstop).trans (hbytes i hstart hstop)⟩
  aligned := show Cpu.aligned dataAddresses.pool = true by decide
  code i _ hi := by
    show ¬(d.callOf bound a).InCells (BitVec.ofNat 64 codeBase + BitVec.ofNat 64 i)
    rw [← BitVec.ofNat_add]
    exact h.not_inCells a (Nat.lt_of_lt_of_le (Nat.lt_of_lt_of_le (Nat.add_lt_add_left hi _) h.stop)
      (by decide))
  state i hi := by
    show ¬(d.callOf bound a).InCells (BitVec.ofNat 64 stateBase + BitVec.ofNat 64 i)
    rw [← BitVec.ofNat_add]
    exact h.not_inCells a (Nat.lt_of_lt_of_le (Nat.add_lt_add_left hi _) (by decide))
  key i hi := by
    show ¬(d.callOf bound a).InCells (BitVec.ofNat 64 keyBase + BitVec.ofNat 64 i)
    rw [← BitVec.ofNat_add]
    rw [PixelCall.length_keyBytes] at hi
    exact h.not_inCells a (Nat.lt_of_lt_of_le (Nat.add_lt_add_left hi _) (by decide))

theorem Holds.safe (h : d.Holds bound) (a : PixelArgs) : (d.callOf bound a).Safe :=
  have hsafe := h.by_plan.safe a
  ⟨hsafe.compiled, hsafe.aligned, hsafe.code, hsafe.state, hsafe.key⟩

/-- There is a drawing with the function of a key, whatever its registers are. -/
theorem exists_holdsBy (key : Key) (plan : BlendPlan) (s : DrawState) (cells : Nat)
    (color : BitVec 32) (depth : BitVec 16) :
    ∃ cache f, { Drawing.new cells color depth s with cache := cache }.HoldsBy ⟨key, f⟩ plan := by
  obtain ⟨code, f, b', hcode, hok, happ, hle⟩ :=
    functionBy_ok key.features plan dataAddresses (BitVec.ofNat 64 codeBase)
      (b := .ofSize codeCapacity) (by decide)
  have hsize : b'.written.size ≤ f.stop := happ.offset ▸ Nat.le_trans happ.size (by
    rw [show (CodeBuffer.ofSize codeCapacity).written.size = 0 from rfl]
    omega)
  have hstop : codeBase + f.stop ≤ stateBase :=
    Nat.le_trans (Nat.add_le_add_left hle _) (by decide)
  refine ⟨{ Cache.empty { codeSize := codeCapacity } () with buffer := b' }, f, ⟨hstop, ?_⟩,
    _, b', hok, fun _ _ _ => rfl⟩
  exact Nat.le_trans (Nat.add_le_add_left hsize _) hstop

/-- There is a drawing with the function of a pipeline. -/
theorem exists_holds (c : Config) (s : DrawState) (cells : Nat) (color : BitVec 32)
    (depth : BitVec 16) :
    ∃ cache f, { Drawing.new cells color depth s with cache := cache }.Holds ⟨Key.ofConfig c s, f⟩ := by
  obtain ⟨cache, f, h⟩ := exists_holdsBy (Key.ofConfig c s)
    (.ofFeatures (Key.ofConfig c s).features) s cells color depth
  exact ⟨cache, f, h.compiled, h.stop, h.size⟩

end Drawing

namespace PixelCall

variable {p : PixelCall}

/-- What a call of compiled code that ends in a machine comes to. -/
structure Returned (p : PixelCall) (code : Code) (c : Cpu) : Prop where
  compiled : body ⟨p.key.features, p.addresses⟩ = .ok code
  /-- The function in memory is its chunks, from the start to the end. -/
  bytes : p.entry.mem.Holds p.start.rip (Chunk.code (p.chunks code))
  span : p.function.stop = p.function.start + Chunk.span (p.chunks code)
  /-- The last chunk is a return, and no other is. -/
  last : ∃ before, p.chunks code = before ++ [.instr .ret] ∧ .instr .ret ∉ before
  /-- From the start to the last byte, each instruction that is carried out is a
  chunk, which padding and tables are not; and there are fewer of them than the
  function has bytes. -/
  steps : ∃ n, n < p.function.stop - p.function.start ∧
    Machine.Steps (Chunk.Begins p.base p.function.start (p.chunks code)) n p.start
      ⟨c, p.base + BitVec.ofNat 64 (p.function.stop - 1)⟩
  returned : Machine.step ⟨c, p.base + BitVec.ofNat 64 (p.function.stop - 1)⟩ = .returned c
  result : p.result = some c
  stack : c.reg .rsp = p.entry.reg .rsp
  kept : ∀ r, r ∉ [.rax, .rcx, .rdx, .rsi, .rdi, .r8, .r9, .r10, .r11] → c.reg r = p.entry.reg r
  /-- All stores went to the pixel or to its depth. -/
  stores : p.entry.mem.Later p.InCells c.mem
  others : ∀ a, ¬p.InCells a → c.mem.read a = p.entry.mem.read a
  /-- The address on top of the stack is the one to return to. -/
  returnAddress : (∀ i, i < 8 → ¬p.InCells (p.entry.reg .rsp + BitVec.ofNat 64 i)) →
    c.mem.read64 (c.reg .rsp) = p.entry.mem.read64 (p.entry.reg .rsp)

/-- Every call comes to an end, whatever the arguments are and whatever memory
has: at the one return, by whole instructions of the function, with nothing changed
but scratch registers, the pixel and its depth. -/
theorem returns_safely (h : p.Safe) : ∃ code c, p.Returned code c := by
  obtain ⟨code, hcode, hstop, hlt, hres⟩ := h.exists_code
  obtain ⟨e, hrun, hlater, hkept, -⟩ :=
    exists_run h.sound_unexact (fun he => he.elim) (fun he => he.elim) hcode
  have hlim : code.stop p.function.start ≤ p.function.start + 0x7FFFFFF0 := by
    unfold maxFunctionSize at hlt
    omega
  obtain ⟨n, hn, hsteps, -, hstep⟩ := Code.function_steps hrun hres hlater hlim
  have hlast : p.function.stop - 1 = code.stop p.function.start := by omega
  have hspan := Code.stop_eq_span p.base (code.stop p.function.start) p.function.start code
  refine ⟨code, e.cpu, hcode, fun i v hv => ?_, ?_, ⟨_, rfl, ?_⟩, ⟨n, by omega, hlast ▸ hsteps⟩,
    hlast ▸ hstep, ?_, hkept _ (by decide), hkept, hlater, fun a ha => hlater.read_eq ha,
    fun hstack => ?_⟩
  · have := (hres i v hv).1
    rwa [BitVec.ofNat_add, ← BitVec.add_assoc] at this
  · rw [hstop, hspan, chunks, Code.functionChunks, Chunk.span_append]
    rfl
  · exact Code.ret_not_mem_chunks (returns_body hcode) _ _ _
  · exact result_of_run hrun hres hlater hlt
  · rw [hkept _ (by decide)]
    exact Setting.Later.read64 (k := p.setting False) hlater hstack

/-- A fogged pixel in the upper left corner. -/
theorem returns_safely_fogged :
    ∃ p : PixelCall, p.Safe ∧ p.key = Key.ofConfig { fog := true, depthWrite := true } {} ∧
      ∃ code c, p.Returned code c := by
  obtain ⟨cache, f, h⟩ := Drawing.exists_holds { fog := true, depthWrite := true } {} 1 0 0
  exact ⟨_, h.safe ⟨0, 0, 7, 255, 0⟩, rfl, returns_safely (h.safe ⟨0, 0, 7, 255, 0⟩)⟩

end PixelCall

end PixelPipeline
