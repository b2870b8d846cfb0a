/-
# Proofs.Placement — where a function is put

A function is put behind what the buffer holds, at the next multiple of
sixteen, or it is refused and the buffer is as it was.  `Compile.Appended` says
what a compilation that succeeds leaves: bytes in front of the old offset are
as before, and from the start on there are the bytes of the function, with all
its branches filled in (`writes_append`).  Every pipeline has code, and the code
fits, so nothing but a lack of room is a reason to refuse it.
-/
import PixelPipeline.Proofs.Compiles
import PixelPipeline.Proofs.Untouched

namespace PixelPipeline

open X86

namespace Compile

/-- A function starts at the first multiple of sixteen there is. -/
theorem nextStart_spec (offset : Nat) :
    16 ∣ nextStart offset ∧ offset ≤ nextStart offset ∧ nextStart offset < offset + 16 := by
  obtain ⟨hlt, hdvd, -⟩ :=
    @Padding.distance_spec 4 functionAlignment rfl (by decide) offset
  exact ⟨hdvd, Nat.le_add_right _ _, Nat.add_lt_add_left hlt offset⟩

/-! ## Compilation -/

/-- What is left by a function that was put at the end of a buffer. -/
structure Appended (code : Code) (base : Address) (b b' : CodeBuffer) (f : CompiledFunction) :
    Prop where
  start : f.start = nextStart b.offset
  stop : f.stop = code.stop f.start + 1
  offset : b'.offset = f.stop
  capacity : b'.capacity = b.capacity
  markers : f.markers = markersOf (trace code f.start)
  before : ∀ i, i < b.offset → b'.byteAt i = b.byteAt i
  padding : ∀ i v, (Padding.bytes (f.start - b.offset))[i]? = some v → b'.byteAt (b.offset + i) = v
  bytes : ∀ i v, (functionBytes code base f.start)[i]? = some v → b'.byteAt (f.start + i) = v
  size : b'.written.size ≤ max b.written.size b'.offset

theorem length_functionBytes (code : Code) (base : Address) (start : Nat) :
    start + (functionBytes code base start).length = code.stop start + 1 := by
  rw [functionBytes, List.length_append, ← Nat.add_assoc, Code.length_bytes]
  rfl

variable {features : Features} {addresses : DataAddresses} {base : Address} {b : CodeBuffer}

theorem functionBy_full (plan : BlendPlan) (h : b.remaining < maxFunctionSize) :
    functionBy features plan addresses base b =
      .error (.error (.bufferFull b.remaining maxFunctionSize)) b := by
  show (if b.remaining < maxFunctionSize then _ else _ : EStateM Failure CodeBuffer _) b = _
  rw [if_pos h]
  rfl

theorem functionBy_roomy (plan : BlendPlan) (h : ¬b.remaining < maxFunctionSize) :
    functionBy features plan addresses base b =
      place (bodyBy ⟨features, addresses⟩ plan) base b := by
  show (if b.remaining < maxFunctionSize then _ else _ : EStateM Failure CodeBuffer _) b = _
  rw [if_neg h]

/-! ## Writing a function -/

section

open Assembly

variable {code : Code} {t : Nat → Nat} {pos capacity : Nat}

/-- A function is written as it is laid out, and no branch is left open. -/
theorem writes_function (base : Address) (h : code.stop pos + 1 ≤ capacity) :
    Writes exitLabel t (write code base) (placement code pos) (functionBytes code base pos)
      pos capacity := by
  have hlen := code.length_bytes base (code.stop pos) pos
  have hmarks : trace code pos = code.marks pos ++ [(code.stop pos, .exit)] :=
    Code.marks_append code _ pos
  have hwrite := code.write_writes base (t := aim t exitLabel (code.stop pos))
    (Nat.lt_succ_self exitLabel) (show code.stop pos ≤ capacity by omega)
  rw [aim_self] at hwrite
  rw [placement, hmarks]
  exact Writes.here.bind rfl ((Writes.ending hlen hwrite).bind hlen
    (Writes.here.bind rfl ((Writes.op h).bind rfl Writes.here.map)))

/-- So it is behind padding up to its start. -/
theorem writes_append (base : Address) (h : code.stop (nextStart pos) + 1 ≤ capacity) :
    Writes exitLabel t (append (.ok code) base) (.ok (placement code (nextStart pos)))
      (Padding.bytes (nextStart pos - pos) ++ functionBytes code base (nextStart pos))
      pos capacity := by
  have hstop := code.le_stop (nextStart pos)
  have hdistance : nextStart pos - pos = Padding.distance pos functionAlignment :=
    Nat.add_sub_cancel_left ..
  have hroom : pos + Padding.distance pos functionAlignment ≤ capacity := by
    show nextStart pos ≤ capacity
    omega
  have hlen : pos + (Padding.bytes (Padding.distance pos functionAlignment)).length =
      nextStart pos := congrArg (pos + ·) (Padding.length_bytes _)
  rw [hdistance]
  exact Writes.here.bind rfl ((Code.writes_align (by decide) hroom).bind hlen
    (writes_function base h).map)

end

/-- Where there is room for code, it is placed. -/
theorem place_ok {code : Code} (base : Address)
    (h : code.stop (nextStart b.offset) + 1 ≤ b.capacity) :
    ∃ b', place (.ok code) base b = .ok (placement code (nextStart b.offset)) b' ∧
      Appended code base b b' (placement code (nextStart b.offset)) := by
  obtain ⟨-, hle, -⟩ := nextStart_spec b.offset
  obtain ⟨a, w, hrun, hwaits⟩ := writes_append (t := id) base h { buffer := b } rfl rfl nofun
  have happ := hwaits.buffer.closed fun _ ⟨_, hk, _⟩ => Nat.not_lt_zero _ hk
  have hpad := Padding.length_bytes (nextStart b.offset - b.offset)
  have hlen := length_functionBytes code base (nextStart b.offset)
  refine ⟨a.buffer, ?_, rfl, rfl, ?_, happ.capacity, rfl, happ.before, fun i v hv => ?_,
    fun i v hv => ?_, happ.size⟩
  · rw [place, hrun]
  · rw [happ.offset, List.length_append, hpad]
    show b.offset + _ = code.stop (nextStart b.offset) + 1
    omega
  · have hi := (List.getElem?_eq_some_iff.mp hv).1
    exact happ.bytes i v ((List.getElem?_append_left hi).trans hv)
  · have hat : nextStart b.offset + i = b.offset + (nextStart b.offset - b.offset + i) := by omega
    show a.buffer.byteAt (nextStart b.offset + i) = v
    rw [hat]
    refine happ.bytes _ v ?_
    rwa [List.getElem?_append_right (by omega), hpad, Nat.add_sub_cancel_left]

theorem Appended.eq_placement {code : Code} {b' : CodeBuffer} {f : CompiledFunction}
    (h : Appended code base b b' f) : f = placement code f.start := by
  obtain ⟨start, stop, markers⟩ := f
  obtain rfl : stop = code.stop start + 1 := h.stop
  obtain rfl : markers = markersOf (trace code start) := h.markers
  rfl

/-- With room, a pipeline is compiled and placed, whatever the plan for its blend. -/
theorem functionBy_ok (features : Features) (plan : BlendPlan) (addresses : DataAddresses)
    (base : Address) (h : maxFunctionSize ≤ b.remaining) :
    ∃ code f b', bodyBy ⟨features, addresses⟩ plan = .ok code ∧
      functionBy features plan addresses base b = .ok f b' ∧ Appended code base b b' f ∧
      f.stop ≤ b.offset + maxFunctionSize := by
  obtain ⟨code, hcode, hroom, hret⟩ := exists_bodyBy ⟨features, addresses⟩ plan
  have hstop := Code.stop_le code (nextStart b.offset)
  obtain ⟨-, -, hstart⟩ := nextStart_spec b.offset
  have hle : code.stop (nextStart b.offset) + 1 ≤ b.offset + maxFunctionSize := by
    unfold maxFunctionSize
    omega
  have hfits : b.offset + maxFunctionSize ≤ b.capacity := by
    have := b.offset_le
    unfold CodeBuffer.remaining at h
    omega
  obtain ⟨b', hplace, happ⟩ := place_ok base (Nat.le_trans hle hfits)
  refine ⟨code, _, b', hcode, ?_, happ, ?_⟩
  · rw [functionBy_roomy plan (Nat.not_lt.mpr h), hcode, hplace]
  · exact hle

/-- What a compilation that succeeded has left. -/
theorem appendedBy_of_ok {plan : BlendPlan} {b' : CodeBuffer} {f : CompiledFunction}
    (h : functionBy features plan addresses base b = .ok f b') :
    ∃ code, bodyBy ⟨features, addresses⟩ plan = .ok code ∧ Appended code base b b' f ∧
      f.stop ≤ b.offset + maxFunctionSize := by
  by_cases hfull : b.remaining < maxFunctionSize
  · rw [functionBy_full plan hfull] at h
    cases h
  · obtain ⟨code, f₁, b₁, hcode, hok, happ, hle⟩ :=
      functionBy_ok features plan addresses base (Nat.le_of_not_lt hfull)
    rw [hok] at h
    cases h
    exact ⟨code, hcode, happ, hle⟩

theorem function_full (h : b.remaining < maxFunctionSize) :
    function features addresses base b =
      .error (.error (.bufferFull b.remaining maxFunctionSize)) b := by
  rw [← functionBy_ofFeatures]
  exact functionBy_full _ h

theorem function_roomy (h : ¬b.remaining < maxFunctionSize) :
    function features addresses base b = place (body ⟨features, addresses⟩) base b := by
  rw [← functionBy_ofFeatures]
  exact functionBy_roomy _ h

theorem function_ok (features : Features) (addresses : DataAddresses) (base : Address)
    (h : maxFunctionSize ≤ b.remaining) :
    ∃ code f b', body ⟨features, addresses⟩ = .ok code ∧
      function features addresses base b = .ok f b' ∧ Appended code base b b' f ∧
      f.stop ≤ b.offset + maxFunctionSize := by
  rw [← functionBy_ofFeatures]
  exact functionBy_ok features _ addresses base h

theorem appended_of_ok {b' : CodeBuffer} {f : CompiledFunction}
    (h : function features addresses base b = .ok f b') :
    ∃ code, body ⟨features, addresses⟩ = .ok code ∧ Appended code base b b' f ∧
      f.stop ≤ b.offset + maxFunctionSize := by
  rw [← functionBy_ofFeatures] at h
  exact appendedBy_of_ok h

/-- A compilation that fails says why, and leaves the offset and all that is in front of it as
they were. -/
theorem rolledBack_of_error {b' : CodeBuffer} {e : Failure}
    (h : function features addresses base b = .error e b') :
    (∃ reason, e = .error reason) ∧ b'.offset = b.offset ∧ b.SameBelow b.offset b' := by
  by_cases hfull : b.remaining < maxFunctionSize
  · rw [function_full hfull] at h
    cases h
    exact ⟨⟨_, rfl⟩, rfl, .refl _ b⟩
  · cases e with
    | error reason =>
      rw [function_roomy hfull] at h
      exact ⟨⟨reason, rfl⟩, place_error h⟩
    | fault f =>
      -- with room there is code, and it fits
      obtain ⟨_, _, _, -, hok, -⟩ :=
        function_ok features addresses base (Nat.le_of_not_lt hfull)
      rw [hok] at h
      cases h

/-- A pipeline is refused exactly where fewer than 4096 bytes are left, and then
nothing is written.  Otherwise it is compiled: it starts at the first multiple
of sixteen at or after the old offset, and ends at the new one, which is at most
4096 bytes further. -/
theorem compiled_within_size (c : Config) (s : DrawState) (addresses : DataAddresses)
    (base : Address) (b : CodeBuffer) :
    let compiled := function (Key.ofConfig c s).features addresses base b
    (b.remaining < 4096 → compiled = .error (.error (.bufferFull b.remaining 4096)) b) ∧
    (4096 ≤ b.remaining → ∃ f b', compiled = .ok f b' ∧
      (16 ∣ f.start ∧ b.offset ≤ f.start ∧ ∀ n, b.offset ≤ n → 16 ∣ n → f.start ≤ n) ∧
      b'.offset = f.stop ∧ b.offset < b'.offset ∧ b'.offset - b.offset ≤ 4096) := by
  refine ⟨function_full, fun h => ?_⟩
  obtain ⟨code, f, b', -, hok, happ, hle⟩ :=
    function_ok (Key.ofConfig c s).features addresses base h
  obtain ⟨hdvd, hstart, hnext⟩ := nextStart_spec b.offset
  have hstop := Code.le_stop f.start code
  refine ⟨f, b', hok, ⟨?_, ?_, fun n hn hdvd' => ?_⟩, happ.offset, ?_, ?_⟩
  · rwa [happ.start]
  · rwa [happ.start]
  · rw [happ.start]
    omega
  · rw [happ.offset, happ.stop, happ.start]
    rw [happ.start] at hstop
    omega
  · rw [happ.offset]
    unfold maxFunctionSize at hle
    omega

end Compile

end PixelPipeline
