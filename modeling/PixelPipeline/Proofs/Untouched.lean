/-
# Proofs.Untouched — writing changes nothing in front of where it starts

Bytes go to the offset, which moves forward, and a displacement is filled in where it was
written.  Whatever is written behind a place, with all its branches and tables, leaves the
bytes in front of that place as they are, and so does an attempt that fails half-way
(`Assembly.Keeps`): one rule for an action, and by induction on the code one for all of it
(`Code.keeps_write`).  What a compilation has written when a stage fails is taken back, so
that only bytes behind the offset tell of it (`Compile.place_error`).
-/
import PixelPipeline.Compile.Function
import PixelPipeline.Proofs.Assembling

namespace PixelPipeline

open X86

/-- The state that an action leaves, whether it fails or not. -/
def left {ε σ α : Type} : EStateM.Result ε σ α → σ
  | .ok _ s | .error _ s => s

/-- What two actions leave is what the first leaves, if it fails, or the second behind it. -/
theorem left_bind {ε σ α β : Type} (m : EStateM ε σ α) (f : α → EStateM ε σ β) (s : σ) :
    left ((m >>= f) s) = left (m s) ∨
      ∃ v s', m s = .ok v s' ∧ left ((m >>= f) s) = left (f v s') := by
  cases hrun : m s with
  | ok v s' => exact .inr ⟨v, s', rfl, congrArg left (run_bind hrun)⟩
  | error e s' =>
    refine .inl ?_
    show left (EStateM.bind m f s) = s'
    rw [EStateM.bind, hrun]
    rfl

/-- What is done is done step by step. -/
theorem ok_of_bind {ε σ α β : Type} {m : EStateM ε σ α} {f : α → EStateM ε σ β} {v : β} {s s' : σ}
    (h : (m >>= f) s = .ok v s') : ∃ u s₁, m s = .ok u s₁ ∧ f u s₁ = .ok v s' := by
  change EStateM.bind m f s = _ at h
  rw [EStateM.bind] at h
  cases hrun : m s with
  | ok u s₁ =>
    rw [hrun] at h
    exact ⟨u, s₁, rfl, h⟩
  | error e s₁ =>
    rw [hrun] at h
    cases h

/-! ## Buffers -/

namespace CodeBuffer

variable {α β : Type} {b b' b'' : CodeBuffer} {n : Nat}

/-- Two buffers of one size hold the same bytes in front of `n`. -/
structure SameBelow (n : Nat) (b b' : CodeBuffer) : Prop where
  capacity : b'.capacity = b.capacity
  bytes : ∀ i, i < n → b'.byteAt i = b.byteAt i

namespace SameBelow

theorem refl (n : Nat) (b : CodeBuffer) : SameBelow n b b := ⟨rfl, fun _ _ => rfl⟩

theorem trans (h : SameBelow n b b') (h' : SameBelow n b' b'') : SameBelow n b b'' :=
  ⟨h'.capacity.trans h.capacity, fun i hi => (h'.bytes i hi).trans (h.bytes i hi)⟩

theorem mono {m : Nat} (h : SameBelow n b b') (hm : m ≤ n) : SameBelow m b b' :=
  ⟨h.capacity, fun i hi => h.bytes i (Nat.lt_of_lt_of_le hi hm)⟩

end SameBelow

/-- An action that writes at the offset, and moves it forward or leaves it. -/
def Advances (m : Action α) : Prop :=
  ∀ b, b.offset ≤ (left (m b)).offset ∧ b.SameBelow b.offset (left (m b))

namespace Advances

theorem pure (v : α) : Advances (pure v) := fun b => ⟨Nat.le_refl _, .refl _ b⟩

theorem bind {m : Action α} {f : α → Action β} (hm : Advances m) (hf : ∀ v, Advances (f v)) :
    Advances (m >>= f) := fun b => by
  obtain ⟨hle, hsame⟩ := hm b
  rcases left_bind m f b with hleft | ⟨v, b', hrun, hleft⟩
  · rw [hleft]
    exact ⟨hle, hsame⟩
  · rw [hrun] at hle hsame
    obtain ⟨hle', hsame'⟩ := hf v b'
    rw [hleft]
    exact ⟨Nat.le_trans hle hle', hsame.trans (hsame'.mono hle)⟩

theorem emit (piece : List Byte) : Advances (emit piece) := fun b => by
  by_cases h : b.offset + piece.length ≤ b.capacity
  · rw [emit_ok h]
    refine ⟨Nat.le_add_right _ _, rfl, fun i hi => ?_⟩
    exact (b.byteAt_extended piece h i).trans (if_neg fun hin => Nat.not_le_of_lt hi hin.1)
  · rw [emit_full h]
    exact pure () b

theorem emitAll (pieces : List (List Byte)) : Advances (emitAll pieces) := by
  induction pieces with
  | nil => exact pure ()
  | cons piece rest ih => exact (emit piece).bind fun _ => ih

end Advances

theorem setOffset_ok {offset : Nat} (h : offset ≤ b.capacity) :
    setOffset offset b = .ok () { b with offset, offset_le := h } := by
  show (if h : offset ≤ b.capacity then _ else _ : Action Unit) b = _
  rw [dif_pos h]
  rfl

theorem setOffset_fail {offset : Nat} (h : ¬offset ≤ b.capacity) :
    setOffset offset b = .error .violation b := by
  show (if h : offset ≤ b.capacity then _ else _ : Action Unit) b = _
  rw [dif_neg h]
  rfl

theorem offset_of_setOffset {offset : Nat} (h : setOffset offset b = .ok () b') :
    b'.offset = offset := by
  by_cases hfits : offset ≤ b.capacity
  · rw [setOffset_ok hfits] at h
    cases h
    rfl
  · rw [setOffset_fail hfits] at h
    cases h

/-- The offset moves by as much as is written. -/
theorem offset_emitAll {pieces : List (List Byte)} (h : emitAll pieces b = .ok () b') :
    b'.offset = b.offset + pieces.flatten.length := by
  induction pieces generalizing b with
  | nil =>
    cases h
    rfl
  | cons piece rest ih =>
    obtain ⟨_, b₁, hemit, hrest⟩ := ok_of_bind (m := emit piece) h
    by_cases hfits : b.offset + piece.length ≤ b.capacity
    · rw [emit_ok hfits] at hemit
      cases hemit
      rw [ih hrest, extended_offset, List.flatten_cons, List.length_append, Nat.add_assoc]
    · rw [emit_full hfits] at hemit
      cases hemit

end CodeBuffer

theorem Padding.advances_emit (n : Nat) : CodeBuffer.Advances (Padding.emit n) := by
  induction n using Padding.bytes.induct with
  | case1 =>
    rw [Padding.emit, if_pos rfl]
    exact .pure ()
  | case2 n hn ih =>
    rw [Padding.emit, if_neg hn]
    exact (CodeBuffer.Advances.emitAll _).bind fun _ => ih

theorem Padding.advances_emitAlign (align : Nat) :
    CodeBuffer.Advances (Padding.emitAlign align) := fun b => by
  by_cases h : align = 0
  · have hfail : Padding.emitAlign align b = .error .violation b := by
      show (if align = 0 then _ else _ : CodeBuffer.Action Unit) b = _
      rw [if_pos h]
      rfl
    rw [hfail]
    exact ⟨Nat.le_refl _, .refl _ b⟩
  · have hemit : Padding.emitAlign align b = Padding.emit (Padding.distance b.offset align) b := by
      show (if align = 0 then _ else _ : CodeBuffer.Action Unit) b = _
      rw [if_neg h]
      rfl
    rw [hemit]
    exact Padding.advances_emit _ b

/-! ## Code under construction -/

namespace Assembly

variable {α β : Type} {a a' a'' : Assembly} {n k l field : Nat}

/-- Whatever is still to be written or filled in lies at `n` or behind. -/
structure Beyond (n : Nat) (a : Assembly) : Prop where
  offset : n ≤ a.buffer.offset
  uses : ∀ l, ∀ field ∈ (a.labels l).uses, n ≤ field

/-- Between two states nothing in front of `n` has changed, and nothing will. -/
structure After (n : Nat) (a a' : Assembly) : Prop where
  beyond : a'.Beyond n
  same : a.buffer.SameBelow n a'.buffer

namespace After

theorem refl (h : a.Beyond n) : After n a a := ⟨h, .refl n _⟩

theorem trans (h : After n a a') (h' : After n a' a'') : After n a a'' :=
  ⟨h'.beyond, h.same.trans h'.same⟩

theorem bind {m : Action α} {f : α → Action β} (hm : After n a (left (m a)))
    (hf : ∀ v a', m a = .ok v a' → After n a' (left (f v a'))) :
    After n a (left ((m >>= f) a)) := by
  rcases left_bind m f a with hleft | ⟨v, a', hrun, hleft⟩
  · rw [hleft]
    exact hm
  · rw [hrun] at hm
    rw [hleft]
    exact hm.trans (hf v a' hrun)

end After

/-- An action that changes nothing in front of `n`, done or failed. -/
def Keeps (n : Nat) (m : Action α) : Prop := ∀ a, a.Beyond n → After n a (left (m a))

theorem left_onBuffer (action : CodeBuffer.Action α) (a : Assembly) :
    left (onBuffer action a) = { a with buffer := left (action a.buffer) } := by
  unfold onBuffer
  cases action a.buffer <;> rfl

theorem ok_of_onBuffer {action : CodeBuffer.Action α} {v : α} (h : onBuffer action a = .ok v a') :
    action a.buffer = .ok v a'.buffer := by
  unfold onBuffer at h
  cases hrun : action a.buffer with
  | ok u b =>
    rw [hrun] at h
    cases h
    rfl
  | error e b =>
    rw [hrun] at h
    cases h

namespace Keeps

theorem pure (v : α) : Keeps n (pure v) := fun _ h => .refl h

theorem throw (e : Fault) : Keeps n (throw e : Action α) := fun _ h => .refl h

theorem bind {m : Action α} {f : α → Action β} (hm : Keeps n m) (hf : ∀ v, Keeps n (f v)) :
    Keeps n (m >>= f) := fun a h => by
  refine .bind (hm a h) fun v a' hrun => hf v a' ?_
  have hafter := hm a h
  rw [hrun] at hafter
  exact hafter.beyond

theorem here : Keeps n here := fun _ h => .refl h

theorem onBuffer {action : CodeBuffer.Action α} (h : CodeBuffer.Advances action) :
    Keeps n (onBuffer action) := fun a ha => by
  obtain ⟨hle, hsame⟩ := h a.buffer
  rw [left_onBuffer]
  exact ⟨⟨Nat.le_trans ha.offset hle, ha.uses⟩, hsame.mono ha.offset⟩

theorem setOffset {offset : Nat} (h : n ≤ offset) :
    Keeps n (Assembly.onBuffer (CodeBuffer.setOffset offset)) := fun a ha => by
  rw [left_onBuffer]
  by_cases hfits : offset ≤ a.buffer.capacity
  · rw [CodeBuffer.setOffset_ok hfits]
    exact ⟨⟨h, ha.uses⟩, rfl, fun _ _ => rfl⟩
  · rw [CodeBuffer.setOffset_fail hfits]
    exact .refl ha

/-! ## Labels -/

theorem setLabel {label : Label} (h : ∀ field ∈ label.uses, n ≤ field) :
    Keeps n (setLabel l label) := fun a ha => by
  refine ⟨⟨ha.offset, fun k field hf => ?_⟩, .refl n _⟩
  change field ∈ (if k = l then label else a.labels k).uses at hf
  split at hf
  · exact h field hf
  · exact ha.uses k field hf

theorem renew (l : Nat) : Keeps n (renew l) := setLabel fun _ hf => absurd hf List.not_mem_nil

/-- What is filled in behind a place is not in front of it. -/
theorem patch {target : Nat} (h : n ≤ field) : Keeps n (patchDisplacement field target) := by
  have hpatch (w : BitVec 32) : Keeps n (Assembly.onBuffer (CodeBuffer.patch32 field w)) :=
    fun a ha => by
      rw [left_onBuffer]
      by_cases hfits : field + 4 ≤ a.buffer.capacity
      · rw [CodeBuffer.patch32_ok hfits]
        exact ⟨⟨ha.offset, ha.uses⟩, rfl, fun i hi =>
          CodeBuffer.byteAt_withWord (.inl (Nat.lt_of_lt_of_le hi h))⟩
      · rw [CodeBuffer.patch32_full hfits]
        exact .refl ha
  show Keeps n (if _ then _ else _)
  split
  · exact hpatch _
  · exact throw _

theorem reference (l : Nat) : Keeps n (reference l) := fun a ha => by
  have hemit := onBuffer (n := n) (CodeBuffer.Advances.emit (le32 0)) a ha
  cases hrun : Assembly.onBuffer (CodeBuffer.emit (le32 0)) a with
  | error e a' =>
    rw [hrun] at hemit
    rw [reference_full hrun]
    exact hemit
  | ok v a' =>
    rw [hrun] at hemit
    have ha' : a'.Beyond n := hemit.beyond
    refine hemit.trans ?_
    cases hvalue : (a'.labels l).value with
    | some target =>
      rw [reference_bound hrun hvalue]
      exact patch ha.offset a' ha'
    | none =>
      rw [reference_waits hrun hvalue]
      refine setLabel (fun field hf => ?_) a' ha'
      rcases List.mem_append.mp hf with hf | hf
      · exact ha'.uses l field hf
      · exact List.mem_singleton.mp hf ▸ ha.offset

theorem resolve (target : Nat) {uses : List Nat} (h : ∀ field ∈ uses, n ≤ field) :
    Keeps n (resolve target uses) := by
  induction uses with
  | nil => exact pure ()
  | cons field rest ih =>
    exact (patch (h field List.mem_cons_self)).bind fun _ =>
      ih fun f hf => h f (List.mem_cons_of_mem _ hf)

theorem bound (l : Nat) : Keeps n (Assembly.bind l) := fun a ha => by
  have hset : Keeps n (Assembly.setLabel l { value := some a.buffer.offset }) :=
    setLabel fun _ hf => absurd hf List.not_mem_nil
  exact (hset.bind fun _ => resolve a.buffer.offset (ha.uses l)) a ha

theorem jump (l : Nat) : Keeps n (jump l) :=
  (onBuffer (.emit _)).bind fun _ => reference l

theorem jumpIf (l : Nat) (c : Cond) : Keeps n (jumpIf l c) :=
  (onBuffer (.emitAll _)).bind fun _ => reference l

theorem ending {stretch : Action α} (h : Keeps n stretch) : Keeps n (ending l stretch) :=
  (renew l).bind fun _ => h.bind fun v => (bound l).bind fun _ => pure v

/-! ## Instructions -/

theorem op (i : Instr) : Keeps n (op i) := onBuffer (.emitAll _)

theorem ops (is : List Instr) : Keeps n (ops is) := by
  induction is with
  | nil => exact pure ()
  | cons i rest ih => exact (op i).bind fun _ => ih

theorem leaRip (dst : Reg) : Keeps n (leaRip dst) :=
  (op (.leaRip dst 0)).bind fun _ _ ha => .refl ha

end Keeps

/-- The displacement of a load of an address is the end of the load. -/
theorem le_of_leaRip {dst : Reg} (h : leaRip dst a = .ok field a') : a.buffer.offset ≤ field := by
  obtain ⟨front, hbytes⟩ := Code.exists_leaRip_eq dst
  have hlen : (Instr.leaRip dst 0).encode.flatten.length = front.length + 4 :=
    (congrArg List.length (hbytes 0)).trans List.length_append
  obtain ⟨_, _, hemit, hfield⟩ := ok_of_bind h
  cases hfield
  have hoffset := CodeBuffer.offset_emitAll (ok_of_onBuffer hemit)
  omega

theorem Keeps.load (dst : Reg) (target : Nat) :
    Keeps n (Assembly.leaRip dst >>= fun field => patchDisplacement field target) := fun a ha => by
  have hload := Keeps.leaRip (n := n) dst a ha
  refine .bind hload fun field a' hrun => ?_
  rw [hrun] at hload
  exact Keeps.patch (Nat.le_trans ha.offset (le_of_leaRip hrun)) a' hload.beyond

end Assembly

namespace Code

open Assembly

variable {n l : Nat}

theorem keeps_writeBody (finish : Nat) (body : Option (List Instr)) :
    Keeps n (writeBody finish body) := by
  cases body with
  | none => exact .jump exitLabel
  | some is => exact (Keeps.ops is).bind fun _ => .jump finish

theorem keeps_writeBodies (finish : Nat) (bodies : List (Option (List Instr))) :
    Keeps n (writeBodies finish bodies) := by
  induction bodies with
  | nil => exact .pure []
  | cons body rest ih =>
    exact Keeps.here.bind fun _ => (keeps_writeBody finish body).bind fun _ =>
      ih.bind fun _ => .pure _

theorem keeps_writeTable (base : BitVec 64) (starts : List Nat) :
    Keeps n (writeTable base starts) := by
  induction starts with
  | nil => exact .pure ()
  | cons start rest ih => exact (Keeps.onBuffer (.emit _)).bind fun _ => ih

theorem keeps_writeCases (base : BitVec 64) (finish l : Nat) (bodies : List (Option (List Instr))) :
    Keeps n (writeCases base finish l bodies) :=
  .ending ((Keeps.jump l).bind fun _ => (keeps_writeBodies finish bodies).bind fun starts =>
    (Keeps.onBuffer (Padding.advances_emitAlign 8)).bind fun _ => Keeps.here.bind fun tableAt =>
      (keeps_writeTable base starts).bind fun _ => .pure tableAt)

theorem keeps_writeDispatch (table index : Reg) (tableAt : Nat) :
    Keeps n (writeDispatch table index tableAt) := by
  unfold writeDispatch
  rw [← bind_assoc]
  exact (Keeps.load table tableAt).bind fun _ => .op _

/-- Code changes nothing in front of where it is written. -/
theorem keeps_write (base : BitVec 64) (code : Code) : Keeps n (code.write base l) := by
  induction code generalizing l with
  | done => exact .pure []
  | instr i next ih => exact (Keeps.op i).bind fun _ => ih
  | mark s next ih => exact Keeps.here.bind fun _ => ih.bind fun _ => .pure _
  | leave next ih => exact (Keeps.jump exitLabel).bind fun _ => ih
  | leaveIf c next ih => exact (Keeps.jumpIf exitLabel c).bind fun _ => ih
  | skipIf c body next ihBody ih =>
    exact (Keeps.ending ((Keeps.jumpIf l c).bind fun _ => ihBody)).bind fun _ =>
      ih.bind fun _ => .pure _
  | choose c no yes next ihNo ihYes ih =>
    have hno : Keeps n (ending (l + 1) do
        Assembly.jumpIf (l + 1) c
        let marks ← no.write base (l + 2)
        Assembly.jump l
        pure marks) :=
      .ending ((Keeps.jumpIf (l + 1) c).bind fun _ => ihNo.bind fun _ =>
        (Keeps.jump l).bind fun _ => .pure _)
    exact (Keeps.ending (hno.bind fun _ => ihYes.bind fun _ => .pure _)).bind fun _ =>
      ih.bind fun _ => .pure _
  | select table index bodies next ih =>
    exact (Keeps.ending ((keeps_writeCases base l (l + 1) bodies).bind fun _ =>
      keeps_writeDispatch table index _)).bind fun _ => ih

end Code

/-! ## Compilation -/

namespace Compile

open Assembly

variable {n : Nat} {b b' : CodeBuffer} {base : BitVec 64} {stages : Except Stopped Code}

theorem keeps_write (code : Code) (base : BitVec 64) : Keeps n (write code base) :=
  Keeps.here.bind fun _ => (Keeps.ending (code.keeps_write base)).bind fun _ =>
    Keeps.here.bind fun _ => (Keeps.op .ret).bind fun _ => Keeps.here.bind fun _ => .pure _

theorem keeps_abandon (stopped : Stopped) (base : BitVec 64) {rollback : Nat} (h : n ≤ rollback) :
    Keeps n (abandon stopped base rollback) := by
  refine (stopped.code.keeps_write base).bind fun _ => ?_
  cases stopped.failure with
  | error e => exact (Keeps.setOffset h).bind fun _ => .pure e
  | fault f => exact .throw f

theorem left_place (stages : Except Stopped Code) (base : BitVec 64) (b : CodeBuffer) :
    left (place stages base b) = (left (append stages base { buffer := b })).buffer := by
  unfold place
  cases append stages base { buffer := b } with
  | error f a => rfl
  | ok v a => cases v <;> rfl

/-- Whatever comes of a compilation, it changes nothing in front of the offset. -/
theorem place_sameBelow (stages : Except Stopped Code) (base : BitVec 64) (b : CodeBuffer) :
    b.SameBelow b.offset (left (place stages base b)) := by
  have hbeyond : Beyond b.offset { buffer := b } :=
    ⟨Nat.le_refl _, fun _ _ hf => absurd hf List.not_mem_nil⟩
  have halign : Keeps b.offset (onBuffer (Padding.emitAlign functionAlignment)) :=
    .onBuffer (Padding.advances_emitAlign _)
  rw [left_place]
  cases stages with
  | ok code =>
    have hkeeps := halign.bind fun _ => (keeps_write code base).bind fun f =>
      .pure (Except.ok f : Except CompileError CompiledFunction)
    exact (hkeeps _ hbeyond).same
  | error stopped =>
    have hkeeps := halign.bind fun _ => (keeps_abandon stopped base (Nat.le_refl b.offset)).bind
      fun e => .pure (Except.error e : Except CompileError CompiledFunction)
    exact (hkeeps _ hbeyond).same

/-- If a stage fails, the offset is taken back to where it was. -/
theorem offset_of_abandon {stopped : Stopped} {rollback : Nat} {e : CompileError} {a a' : Assembly}
    (h : abandon stopped base rollback a = .ok e a') : a'.buffer.offset = rollback := by
  obtain ⟨marks, a₁, -, hend⟩ := ok_of_bind h
  cases hfailure : stopped.failure with
  | error e' =>
    rw [hfailure] at hend
    obtain ⟨_, _, hset, hpure⟩ := ok_of_bind hend
    cases hpure
    exact CodeBuffer.offset_of_setOffset (ok_of_onBuffer hset)
  | fault f =>
    rw [hfailure] at hend
    cases hend

/-- What was written when a stage fails lies behind the offset, which is where it was. -/
theorem place_error {e : CompileError} (h : place stages base b = .error (.error e) b') :
    b'.offset = b.offset ∧ b.SameBelow b.offset b' := by
  have hsame := place_sameBelow stages base b
  rw [h] at hsame
  refine ⟨?_, hsame⟩
  obtain ⟨a, happend, rfl⟩ : ∃ a, append stages base { buffer := b } = .ok (.error e) a ∧
      a.buffer = b' := by
    unfold place at h
    split at h
    · cases h
    · rename_i happend
      cases h
      exact ⟨_, happend, rfl⟩
    · cases h
  cases stages with
  | ok code =>
    obtain ⟨_, _, -, happend⟩ := ok_of_bind (m := onBuffer _) happend
    obtain ⟨_, _, -, hpure⟩ := ok_of_bind happend
    cases hpure
  | error stopped =>
    obtain ⟨_, _, -, happend⟩ := ok_of_bind (m := onBuffer _) happend
    obtain ⟨_, _, hend, hpure⟩ := ok_of_bind happend
    cases hpure
    exact offset_of_abandon hend

end Compile

end PixelPipeline
