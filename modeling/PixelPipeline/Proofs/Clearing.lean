/-
# Proofs.Clearing — a cache that was cleared is as good as new

Clearing rewinds the code buffer and wipes nothing, so the bytes of earlier functions
are still there, behind the write offset.  No backend sees them that writes what it
returns afresh (`Backend.Blind`), and the generator is one: two buffers that agree
up to the offset (`CodeBuffer.Agrees`) get the same function and agree again.

A cache after a clear and a new one then stay alike (`Cache.Echoes`) whatever is
asked of both: one lemma for each request, and by induction for a row of them.
-/
import PixelPipeline.Proofs.Published

namespace PixelPipeline

open X86

/-! ## Buffers that agree up to the offset -/

/-- The buffers hold the same, as far as they are written. -/
structure CodeBuffer.Agrees (b b' : CodeBuffer) : Prop where
  offset : b.offset = b'.offset
  capacity : b.capacity = b'.capacity
  before : ∀ i, i < b.offset → b.byteAt i = b'.byteAt i

/-- Two actions end in the same way, in states that are related. -/
inductive SameEnd {ε τ α : Type} (r : τ → τ → Prop) :
    EStateM.Result ε τ α → EStateM.Result ε τ α → Prop
  | ok (a : α) {t t' : τ} (h : r t t') : SameEnd r (.ok a t) (.ok a t')
  | error (e : ε) {t t' : τ} (h : r t t') : SameEnd r (.error e t) (.error e t')

namespace CodeBuffer.Agrees

variable {b b' : CodeBuffer}

theorem remaining (h : b.Agrees b') : b.remaining = b'.remaining := by
  rw [CodeBuffer.remaining, h.offset, h.capacity, CodeBuffer.remaining]

end CodeBuffer.Agrees

namespace Compile

variable {b b' : CodeBuffer}

/-- One function put behind what agrees is another one's equal. -/
theorem Appended.agrees {code : Code} {base : Address} {b₁ b₁' : CodeBuffer}
    {f f' : CompiledFunction} (happ : Appended code base b b₁ f)
    (happ' : Appended code base b' b₁' f') (h : b.Agrees b') : f = f' ∧ b₁.Agrees b₁' := by
  have hstart : f.start = f'.start := by rw [happ.start, happ'.start, h.offset]
  have hf : f = f' := by rw [happ.eq_placement, happ'.eq_placement, hstart]
  subst hf
  have hle : b.offset ≤ f.start := happ.start ▸ (nextStart_spec b.offset).2.1
  have hpad := Padding.length_bytes (f.start - b.offset)
  have hlen := length_functionBytes code base f.start
  refine ⟨rfl, happ.offset.trans happ'.offset.symm, ?_, fun i hi => ?_⟩
  · rw [happ.capacity, happ'.capacity, h.capacity]
  rw [happ.offset, happ.stop] at hi
  by_cases hbefore : i < b.offset
  · rw [happ.before i hbefore, happ'.before i (h.offset ▸ hbefore)]
    exact h.before i hbefore
  by_cases hpadding : i < f.start
  · obtain ⟨k, rfl⟩ := Nat.exists_eq_add_of_le (Nat.le_of_not_lt hbefore)
    obtain ⟨v, hv⟩ : ∃ v, (Padding.bytes (f.start - b.offset))[k]? = some v :=
      ⟨_, List.getElem?_eq_getElem (by omega)⟩
    have hv' : (Padding.bytes (f.start - b'.offset))[k]? = some v := h.offset ▸ hv
    rw [happ.padding k v hv, h.offset, happ'.padding k v hv']
  · obtain ⟨k, rfl⟩ := Nat.exists_eq_add_of_le (Nat.le_of_not_lt hpadding)
    have hv := List.getElem?_eq_getElem
      (show k < (functionBytes code base f.start).length by omega)
    rw [happ.bytes k _ hv, happ'.bytes k _ hv]

/-- The same function is compiled into both. -/
theorem function_agrees (features : Features) (addresses : DataAddresses) (base : Address)
    (h : b.Agrees b') : SameEnd CodeBuffer.Agrees (function features addresses base b)
      (function features addresses base b') := by
  by_cases hfull : b.remaining < maxFunctionSize
  · rw [function_full hfull, function_full (h.remaining ▸ hfull), h.remaining]
    exact .error _ h
  · have hroom := Nat.le_of_not_lt hfull
    obtain ⟨code, f, b₁, hcode, hok, happ, -⟩ := function_ok features addresses base hroom
    obtain ⟨code', f', b₁', hcode', hok', happ', -⟩ :=
      function_ok features addresses base (b := b') (h.remaining ▸ hroom)
    obtain rfl : code = code' := Except.ok.inj (hcode.symm.trans hcode')
    obtain ⟨rfl, hagrees⟩ := happ.agrees happ' h
    rw [hok, hok']
    exact .ok f hagrees

end Compile

variable {σ : Type}

namespace Backend

/-- The buffers agree, and the backend is in the same state. -/
def Alike (t t' : CodeBuffer × σ) : Prop := t.1.Agrees t'.1 ∧ t.2 = t'.2

/-- A backend that does not look behind the offset. -/
def Blind (backend : Backend σ) : Prop :=
  ∀ key t t', Alike t t' → SameEnd Alike (backend key t) (backend key t')

theorem blind_generator (addresses : DataAddresses) (base : Address) :
    (generator addresses base).Blind := by
  intro key t t' h
  have hfunction := Compile.function_agrees key.features addresses base h.1
  unfold generator
  generalize Compile.function key.features addresses base t.1 = r,
    Compile.function key.features addresses base t'.1 = r' at hfunction ⊢
  cases hfunction with
  | ok f hagrees => exact .ok f ⟨hagrees, rfl⟩
  | error e hagrees => exact .error e ⟨hagrees, rfl⟩

end Backend

namespace Cache

variable {backend : Backend σ} {c d : Cache σ} {past : List CacheEvent}

/-- The answers to requests in sequence. -/
def answers (backend : Backend σ) : Cache σ → List Request → List (Except Failure CompiledFunction)
  | _, [] => []
  | c, .get key :: rs => (c.get backend key).1 :: answers backend (c.get backend key).2 rs
  | c, .clear :: rs => answers backend c.clear rs

/-- A cache that is like another one but for the bytes behind the offset and for
what its log was told in the past. -/
structure Echoes (past : List CacheEvent) (c d : Cache σ) : Prop where
  entries : c.entries = d.entries
  buffer : c.buffer.Agrees d.buffer
  codeSize : c.codeSize = d.codeSize
  minFree : c.minFree = d.minFree
  backendState : c.backendState = d.backendState
  log : c.log = past ++ d.log

theorem Echoes.record (h : Echoes past c d) (key : Key)
    (result : Except CompileError CompiledFunction) (event : CacheEvent) :
    Echoes past (c.record key result event) (d.record key result event) where
  entries := congrArg (· ++ [_]) h.entries
  buffer := h.buffer
  codeSize := h.codeSize
  minFree := h.minFree
  backendState := h.backendState
  log := by
    show c.log ++ _ = past ++ (d.log ++ _)
    rw [h.log, List.append_assoc]

theorem Echoes.compile (hb : backend.Blind) (h : Echoes past c d) (key : Key) :
    (Cache.compile backend key c).1 = (Cache.compile backend key d).1 ∧
      Echoes past (Cache.compile backend key c).2 (Cache.compile backend key d).2 := by
  by_cases hfull : c.buffer.remaining < c.minFree
  · have hfull' : d.buffer.remaining < d.minFree := h.buffer.remaining ▸ h.minFree ▸ hfull
    simp only [Cache.compile, h.buffer.remaining, h.minFree, if_pos hfull']
    exact ⟨trivial, h.record key _ _⟩
  · have hroom : ¬d.buffer.remaining < d.minFree := h.buffer.remaining ▸ h.minFree ▸ hfull
    have hcall := hb key (c.buffer, c.backendState) (d.buffer, d.backendState)
      ⟨h.buffer, h.backendState⟩
    simp only [Cache.compile, if_neg hfull, if_neg hroom]
    generalize backend key (c.buffer, c.backendState) = r,
      backend key (d.buffer, d.backendState) = r' at hcall ⊢
    cases hcall with
    | ok f halike =>
      obtain ⟨hagrees, hstate⟩ := halike
      refine ⟨rfl, Echoes.record ?_ key (.ok f) (.compiled key f)⟩
      exact ⟨h.entries, hagrees, hagrees.offset, h.minFree, hstate, h.log⟩
    | @error e t t' halike =>
      obtain ⟨hagrees, hstate⟩ := halike
      have hnext : Echoes past { c with buffer := t.1, backendState := t.2 }
          { d with buffer := t'.1, backendState := t'.2 } :=
        ⟨h.entries, hagrees, h.codeSize, h.minFree, hstate, h.log⟩
      cases e with
      | error reason => exact ⟨rfl, hnext.record key (.error reason) (.failed key reason)⟩
      | fault f => exact ⟨rfl, hnext⟩

/-- A request is answered alike. -/
theorem Echoes.get (hb : backend.Blind) (h : Echoes past c d) (key : Key) :
    (c.get backend key).1 = (d.get backend key).1 ∧
      Echoes past (c.get backend key).2 (d.get backend key).2 := by
  have hfind : c.find? key.word = d.find? key.word := by rw [find?, h.entries, find?]
  unfold Cache.get
  rw [hfind]
  split
  · exact ⟨rfl, h⟩
  · exact ⟨rfl, h⟩
  · exact h.compile hb key

theorem Echoes.clear (h : Echoes past c d) : Echoes past c.clear d.clear where
  entries := rfl
  buffer := ⟨rfl, h.buffer.capacity, nofun⟩
  codeSize := rfl
  minFree := h.minFree
  backendState := h.backendState
  log := by
    show c.log ++ [.cleared c.entries.length c.buffer.offset] =
      past ++ (d.log ++ [.cleared d.entries.length d.buffer.offset])
    rw [h.log, h.entries, h.buffer.offset, List.append_assoc]

/-- So are requests in sequence. -/
theorem Echoes.run (hb : backend.Blind) (h : Echoes past c d) (rs : List Request) :
    answers backend c rs = answers backend d rs ∧ Echoes past (c.run backend rs) (d.run backend rs) := by
  induction rs generalizing c d with
  | nil => exact ⟨rfl, h⟩
  | cons r rs ih =>
    cases r with
    | get key =>
      obtain ⟨hanswer, hnext⟩ := h.get hb key
      obtain ⟨hanswers, hend⟩ := ih hnext
      exact ⟨congrArg₂ List.cons hanswer hanswers, hend⟩
    | clear => exact ih h.clear

/-- Code pointers are described from the entries alone. -/
theorem Echoes.describe? (h : Echoes past c d) : c.describe? = d.describe? := by
  funext distance
  rw [Cache.describe?, h.codeSize, h.entries, Cache.describe?]

/-- Requests and clears keep the layout and the size of the buffer. -/
theorem run_laidOut (hb : backend.Appending) (h : c.LaidOut) (rs : List Request) :
    (c.run backend rs).LaidOut ∧ (c.run backend rs).buffer.capacity = c.buffer.capacity := by
  induction rs generalizing c with
  | nil => exact ⟨h, rfl⟩
  | cons r rs ih =>
    cases r with
    | get key =>
      obtain ⟨hnext, hkept⟩ := get_laidOut hb h key
      obtain ⟨hend, hcapacity⟩ := ih hnext
      exact ⟨hend, hcapacity.trans hkept.capacity⟩
    | clear =>
      have hidle : c.clear.Idle := ⟨rfl, rfl, rfl⟩
      exact ih hidle.laidOut

/-- After a clear, whatever came before it, requests are answered as by a new cache of
the same sizes: with the same functions and errors, the same bytes of code, the
same sizes and descriptions, and the same new lines of the log. -/
theorem clear_resets (addresses : DataAddresses) (base : Address) (config : CacheConfig)
    (history rs : List Request) :
    let backend := Backend.generator addresses base
    let cleared := ((empty config ()).run backend history).clear
    let c := cleared.run backend rs
    let d := (empty config ()).run backend rs
    answers backend cleared rs = answers backend (empty config ()) rs ∧
    c.buffer.bytesAt 0 c.codeSize = d.buffer.bytesAt 0 d.codeSize ∧
    c.size = d.size ∧ c.codeSize = d.codeSize ∧ c.log = cleared.log ++ d.log ∧
    c.describe? = d.describe? := by
  intro backend cleared c d
  have hempty : (empty config ()).Idle := ⟨rfl, rfl, rfl⟩
  obtain ⟨-, hcapacity⟩ :=
    run_laidOut (Backend.appending_generator addresses base) hempty.laidOut history
  have hstart : Echoes cleared.log cleared (empty config ()) :=
    ⟨rfl, ⟨rfl, hcapacity, nofun⟩, rfl, minFree_run backend (empty config ()) history, rfl,
      (List.append_nil _).symm⟩
  obtain ⟨hanswers, hend⟩ := hstart.run (Backend.blind_generator addresses base) rs
  obtain ⟨hlaid, -⟩ := run_laidOut (Backend.appending_generator addresses base) hempty.laidOut rs
  refine ⟨hanswers, ?_, congrArg List.length hend.entries, hend.codeSize, hend.log, hend.describe?⟩
  -- Published code ends at the offset, up to which the buffers agree.
  rw [hend.codeSize]
  refine List.map_congr_left fun i hi => ?_
  have hpublished : d.codeSize = c.buffer.offset := hlaid.published.trans hend.buffer.offset.symm
  rw [Nat.zero_add]
  exact hend.buffer.before i (hpublished ▸ List.mem_range.mp hi)

end Cache

end PixelPipeline
