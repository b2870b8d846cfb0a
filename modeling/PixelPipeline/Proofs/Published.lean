/-
# Proofs.Published — code that callers hold stays as it is

Functions follow one another in the code buffer, and what is written later is
written behind them.  A backend that works like this is `Appending`; the
generator is, and a cache over such a backend lays its functions out in a chain
from the front of the buffer to the write offset (`Chained`).  A request adds a
link to the chain or none, and changes no byte in front of it, so what was
returned once is there for as long as the cache is not cleared.
-/
import PixelPipeline.Proofs.Memoisation

namespace PixelPipeline

variable {σ : Type}

/-! ## Backends that write behind what is there -/

/-- A function lies behind an offset, at the next multiple of sixteen. -/
structure CompiledFunction.Behind (f : CompiledFunction) (offset : Nat) : Prop where
  aligned : 16 ∣ f.start
  start : offset ≤ f.start
  near : f.start < offset + 16
  nonempty : f.start < f.stop

/-- A backend that puts each function behind what the buffer holds, and on
failure leaves the offset where it was, and what is in front of it. -/
structure Backend.Appending (backend : Backend σ) : Prop where
  function : ∀ {key t f t'}, backend key t = .ok f t' → f.Behind t.1.offset
  offset : ∀ {key t f t'}, backend key t = .ok f t' → t'.1.offset = f.stop
  capacity : ∀ {key t f t'}, backend key t = .ok f t' → t'.1.capacity = t.1.capacity
  before : ∀ {key t f t'}, backend key t = .ok f t' →
    ∀ i, i < t.1.offset → t'.1.byteAt i = t.1.byteAt i
  error : ∀ {key t e t'}, backend key t = .error e t' →
    t'.1.offset = t.1.offset ∧ t.1.SameBelow t.1.offset t'.1

theorem Backend.appending_generator (addresses : DataAddresses) (base : BitVec 64) :
    (generator addresses base).Appending := by
  have of_ok {key t f t'} (h : generator addresses base key t = .ok f t') :
      ∃ code, Compile.Appended code base t.1 t'.1 f := by
    unfold generator at h
    split at h
    · rename_i b' hok
      cases h
      obtain ⟨code, -, happ, -⟩ := Compile.appended_of_ok hok
      exact ⟨code, happ⟩
    · cases h
  constructor
  · intro key t f t' h
    obtain ⟨code, happ⟩ := of_ok h
    obtain ⟨hdvd, hle, hlt⟩ := Compile.nextStart_spec t.1.offset
    rw [← happ.start] at hdvd hle hlt
    refine ⟨hdvd, hle, hlt, ?_⟩
    rw [happ.stop]
    exact Nat.lt_succ_of_le (Code.le_stop _ _)
  · intro key t f t' h
    obtain ⟨code, happ⟩ := of_ok h
    exact happ.offset
  · intro key t f t' h
    obtain ⟨code, happ⟩ := of_ok h
    exact happ.capacity
  · intro key t f t' h
    obtain ⟨code, happ⟩ := of_ok h
    exact happ.before
  · intro key t e t' h
    unfold generator at h
    split at h
    · cases h
    · rename_i herror
      cases h
      exact (Compile.rolledBack_of_error herror).2

namespace Cache

/-! ## Chains of functions -/

/-- Functions that follow one another from one offset to another. -/
def Chained : Nat → List CompiledFunction → Nat → Prop
  | o, [], o' => o = o'
  | o, f :: fs, o' => f.Behind o ∧ Chained f.stop fs o'

theorem Chained.concat {o o' : Nat} {fs : List CompiledFunction} {f : CompiledFunction}
    (h : Chained o fs o') (hf : f.Behind o') : Chained o (fs ++ [f]) f.stop := by
  induction fs generalizing o with
  | nil =>
    cases h
    exact ⟨hf, rfl⟩
  | cons g fs ih => exact ⟨h.1, ih h.2⟩

/-- Every function of a chain lies between its ends. -/
theorem Chained.bounds {o o' : Nat} {fs : List CompiledFunction} (h : Chained o fs o') :
    o ≤ o' ∧ ∀ f ∈ fs, 16 ∣ f.start ∧ o ≤ f.start ∧ f.start < f.stop ∧ f.stop ≤ o' := by
  induction fs generalizing o with
  | nil => exact ⟨Nat.le_of_eq h, nofun⟩
  | cons g fs ih =>
    obtain ⟨hg, hrest⟩ := h
    obtain ⟨hle, hall⟩ := ih hrest
    have := hg.start
    have := hg.nonempty
    refine ⟨by omega, fun f hf => ?_⟩
    rcases List.mem_cons.mp hf with rfl | hf
    · exact ⟨hg.aligned, hg.start, hg.nonempty, hle⟩
    · obtain ⟨hdvd, hstart, hlt, hstop⟩ := hall f hf
      exact ⟨hdvd, by omega, hlt, hstop⟩

/-- The functions of a chain do not overlap. -/
theorem Chained.pairwise {o o' : Nat} {fs : List CompiledFunction} (h : Chained o fs o') :
    fs.Pairwise fun f g => f.stop ≤ g.start := by
  induction fs generalizing o with
  | nil => exact .nil
  | cons f fs ih =>
    refine .cons (fun g hg => ?_) (ih h.2)
    exact (h.2.bounds.2 g hg).2.1

/-- The functions of a chain follow one another closely. -/
theorem Chained.close {o o' : Nat} {fs : List CompiledFunction} (h : Chained o fs o') :
    (fs.IsChain fun f g => g.start < f.stop + 16) ∧ (∀ f ∈ fs.head?, f.start < o + 16) ∧
      (fs.getLast?.map (·.stop)).getD o = o' := by
  induction fs generalizing o with
  | nil => exact ⟨.nil, nofun, h⟩
  | cons f fs ih =>
    obtain ⟨hf, hrest⟩ := h
    obtain ⟨hchain, hhead, hlast⟩ := ih hrest
    refine ⟨?_, fun g hg => ?_, ?_⟩
    · cases fs with
      | nil => exact .singleton f
      | cons g fs => exact .cons_cons (hhead g rfl) hchain
    · cases hg
      exact hf.near
    · rw [← hlast, List.getLast?_cons]
      cases fs.getLast? <;> rfl

/-! ## Requests -/

section

variable {backend : Backend σ} {c start : Cache σ}

/-- The functions that a cache has returned since it was cleared, first one first. -/
def functions (c : Cache σ) : List CompiledFunction :=
  c.entries.filterMap fun e => e.result.toOption

/-- What every request keeps: the functions follow one another up to the write
offset, which is the published size. -/
structure LaidOut (c : Cache σ) : Prop where
  chained : Chained 0 c.functions c.buffer.offset
  published : c.codeSize = c.buffer.offset

theorem Idle.laidOut (h : c.Idle) : c.LaidOut :=
  ⟨by rw [functions, h.entries, h.offset]; rfl, h.codeSize.trans h.offset.symm⟩

/-- What a request leaves alone. -/
structure Preserves (c c' : Cache σ) : Prop where
  offset : c.buffer.offset ≤ c'.buffer.offset
  capacity : c'.buffer.capacity = c.buffer.capacity
  bytes : ∀ i, i < c.buffer.offset → c'.buffer.byteAt i = c.buffer.byteAt i
  functions : ∀ f ∈ c.functions, f ∈ c'.functions

theorem Preserves.refl (c : Cache σ) : c.Preserves c :=
  ⟨Nat.le_refl _, rfl, fun _ _ => rfl, fun _ h => h⟩

theorem Preserves.trans {c' c'' : Cache σ} (h : c.Preserves c') (h' : c'.Preserves c'') :
    c.Preserves c'' :=
  ⟨Nat.le_trans h.offset h'.offset, h'.capacity.trans h.capacity,
    fun i hi => (h'.bytes i (Nat.lt_of_lt_of_le hi h.offset)).trans (h.bytes i hi),
    fun f hf => h'.functions f (h.functions f hf)⟩

/-- A key that was refused changes nothing but entries that are no functions, and bytes that
are behind the offset. -/
theorem laidOut_of_refused {c' : Cache σ} (h : c.LaidOut) (hfunctions : c'.functions = c.functions)
    (hcodeSize : c'.codeSize = c.codeSize) (hoffset : c'.buffer.offset = c.buffer.offset)
    (hsame : c.buffer.SameBelow c.buffer.offset c'.buffer) : c'.LaidOut ∧ c.Preserves c' := by
  refine ⟨⟨?_, ?_⟩, Nat.le_of_eq hoffset.symm, hsame.capacity, hsame.bytes, fun f hf => ?_⟩
  · rw [hfunctions, hoffset]
    exact h.chained
  · rw [hcodeSize, hoffset]
    exact h.published
  · rwa [hfunctions]

/-- An entry for an error is no function. -/
theorem functions_recordError (c : Cache σ) (key : Key) (e : CompileError) :
    (c.recordError key e).functions = c.functions := by
  simp [functions, recordError, record, Except.toOption]

/-- One request: the layout goes on, and what was there is still there. -/
theorem get_laidOut (hb : backend.Appending) (h : c.LaidOut) (key : Key) :
    (c.get backend key).2.LaidOut ∧ c.Preserves (c.get backend key).2 := by
  unfold get
  split
  · exact ⟨h, .refl c⟩
  · exact ⟨h, .refl c⟩
  · unfold compile
    split
    · exact laidOut_of_refused h (functions_recordError c key _) rfl rfl (.refl _ _)
    · split
      · rename_i f b s hok
        have hfunctions : ({ c with buffer := b, backendState := s, codeSize := b.offset }.record
            key (.ok f) (.compiled key f)).functions = c.functions ++ [f] := by
          simp [functions, record, Except.toOption]
        have hf := hb.function hok
        have hoffset : b.offset = f.stop := hb.offset hok
        refine ⟨⟨?_, rfl⟩, ⟨?_, hb.capacity hok, hb.before hok, fun g hg => ?_⟩⟩
        · rw [hfunctions]
          show Chained 0 _ b.offset
          rw [hoffset]
          exact h.chained.concat hf
        · show c.buffer.offset ≤ b.offset
          rw [hoffset]
          exact Nat.le_trans hf.start (Nat.le_of_lt hf.nonempty)
        · rw [hfunctions]
          exact List.mem_append_left _ hg
      · rename_i e b s hfail
        obtain ⟨hoffset, hsame⟩ := hb.error hfail
        exact laidOut_of_refused h (functions_recordError _ key e) rfl hoffset hsame
      · rename_i f b s hfail
        obtain ⟨hoffset, hsame⟩ := hb.error hfail
        exact laidOut_of_refused h rfl rfl hoffset hsame

/-- A whole run: the layout goes on, and what was there is still there. -/
theorem serve_laidOut (hb : backend.Appending) (h : c.LaidOut) (keys : List Key) :
    (c.serve backend keys).LaidOut ∧ c.Preserves (c.serve backend keys) := by
  induction keys generalizing c with
  | nil => exact ⟨h, .refl c⟩
  | cons key keys ih =>
    obtain ⟨hnext, hkept⟩ := get_laidOut hb h key
    obtain ⟨hlast, hrest⟩ := ih hnext
    exact ⟨hlast, hkept.trans hrest⟩

/-- What is returned is among the functions of the cache. -/
theorem mem_functions_of_get {key : Key} {f : CompiledFunction}
    (h : (c.get backend key).1 = .ok f) : f ∈ (c.get backend key).2.functions := by
  unfold get at h ⊢
  split at h
  · rename_i hfind
    cases h
    obtain ⟨e, he, hresult⟩ := Option.map_eq_some_iff.mp hfind
    exact List.mem_filterMap.mpr ⟨e, List.mem_of_find?_eq_some he, by rw [hresult]; rfl⟩
  · cases h
  · unfold compile at h ⊢
    split at h
    · cases h
    · rename_i hroom
      rw [if_neg hroom]
      split at h
      · cases h
        simp [functions, record, Except.toOption]
      · cases h
      · cases h

end

/-- Between clears, the code of all functions that were returned lies in the
published part of the buffer, range behind range, each at a multiple of sixteen
and with fewer than sixteen bytes in front of it, and no request, whether it
compiles, finds or fails, changes a byte of a function that was returned before. -/
theorem published_kept (addresses : DataAddresses) (base : BitVec 64) {config : CacheConfig}
    {start : Cache Unit} (hstart : Starts (Backend.generator addresses base) config () start)
    (keys : List Key) :
    let backend := Backend.generator addresses base
    let c := start.serve backend keys
    (c.functions.Pairwise fun f g => f.stop ≤ g.start) ∧
    (∀ f ∈ c.functions, 16 ∣ f.start ∧ f.start < f.stop ∧ f.stop ≤ c.codeSize) ∧
    (c.codeSize ≤ c.buffer.capacity ∧ c.buffer.capacity = start.buffer.capacity) ∧
    ((c.functions.IsChain fun f g => g.start < f.stop + 16) ∧ (∀ f ∈ c.functions.head?, f.start = 0) ∧
      (c.functions.getLast?.map (·.stop)).getD 0 = c.codeSize) ∧
    ∀ before key after f, keys = before ++ key :: after →
      ((start.serve backend before).get backend key).1 = .ok f →
      f ∈ c.functions ∧ ∀ i, f.start ≤ i → i < f.stop →
        c.buffer.byteAt i = ((start.serve backend before).get backend key).2.buffer.byteAt i := by
  intro backend c
  have hb := Backend.appending_generator addresses base
  obtain ⟨hlaid, hkept⟩ := serve_laidOut hb hstart.idle.laidOut keys
  obtain ⟨hchain, hhead, hlast⟩ := hlaid.chained.close
  refine ⟨hlaid.chained.pairwise, fun f hf => ?_, ⟨?_, hkept.capacity⟩,
    ⟨hchain, fun f hf => ?_, hlast.trans hlaid.published.symm⟩, ?_⟩
  · obtain ⟨hdvd, -, hlt, hstop⟩ := hlaid.chained.bounds.2 f hf
    exact ⟨hdvd, hlt, hlaid.published ▸ hstop⟩
  · exact hlaid.published ▸ c.buffer.offset_le
  · have := hhead f hf
    have := (hlaid.chained.bounds.2 f (List.mem_of_head? hf)).1
    omega
  · rintro before key after f hkeys hget
    have hmem := mem_functions_of_get hget
    obtain ⟨hthen, -⟩ := serve_laidOut hb (serve_laidOut hb hstart.idle.laidOut before).1 [key]
    obtain ⟨-, hlater⟩ := serve_laidOut hb hthen after
    have hc : c = ((start.serve backend before).serve backend [key]).serve backend after := by
      rw [← serve_append, ← serve_append]
      exact congrArg (start.serve backend) hkeys
    rw [hc]
    refine ⟨hlater.functions f hmem, fun i _ hi => hlater.bytes i ?_⟩
    exact Nat.lt_of_lt_of_le hi (hthen.chained.bounds.2 f hmem).2.2.2

/-- A new cache that has room answers every key with a function. -/
theorem exists_first_function (addresses : DataAddresses) (base : BitVec 64) (config : CacheConfig)
    (hfree : config.minFree ≤ (empty config ()).buffer.remaining)
    (hroom : maxFunctionSize ≤ (empty config ()).buffer.remaining) (key : Key) :
    ∃ f, ((empty config ()).get (Backend.generator addresses base) key).1 = .ok f := by
  obtain ⟨_, f, b, -, hok, -⟩ := Compile.function_ok key.features addresses base hroom
  have hcompile : Backend.generator addresses base key ((empty config ()).buffer, ()) =
      .ok f (b, ()) := by
    rw [Backend.generator, hok]
  have hget : (empty config ()).get (Backend.generator addresses base) key =
      compile (Backend.generator addresses base) key (empty config ()) := rfl
  have hroomy : ¬(empty config ()).buffer.remaining < (empty config ()).minFree :=
    Nat.not_lt.mpr hfree
  refine ⟨f, ?_⟩
  rw [hget, compile, if_neg hroomy]
  have hstate : (empty config ()).backendState = () := rfl
  rw [hstate, hcompile]

/-- The first function of a new cache, and two more that are compiled behind it: it is among
the functions, and its bytes are those that it had when it was returned. -/
theorem published_kept_twice :
    let backend := Backend.generator ⟨0x10000, 0x20000⟩ 0
    let key := Key.ofConfig {} {}
    let after := [Key.ofConfig { fog := true } {}, Key.ofConfig { dither := true } {}]
    let c := (empty {} ()).serve backend (key :: after)
    Starts backend {} () (empty {} ()) ∧ (c.functions.Pairwise fun f g => f.stop ≤ g.start) ∧
      ∃ f, ((empty {} ()).get backend key).1 = .ok f ∧ f ∈ c.functions ∧
        ∀ i, f.start ≤ i → i < f.stop →
          c.buffer.byteAt i = ((empty {} ()).get backend key).2.buffer.byteAt i := by
  intro backend key after c
  have hstart : Starts backend {} () (empty {} ()) := .new
  have h := published_kept ⟨0x10000, 0x20000⟩ 0 hstart (key :: after)
  obtain ⟨f, hget⟩ := exists_first_function ⟨0x10000, 0x20000⟩ 0 {} (by decide) (by decide) key
  exact ⟨hstart, h.1, f, hget, h.2.2.2.2 [] key after f rfl hget⟩

end Cache

end PixelPipeline
