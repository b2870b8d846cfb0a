/-
# Proofs.Memoisation — each key is compiled once

Between two clears a cache remembers what became of every key it was asked for,
and asks its backend for nothing twice.  A request is a hit, which changes
nothing, or a miss, which adds one entry and one line to the log; what holds of
a whole run follows by induction on the keys (`Served`).

Which keys the backend is called for is read off a backend that writes them
down and otherwise does what the given one does (`Backend.recording`).
-/
import Mathlib.Data.Finset.Card
import Mathlib.Data.Finset.Dedup
import PixelPipeline.Cache.Basic
import PixelPipeline.Proofs.Placement

namespace PixelPipeline

variable {σ τ : Type}

/-! ## Backends -/

namespace Backend

/-- A backend that fails by an error alone, and then leaves the write offset
where it was. -/
structure Careful (backend : Backend σ) : Prop where
  reports : ∀ {key t e t'}, backend key t = .error e t' → ∃ reason, e = .error reason
  offset : ∀ {key t e t'}, backend key t = .error e t' → t'.1.offset = t.1.offset

theorem careful_generator (addresses : DataAddresses) (base : BitVec 64) :
    (generator addresses base).Careful := by
  constructor
  · intro key t e t' h
    unfold generator at h
    split at h
    · cases h
    · rename_i herror
      cases h
      exact (Compile.rolledBack_of_error herror).1
  · intro key t e t' h
    unfold generator at h
    split at h
    · cases h
    · rename_i herror
      cases h
      exact (Compile.rolledBack_of_error herror).2.1

/-- Errors that are injected leave the buffer alone. -/
theorem Careful.failing {backend : Backend Unit} (hb : backend.Careful)
    (errors : Nat → Option CompileError) : (failing errors backend).Careful := by
  have of_error {key t e t'} (h : Backend.failing errors backend key t = .error e t') :
      (∃ reason, e = .error reason) ∧ t'.1.offset = t.1.offset := by
    unfold Backend.failing at h
    split at h
    · cases h
      exact ⟨⟨_, rfl⟩, rfl⟩
    · split at h
      · cases h
      · rename_i herror
        cases h
        exact ⟨hb.reports herror, hb.offset herror⟩
  exact ⟨fun h => (of_error h).1, fun h => (of_error h).2⟩

/-- The same backend, which also writes down the keys it is called for. -/
def recording (backend : Backend σ) : Backend (σ × List Key) := fun key t =>
  match backend key (t.1, t.2.1) with
  | .ok f (b, s) => .ok f (b, s, t.2.2 ++ [key])
  | .error e (b, s) => .error e (b, s, t.2.2 ++ [key])

end Backend

/-! ## Entries and events -/

namespace CacheEvent

/-- The event says that a key with this word failed. -/
def fails (word : BitVec 64) : CacheEvent → Bool
  | failed key _ => key.word == word
  | _ => false

/-- The end of the code that the event tells of. -/
def stop? : CacheEvent → Option Nat
  | compiled _ f => some f.stop
  | _ => none

end CacheEvent

/-- What the log is told of a new entry. -/
def CacheEntry.event (e : CacheEntry) : CacheEvent :=
  match e.result with
  | .ok f => .compiled e.key f
  | .error reason => .failed e.key reason

namespace Cache

/-- What a caller is told of a result. -/
abbrev told (result : Except CompileError CompiledFunction) : Except Failure CompiledFunction :=
  result.mapError .error

/-- The cache over another backend state. -/
def withState (c : Cache σ) (t : τ) : Cache τ := { c with backendState := t }

/-- The cache after a row of keys was asked for. -/
def serve (backend : Backend σ) (c : Cache σ) (keys : List Key) : Cache σ :=
  c.run backend (keys.map .get)

/-- The keys that the backend is called for while a row of keys is asked for. -/
def calls (backend : Backend σ) (c : Cache σ) (keys : List Key) : List Key :=
  ((c.withState (c.backendState, ([] : List Key))).serve backend.recording keys).backendState.2

/-- A cache that is new or was just cleared. -/
inductive Starts (backend : Backend σ) (config : CacheConfig) (s : σ) : Cache σ → Prop
  | new : Starts backend config s (.empty config s)
  | cleared (rs : List Request) : Starts backend config s ((empty config s).run backend rs).clear

theorem serve_append (backend : Backend σ) (c : Cache σ) (keys more : List Key) :
    c.serve backend (keys ++ more) = (c.serve backend keys).serve backend more := by
  rw [serve, List.map_append, run, List.foldl_append]
  rfl

theorem serve_cons (backend : Backend σ) (c : Cache σ) (key : Key) (keys : List Key) :
    c.serve backend (key :: keys) = (c.get backend key).2.serve backend keys := rfl

theorem serve_concat (backend : Backend σ) (c : Cache σ) (keys : List Key) (key : Key) :
    c.serve backend (keys ++ [key]) = ((c.serve backend keys).get backend key).2 :=
  serve_append backend c keys [key]

/-! ## One request -/

section

variable {backend : Backend σ} {c c' : Cache σ} {key : Key} {word : BitVec 64}
  {result : Except CompileError CompiledFunction}

/-- What a miss does: one entry and one line more, and the published size moves
with the write offset, which an error leaves alone. -/
structure Missed (c : Cache σ) (key : Key) (result : Except CompileError CompiledFunction)
    (c' : Cache σ) : Prop where
  entries : c'.entries = c.entries ++ [⟨key, result⟩]
  log : c'.log = c.log ++ [CacheEntry.event ⟨key, result⟩]
  minFree : c'.minFree = c.minFree
  succeeded : ∀ f, result = .ok f → c'.codeSize = c'.buffer.offset
  failed : ∀ e, result = .error e →
    c'.codeSize = c.codeSize ∧ c'.buffer.offset = c.buffer.offset

theorem get_hit (h : c.find? key.word = some result) : c.get backend key = (told result, c) := by
  unfold get
  rw [h]
  cases result <;> rfl

theorem get_full (h : c.find? key.word = none) (hfull : c.buffer.remaining < c.minFree) :
    c.get backend key = (told (.error (.bufferFull c.buffer.remaining c.minFree)),
      c.recordError key (.bufferFull c.buffer.remaining c.minFree)) := by
  unfold get
  rw [h]
  exact if_pos hfull

/-- A miss with room is answered by the backend. -/
theorem get_compiles (hb : backend.Careful) (h : c.find? key.word = none)
    (hroom : ¬c.buffer.remaining < c.minFree) :
    ∃ result c', c.get backend key = (told result, c') ∧ c.Missed key result c' ∧
      ∀ f, result = .ok f → ∃ t, backend key (c.buffer, c.backendState) = .ok f t ∧
        c'.buffer = t.1 := by
  unfold get
  rw [h]
  simp only [compile, if_neg hroom]
  split
  · rename_i f b s hok
    exact ⟨.ok f, _, rfl, ⟨rfl, rfl, rfl, fun _ _ => rfl, nofun⟩, fun g hg => by
      cases hg; exact ⟨_, hok, rfl⟩⟩
  · rename_i reason b s herror
    exact ⟨.error reason, _, rfl, ⟨rfl, rfl, rfl, nofun, fun _ _ => ⟨rfl, hb.offset herror⟩⟩, nofun⟩
  · rename_i fault b s hfault
    obtain ⟨reason, hreason⟩ := hb.reports hfault
    cases hreason

theorem get_miss (hb : backend.Careful) (h : c.find? key.word = none) :
    ∃ result c', c.get backend key = (told result, c') ∧ c.Missed key result c' := by
  by_cases hfull : c.buffer.remaining < c.minFree
  · exact ⟨_, _, get_full h hfull, ⟨rfl, rfl, rfl, nofun, fun _ _ => ⟨rfl, rfl⟩⟩⟩
  · obtain ⟨result, c', hget, hmissed, -⟩ := get_compiles hb h hfull
    exact ⟨result, c', hget, hmissed⟩

/-! ## Entries -/

theorem find?_eq_none_iff : c.find? word = none ↔ word ∉ c.entries.map (·.key.word) := by
  rw [find?, Option.map_eq_none_iff, List.find?_eq_none, List.mem_map]
  constructor
  · rintro h ⟨e, he, rfl⟩
    exact h e he (beq_self_eq_true _)
  · rintro h e he hword
    exact h ⟨e, he, eq_of_beq hword⟩

theorem Missed.find?_self (h : c.Missed key result c') (hnone : c.find? key.word = none) :
    c'.find? key.word = some result := by
  rw [find?, Option.map_eq_none_iff] at hnone
  rw [find?, h.entries, List.find?_append, hnone]
  simp

/-- What is known stays known. -/
theorem Missed.find? {known : Except CompileError CompiledFunction} (h : c.Missed key result c')
    (hknown : c.find? word = some known) : c'.find? word = some known := by
  obtain ⟨e, he, rfl⟩ := Option.map_eq_some_iff.mp hknown
  rw [Cache.find?, h.entries, List.find?_append, he]
  rfl

/-- A request is answered by what is known afterwards. -/
theorem get_answer (hb : backend.Careful) (c : Cache σ) (key : Key) :
    ∃ result, (c.get backend key).1 = told result ∧
      (c.get backend key).2.find? key.word = some result := by
  cases h : c.find? key.word with
  | some result => exact ⟨result, by rw [get_hit h], by rw [get_hit h]; exact h⟩
  | none =>
    obtain ⟨result, c', hget, hmissed⟩ := get_miss hb h
    exact ⟨result, by rw [hget], by rw [hget]; exact hmissed.find?_self h⟩

theorem find?_get (hb : backend.Careful) (h : c.find? word = some result) (key : Key) :
    (c.get backend key).2.find? word = some result := by
  cases hkey : c.find? key.word with
  | some known => rwa [get_hit hkey]
  | none =>
    obtain ⟨_, c', hget, hmissed⟩ := get_miss hb hkey
    rw [hget]
    exact hmissed.find? h

theorem find?_serve (hb : backend.Careful) (h : c.find? word = some result) (keys : List Key) :
    (c.serve backend keys).find? word = some result := by
  induction keys generalizing c with
  | nil => exact h
  | cons key keys ih => exact ih (find?_get hb h key)

end

/-! ## Runs -/

section

variable {backend : Backend σ} {config : CacheConfig} {s : σ} {start c c' : Cache σ}
  {keys : List Key} {key : Key}

/-- What a cache knows after it was asked for a row of keys: one entry for each
word among them, and a line of the log for each entry. -/
structure Served (start : Cache σ) (keys : List Key) (c : Cache σ) : Prop where
  words : ∀ w, w ∈ c.entries.map (·.key.word) ↔ w ∈ keys.map (·.word)
  nodup : (c.entries.map (·.key.word)).Nodup
  log : c.log = start.log ++ c.entries.map (·.event)
  minFree : c.minFree = start.minFree
  published : c.codeSize = c.buffer.offset

theorem Served.find?_eq_none_iff (h : start.Served keys c) :
    c.find? key.word = none ↔ ∀ k ∈ keys, k.word ≠ key.word := by
  rw [Cache.find?_eq_none_iff, h.words, List.mem_map]
  exact ⟨fun h k hk he => h ⟨k, hk, he⟩, fun h ⟨k, hk, he⟩ => h k hk he⟩

theorem Served.missed {result : Except CompileError CompiledFunction} (h : start.Served keys c)
    (hmissed : c.Missed key result c') (hnone : c.find? key.word = none) :
    start.Served (keys ++ [key]) c' := by
  have hentries : c'.entries.map (·.key.word) = c.entries.map (·.key.word) ++ [key.word] := by
    rw [hmissed.entries, List.map_append]
    rfl
  refine ⟨fun w => ?_, ?_, ?_, hmissed.minFree.trans h.minFree, ?_⟩
  · rw [hentries, List.map_append, List.mem_append, List.mem_append, h.words]
    rfl
  · rw [hentries, List.nodup_append]
    refine ⟨h.nodup, List.nodup_singleton _, fun w hw w' hw' => ?_⟩
    rintro rfl
    rw [List.mem_singleton.mp hw'] at hw
    exact Cache.find?_eq_none_iff.mp hnone hw
  · rw [hmissed.log, h.log, hmissed.entries, List.map_append, List.append_assoc]
    rfl
  · cases result with
    | ok f => exact hmissed.succeeded f rfl
    | error e =>
      obtain ⟨hsize, hoffset⟩ := hmissed.failed e rfl
      rw [hsize, hoffset, h.published]

theorem Served.hit {result : Except CompileError CompiledFunction} (h : start.Served keys c)
    (hfound : c.find? key.word = some result) : start.Served (keys ++ [key]) c := by
  have hseen : key.word ∈ keys.map (·.word) := by
    rw [← h.words]
    by_contra hno
    rw [Cache.find?_eq_none_iff.mpr hno] at hfound
    cases hfound
  refine ⟨fun w => ?_, h.nodup, h.log, h.minFree, h.published⟩
  rw [h.words, List.map_append, List.mem_append]
  refine ⟨.inl, ?_⟩
  rintro (hw | hw)
  · exact hw
  · rwa [List.mem_singleton.mp hw]

/-- One request more. -/
theorem Served.get (hb : backend.Careful) (h : start.Served keys c) (key : Key) :
    start.Served (keys ++ [key]) (c.get backend key).2 := by
  cases hfind : c.find? key.word with
  | some result =>
    rw [get_hit hfind]
    exact h.hit hfind
  | none =>
    obtain ⟨result, c', hget, hmissed⟩ := get_miss hb hfind
    rw [hget]
    exact h.missed hmissed hfind

/-- A cache that was asked for nothing yet. -/
structure Idle (c : Cache σ) : Prop where
  entries : c.entries = []
  offset : c.buffer.offset = 0
  codeSize : c.codeSize = 0

theorem Starts.idle (h : Starts backend config s c) : c.Idle := by
  cases h <;> exact ⟨rfl, rfl, rfl⟩

theorem Idle.served (h : start.Idle) : start.Served [] start := by
  refine ⟨?_, ?_, ?_, rfl, h.codeSize.trans h.offset.symm⟩ <;> simp [h.entries]

theorem serve_served (hb : backend.Careful) (h : start.Idle) (keys : List Key) :
    start.Served keys (start.serve backend keys) := by
  induction keys using List.reverseRecOn with
  | nil => exact h.served
  | append_singleton keys key ih =>
    rw [serve_concat]
    exact ih.get hb key

/-- An answer is given again, and nothing else happens. -/
theorem get_again (hb : backend.Careful) (start : Cache σ) (before after : List Key) {first : Key}
    (hword : first.word = key.word) :
    let c := start.serve backend (before ++ first :: after)
    (c.get backend key).1 = ((start.serve backend before).get backend first).1 ∧
      (c.get backend key).2 = c := by
  obtain ⟨result, hanswer, hfound⟩ := get_answer hb (start.serve backend before) first
  rw [hword] at hfound
  have hlater := find?_serve hb hfound after
  rw [← serve_concat, ← serve_append, List.append_assoc] at hlater
  intro c
  rw [get_hit (c := c) hlater, hanswer]
  exact ⟨rfl, rfl⟩

/-! ## The log -/

/-- One line of the log for an entry that failed, and none for another. -/
theorem countP_fails (entries : List CacheEntry) (hnodup : (entries.map (·.key.word)).Nodup)
    (w : BitVec 64) : (entries.map (·.event)).countP (·.fails w) =
      match (entries.find? (·.key.word == w)).map (·.result) with
      | some (.error _) => 1
      | _ => 0 := by
  induction entries with
  | nil => rfl
  | cons e rest ih =>
    obtain ⟨hfresh, hrest⟩ := List.nodup_cons.mp hnodup
    rw [List.map_cons, List.countP_cons, ih hrest, List.find?_cons]
    cases hw : e.key.word == w with
    | false =>
      have hno : e.event.fails w = false := by
        unfold CacheEntry.event
        split
        · rfl
        · exact hw
      rw [hno]
      rfl
    | true =>
      have hnone : rest.find? (·.key.word == w) = none := by
        rw [List.find?_eq_none]
        rintro e' he' hw'
        exact hfresh (List.mem_map.mpr ⟨e', he', (eq_of_beq hw').trans (eq_of_beq hw).symm⟩)
      rw [hnone]
      cases hresult : e.result with
      | ok f => simp [CacheEntry.event, hresult, CacheEvent.fails]
      | error reason => simp [CacheEntry.event, hresult, CacheEvent.fails, hw]

/-- The end of the last code that the entries tell of. -/
def lastStop (entries : List CacheEntry) : Nat :=
  ((entries.map (·.event)).filterMap (·.stop?)).getLast?.getD 0

theorem lastStop_concat (entries : List CacheEntry) (key : Key)
    (result : Except CompileError CompiledFunction) :
    lastStop (entries ++ [⟨key, result⟩]) =
      match result with
      | .ok f => f.stop
      | .error _ => lastStop entries := by
  unfold lastStop
  rw [List.map_append, List.filterMap_append]
  cases result <;> simp [CacheEntry.event, CacheEvent.stop?]

/-- Where code ends at the write offset, the published size is the end of the
last code. -/
theorem codeSize_serve (hb : backend.Careful)
    (hstop : ∀ key t f t', backend key t = .ok f t' → f.stop = t'.1.offset) (h : start.Idle)
    (keys : List Key) :
    (start.serve backend keys).codeSize = lastStop (start.serve backend keys).entries := by
  induction keys using List.reverseRecOn with
  | nil =>
    show start.codeSize = lastStop start.entries
    rw [h.codeSize, h.entries]
    rfl
  | append_singleton keys key ih =>
    rw [serve_concat]
    generalize start.serve backend keys = c at ih
    cases hfind : c.find? key.word with
    | some result => rwa [get_hit hfind]
    | none =>
      by_cases hfull : c.buffer.remaining < c.minFree
      · rw [get_full hfind hfull]
        exact ih.trans (lastStop_concat c.entries key
          (.error (.bufferFull c.buffer.remaining c.minFree))).symm
      · obtain ⟨result, c', hget, hmissed, hok⟩ := get_compiles hb hfind hfull
        rw [hget]
        show c'.codeSize = lastStop c'.entries
        rw [hmissed.entries, lastStop_concat]
        cases result with
        | error e => exact (hmissed.failed e rfl).1.trans ih
        | ok f =>
          obtain ⟨t, hcall, hbuffer⟩ := hok f rfl
          rw [hmissed.succeeded f rfl, hbuffer]
          exact (hstop _ _ _ _ hcall).symm

/-! ## Calls of the backend -/

theorem careful_recording (hb : backend.Careful) : backend.recording.Careful := by
  have of_error {key t e t'} (h : backend.recording key t = .error e t') :
      ∃ u, backend key (t.1, t.2.1) = .error e u ∧ t'.1 = u.1 := by
    unfold Backend.recording at h
    split at h
    · cases h
    · rename_i herror
      cases h
      exact ⟨_, herror, rfl⟩
  constructor
  · intro key t e t' h
    obtain ⟨u, herror, -⟩ := of_error h
    exact hb.reports herror
  · intro key t e t' h
    obtain ⟨u, herror, hbuffer⟩ := of_error h
    rw [hbuffer]
    exact hb.offset herror

/-- The cache over what the recorded backend keeps of its own. -/
def erase (c : Cache (σ × List Key)) : Cache σ := c.withState c.backendState.1

/-- Writing calls down changes nothing else. -/
theorem get_recording (backend : Backend σ) (c : Cache (σ × List Key)) (key : Key) :
    (c.get backend.recording key).1 = (c.erase.get backend key).1 ∧
      (c.get backend.recording key).2.erase = (c.erase.get backend key).2 := by
  have hfind : c.erase.find? key.word = c.find? key.word := rfl
  unfold get
  rw [hfind]
  cases c.find? key.word with
  | some result => cases result <;> exact ⟨rfl, rfl⟩
  | none =>
    have hroom : (c.erase.buffer.remaining < c.erase.minFree) =
        (c.buffer.remaining < c.minFree) := rfl
    simp only [compile, hroom]
    split
    · exact ⟨rfl, rfl⟩
    · have hstate : backend key (c.erase.buffer, c.erase.backendState) =
        backend key (c.buffer, c.backendState.1) := rfl
      rw [hstate, Backend.recording]
      cases backend key (c.buffer, c.backendState.1) with
      | ok f t => exact ⟨rfl, rfl⟩
      | error e t => cases e <;> exact ⟨rfl, rfl⟩

theorem serve_recording (backend : Backend σ) (c : Cache (σ × List Key)) (keys : List Key) :
    (c.serve backend.recording keys).erase = c.erase.serve backend keys := by
  induction keys generalizing c with
  | nil => rfl
  | cons key keys ih =>
    rw [serve_cons, serve_cons, ih, (get_recording backend c key).2]

/-- With room, a key that was not seen is written down. -/
theorem calls_of_room {c : Cache (σ × List Key)} (hnone : c.find? key.word = none)
    (hroom : ¬c.buffer.remaining < c.minFree) :
    (c.get backend.recording key).2.backendState.2 = c.backendState.2 ++ [key] := by
  unfold get
  rw [hnone]
  simp only [compile, if_neg hroom, Backend.recording]
  cases backend key (c.buffer, c.backendState.1) with
  | ok f t => rfl
  | error e t => cases e <;> rfl

/-- The keys written down are among those of the entries, in their order. -/
theorem calls_sublist (hb : backend.Careful) {c : Cache (σ × List Key)}
    (h : c.backendState.2.Sublist (c.entries.map (·.key))) (keys : List Key) :
    (c.serve backend.recording keys).backendState.2.Sublist
      ((c.serve backend.recording keys).entries.map (·.key)) := by
  induction keys generalizing c with
  | nil => exact h
  | cons key keys ih =>
    refine ih ?_
    change (c.get backend.recording key).2.backendState.2.Sublist
      ((c.get backend.recording key).2.entries.map (·.key))
    cases hfind : c.find? key.word with
    | some result => rwa [get_hit hfind]
    | none =>
      by_cases hfull : c.buffer.remaining < c.minFree
      · rw [get_full hfind hfull]
        refine h.trans ?_
        show (c.entries.map (·.key)).Sublist ((c.entries ++ _).map (·.key))
        rw [List.map_append]
        exact List.sublist_append_left _ _
      · obtain ⟨result, c', hget, hmissed⟩ := get_miss (careful_recording hb) hfind
        have hcalls : (c.get backend.recording key).2.backendState.2 =
            c.backendState.2 ++ [key] := calls_of_room hfind hfull
        rw [hget] at hcalls
        rw [hget, hcalls, hmissed.entries, List.map_append]
        exact h.append (List.Sublist.refl [key])

/-- No word is called for twice. -/
theorem nodup_calls (hb : backend.Careful) (h : start.Idle) (keys : List Key) :
    ((start.calls backend keys).map (·.word)).Nodup := by
  have hidle : (start.withState (start.backendState, ([] : List Key))).Idle := ⟨h.1, h.2, h.3⟩
  have hserved := serve_served (careful_recording hb) hidle keys
  have hsublist := calls_sublist hb (c := start.withState (start.backendState, ([] : List Key)))
    (List.nil_sublist _) keys
  have := hsublist.map (·.word)
  rw [List.map_map] at this
  exact this.nodup hserved.nodup

/-- A key that is new is called for if there is room. -/
theorem calls_concat (hb : backend.Careful) (h : start.Idle) (hnew : ∀ k ∈ keys, k.word ≠ key.word) :
    let c := start.serve backend keys
    start.calls backend (keys ++ [key]) =
      if c.buffer.remaining < c.minFree then start.calls backend keys
      else start.calls backend keys ++ [key] := by
  have hidle : (start.withState (start.backendState, ([] : List Key))).Idle := ⟨h.1, h.2, h.3⟩
  have hserved := serve_served (careful_recording hb) hidle keys
  have hsame : ((start.withState (start.backendState, ([] : List Key))).serve backend.recording
      keys).erase = start.serve backend keys := serve_recording _ _ _
  have hnone := hserved.find?_eq_none_iff.mpr hnew
  intro c
  rw [show c.buffer.remaining = _ from congrArg (·.buffer.remaining) hsame.symm,
    show c.minFree = _ from congrArg (·.minFree) hsame.symm]
  unfold calls
  rw [serve_concat]
  split
  · rename_i hfull
    rw [get_full hnone hfull]
    rfl
  · rename_i hroom
    exact calls_of_room hnone hroom

/-! ## Whole runs -/

theorem minFree_get (backend : Backend σ) (c : Cache σ) (key : Key) :
    (c.get backend key).2.minFree = c.minFree := by
  unfold get compile
  split
  · rfl
  · rfl
  · split
    · rfl
    · split <;> rfl

theorem minFree_run (backend : Backend σ) (c : Cache σ) (rs : List Request) :
    (c.run backend rs).minFree = c.minFree := by
  induction rs generalizing c with
  | nil => rfl
  | cons r rs ih =>
    refine (ih (c.step backend r)).trans ?_
    cases r with
    | get key => exact minFree_get backend c key
    | clear => rfl

theorem Starts.minFree (h : Starts backend config s c) : c.minFree = config.minFree := by
  cases h with
  | new => rfl
  | cleared rs => exact minFree_run backend (empty config s) rs

/-- Between clears, a request for a key asked for before is answered as it was
then, and nothing happens.  A key that is new and finds too little room is
refused without the backend, which is never called twice for a word.  There is
one entry for each word, one error line for each that failed, and the published
size is where the next function will be written. -/
theorem compiled_once (hb : backend.Careful) (hstart : Starts backend config s start)
    (keys : List Key) (key : Key) :
    let c := start.serve backend keys
    let answer := (c.get backend key).1
    let next := (c.get backend key).2
    (∀ before first after, keys = before ++ first :: after → first.word = key.word →
      answer = ((start.serve backend before).get backend first).1 ∧ next = c) ∧
    ((∀ k ∈ keys, k.word ≠ key.word) →
      (c.buffer.remaining < config.minFree →
        answer = .error (.error (.bufferFull c.buffer.remaining config.minFree)) ∧
          start.calls backend (keys ++ [key]) = start.calls backend keys) ∧
      (¬c.buffer.remaining < config.minFree →
        start.calls backend (keys ++ [key]) = start.calls backend keys ++ [key])) ∧
    ((start.calls backend keys).map (·.word)).Nodup ∧
    c.size = (keys.map (·.word)).toFinset.card ∧
    (∃ lines, c.log = start.log ++ lines ∧
      (∀ k ∈ keys, lines.countP (·.fails k.word) =
        match (c.get backend k).1 with
        | .ok _ => 0
        | .error _ => 1) ∧
      (∀ w, w ∉ keys.map (·.word) → lines.countP (·.fails w) = 0) ∧
      ((∀ key t f t', backend key t = .ok f t' → f.stop = t'.1.offset) →
        c.codeSize = (lines.filterMap (·.stop?)).getLast?.getD 0)) ∧
    c.codeSize = c.buffer.offset ∧ start.codeSize = 0 ∧
      (∀ e, answer = .error e → next.codeSize = c.codeSize) := by
  have hidle := hstart.idle
  have hserved := serve_served hb hidle keys
  intro c answer next
  have hminFree : c.minFree = config.minFree := hserved.minFree.trans hstart.minFree
  refine ⟨?_, fun hnew => ?_, nodup_calls hb hidle keys, ?_, ⟨c.entries.map (·.event), hserved.log, ?_⟩,
    hserved.published, hidle.codeSize, ?_⟩
  · rintro before first after hkeys hword
    have := get_again hb start before after hword
    rwa [← hkeys] at this
  · have hnone := hserved.find?_eq_none_iff.mpr hnew
    have hcalls := calls_concat hb hidle hnew
    rw [← hminFree]
    refine ⟨fun hfull => ⟨?_, hcalls.trans (if_pos hfull)⟩, fun hroom => hcalls.trans (if_neg hroom)⟩
    exact congrArg Prod.fst (get_full hnone hfull)
  · have hwords : (keys.map (·.word)).toFinset = (c.entries.map (·.key.word)).toFinset := by
      ext w
      rw [List.mem_toFinset, List.mem_toFinset, hserved.words]
    rw [hwords, List.toFinset_card_of_nodup hserved.nodup, List.length_map]
    rfl
  · refine ⟨fun k hk => ?_, fun w hw => ?_, fun hstop => codeSize_serve hb hstop hidle keys⟩
    · cases hfind : c.find? k.word with
      | none => exact absurd rfl (hserved.find?_eq_none_iff.mp hfind k hk)
      | some result =>
        rw [countP_fails _ hserved.nodup, get_hit hfind, show (c.entries.find?
          (·.key.word == k.word)).map (·.result) = some result from hfind]
        cases result <;> rfl
    · rw [countP_fails _ hserved.nodup, show (c.entries.find? (·.key.word == w)).map (·.result) =
        none from Cache.find?_eq_none_iff.mpr fun h => hw ((hserved.words w).mp h)]
  · intro e he
    cases hfind : c.find? key.word with
    | some result => rw [show next = c from congrArg Prod.snd (get_hit hfind)]
    | none =>
      obtain ⟨result, c', hget, hmissed⟩ := get_miss hb hfind
      rw [show next = c' from congrArg Prod.snd hget]
      cases result with
      | error reason => exact (hmissed.failed reason rfl).1
      | ok f =>
        rw [show answer = .ok f from congrArg Prod.fst hget] at he
        cases he

/-- A key that is asked for twice has one entry, whatever became of it. -/
theorem compiled_once_twice :
    let errors : Nat → Option CompileError := fun n => if n = 1 then some (.unbound .argX) else none
    let backend := Backend.failing errors (Backend.generator ⟨0x10000, 0x20000⟩ 0)
    let key := Key.ofConfig {} {}
    let start : Cache Nat := .empty {} 0
    let c := start.serve backend [key, key]
    backend.Careful ∧ Starts backend {} 0 start ∧ c.size = 1 ∧ c.codeSize = c.buffer.offset := by
  intro errors backend key start c
  have hb : backend.Careful := (Backend.careful_generator _ _).failing errors
  have hstart : Starts backend {} 0 start := .new
  have h := compiled_once hb hstart [key, key] key
  refine ⟨hb, hstart, h.2.2.2.1.trans ?_, h.2.2.2.2.2.1⟩
  simp

end

end Cache

end PixelPipeline
