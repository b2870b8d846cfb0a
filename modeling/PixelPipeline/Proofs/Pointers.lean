/-
# Proofs.Pointers — what a code pointer stands for

An address in the code buffer is named by the one function whose code it falls into,
and by the stage in it.  There is one at most, because functions that were returned
since the last clear lie apart, and it has a stage there, because its markers begin
where it does.  So it does not matter in which order the entries are gone through; and
what lies between functions, behind them, or in code of before a clear has no name.
-/
import Mathlib.Data.List.Pairwise
import PixelPipeline.Proofs.Markers
import PixelPipeline.Proofs.Published

namespace PixelPipeline

/-- The entry is a function, and the distance from the start of the buffer falls into
its code. -/
structure CacheEntry.Covers (e : CacheEntry) (f : CompiledFunction) (distance : Int) : Prop where
  result : e.result = .ok f
  start : (f.start : Int) ≤ distance
  stop : distance < f.stop

/-- The code of the entries, if they have any, does not overlap. -/
def CacheEntry.Apart (e e' : CacheEntry) : Prop :=
  ∀ f f', e.result = .ok f → e'.result = .ok f' → f.stop ≤ f'.start ∨ f'.stop ≤ f.start

instance : Std.Symm CacheEntry.Apart where
  symm _ _ h f f' hf hf' := (h f' f hf' hf).symm

namespace Cache

variable {σ : Type} {backend : Backend σ} {config : CacheConfig} {s : σ} {c : Cache σ}

/-! ## Histories -/

/-- The keys that were asked for since the last clear. -/
def asked (rs : List Request) : List Key :=
  rs.foldl (fun keys r =>
    match r with
    | .get key => keys ++ [key]
    | .clear => []) []

theorem asked_concat (rs : List Request) (r : Request) : asked (rs ++ [r]) =
    match r with
    | .get key => asked rs ++ [key]
    | .clear => [] := by
  rw [asked, List.foldl_append]
  rfl

/-- A run is a start and the keys asked for since. -/
theorem exists_start (backend : Backend σ) (config : CacheConfig) (s : σ) (rs : List Request) :
    ∃ start, Starts backend config s start ∧
      (empty config s).run backend rs = start.serve backend (asked rs) := by
  induction rs using List.reverseRecOn with
  | nil => exact ⟨_, .new, rfl⟩
  | append_singleton init r ih =>
    obtain ⟨start, hstart, hrun⟩ := ih
    rw [asked_concat, run, List.foldl_append]
    cases r with
    | get key =>
      refine ⟨start, hstart, ?_⟩
      rw [serve_concat, ← hrun]
      rfl
    | clear => exact ⟨_, .cleared init, rfl⟩

/-- The entries are what became of the keys asked for. -/
theorem Served.exists_entry_iff {start : Cache σ} {keys : List Key} (h : start.Served keys c)
    (key : Key) (f : CompiledFunction) :
    (∃ e ∈ c.entries, e.key.word = key.word ∧ e.result = .ok f) ↔
      (∃ k ∈ keys, k.word = key.word) ∧ (c.get backend key).1 = .ok f := by
  have hseen : (∃ k ∈ keys, k.word = key.word) ↔ ∃ e ∈ c.entries, e.key.word = key.word := by
    have := h.words key.word
    rwa [List.mem_map, List.mem_map, iff_comm] at this
  have hfound (e) (he : e ∈ c.entries) (hword : e.key.word = key.word) :
      c.find? key.word = some e.result := by
    rw [find?, Option.map_eq_some_iff]
    cases hfind : c.entries.find? (·.key.word == key.word) with
    | none => exact absurd (beq_iff_eq.mpr hword) (List.find?_eq_none.mp hfind e he)
    | some e' =>
      have hsame : e'.key.word = e.key.word :=
        (eq_of_beq (List.find?_some hfind :)).trans hword.symm
      rw [List.inj_on_of_nodup_map h.nodup (List.mem_of_find?_eq_some hfind) he hsame]
      exact ⟨e, rfl, rfl⟩
  rw [hseen]
  constructor
  · rintro ⟨e, he, hword, hresult⟩
    refine ⟨⟨e, he, hword⟩, ?_⟩
    rw [get_hit (hfound e he hword), hresult]
    rfl
  · rintro ⟨⟨e, he, hword⟩, hget⟩
    refine ⟨e, he, hword, ?_⟩
    rw [get_hit (hfound e he hword)] at hget
    cases hresult : e.result with
    | ok g =>
      rw [hresult] at hget
      cases hget
      rfl
    | error reason =>
      rw [hresult] at hget
      cases hget

/-! ## Functions of a cache -/

/-- What a request adds was compiled by the backend. -/
theorem mem_functions_get (hb : backend.Careful) {key : Key} {f : CompiledFunction}
    (h : f ∈ (c.get backend key).2.functions) :
    f ∈ c.functions ∨ ∃ t t', backend key t = .ok f t' := by
  cases hfind : c.find? key.word with
  | some result =>
    rw [get_hit hfind] at h
    exact .inl h
  | none =>
    by_cases hfull : c.buffer.remaining < c.minFree
    · rw [get_full hfind hfull, functions, recordError, record, List.filterMap_append] at h
      exact .inl ((List.mem_append.mp h).resolve_right List.not_mem_nil)
    · obtain ⟨result, c', hget, hmissed, hcompiled⟩ := get_compiles hb hfind hfull
      rw [hget, functions, hmissed.entries, List.filterMap_append] at h
      rcases List.mem_append.mp h with h | h
      · exact .inl h
      · cases result with
        | error e => cases h
        | ok g =>
          obtain ⟨t', hok, -⟩ := hcompiled g rfl
          cases List.mem_singleton.mp h
          exact .inr ⟨_, t', hok⟩

theorem mem_functions_serve (hb : backend.Careful) {keys : List Key} {f : CompiledFunction}
    (h : f ∈ (c.serve backend keys).functions) :
    f ∈ c.functions ∨ ∃ key t t', backend key t = .ok f t' := by
  induction keys using List.reverseRecOn with
  | nil => exact .inl h
  | append_singleton init key ih =>
    rw [serve_concat] at h
    rcases mem_functions_get hb h with h | h
    · exact ih h
    · exact .inr ⟨key, h⟩

/-- Functions lie apart, so that at a distance there is the code of one entry at
most. -/
theorem LaidOut.covers_unique (h : c.LaidOut) {e e' : CacheEntry} {f f' : CompiledFunction}
    {distance : Int} (he : e ∈ c.entries) (he' : e' ∈ c.entries) (hcovers : e.Covers f distance)
    (hcovers' : e'.Covers f' distance) : e' = e := by
  have hapart : c.entries.Pairwise CacheEntry.Apart := by
    refine (List.pairwise_filterMap.mp h.chained.pairwise).imp fun hab g g' hg hg' => .inl ?_
    exact hab g (by rw [hg]; rfl) g' (by rw [hg']; rfl)
  by_contra hne
  have hdisjoint := hapart.forall he he' (Ne.symm hne) f f' hcovers.result hcovers'.result
  have := hcovers.start
  have := hcovers.stop
  have := hcovers'.start
  have := hcovers'.stop
  omega

/-! ## Descriptions -/

theorem describeEntry_of_covers {e : CacheEntry} {f : CompiledFunction} {distance : Int}
    (hcovers : e.Covers f distance) (hf : f.Marked) :
    ∃ before m after, f.markers = before ++ m :: after ∧ (m.offset : Int) ≤ distance ∧
      (∀ m' ∈ after, distance < m'.offset) ∧
      describeEntry distance.toNat e = some (e.key.describe ++ ": " ++ Named.spelling m.stage) := by
  have hstart := hcovers.start
  have hstop := hcovers.stop
  have hfrom : f.start ≤ distance.toNat := by omega
  have hto : distance.toNat < f.stop := by omega
  obtain ⟨before, m, after, hsplit, hm, hafter, hstage⟩ := hf.stageAt?_eq hfrom hto
  refine ⟨before, m, after, hsplit, by omega, fun m' hm' => ?_, ?_⟩
  · have := hafter m' hm'
    omega
  · rw [describeEntry, hcovers.result]
    dsimp only
    rw [hstage]
    rfl

theorem covers_of_describeEntry {e : CacheEntry} {offset : Nat} {text : String}
    (h : describeEntry offset e = some text) : ∃ f, e.Covers f offset := by
  unfold describeEntry at h
  split at h
  · rename_i f hresult
    obtain ⟨stage, hstage, -⟩ := Option.map_eq_some_iff.mp h
    obtain ⟨hstart, hstop⟩ := CompiledFunction.inside_of_stageAt? hstage
    exact ⟨f, hresult, Int.ofNat_le.mpr hstart, Int.ofNat_lt.mpr hstop⟩
  · cases h

/-- Where no two elements have different answers, the first answer is every answer. -/
theorem findSome?_eq_some {α β : Type} {g : α → Option β} {l : List α} {a : α} {b : β} (ha : a ∈ l)
    (hb : g a = some b) (hunique : ∀ a' ∈ l, ∀ b', g a' = some b' → b' = b) :
    l.findSome? g = some b := by
  cases hfind : l.findSome? g with
  | none =>
    rw [List.findSome?_eq_none_iff.mp hfind a ha] at hb
    cases hb
  | some b' =>
    obtain ⟨a', ha', hb'⟩ := List.exists_of_findSome?_eq_some hfind
    rw [hunique a' ha' b' hb']

/-- The entries in any order, at a distance where one of them has code. -/
theorem LaidOut.describe?_of_covers (h : c.LaidOut) {entries : List CacheEntry}
    (hperm : entries.Perm c.entries) {e : CacheEntry} {f : CompiledFunction} {distance : Int}
    {text : String} (he : e ∈ c.entries) (hcovers : e.Covers f distance)
    (htext : describeEntry distance.toNat e = some text) :
    { c with entries := entries }.describe? distance = some text := by
  have hf : f ∈ c.functions := List.mem_filterMap.mpr ⟨e, he, by rw [hcovers.result]; rfl⟩
  obtain ⟨-, -, -, hend⟩ := h.chained.bounds.2 f hf
  have hstart := hcovers.start
  have hstop := hcovers.stop
  have hdistance : (distance.toNat : Int) = distance := by omega
  have hpublished : 0 ≤ distance ∧ distance < c.codeSize := by
    rw [h.published]
    omega
  rw [describe?, if_pos hpublished]
  refine findSome?_eq_some (hperm.mem_iff.mpr he) htext fun e' he' text' htext' => ?_
  obtain ⟨f', hcovers'⟩ := covers_of_describeEntry htext'
  rw [hdistance] at hcovers'
  rw [h.covers_unique he (hperm.mem_iff.mp he') hcovers hcovers', htext] at htext'
  exact (Option.some.inj htext').symm

/-- The entries in any order, at a distance where none of them has code. -/
theorem describe?_of_not_covers {entries : List CacheEntry} (hperm : entries.Perm c.entries)
    {distance : Int} (hnone : ∀ e ∈ c.entries, ∀ f, ¬e.Covers f distance) :
    { c with entries := entries }.describe? distance = none := by
  rw [describe?]
  split
  · rename_i hpublished
    have hdistance : (distance.toNat : Int) = distance := by omega
    refine List.findSome?_eq_none_iff.mpr fun e he => ?_
    cases htext : describeEntry distance.toNat e with
    | none => rfl
    | some text =>
      obtain ⟨f, hcovers⟩ := covers_of_describeEntry htext
      rw [hdistance] at hcovers
      exact absurd hcovers (hnone e (hperm.mem_iff.mp he) f)
  · rfl

/-- Whatever was asked for and cleared before, the entries are what became of the keys
that were asked for since the last clear.  A distance from the start of the buffer has
no description just if it is in the code of none of them; else it is in the code of
exactly one, and is described by the key of that entry and the stage whose code is
there, in whatever order the entries are gone through. -/
theorem describes_exactly (addresses : DataAddresses) (base : BitVec 64) (config : CacheConfig)
    (rs : List Request) (distance : Int) :
    let backend := Backend.generator addresses base
    let c := (empty config ()).run backend rs
    (∀ key f, (∃ e ∈ c.entries, e.key.word = key.word ∧ e.result = .ok f) ↔
      (∃ k ∈ asked rs, k.word = key.word) ∧ (c.get backend key).1 = .ok f) ∧
    (c.describe? distance = none ↔ ∀ e ∈ c.entries, ∀ f, ¬e.Covers f distance) ∧
    (∀ e ∈ c.entries, ∀ f, e.Covers f distance →
      (∀ e' ∈ c.entries, ∀ f', e'.Covers f' distance → e' = e) ∧
      ∃ before m after, f.markers = before ++ m :: after ∧ (m.offset : Int) ≤ distance ∧
        (∀ m' ∈ after, distance < m'.offset) ∧
        c.describe? distance = some (e.key.describe ++ ": " ++ Named.spelling m.stage)) ∧
    ∀ entries, entries.Perm c.entries →
      { c with entries := entries }.describe? distance = c.describe? distance := by
  intro backend c
  have hb : backend.Careful := Backend.careful_generator addresses base
  obtain ⟨start, hstart, hrun⟩ := exists_start backend config () rs
  have hc : c = start.serve backend (asked rs) := hrun
  have hserved : start.Served (asked rs) c := by
    rw [hc]
    exact serve_served hb hstart.idle (asked rs)
  have hlaid : c.LaidOut := by
    rw [hc]
    exact (serve_laidOut (Backend.appending_generator addresses base) hstart.idle.laidOut _).1
  have hmarked (f) (hf : f ∈ c.functions) : f.Marked := by
    rw [hc] at hf
    rcases mem_functions_serve hb hf with hf | ⟨key, t, t', hok⟩
    · rw [functions, hstart.idle.entries] at hf
      cases hf
    · unfold backend Backend.generator at hok
      split at hok
      · rename_i hok'
        cases hok
        exact Compile.marked_of_ok hok'
      · cases hok
  have hdescribed {e f} (he : e ∈ c.entries) (hcovers : CacheEntry.Covers e f distance) :=
    describeEntry_of_covers hcovers
      (hmarked f (List.mem_filterMap.mpr ⟨e, he, by rw [hcovers.result]; rfl⟩))
  refine ⟨hserved.exists_entry_iff, ⟨fun hnone e he f hcovers => ?_, describe?_of_not_covers (.refl _)⟩,
    fun e he f hcovers => ⟨fun e' he' f' hcovers' => hlaid.covers_unique he he' hcovers hcovers', ?_⟩,
    fun entries hperm => ?_⟩
  · obtain ⟨-, m, -, -, -, -, htext⟩ := hdescribed he hcovers
    have hsome := hlaid.describe?_of_covers (.refl _) he hcovers htext
    rw [hnone] at hsome
    cases hsome
  · obtain ⟨before, m, after, hsplit, hm, hafter, htext⟩ := hdescribed he hcovers
    exact ⟨before, m, after, hsplit, hm, hafter, hlaid.describe?_of_covers (.refl _) he hcovers htext⟩
  · by_cases hsome : ∃ e ∈ c.entries, ∃ f, e.Covers f distance
    · obtain ⟨e, he, f, hcovers⟩ := hsome
      obtain ⟨-, m, -, -, -, -, htext⟩ := hdescribed he hcovers
      exact (hlaid.describe?_of_covers hperm he hcovers htext).trans
        (hlaid.describe?_of_covers (.refl _) he hcovers htext).symm
    · have hnone : ∀ e ∈ c.entries, ∀ f, ¬e.Covers f distance :=
        fun e he f hcovers => hsome ⟨e, he, f, hcovers⟩
      exact (describe?_of_not_covers hperm hnone).trans
        (describe?_of_not_covers (.refl _) hnone).symm

end Cache

end PixelPipeline
