/-
# Proofs.Attribution — every byte of a function belongs to a stage

A function comes to its stages while it is put down, some of them more than once and out
of the order of the pipeline, and some without a byte of their own.  Its markers are what
is left of that when each stage is noted as it comes (`markersOf_concat`): a stage that
has no code yet gives way to the next.  What follows a byte is noted behind it, so the
last marker in front of a byte is the stage that its code came to last (`stage_of_byte`),
and the markers part the function: each has the bytes up to the next, the last one the
return.
-/
import Mathlib.Data.List.Induction
import PixelPipeline.Proofs.Markers

namespace PixelPipeline

open X86

/-! ## The bytes of a marker -/

namespace CompiledFunction

variable {f : CompiledFunction}

/-- Where the bytes of a marker end: at the one behind it, or with the function. -/
def reach (f : CompiledFunction) (behind : List StageMarker) : Nat :=
  (behind.head?.map (·.offset)).getD f.stop

/-- The markers of a function part it: they go up from the start to the return, every offset
inside has a stage and no other has, and what is between a marker and the next one is of the
stage of the marker, a byte at least. -/
structure Parted (f : CompiledFunction) : Prop extends f.Marked where
  nonempty : f.markers ≠ []
  last : f.markers.getLast? = some ⟨f.stop - 1, .exit⟩
  covers : ∀ offset, (f.stageAt? offset).isSome = true ↔ f.start ≤ offset ∧ offset < f.stop
  owns : ∀ before m behind, f.markers = before ++ m :: behind →
    m.offset < f.reach behind ∧ f.reach behind ≤ f.stop ∧
      ∀ offset, m.offset ≤ offset → offset < f.reach behind → f.stageAt? offset = some m.stage

/-- Offsets in a function have a stage, and others have none. -/
theorem Marked.isSome_stageAt? (h : f.Marked) (offset : Nat) :
    (f.stageAt? offset).isSome = true ↔ f.start ≤ offset ∧ offset < f.stop := by
  constructor
  · intro hsome
    obtain ⟨s, hs⟩ := Option.isSome_iff_exists.mp hsome
    exact inside_of_stageAt? hs
  · rintro ⟨hstart, hstop⟩
    obtain ⟨-, m, -, -, -, -, hstage⟩ := h.stageAt?_eq hstart hstop
    rw [hstage]
    rfl

/-- A marker reaches no further than to any of those behind it. -/
theorem reach_le {behind : List StageMarker}
    (h : behind.Pairwise fun m m' => m.offset < m'.offset) {m : StageMarker} (hm : m ∈ behind) :
    f.reach behind ≤ m.offset := by
  cases behind with
  | nil => cases hm
  | cons d ds =>
    rcases List.mem_cons.mp hm with rfl | hm
    · exact Nat.le_refl _
    · exact Nat.le_of_lt ((List.pairwise_cons.mp h).1 m hm)

theorem Marked.start_le (h : f.Marked) {m : StageMarker} (hm : m ∈ f.markers) :
    f.start ≤ m.offset := by
  have hreach : f.reach f.markers = f.start := by
    rw [reach, h.first]
    rfl
  exact hreach ▸ reach_le h.increasing hm

/-- No marker is behind the last one. -/
theorem Marked.le_last (h : f.Marked) {last : StageMarker} (hlast : f.markers.getLast? = some last)
    {m : StageMarker} (hm : m ∈ f.markers) : m.offset ≤ last.offset := by
  obtain ⟨front, hfront⟩ := List.getLast?_eq_some_iff.mp hlast
  have hincreasing := h.increasing
  rw [hfront] at hm hincreasing
  rcases List.mem_append.mp hm with hm | hm
  · exact Nat.le_of_lt ((List.pairwise_append.mp hincreasing).2.2 m hm last List.mem_cons_self)
  · rw [List.mem_singleton.mp hm]

/-- A marker has a byte, and none behind the function. -/
theorem Marked.reach_bounds (h : f.Marked) (hinside : ∀ m ∈ f.markers, m.offset < f.stop)
    {before behind : List StageMarker} {m : StageMarker}
    (hsplit : f.markers = before ++ m :: behind) :
    m.offset < f.reach behind ∧ f.reach behind ≤ f.stop := by
  have hincreasing := h.increasing
  rw [hsplit] at hincreasing hinside
  cases behind with
  | nil => exact ⟨hinside m (List.mem_append_right _ List.mem_cons_self), Nat.le_refl _⟩
  | cons d ds =>
    have hd : d ∈ m :: d :: ds := List.mem_cons_of_mem _ List.mem_cons_self
    obtain ⟨hbehind, -⟩ := List.pairwise_cons.mp (List.pairwise_append.mp hincreasing).2.1
    exact ⟨hbehind d List.mem_cons_self,
      Nat.le_of_lt (hinside d (List.mem_append_right _ hd))⟩

/-- Up to its reach the offsets are of the stage of a marker. -/
theorem Marked.stageAt?_reach (h : f.Marked) {before behind : List StageMarker} {m : StageMarker}
    (hsplit : f.markers = before ++ m :: behind) (hreach : f.reach behind ≤ f.stop) {offset : Nat}
    (hle : m.offset ≤ offset) (hlt : offset < f.reach behind) :
    f.stageAt? offset = some m.stage := by
  have hincreasing := h.increasing
  rw [hsplit] at hincreasing
  obtain ⟨-, hsorted⟩ := List.pairwise_cons.mp (List.pairwise_append.mp hincreasing).2.1
  have hmem : m ∈ f.markers := hsplit ▸ List.mem_append_right _ List.mem_cons_self
  have hstart : f.start ≤ offset := Nat.le_trans (h.start_le hmem) hle
  exact h.stageAt?_between hstart (Nat.lt_of_lt_of_le hlt hreach) hsplit hle fun m' hm' =>
    Nat.lt_of_lt_of_le hlt (reach_le hsorted hm')

/-- Markers that end at the last byte part a function. -/
theorem Marked.parted (h : f.Marked) (hlast : f.markers.getLast? = some ⟨f.stop - 1, .exit⟩)
    (hstop : 0 < f.stop) : f.Parted := by
  have hinside (m) (hm : m ∈ f.markers) : m.offset < f.stop :=
    Nat.lt_of_le_of_lt (h.le_last hlast hm) (Nat.sub_lt hstop Nat.one_pos)
  refine ⟨h, fun hnil => ?_, hlast, h.isSome_stageAt?, fun before m behind hsplit => ?_⟩
  · rw [hnil] at hlast
    cases hlast
  · obtain ⟨hbyte, hreach⟩ := h.reach_bounds hinside hsplit
    exact ⟨hbyte, hreach, fun offset => h.stageAt?_reach hsplit hreach⟩

end CompiledFunction

namespace Compile

/-! ## Markers of marks -/

/-- A mark has a marker unless another mark stands at its place behind it. -/
theorem markersOf_cons_head (mark : Nat × Stage) (rest : List (Nat × Stage)) :
    markersOf (mark :: rest) =
      if rest.head?.any (·.1 == mark.1) then markersOf rest
      else ⟨mark.1, mark.2⟩ :: markersOf rest := by
  have hany : (markersOf rest).head?.any (·.offset == mark.1) = rest.head?.any (·.1 == mark.1) :=
    calc (markersOf rest).head?.any (·.offset == mark.1)
        = ((markersOf rest).head?.map (·.offset)).any (· == mark.1) := by rw [Option.any_map]
      _ = (rest.head?.map (·.1)).any (· == mark.1) := by rw [head?_markersOf]
      _ = rest.head?.any (·.1 == mark.1) := by rw [Option.any_map]
  rw [markersOf_cons, hany]

theorem markersOf_ne_nil (mark : Nat × Stage) (rest : List (Nat × Stage)) :
    markersOf (mark :: rest) ≠ [] := fun hnil => by
  have hhead := head?_markersOf (mark :: rest)
  rw [hnil] at hhead
  cases hhead

/-- Note a stage.  One that was noted at the same place has no code. -/
def noted (markers : List StageMarker) (mark : Nat × Stage) : List StageMarker :=
  if markers.getLast?.any (·.offset == mark.1) then markers.dropLast ++ [⟨mark.1, mark.2⟩]
  else markers ++ [⟨mark.1, mark.2⟩]

theorem noted_cons {markers : List StageMarker} (hne : markers ≠ []) (m : StageMarker)
    (mark : Nat × Stage) : noted (m :: markers) mark = m :: noted markers mark := by
  have hlast : (m :: markers).getLast? = markers.getLast? := by
    rw [List.getLast?_cons, List.getLast?_eq_some_getLast hne]
    rfl
  rw [noted, hlast, List.dropLast_cons_of_ne_nil hne, noted]
  split <;> rfl

/-- What comes last is noted last. -/
theorem markersOf_concat (marks : List (Nat × Stage)) (mark : Nat × Stage) :
    markersOf (marks ++ [mark]) = noted (markersOf marks) mark := by
  induction marks with
  | nil => rfl
  | cons first rest ih =>
    rw [List.cons_append, markersOf_cons_head, markersOf_cons_head first rest, ih]
    cases rest with
    | nil =>
      show (if mark.1 == first.1 then [StageMarker.mk mark.1 mark.2]
          else [StageMarker.mk first.1 first.2, StageMarker.mk mark.1 mark.2]) =
        if first.1 == mark.1 then [StageMarker.mk mark.1 mark.2]
          else [StageMarker.mk first.1 first.2, StageMarker.mk mark.1 mark.2]
      rw [BEq.comm]
    | cons second rest =>
      rw [List.cons_append, List.head?_cons, List.head?_cons]
      split
      · rfl
      · exact (noted_cons (markersOf_ne_nil second rest) _ mark).symm

/-- The markers are what is left when the stages are noted as they come. -/
theorem markersOf_eq_foldl (marks : List (Nat × Stage)) :
    markersOf marks = marks.foldl noted [] := by
  induction marks using List.reverseRecOn with
  | nil => rfl
  | append_singleton init mark ih =>
    rw [markersOf_concat, ih, List.foldl_append]
    rfl

/-- The last mark has the last marker. -/
theorem getLast?_markersOf (marks : List (Nat × Stage)) :
    (markersOf marks).getLast? = marks.getLast?.map fun mark => ⟨mark.1, mark.2⟩ := by
  induction marks using List.reverseRecOn with
  | nil => rfl
  | append_singleton init mark _ =>
    rw [markersOf_concat, noted, List.getLast?_concat]
    split <;> exact List.getLast?_concat

/-- Marks at different places have markers of their own. -/
theorem markersOf_append {marks marks' : List (Nat × Stage)}
    (h : ∀ m ∈ marks, ∀ m' ∈ marks', m'.1 ≠ m.1) :
    markersOf (marks ++ marks') = markersOf marks ++ markersOf marks' := by
  induction marks with
  | nil => rfl
  | cons first rest ih =>
    rw [List.cons_append, markersOf_cons_head, markersOf_cons_head first rest,
      ih fun m hm => h m (List.mem_cons_of_mem first hm)]
    cases rest with
    | nil =>
      have hfirst : marks'.head?.any (·.1 == first.1) = false := by
        rw [Option.any_eq_false]
        intro m hm
        exact beq_eq_false_iff_ne.mpr (h first List.mem_cons_self m (List.mem_of_head? hm))
      rw [List.nil_append, hfirst]
      rfl
    | cons second rest =>
      rw [List.cons_append, List.head?_cons, List.head?_cons]
      split <;> rfl

/-! ## The stage of a byte -/

/-- What happens while a function is put down at a position. -/
def chronicle (code : Code) (base : Address) (start : Nat) : List Event :=
  code.chronicle base (code.stop start) start ++ .mark .exit :: Instr.ret.bytes.map .byte

theorem written_chronicle (code : Code) (base : Address) (start : Nat) :
    Event.written (chronicle code base start) = functionBytes code base start := by
  rw [chronicle, Event.written_append, Code.written_chronicle]
  rfl

theorem marks_chronicle (code : Code) (base : Address) (start : Nat) :
    Event.marks start (chronicle code base start) = trace code start := by
  rw [chronicle, Event.marks_append, Code.marks_chronicle, Code.written_chronicle,
    Code.length_bytes, trace, withExit, Code.marks_append]
  rfl

/-- Of the markers in front of a byte, the last one names the stage that was come to last
before the byte was written. -/
theorem stage_of_byte (start : Nat) (before after : List Event) (v : Byte) :
    ((markersOf (Event.marks start (before ++ .byte v :: after))).takeWhile
        (·.offset ≤ start + (Event.written before).length)).getLast?.map (·.stage) =
      (Event.stages before).getLast? := by
  let o := start + (Event.written before).length
  have hbefore {m : Nat × Stage} (hm : m ∈ Event.marks start before) : m.1 ≤ o :=
    (Event.marks_bounds hm).2
  have hafter {m : Nat × Stage} (hm : m ∈ Event.marks (o + 1) after) : o < m.1 :=
    (Event.marks_bounds hm).1
  have hsplit : markersOf (Event.marks start (before ++ .byte v :: after)) =
      markersOf (Event.marks start before) ++ markersOf (Event.marks (o + 1) after) := by
    rw [Event.marks_append]
    exact markersOf_append fun m hm m' hm' => by
      have := hbefore hm
      have := hafter hm'
      omega
  have htake : (markersOf (Event.marks start before) ++
      markersOf (Event.marks (o + 1) after)).takeWhile (·.offset ≤ o) =
        markersOf (Event.marks start before) :=
    takeWhile_markers (fun m hm => hbefore (exists_mark_of_mem hm)) fun m hm =>
      hafter (exists_mark_of_mem hm)
  rw [hsplit, htake, getLast?_markersOf, Option.map_map, ← Event.map_marks start before,
    List.getLast?_map]
  rfl

/-! ## Functions -/

/-- The last stage is the return, which stands behind the code. -/
theorem getLast?_trace (code : Code) (start : Nat) :
    (trace code start).getLast? = some (code.stop start, .exit) := by
  rw [trace, withExit, Code.marks_append]
  exact List.getLast?_concat

/-- What is compiled is parted by its markers. -/
theorem parted_of_ok {features : Features} {addresses : DataAddresses} {base : Address}
    {b b' : CodeBuffer} {f : CompiledFunction} (h : function features addresses base b = .ok f b') :
    f.Parted := by
  obtain ⟨code, -, happ, hmarkers⟩ := traced_of_ok h
  refine (marked_of_ok h).parted ?_ (happ.stop ▸ Nat.succ_pos _)
  rw [hmarkers, getLast?_markersOf, getLast?_trace, happ.stop, Nat.add_sub_cancel]
  rfl

/-- The markers of a function that is compiled part it, and they are those of the stages as
its code comes to them, each noted in the place of one that has no code.  Every byte of the
function is of the stage that was come to last before the byte was written. -/
theorem bytes_belong_to_stages {features : Features} {addresses : DataAddresses} {base : Address}
    {b b' : CodeBuffer} {f : CompiledFunction} (h : function features addresses base b = .ok f b') :
    f.Parted ∧ ∃ code, body ⟨features, addresses⟩ = .ok code ∧
      let events := chronicle code base f.start
      f.markers = (Event.marks f.start events).foldl noted [] ∧
      f.start + (Event.written events).length = f.stop ∧
      ∀ before v behind, events = before ++ .byte v :: behind →
        let offset := f.start + (Event.written before).length
        b'.byteAt offset = v ∧
          ∃ s, (Event.stages before).getLast? = some s ∧ f.stageAt? offset = some s := by
  have hparted := parted_of_ok h
  obtain ⟨code, hcode, happ, hmarkers⟩ := traced_of_ok h
  have hlength : f.start + (Event.written (chronicle code base f.start)).length = f.stop := by
    rw [written_chronicle, length_functionBytes, happ.stop]
  refine ⟨hparted, code, hcode, ?_, hlength, fun before v behind hsplit => ?_⟩
  · rw [hmarkers, ← marks_chronicle code base, markersOf_eq_foldl]
  have hwritten : Event.written (chronicle code base f.start) =
      Event.written before ++ v :: Event.written behind := by
    rw [hsplit, Event.written_append]
    rfl
  constructor
  · refine happ.bytes _ v ?_
    rw [← written_chronicle, hwritten, List.getElem?_append_right (Nat.le_refl _), Nat.sub_self]
    rfl
  · have hinside : f.start ≤ f.start + (Event.written before).length ∧
        f.start + (Event.written before).length < f.stop := by
      rw [hwritten, List.length_append, List.length_cons] at hlength
      omega
    obtain ⟨s, hs⟩ := Option.isSome_iff_exists.mp ((hparted.covers _).mpr hinside)
    refine ⟨s, ?_, hs⟩
    rw [← stage_of_byte f.start before behind v, ← hsplit, marks_chronicle, ← hmarkers,
      ← CompiledFunction.stageAt?_inside hinside.1 hinside.2, hs]

/-- A pixel that fails the stencil test or the depth test has its stencil bits written by code
of the stage that writes them, twice among the tests.  Behind them comes the stencil test
again, but what passes keeps its bits, and so the depth write has the place. -/
theorem bytes_belong_to_stages_revisited :
    let features : Features := {
      format := .rgba8888, stencilFlag := true, stencilFunc := .equal, stencilRef := 3,
      stencilFail := .replace, depthFunc := .less, depthFail := .increment, depthFlag := true }
    ∃ f b', function features ⟨0x10000, 0x20000⟩ 0x40000000 (.ofSize 4096) = .ok f b' ∧
      f.markers = [⟨0, .clampColor⟩, ⟨5, .stencilTest⟩, ⟨47, .writeStencil⟩, ⟨56, .depthTest⟩,
        ⟨102, .writeStencil⟩, ⟨111, .writeDepth⟩, ⟨115, .writeColor⟩, ⟨134, .exit⟩] ∧
      ∀ offset, 102 ≤ offset → offset < 111 → f.stageAt? offset = some .writeStencil := by
  intro features
  have hroom : maxFunctionSize ≤ (CodeBuffer.ofSize 4096).remaining := by decide
  obtain ⟨_, f, b', -, hok, happ, -⟩ := function_ok features ⟨0x10000, 0x20000⟩ 0x40000000 hroom
  have hnoted :
      (body ⟨features, ⟨0x10000, 0x20000⟩⟩).toOption.map (fun code =>
          (Event.marks 0 (chronicle code 0x40000000 0)).foldl noted []) =
        some [⟨0, .clampColor⟩, ⟨5, .stencilTest⟩, ⟨47, .writeStencil⟩, ⟨56, .depthTest⟩,
          ⟨102, .writeStencil⟩, ⟨111, .writeDepth⟩, ⟨115, .writeColor⟩, ⟨134, .exit⟩] := by
    decide +kernel
  obtain ⟨hparted, code, hcode, hmarkers, -⟩ := bytes_belong_to_stages hok
  have hstart : f.start = 0 := happ.start
  rw [hcode] at hnoted
  rw [hstart] at hmarkers
  have hlisted := hmarkers.trans (Option.some.inj hnoted)
  refine ⟨f, b', hok, hlisted, fun offset hle hlt => ?_⟩
  exact (hparted.owns [_, _, _, _] _ [_, _, _] hlisted).2.2 offset hle hlt

end Compile

end PixelPipeline
