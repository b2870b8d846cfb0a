/-
# Proofs.Markers — where the stages of a function start

Code is marked in the order in which it lies (`Code.marks_sorted`), and of the marks at
one place the last one counts.  So the markers of a function go up strictly
(`CompiledFunction.Marked`), the first of them stands at the start, and an offset
inside has exactly one stage: that of the last marker that is not behind it.
-/
import PixelPipeline.Proofs.Chronicle
import PixelPipeline.Proofs.Placement

namespace PixelPipeline

open X86

/-! ## Markers of functions -/

/-- The markers of a function go up, and begin where it does. -/
structure CompiledFunction.Marked (f : CompiledFunction) : Prop where
  increasing : f.markers.Pairwise fun m m' => m.offset < m'.offset
  first : f.markers.head?.map (·.offset) = some f.start

/-- The markers that are not behind an offset are in front of those that are. -/
theorem takeWhile_markers {before after : List StageMarker} {offset : Nat}
    (hbefore : ∀ m ∈ before, m.offset ≤ offset) (hafter : ∀ m ∈ after, offset < m.offset) :
    (before ++ after).takeWhile (·.offset ≤ offset) = before := by
  rw [List.takeWhile_append_of_pos fun m hm => decide_eq_true (hbefore m hm)]
  cases after with
  | nil => exact List.append_nil _
  | cons m ms =>
    have hm : ¬m.offset ≤ offset := Nat.not_le_of_lt (hafter m List.mem_cons_self)
    rw [List.takeWhile_cons, if_neg fun hle => hm (of_decide_eq_true hle), List.append_nil]

/-- Of markers that go up, the last one that is not behind an offset. -/
theorem exists_last_marker {markers : List StageMarker} {offset : Nat}
    (h : markers.Pairwise fun m m' => m.offset < m'.offset) {m₀ : StageMarker} (hmem : m₀ ∈ markers)
    (hm₀ : m₀.offset ≤ offset) :
    ∃ before m after, markers = before ++ m :: after ∧ m.offset ≤ offset ∧
      ∀ m' ∈ after, offset < m'.offset := by
  induction markers generalizing m₀ with
  | nil => cases hmem
  | cons d ds ih =>
    obtain ⟨hd, hsorted⟩ := List.pairwise_cons.mp h
    by_cases hmore : ∃ m ∈ ds, m.offset ≤ offset
    · obtain ⟨m₁, hm₁, hle₁⟩ := hmore
      obtain ⟨before, m, after, rfl, hm, hafter⟩ := ih hsorted hm₁ hle₁
      exact ⟨d :: before, m, after, rfl, hm, hafter⟩
    · have hafter (m) (hm : m ∈ ds) : offset < m.offset :=
        Nat.lt_of_not_le fun hle => hmore ⟨m, hm, hle⟩
      rcases List.mem_cons.mp hmem with rfl | hmem
      · exact ⟨[], m₀, ds, rfl, hm₀, hafter⟩
      · exact absurd hm₀ (Nat.not_le_of_lt (hafter m₀ hmem))

namespace CompiledFunction

variable {f : CompiledFunction} {offset : Nat}

/-- Inside, the stage of an offset is that of the last marker that is not behind it. -/
theorem stageAt?_inside (hstart : f.start ≤ offset) (hstop : offset < f.stop) :
    f.stageAt? offset = (f.markers.takeWhile (·.offset ≤ offset)).getLast?.map (·.stage) :=
  if_pos (decide_eq_true ⟨hstart, hstop⟩)

/-- What has a stage is inside. -/
theorem inside_of_stageAt? {s : Stage} (h : f.stageAt? offset = some s) :
    f.start ≤ offset ∧ offset < f.stop := by
  by_cases hin : f.contains offset = true
  · exact of_decide_eq_true hin
  · rw [stageAt?, if_neg hin] at h
    cases h

/-- Between a marker and the next one, offsets are of its stage. -/
theorem Marked.stageAt?_between (h : f.Marked) (hstart : f.start ≤ offset) (hstop : offset < f.stop)
    {before after : List StageMarker} {m : StageMarker} (hsplit : f.markers = before ++ m :: after)
    (hm : m.offset ≤ offset) (hafter : ∀ m' ∈ after, offset < m'.offset) :
    f.stageAt? offset = some m.stage := by
  have hincreasing := h.increasing
  rw [hsplit] at hincreasing
  have hbefore (m') (hm' : m' ∈ before ++ [m]) : m'.offset ≤ offset := by
    rcases List.mem_append.mp hm' with hm' | hm'
    · have hlt := (List.pairwise_append.mp hincreasing).2.2 m' hm' m List.mem_cons_self
      exact Nat.le_trans (Nat.le_of_lt hlt) hm
    · exact List.mem_singleton.mp hm' ▸ hm
  rw [stageAt?_inside hstart hstop, hsplit, List.append_cons, takeWhile_markers hbefore hafter,
    List.getLast?_concat]
  rfl

/-- An offset in a function belongs to a stage: that of the last marker that is not
behind it. -/
theorem Marked.stageAt?_eq (h : f.Marked) (hstart : f.start ≤ offset) (hstop : offset < f.stop) :
    ∃ before m after, f.markers = before ++ m :: after ∧ m.offset ≤ offset ∧
      (∀ m' ∈ after, offset < m'.offset) ∧ f.stageAt? offset = some m.stage := by
  obtain ⟨m₀, hhead, hoffset⟩ := Option.map_eq_some_iff.mp h.first
  obtain ⟨before, m, after, hsplit, hm, hafter⟩ :=
    exists_last_marker h.increasing (List.mem_of_head? hhead) (hoffset ▸ hstart)
  exact ⟨before, m, after, hsplit, hm, hafter,
    h.stageAt?_between hstart hstop hsplit hm hafter⟩

end CompiledFunction

namespace Compile

theorem markersOf_cons (offset : Nat) (s : Stage) (rest : List (Nat × Stage)) :
    markersOf ((offset, s) :: rest) =
      if (markersOf rest).head?.any (·.offset == offset) then markersOf rest
      else ⟨offset, s⟩ :: markersOf rest := by
  unfold markersOf
  rw [List.foldr_cons]
  generalize List.foldr _ [] rest = markers
  cases markers with
  | nil => rfl
  | cons m _ => simp only [List.head?_cons, Option.any_some, beq_iff_eq]

/-- The first marker stands at the first mark. -/
theorem head?_markersOf (marks : List (Nat × Stage)) :
    (markersOf marks).head?.map (·.offset) = marks.head?.map (·.1) := by
  cases marks with
  | nil => rfl
  | cons mark rest =>
    rw [markersOf_cons]
    split
    · rename_i h
      obtain ⟨m, hm, he⟩ := Option.any_eq_true .. |>.mp h
      rw [hm, Option.map_some, eq_of_beq he]
      rfl
    · rfl

/-- There are no markers but at marks. -/
theorem exists_mark_of_mem {marks : List (Nat × Stage)} {m : StageMarker} (h : m ∈ markersOf marks) :
    (m.offset, m.stage) ∈ marks := by
  induction marks with
  | nil => cases h
  | cons mark rest ih =>
    rw [markersOf_cons] at h
    split at h
    · exact List.mem_cons_of_mem _ (ih h)
    · rcases List.mem_cons.mp h with rfl | h
      · exact List.mem_cons_self
      · exact List.mem_cons_of_mem _ (ih h)

/-- Of marks that are in order, one is kept for each place. -/
theorem markersOf_increasing {marks : List (Nat × Stage)}
    (h : marks.Pairwise fun m m' => m.1 ≤ m'.1) :
    (markersOf marks).Pairwise fun m m' => m.offset < m'.offset := by
  induction marks with
  | nil => exact .nil
  | cons mark rest ih =>
    obtain ⟨hfirst, hrest⟩ := List.pairwise_cons.mp h
    rw [markersOf_cons]
    split
    · exact ih hrest
    · rename_i hnew
      refine .cons (fun m hm => ?_) (ih hrest)
      -- the first of the other markers is not at this mark, and the others are behind it
      cases hmarkers : markersOf rest with
      | nil =>
        rw [hmarkers] at hm
        cases hm
      | cons d ds =>
        have hsorted := ih hrest
        rw [hmarkers] at hnew hm hsorted
        have hle : mark.1 ≤ d.offset :=
          hfirst _ (exists_mark_of_mem (hmarkers ▸ List.mem_cons_self (a := d)))
        have hne : d.offset ≠ mark.1 := by
          simpa only [List.head?_cons, Option.any_some, beq_iff_eq] using hnew
        have hd : mark.1 < d.offset := by omega
        rcases List.mem_cons.mp hm with rfl | hm
        · exact hd
        · exact Nat.lt_trans hd ((List.pairwise_cons.mp hsorted).1 m hm)

/-- Code begins with a mark. -/
theorem exists_mark_of_body {env : Env} {code : Code} (h : body env = .ok code) :
    ∃ rest, code = .mark .init rest := by
  obtain ⟨r, hstages, rfl⟩ := map_ok h
  obtain ⟨r₁, r₂, hmark, -, rfl⟩ := Emit.bind_ok hstages
  cases hmark
  exact ⟨r₂.code, rfl⟩

/-- A function that is compiled has the markers of its code. -/
theorem traced_of_ok {features : Features} {addresses : DataAddresses} {base : Address}
    {b b' : CodeBuffer} {f : CompiledFunction} (h : function features addresses base b = .ok f b') :
    ∃ code, body ⟨features, addresses⟩ = .ok code ∧ Appended code base b b' f ∧
      f.markers = markersOf (trace code f.start) := by
  obtain ⟨code, hcode, happ, -⟩ := appended_of_ok h
  exact ⟨code, hcode, happ, happ.markers⟩

/-- What is compiled is marked. -/
theorem marked_of_ok {features : Features} {addresses : DataAddresses} {base : Address}
    {b b' : CodeBuffer} {f : CompiledFunction} (h : function features addresses base b = .ok f b') :
    f.Marked := by
  obtain ⟨code, hcode, -, hmarkers⟩ := traced_of_ok h
  obtain ⟨rest, rfl⟩ := exists_mark_of_body hcode
  constructor
  · rw [hmarkers]
    exact markersOf_increasing (Code.marks_sorted _ _)
  · rw [hmarkers]
    exact head?_markersOf _

end Compile

end PixelPipeline
