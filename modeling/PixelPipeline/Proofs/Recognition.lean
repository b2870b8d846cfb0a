/-
# Proofs.Recognition — a function tells its program

A reader of the bytes of a function finds its lines up to the one that reading stops at,
and two functions of the same bytes have these lines in common.  So they show the same
rows, which are those of their programs, and have been to the same addresses by the same
ways: pipelines with byte-identical functions have the same program
(`Compile.program_of_bytes`).  Wherever the buffers lie, and whatever the state that the
functions were compiled for, makes no difference.
-/
import PixelPipeline.Proofs.Endings
import PixelPipeline.Proofs.NormalForm
import PixelPipeline.Proofs.Placement

namespace PixelPipeline

open X86 Compile

/-! ## The steps of a pipeline -/

namespace Features

variable (f : Features)

theorem alphaSteps_plain : ∀ s ∈ f.alphaSteps, s.plain = true := by
  unfold alphaSteps
  split
  · exact List.forall_mem_singleton.mpr rfl
  · exact forall_checkSteps (fun _ => rfl) fun _ hs => absurd hs List.not_mem_nil

theorem forall_depthSteps {P : Step → Prop} (hP : Step.Tested P) : ∀ s ∈ f.depthSteps, P s := by
  unfold depthSteps
  split
  · exact List.forall_mem_singleton.mpr hP.leave
  · exact forall_checkSteps hP.depth fun _ hs => absurd hs List.not_mem_nil

/-- Behind the step that loads the stencil value, if there is one, there are tests. -/
theorem storedSteps_eq : ∃ ss, (∀ {P : Step → Prop}, Step.Tested P → ∀ s ∈ ss, P s) ∧
    f.storedSteps = (if f.loadsStencil then [.loadStencil f.format] else []) ++ ss := by
  unfold storedSteps
  split
  · refine ⟨_, fun hP => ?_, rfl⟩
    refine List.forall_mem_append.mpr ⟨List.forall_mem_append.mpr ⟨?_, ?_⟩, ?_⟩
    · exact f.forall_updatingSteps hP _ (fun func => hP.stencil func _ _) _
    · exact f.forall_updatingSteps hP _ hP.depth _
    · exact List.forall_mem_map.mpr fun u _ => hP.update u
  · refine ⟨_, fun hP => List.forall_mem_append.mpr ⟨?_, f.forall_depthSteps hP⟩, rfl⟩
    split
    · exact List.forall_mem_singleton.mpr hP.leave
    · exact fun _ hs => absurd hs List.not_mem_nil

/-- The depth is stored by a pipeline that writes it. -/
theorem storeDepth_mem_steps : .storeDepth ∈ f.steps ↔ f.depthWrite = true := by
  obtain ⟨ss, hss, hstored⟩ := f.storedSteps_eq
  have halpha : Step.storeDepth ∉ f.alphaSteps := fun h =>
    Bool.false_ne_true (f.alphaSteps_plain _ h)
  have htests : Step.storeDepth ∉ ss := fun h => Bool.false_ne_true (hss Step.tested_plain _ h)
  simp [steps, hstored, halpha, htests]

theorem mix_proper : f.mix.proper = true := by
  unfold mix
  split
  · rename_i h
    split
    · rfl
    · rename_i hn
      simp only [Mix.proper, h, Bool.true_and, Bool.not_eq_true', Bool.and_eq_false_iff,
        beq_eq_false_iff_ne]
      exact not_and_or.mp hn
  · rename_i h
    rw [Mix.proper, Bool.eq_false_iff.mpr h]
    rfl

theorem steps_proper : ∀ s ∈ f.steps, s.proper = true := by
  obtain ⟨ss, hss, hstored⟩ := f.storedSteps_eq
  have hplain {s : Step} (h : s.plain = true) : s.proper = true := by
    cases s <;> first | rfl | cases h
  intro s hs
  simp only [steps, hstored, List.mem_append, List.mem_ite_nil_right, List.mem_singleton] at hs
  rcases hs with ((((hs | ⟨-, rfl⟩ | h) | ⟨-, rfl⟩) | ⟨-, rfl⟩) | ⟨-, rfl⟩)
  · rcases hs with ((⟨-, rfl⟩ | h) | ⟨-, rfl⟩) | ⟨-, rfl⟩
    · rfl
    · exact hplain (f.alphaSteps_plain s h)
    · rfl
    · rfl
  · rfl
  · exact hplain (hss Step.tested_plain s h)
  · rfl
  · exact f.mix_proper
  · rfl

/-- A step that may be missing loads no stencil value. -/
theorem loadedBy_ite {s : Step} (hs : ∀ format, s ≠ .loadStencil format) (b : Bool)
    (loaded : Option PixelFormat) : loadedBy loaded (if b then [s] else []) = loaded := by
  cases b with
  | false => rfl
  | true => cases s <;> first | rfl | exact absurd rfl (hs _)

theorem loadedBy_steps : loadedBy none f.steps = loadedBy none f.storedSteps := by
  simp only [steps, loadedBy_append, loadedBy_of_plain f.alphaSteps_plain, loadedBy_ite, ne_eq,
    reduceCtorEq, not_false_eq_true, implies_true]

/-- A stencil value has been loaded at last if the tests load one. -/
theorem isSome_loadedBy_steps : (loadedBy none f.steps).isSome = f.loadsStencil := by
  obtain ⟨ss, hss, hstored⟩ := f.storedSteps_eq
  rw [loadedBy_steps, hstored, loadedBy_append, loadedBy_of_plain (hss Step.tested_plain)]
  cases f.loadsStencil <;> rfl

/-- The rows of a pipeline, stage by stage. -/
theorem sketches_steps : sketches none f.finish f.steps =
    rows none (if f.depthRange then [.checkRange] else []) ++ (rows none f.alphaSteps ++
      (rows none (if f.fog then [.fog] else []) ++
        (rows none (if f.colorTest then [.checkColor] else []) ++ (rows none f.storedSteps ++
          (rows (loadedBy none f.storedSteps) (if f.depthWrite then [.storeDepth] else []) ++
            (rows (loadedBy none f.storedSteps) (if f.blend then [.blend f.format f.mix] else []) ++
              (rows (loadedBy none f.storedSteps) (if f.dither then [.dither] else []) ++
                f.finish.sketch f.loadsStencil))))))) := by
  rw [sketches, isSome_loadedBy_steps]
  simp only [steps, rows_append, loadedBy_of_plain f.alphaSteps_plain, loadedBy_ite, ne_eq,
    reduceCtorEq, not_false_eq_true, implies_true, List.append_assoc]

/-- A clear is under no raster operation. -/
theorem finish_proper (h : f.clearMode = true → f.rasterOp = false) :
    f.finish.proper (loadedBy none f.steps).isSome = true := by
  rw [isSome_loadedBy_steps, finish]
  split
  · cases halpha : f.writesAlpha with
    | false => rfl
    | true =>
      simp only [writesAlpha, stencilClear, Bool.and_eq_true] at halpha
      obtain ⟨⟨⟨hclear, -⟩, hstencil⟩, hmask⟩ := halpha
      simpa [Finish.proper, loadsStencil, stencilTest, hclear, h hclear, hstencil] using hmask
  · split <;> rfl

end Features

/-! ## The function as a whole -/

/-- The stages show the steps, and the last of them the last step. -/
theorem Emit.stages (env : Env) :
    (Compile.stages env (.ofFeatures env.features)).Closes env.features ⟨none, none, none, none⟩
    ⟨none, none, none, ⟨true, false, .settled, .settled⟩⟩
    (sketches none env.features.finish env.features.steps) env.features.asks := by
  have hrest : Emit.Closes env.features ⟨none, none, none, none⟩
      ⟨none, none, none, ⟨true, false, .settled, .settled⟩⟩ (do
        Compile.depthRange env
        Compile.enterColor
        Compile.alphaTest env
        Compile.fog env
        Compile.colorTest env
        Compile.storedTests env
        Compile.writeDepth env
        Compile.blendBy env (.ofFeatures env.features)
        Compile.dither env
        Compile.writeColor env)
      (sketches none env.features.finish env.features.steps) env.features.asks := by
    rw [Features.sketches_steps]
    refine (Shows.depthRange env).tells.closes fun _ _ _ h => ?_
    obtain ⟨rfl, rfl⟩ := h
    refine Tells.enterColor.closes fun _ _ _ h => ?_
    obtain ⟨c, rfl, rfl⟩ := h
    refine (Shows.alphaTest env).tells.closes fun _ _ _ h => ?_
    obtain ⟨rfl, rfl⟩ := h
    refine (Shows.fog env).tells.closes fun _ _ _ h => ?_
    obtain ⟨rfl, rfl⟩ := h
    refine (Shows.colorTest env).tells.closes fun _ _ _ h => ?_
    obtain ⟨rfl, rfl⟩ := h
    refine (Tells.storedTests env).closes fun _ _ _ h => ?_
    obtain ⟨stencil, hloaded, rfl, rfl⟩ := h
    refine (Shows.writeDepth env).tells.closes fun _ _ _ h => ?_
    obtain ⟨rfl, rfl⟩ := h
    refine (Tells.blendBy env).closes fun _ _ _ h => ?_
    obtain ⟨stored, rfl, rfl⟩ := h
    refine (Tells.dither env).closes fun _ _ _ h => ?_
    obtain ⟨stored', rfl, rfl⟩ := h
    rw [← hloaded]
    exact writeColor env hloaded
  unfold Compile.stages
  refine Shows.closes inferInstance fun _ => ?_
  split
  · exact Shows.closes inferInstance fun _ => hrest
  · exact hrest

/-- On entry no address is in a register, and nothing is recognised. -/
theorem Compile.tied_entry (f : Features) :
    entry.table.Tied f ⟨none, none, none, ⟨true, false, .settled, .settled⟩⟩ where
  wellFormed := RoleTable.wellFormed_setupArguments .fresh
  pools := ⟨rfl, rfl⟩
  color := nofun
  stored := nofun
  stencil := nofun
  bare _ := rfl
  deep := nofun
  paired _ _ _ := nofun

/-- What is found in a function in front of its first line that reading stops at. -/
structure Features.FoundIn (f : Features) (ls : List Instr) : Prop where
  apt : ∀ i ∈ ls, i.Apt f
  found : ∀ r ∈ f.asks, Found f r ls

/-- The lines of a function, up to the one that reading stops at, are sketched by its program. -/
theorem Compile.reads_function {env : Env} {code : Code} (h : body env = .ok code) (base : Address)
    (start : Nat) : ∃ ls l rest, Reads (functionBytes code base start) (ls ++ l :: rest) ∧
      l.stops = true ∧ env.features.FoundIn ls ∧ Eye.scan ⟨none, none, none, none⟩ (ls ++ [l]) =
        sketches none env.features.finish env.features.steps := by
  unfold body at h
  cases hstages : stages env (.ofFeatures env.features) entry with
  | error e =>
    rw [hstages] at h
    cases h
  | ok r =>
    rw [hstages] at h
    cases h
    have hcloses := Emit.stages env entry r (tied_entry _) hstages
    obtain ⟨ls, l, rest, hlines, hstops, hapt, hscan, hfound⟩ := hcloses.split
    refine ⟨ls, l, rest, ?_, hstops, ⟨hapt, fun q hq => ?_⟩, hscan⟩
    · have hret : Reads (Instr.ret.bytes ++ []) [Instr.ret.line] := .instr rfl (.nil [])
      rw [List.append_nil] at hret
      exact hlines ▸ Code.reads_bytes hcloses.encodable hret
    · refine (hfound q hq).resolve_left fun hreached => ?_
      unfold Features.asks at hq
      split at hq
      · cases List.mem_singleton.mp hq
        cases hreached
      · split at hq
        · cases List.mem_singleton.mp hq
          cases hreached
        · exact List.not_mem_nil hq

/-- Of two lists of lines, one of which begins the other, the parts up to the first line
that reading stops at are the same. -/
theorem eq_of_stops {ls ls' rest rest' : List Instr} {l l' : Instr}
    (hpre : ls ++ l :: rest <+: ls' ++ l' :: rest') (hls : ∀ i ∈ ls, i.stops = false)
    (hls' : ∀ i ∈ ls', i.stops = false) (hl : l.stops = true) (hl' : l'.stops = true) :
    ls = ls' ∧ l = l' := by
  obtain ⟨more, h⟩ := hpre
  rw [List.append_assoc, List.cons_append] at h
  obtain ⟨hbefore, hline, -⟩ := eq_of_first h hls hls' hl hl'
  exact ⟨hbefore, hline⟩

namespace Features

variable {f f' : Features} {ls : List Instr}

/-- A pipeline that takes the general way reads a stride, and no other pipeline does. -/
theorem slow_of_found {r : Role} (hr : r ∈ [Role.colorAddr, .depthAddr]) (hfound : Found f r ls)
    (hapt : ∀ i ∈ ls, i.Apt f') (hslow : fastAddress f = false) : fastAddress f' = false := by
  simp only [List.mem_cons, List.not_mem_nil, or_false] at hr
  rcases hr with rfl | rfl
  · obtain ⟨i, hi, hstride⟩ := hfound hslow
    exact (hapt i hi).stride (.inl hstride)
  · obtain ⟨i, hi, hstride⟩ := hfound.1 hslow
    exact (hapt i hi).stride (.inr hstride)

/-- An address has been found by the same way. -/
theorem fastAddress_eq {r : Role} (hr : r ∈ [Role.colorAddr, .depthAddr]) (hfound : Found f r ls)
    (hfound' : Found f' r ls) (hapt : ∀ i ∈ ls, i.Apt f) (hapt' : ∀ i ∈ ls, i.Apt f') :
    fastAddress f = fastAddress f' := by
  cases hfast : fastAddress f with
  | false => exact (slow_of_found hr hfound hapt' hfast).symm
  | true =>
    cases hfast' : fastAddress f' with
    | false => exact hfast ▸ slow_of_found hr hfound' hapt hfast'
    | true => rfl

/-- On the fast way to the depth address the index has been scaled by the size of a pixel. -/
theorem bytesPerPixel_eq (hfast : fastAddress f = true) (hfast' : fastAddress f' = true)
    (hfound : Found f .depthAddr ls) (hfound' : Found f' .depthAddr ls) (hapt : ∀ i ∈ ls, i.Apt f)
    (hapt' : ∀ i ∈ ls, i.Apt f') : f.format.bytesPerPixel = f'.format.bytesPerPixel := by
  have hsizes (format : PixelFormat) : format.bytesPerPixel = 2 ∨ format.bytesPerPixel = 4 := by
    cases format <;> decide
  have hwide (h : f.format.bytesPerPixel = 4) : f'.format.bytesPerPixel = 4 := by
    obtain ⟨i, hi, hscale⟩ := hfound.2 hfast h
    exact (hapt' i hi).scale hscale
  have hwide' (h : f'.format.bytesPerPixel = 4) : f.format.bytesPerPixel = 4 := by
    obtain ⟨i, hi, hscale⟩ := hfound'.2 hfast' h
    exact (hapt i hi).scale hscale
  rcases hsizes f.format with h | h <;> rcases hsizes f'.format with h' | h' <;> omega

theorem finish_eq_nothing : f.finish = .nothing ↔ (f.writesColor || f.clearsStencil) = false := by
  unfold finish
  cases f.writesColor <;> cases f.clearsStencil <;> simp

/-- The pixel has been found in the same way. -/
theorem reach_eq (hsteps : f.steps = f'.steps) (hfinish : f.finish = f'.finish) (h : f.FoundIn ls)
    (h' : f'.FoundIn ls) : f.reach = f'.reach := by
  have hwrites : (f.writesColor || f.clearsStencil) = (f'.writesColor || f'.clearsStencil) := by
    have hnothing := f.finish_eq_nothing
    rw [hfinish, finish_eq_nothing, ← Bool.not_eq_true, ← Bool.not_eq_true, not_iff_not] at hnothing
    exact Bool.eq_iff_iff.mpr hnothing.symm
  have hdepth : f.depthWrite = f'.depthWrite :=
    Bool.eq_iff_iff.mpr (f.storeDepth_mem_steps.symm.trans (hsteps ▸ f'.storeDepth_mem_steps))
  have hasks : f.asks = f'.asks := by rw [asks, asks, hwrites, hdepth]
  have hfast {r : Role} (hr : r ∈ f.asks) (hmem : r ∈ [Role.colorAddr, .depthAddr]) :
      fastAddress f = fastAddress f' :=
    fastAddress_eq hmem (h.found r hr) (h'.found r (hasks ▸ hr)) h.apt h'.apt
  unfold reach
  rw [← hwrites, ← hdepth]
  cases hcolor : f.writesColor || f.clearsStencil with
  | true =>
    have hr : Role.colorAddr ∈ f.asks := by simp [asks, hcolor]
    rw [hfast hr (by decide)]
    rfl
  | false =>
    cases hdeep : f.depthWrite with
    | false => rfl
    | true =>
      have hr : Role.depthAddr ∈ f.asks := by simp [asks, hcolor, hdeep]
      rw [hfast hr (by decide)]
      cases hway : fastAddress f' with
      | false => rfl
      | true =>
        rw [bytesPerPixel_eq ((hfast hr (by decide)).trans hway) hway (h.found _ hr)
          (h'.found _ (hasks ▸ hr)) h.apt h'.apt]

end Features

/-! ## Byte-identical functions -/

namespace Compile

variable {env env' : Env} {code code' : Code}

/-- Pipelines have the same program if their functions are byte-identical, wherever these lie. -/
theorem program_eq_of_bytes (hclear : env.features.clearMode = true → env.features.rasterOp = false)
    (hclear' : env'.features.clearMode = true → env'.features.rasterOp = false)
    (h : body env = .ok code) (h' : body env' = .ok code') {base base' : Address}
    {start start' : Nat}
    (hbytes : functionBytes code base start = functionBytes code' base' start') :
    env.features.program = env'.features.program := by
  obtain ⟨ls, l, rest, hreads, hstops, hin, hscan⟩ := reads_function h base start
  obtain ⟨ls', l', rest', hreads', hstops', hin', hscan'⟩ := reads_function h' base' start'
  have hsame : ls = ls' ∧ l = l' := by
    have hgoes : ∀ i ∈ ls, i.stops = false := fun i hi => (hin.apt i hi).goes
    have hgoes' : ∀ i ∈ ls', i.stops = false := fun i hi => (hin'.apt i hi).goes
    rcases (hbytes ▸ hreads).agree hreads' with hpre | hpre
    · exact eq_of_stops hpre hgoes hgoes' hstops hstops'
    · exact (eq_of_stops hpre hgoes' hgoes hstops' hstops).imp Eq.symm Eq.symm
  obtain ⟨rfl, rfl⟩ := hsame
  obtain ⟨hsteps, hfinish⟩ := sketches_inj env.features.steps_proper env'.features.steps_proper
    (env.features.finish_proper hclear) (env'.features.finish_proper hclear')
    (hscan.symm.trans hscan')
  have hreach := Features.reach_eq hsteps hfinish hin hin'
  rw [Features.program, Features.program, hsteps, hfinish, hreach]

/-- The bytes that a compilation has left are those of the function. -/
theorem Appended.bytesAt {base : Address} {b b' : CodeBuffer} {f : CompiledFunction}
    (h : Appended code base b b' f) :
    b'.bytesAt f.start (f.stop - f.start) = functionBytes code base f.start := by
  have hlen := length_functionBytes code base f.start
  have hsize : f.stop - f.start = (functionBytes code base f.start).length := by
    rw [h.stop]
    omega
  rw [hsize]
  exact CodeBuffer.bytesAt_of_byteAt h.bytes

/-- The same of functions that have been compiled. -/
theorem program_eq_of_compiled {c c' : Config} {s s' : DrawState}
    {addresses addresses' : DataAddresses} {base base' : Address} {b b' b₁ b₁' : CodeBuffer}
    {f f' : CompiledFunction}
    (h : function (Key.ofConfig c s).features addresses base b = .ok f b₁)
    (h' : function (Key.ofConfig c' s').features addresses' base' b' = .ok f' b₁')
    (hbytes : b₁.bytesAt f.start (f.stop - f.start) = b₁'.bytesAt f'.start (f'.stop - f'.start)) :
    (Key.ofConfig c s).features.program = (Key.ofConfig c' s').features.program := by
  have hclear (c : Config) (s : DrawState) (hmode : (Key.ofConfig c s).features.clearMode = true) :
      (Key.ofConfig c s).features.rasterOp = false := by
    rw [Key.features_ofConfig, Features.ofConfig_eq] at hmode ⊢
    exact Bool.eq_false_iff.mpr fun hop =>
      Bool.false_ne_true ((NormalForm.clearMode_of_rasterOp hop).symm.trans hmode)
  obtain ⟨code, hcode, happ, -⟩ := appended_of_ok h
  obtain ⟨code', hcode', happ', -⟩ := appended_of_ok h'
  rw [happ.bytesAt, happ'.bytesAt] at hbytes
  exact @program_eq_of_bytes ⟨_, addresses⟩ ⟨_, addresses'⟩ code code' (hclear c s)
    (hclear c' s') hcode hcode' _ _ _ _ hbytes

end Compile

end PixelPipeline
