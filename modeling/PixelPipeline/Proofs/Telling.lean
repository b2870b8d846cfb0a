/-
# Proofs.Telling — programs tell settled features

Features whose every setting shows have a program of their own.  Its steps are told apart by the
stages that they stand in, tests that leave in any case by how many of them do, and updates by
what they do to the stencil value.  So pipelines are of the same program exactly if their
features are settled alike (`Features.program_eq_iff`), and that is when the functions that are
compiled for their keys are byte-identical (`Compile.byte_identical_iff`).
-/
import PixelPipeline.Proofs.Recognition
import PixelPipeline.Proofs.Visible

namespace PixelPipeline

open X86 Compile

/-! ## Two tests in a row -/

/-- A test leaves in any case, or in none, or compares something. -/
theorem Comparison.never_or_always_or (func : Comparison) :
    func = .never ∨ func = .always ∨ func.compares = true := by
  cases func <;> decide

theorem Comparison.compares_eq_false {func : Comparison} (h : func.compares = false) :
    func = .never ∨ func = .always := by
  rcases never_or_always_or func with hn | ha | hc
  · exact .inl hn
  · exact .inr ha
  · exact Bool.noConfusion (h.symm.trans hc)

/-- Of tests that compare, or do not, in the same way, the one leaves in any case if the other does,
if there is something to do for both or for neither. -/
theorem Comparison.never_iff_of_idle {d d' : Comparison} (hd : d.compares = d'.compares)
    (hidle : d = .always ↔ d' = .always) : d = .never ↔ d' = .never := by
  rcases never_or_always_or d with rfl | rfl | hc
  · rcases compares_eq_false hd.symm with rfl | rfl
    · rfl
    · exact Comparison.noConfusion (hidle.mpr rfl)
  · rw [hidle.mp rfl]
  · refine ⟨fun h => ?_, fun h => ?_⟩
    · rw [h] at hc
      cases hc
    · rw [hd, h] at hc
      cases hc

/-- Two tests in a row, of which the second stands behind the first if that leaves in any case,
are told by what they compare and by how many of them leave. -/
theorem Comparison.never_iff {s s' d d' : Comparison} (hs : s.compares = s'.compares)
    (hd : d.compares = d'.compares) (hback : s = .never → d ≠ .always)
    (hback' : s' = .never → d' ≠ .always)
    (hcount : (if s ≠ .always then 1 else 0) + (if d ≠ .always then 1 else 0) =
      (if s' ≠ .always then 1 else 0) + (if d' ≠ .always then 1 else 0)) :
    (s = .never ↔ s' = .never) ∧ (d = .never ↔ d' = .never) := by
  have hidle {c : Comparison} (hc : c.compares = true) : c ≠ .always := by
    rintro rfl
    cases hc
  have hgate {c c' : Comparison}
      (h : (if c ≠ .always then 1 else 0) = if c' ≠ .always then 1 else 0) :
      c = .always ↔ c' = .always := by
    by_cases hc : c = .always <;> by_cases hc' : c' = .always <;> simp [hc, hc'] at h ⊢
  -- Only where neither compares could it be unclear which of them leaves.
  cases hsc : s.compares with
  | true =>
    have hsc' := hs.symm.trans hsc
    rw [if_pos (hidle hsc), if_pos (hidle hsc')] at hcount
    exact ⟨never_iff_of_idle hs (iff_of_false (hidle hsc) (hidle hsc')),
      never_iff_of_idle hd (hgate (Nat.add_left_cancel hcount))⟩
  | false =>
    cases hdc : d.compares with
    | true =>
      have hdc' := hd.symm.trans hdc
      rw [if_pos (hidle hdc), if_pos (hidle hdc')] at hcount
      exact ⟨never_iff_of_idle hs (hgate (Nat.add_right_cancel hcount)),
        never_iff_of_idle hd (iff_of_false (hidle hdc) (hidle hdc'))⟩
    | false =>
      rcases compares_eq_false hsc with rfl | rfl <;>
        rcases compares_eq_false (hs.symm.trans hsc) with rfl | rfl <;>
          rcases compares_eq_false hdc with rfl | rfl <;>
            rcases compares_eq_false (hd.symm.trans hdc) with rfl | rfl <;>
              revert hback hback' hcount <;> decide

/-! ## The steps, stage by stage -/

/-- The step compares a stencil value. -/
def Step.checksStencil : Step → Bool
  | .checkStencil .. => true
  | _ => false

/-- The step compares a depth. -/
def Step.checksDepth : Step → Bool
  | .checkDepth _ => true
  | _ => false

/-- In tests of stored values nothing is counted but checks, of the stencil value or of the depth,
and leaves. -/
structure Step.Counts (p : Step → Bool) (stencil depth : Bool) : Prop where
  load : ∀ format, p (.loadStencil format) = false
  update : ∀ u, p (.update u) = false
  store : ∀ format masked, p (.storeStencil format masked) = false
  checkStencil : ∀ func reference masked, p (.checkStencil func reference masked) = stencil
  checkDepth : ∀ func, p (.checkDepth func) = depth

theorem Step.counts_checksStencil : Counts checksStencil true false :=
  ⟨fun _ => rfl, fun _ => rfl, fun _ _ => rfl, fun _ _ _ => rfl, fun _ => rfl⟩

theorem Step.counts_checksDepth : Counts checksDepth false true :=
  ⟨fun _ => rfl, fun _ => rfl, fun _ _ => rfl, fun _ _ _ => rfl, fun _ => rfl⟩

theorem Step.counts_leave : Counts (· == .leave) false false :=
  ⟨fun _ => rfl, fun _ => rfl, fun _ _ => rfl, fun _ _ _ => rfl, fun _ => rfl⟩

theorem filter_stage_ite (b : Bool) (s : Step) (stage : Stage) :
    (if b then [s] else []).filter (·.stage == stage) =
      if s.stage = stage then (if b then [s] else []) else [] := by
  cases b <;> by_cases h : s.stage = stage <;> simp [h]

theorem filter_stage_eq_nil {ss : List Step} {stage : Stage} (h : ∀ s ∈ ss, s.stage ≠ stage) :
    ss.filter (·.stage == stage) = [] :=
  List.filter_eq_nil_iff.mpr fun s hs hstage => h s hs (beq_iff_eq.mp hstage)

/-- A choice between different things tells what it was made by. -/
theorem bool_eq_of_ite {α : Type} {b b' : Bool} {x y : α} (hne : x ≠ y)
    (h : (if b then x else y) = if b' then x else y) : b = b' := by
  cases b <;> cases b'
  · rfl
  · exact absurd h.symm hne
  · exact absurd h hne
  · rfl

namespace Features

/-- The steps in which a pixel is tested, and the fog between them. -/
def testSteps (f : Features) : List Step :=
  f.alphaSteps ++ ((if f.fog then [.fog] else []) ++ ((if f.colorTest then [.checkColor] else []) ++
    f.storedSteps))

/-- The steps behind the tests. -/
def lateSteps (f : Features) : List Step :=
  (if f.depthWrite then [.storeDepth] else []) ++
    ((if f.blend then [.blend f.format f.mix] else []) ++ (if f.dither then [.dither] else []))

section

variable (f : Features)

theorem steps_eq : f.steps =
    (if f.depthRange then [.checkRange] else []) ++ (f.testSteps ++ f.lateSteps) := by
  simp only [steps, testSteps, lateSteps, List.append_assoc]

theorem stage_alphaSteps : ∀ s ∈ f.alphaSteps, s.stage = .alphaTest ∨ s.stage = .exit := by
  unfold alphaSteps
  split
  · exact List.forall_mem_singleton.mpr (.inr rfl)
  · exact forall_checkSteps (fun _ => .inl rfl) fun _ hs => absurd hs List.not_mem_nil

theorem stage_storedSteps : ∀ s ∈ f.storedSteps,
    s.stage ∈ [Stage.stencilTest, .depthTest, .writeStencil, .exit] := by
  obtain ⟨ss, hss, hstored⟩ := f.storedSteps_eq
  rw [hstored]
  refine List.forall_mem_append.mpr ⟨?_, hss ⟨by decide, fun _ _ _ => List.mem_cons_self,
    fun _ => by simp [Step.stage], fun _ => List.mem_cons_self, fun _ _ => by simp [Step.stage]⟩⟩
  split
  · exact List.forall_mem_singleton.mpr List.mem_cons_self
  · exact fun _ hs => absurd hs List.not_mem_nil

/-- No other stage has steps of the alpha test. -/
theorem filter_alphaSteps {stage : Stage} (h : stage ≠ .alphaTest) (h' : stage ≠ .exit) :
    f.alphaSteps.filter (·.stage == stage) = [] :=
  filter_stage_eq_nil fun s hs hstage =>
    (f.stage_alphaSteps s hs).elim (fun ha => h (hstage.symm.trans ha)) fun he =>
      h' (hstage.symm.trans he)

theorem filter_storedSteps {stage : Stage}
    (h : stage ∉ [Stage.stencilTest, .depthTest, .writeStencil, .exit]) :
    f.storedSteps.filter (·.stage == stage) = [] :=
  filter_stage_eq_nil fun s hs hstage => h (hstage ▸ f.stage_storedSteps s hs)

/-- The steps of one stage. -/
theorem filter_steps {stage : Stage}
    (h : stage ∉ [Stage.alphaTest, .stencilTest, .depthTest, .writeStencil, .exit]) :
    f.steps.filter (·.stage == stage) =
      (if .depthRange = stage then if f.depthRange then [.checkRange] else [] else []) ++
        ((if .fog = stage then if f.fog then [.fog] else [] else []) ++
          ((if .colorTest = stage then if f.colorTest then [.checkColor] else [] else []) ++
            ((if .writeDepth = stage then if f.depthWrite then [.storeDepth] else [] else []) ++
              ((if .blend = stage then if f.blend then [.blend f.format f.mix] else [] else []) ++
                (if .dither = stage then if f.dither then [.dither] else [] else []))))) := by
  have halpha : stage ≠ .alphaTest := fun ha => h (ha ▸ List.mem_cons_self)
  have hstored : stage ∉ [Stage.stencilTest, .depthTest, .writeStencil, .exit] :=
    fun hs => h (List.mem_cons_of_mem _ hs)
  have hexit : stage ≠ .exit := fun he => hstored (by rw [he]; decide)
  simp only [steps_eq, testSteps, lateSteps, List.filter_append, filter_stage_ite,
    f.filter_alphaSteps halpha hexit, f.filter_storedSteps hstored, List.nil_append,
    List.append_assoc]
  rfl

end

variable {f g : Features}

/-- Pipelines with the same steps have the same settings outside of the tests, and the same
steps in the tests. -/
theorem steps_inj (h : f.steps = g.steps) : f.depthRange = g.depthRange ∧ f.fog = g.fog ∧
    f.colorTest = g.colorTest ∧ f.depthWrite = g.depthWrite ∧
      (if f.blend then [Step.blend f.format f.mix] else []) =
        (if g.blend then [.blend g.format g.mix] else []) ∧
      f.dither = g.dither ∧ f.testSteps = g.testSteps := by
  have hstage (stage : Stage)
      (hother : stage ∉ [Stage.alphaTest, .stencilTest, .depthTest, .writeStencil, .exit]) :=
    (f.filter_steps hother).symm.trans
      ((congrArg (List.filter (·.stage == stage)) h).trans (g.filter_steps hother))
  have hrange : f.depthRange = g.depthRange :=
    bool_eq_of_ite (List.cons_ne_nil _ _) (by simpa using hstage .depthRange (by decide))
  have hfog : f.fog = g.fog :=
    bool_eq_of_ite (List.cons_ne_nil _ _) (by simpa using hstage .fog (by decide))
  have hcolor : f.colorTest = g.colorTest :=
    bool_eq_of_ite (List.cons_ne_nil _ _) (by simpa using hstage .colorTest (by decide))
  have hwrite : f.depthWrite = g.depthWrite :=
    bool_eq_of_ite (List.cons_ne_nil _ _) (by simpa using hstage .writeDepth (by decide))
  have hblend : (if f.blend then [Step.blend f.format f.mix] else []) =
      (if g.blend then [.blend g.format g.mix] else []) := by simpa using hstage .blend (by decide)
  have hdither : f.dither = g.dither :=
    bool_eq_of_ite (List.cons_ne_nil _ _) (by simpa using hstage .dither (by decide))
  refine ⟨hrange, hfog, hcolor, hwrite, hblend, hdither, ?_⟩
  have hlate : f.lateSteps = g.lateSteps := by rw [lateSteps, lateSteps, hwrite, hblend, hdither]
  rw [steps_eq, steps_eq, hrange, hlate] at h
  exact List.append_cancel_right (List.append_cancel_left h)

/-! ## Rows of tests -/

theorem length_depthSteps (f : Features) :
    f.depthSteps.length = if f.depthFunc = .always then 0 else 1 := by
  cases h : f.depthFunc <;> simp [depthSteps, checkSteps, h, Comparison.compares]

/-- The tests in front of a step of another stage, and those behind it. -/
theorem alphaSteps_append_inj {s s' : Step} {ss ss' : List Step} {stage : Stage}
    (halpha : stage ≠ .alphaTest) (hexit : stage ≠ .exit) (hs : s.stage = stage)
    (hs' : s'.stage = stage) (h : f.alphaSteps ++ s :: ss = g.alphaSteps ++ s' :: ss') :
    f.alphaSteps = g.alphaSteps ∧ s :: ss = s' :: ss' := by
  have hfront (f : Features) : ∀ s ∈ f.alphaSteps, (s.stage == stage) = false := fun s hs =>
    beq_eq_false_iff_ne.mpr fun hstage => (f.stage_alphaSteps s hs).elim
      (fun ha => halpha (hstage.symm.trans ha)) fun he => hexit (hstage.symm.trans he)
  obtain ⟨hfronts, hstep, hrest⟩ :=
    eq_of_first h (hfront f) (hfront g) (beq_iff_eq.mpr hs) (beq_iff_eq.mpr hs')
  exact ⟨hfronts, by rw [hstep, hrest]⟩

/-- Without a stencil value to load, a stencil test is a leave. -/
theorem Placed.storedSteps_plain (hf : f.Placed) (hloads : f.loadsStencil = false) :
    f.storedSteps = (if f.stencilTest then [.leave] else []) ++ f.depthSteps := by
  rw [storedSteps, if_neg (Bool.eq_false_iff.mp hloads)]
  refine congrArg (· ++ f.depthSteps) ?_
  cases htest : f.stencilTest with
  | false => rfl
  | true =>
    have hformat : f.format.hasStencil = false := by
      rwa [loadsStencil, htest, Bool.true_and] at hloads
    rw [(hf.plain htest hformat).1]
    rfl

theorem alphaSteps_of_compares (h : f.alphaFunc.compares = true) :
    f.alphaSteps = [.checkAlpha ⟨f.alphaFunc, h⟩ f.alphaRef f.alphaMasked] := by
  rw [alphaSteps, if_neg (ne_never_of_compares h), checkSteps_of_compares _ _ h]

/-- With nothing between the tests, there is an alpha test in front of other steps, or it shows
what it compares. -/
theorem Placed.length_alphaSteps (hf : f.Placed) (hloads : f.loadsStencil = false)
    (hfog : f.fog = false) (hcolor : f.colorTest = false) : f.alphaSteps.length =
      if 2 ≤ f.testSteps.length then 1
      else (f.testSteps.filter (·.stage == .alphaTest)).length := by
  obtain ⟨hstencil, hdepth⟩ := hf.front hloads hfog hcolor
  have htests : f.testSteps =
      f.alphaSteps ++ ((if f.stencilTest then [.leave] else []) ++ f.depthSteps) := by
    rw [testSteps, hfog, hcolor, hf.storedSteps_plain hloads]
    rfl
  have hfilter : f.testSteps.filter (·.stage == .alphaTest) =
      f.alphaSteps.filter (·.stage == .alphaTest) := by
    rw [htests, ← hf.storedSteps_plain hloads, List.filter_append,
      f.filter_storedSteps (by decide), List.append_nil]
  rw [hfilter]
  rcases Comparison.never_or_always_or f.alphaFunc with h | h | h
  -- A leave stands in front of a depth test, and behind no alpha test there are not two steps.
  · have hsteps : f.alphaSteps = [.leave] := if_pos h
    rw [if_pos, hsteps]
    · rfl
    · rw [htests, hsteps]
      simp only [List.length_append, length_depthSteps, if_neg (hdepth h), List.length_singleton]
      omega
  · have hsteps : f.alphaSteps = [] := by
      rw [alphaSteps, h]
      rfl
    have hplain : f.stencilTest = false := Bool.eq_false_iff.mpr fun htest => hstencil htest h
    rw [if_neg, hsteps]
    · rfl
    · rw [htests, hsteps, hplain]
      simp only [Bool.false_eq_true, if_false, List.nil_append, length_depthSteps]
      split <;> omega
  · rw [alphaSteps_of_compares h]
    exact (ite_self _).symm

/-- The tests show what they are made of. -/
theorem testSteps_inj (hf : f.Placed) (hg : g.Placed) (hfog : f.fog = g.fog)
    (hcolor : f.colorTest = g.colorTest) (hloads : f.loadsStencil = g.loadsStencil)
    (h : f.testSteps = g.testSteps) :
    f.alphaSteps = g.alphaSteps ∧ f.storedSteps = g.storedSteps := by
  -- The first step that is not of the alpha test divides them: that of the fog, of the color test,
  -- or the one that loads the stencil value.  If there is none, the length of the alpha test does.
  have htests := h
  rw [testSteps, testSteps, ← hfog, ← hcolor] at htests
  cases hon : f.fog with
  | true =>
    simp only [hon, if_true, List.singleton_append] at htests
    obtain ⟨halpha, hrest⟩ :=
      alphaSteps_append_inj (by decide) (by decide) rfl rfl htests
    exact ⟨halpha, List.append_cancel_left (List.cons.inj hrest).2⟩
  | false =>
    cases hkeyed : f.colorTest with
    | true =>
      simp only [hon, hkeyed, if_true, Bool.false_eq_true, if_false, List.nil_append,
        List.singleton_append] at htests
      obtain ⟨halpha, hrest⟩ :=
        alphaSteps_append_inj (by decide) (by decide) rfl rfl htests
      exact ⟨halpha, (List.cons.inj hrest).2⟩
    | false =>
      simp only [hon, hkeyed, Bool.false_eq_true, if_false, List.nil_append] at htests
      cases hplain : f.loadsStencil with
      | true =>
        obtain ⟨ss, -, hstored⟩ := f.storedSteps_eq
        obtain ⟨ss', -, hstored'⟩ := g.storedSteps_eq
        rw [hplain, if_pos rfl] at hstored
        rw [← hloads, hplain, if_pos rfl] at hstored'
        rw [hstored, hstored'] at htests ⊢
        exact alphaSteps_append_inj (show Stage.stencilTest ≠ .alphaTest by decide) (by decide)
          rfl rfl htests
      | false =>
        have hlength := hf.length_alphaSteps hplain hon hkeyed
        rw [h, ← hg.length_alphaSteps (hloads.symm.trans hplain) (hfog.symm.trans hon)
          (hcolor.symm.trans hkeyed)] at hlength
        exact List.append_inj htests hlength

/-! ## Checks -/

/-- A test without updates tells its comparison, and what it compares with. -/
theorem checked_inj {func func' : Comparison} {check check' : Comparing → Step}
    (hcheck : ∀ c, check c ≠ .leave) (hcheck' : ∀ c, check' c ≠ .leave)
    (h : (if func = .never then [.leave] else checkSteps func check []) =
      if func' = .never then [.leave] else checkSteps func' check' []) :
    func.compares = func'.compares ∧ (func.compares = false → func = func') ∧
      ∀ hc hc', check ⟨func, hc⟩ = check' ⟨func', hc'⟩ := by
  have hnever {check : Comparing → Step} :
      (if Comparison.never = .never then [Step.leave] else checkSteps .never check []) = [.leave] :=
    if_pos rfl
  have halways {check : Comparing → Step} :
      (if Comparison.always = .never then [Step.leave] else checkSteps .always check []) = [] := rfl
  have hcompares {func : Comparison} {check : Comparing → Step} (hc : func.compares = true) :
      (if func = .never then [Step.leave] else checkSteps func check []) = [check ⟨func, hc⟩] := by
    rw [if_neg (ne_never_of_compares hc), checkSteps_of_compares _ _ hc]
  rcases Comparison.never_or_always_or func with rfl | rfl | hc <;>
    rcases Comparison.never_or_always_or func' with rfl | rfl | hc'
  · exact ⟨rfl, fun _ => rfl, fun hc => Bool.noConfusion hc⟩
  · rw [hnever, halways] at h
    cases h
  · rw [hnever, hcompares hc'] at h
    exact absurd (List.cons.inj h).1.symm (hcheck' _)
  · rw [halways, hnever] at h
    cases h
  · exact ⟨rfl, fun _ => rfl, fun hc => Bool.noConfusion hc⟩
  · rw [halways, hcompares hc'] at h
    cases h
  · rw [hcompares hc, hnever] at h
    exact absurd (List.cons.inj h).1 (hcheck _)
  · rw [hcompares hc, halways] at h
    cases h
  · rw [hcompares hc, hcompares hc'] at h
    exact ⟨hc.trans hc'.symm, fun hno => Bool.noConfusion (hno.symm.trans hc),
      fun _ _ => (List.cons.inj h).1⟩

theorem alphaSteps_inj (h : f.alphaSteps = g.alphaSteps) : f.alphaFunc = g.alphaFunc ∧
    (f.alphaFunc.compares = true → f.alphaRef = g.alphaRef ∧ f.alphaMasked = g.alphaMasked) := by
  obtain ⟨hcompares, hnone, hchecks⟩ := checked_inj (fun _ => Step.noConfusion)
    (fun _ => Step.noConfusion) h
  cases hc : f.alphaFunc.compares with
  | false => exact ⟨hnone hc, fun h => Bool.noConfusion h⟩
  | true =>
    obtain ⟨hfunc, href, hmasked⟩ := Step.checkAlpha.inj (hchecks hc (hcompares ▸ hc))
    exact ⟨congrArg Subtype.val hfunc, fun _ => ⟨href, hmasked⟩⟩

theorem depthSteps_inj (h : f.depthSteps = g.depthSteps) : f.depthFunc = g.depthFunc := by
  obtain ⟨hcompares, hnone, hchecks⟩ := checked_inj (fun _ => Step.noConfusion)
    (fun _ => Step.noConfusion) h
  cases hc : f.depthFunc.compares with
  | false => exact hnone hc
  | true => exact congrArg Subtype.val (Step.checkDepth.inj (hchecks hc (hcompares ▸ hc)))

/-- Without a stencil value to load, there is a stencil test if there are two steps. -/
theorem Placed.stencilTest_eq (hf : f.Placed) (hloads : f.loadsStencil = false) :
    f.stencilTest = decide (f.storedSteps.length = 2) := by
  rw [hf.storedSteps_plain hloads, List.length_append, length_depthSteps]
  cases htest : f.stencilTest with
  | false =>
    symm
    simp only [Bool.false_eq_true, if_false, List.length_nil, decide_eq_false_iff_not]
    split <;> omega
  | true =>
    have hformat : f.format.hasStencil = false := by
      rwa [loadsStencil, htest, Bool.true_and] at hloads
    rw [if_neg (hf.stored htest (hf.plain htest hformat).1)]
    rfl

theorem plainSteps_inj (hf : f.Placed) (hg : g.Placed) (hloads : f.loadsStencil = false)
    (hloads' : g.loadsStencil = false) (h : f.storedSteps = g.storedSteps) :
    f.stencilTest = g.stencilTest ∧ f.depthFunc = g.depthFunc := by
  have htest : f.stencilTest = g.stencilTest := by
    rw [hf.stencilTest_eq hloads, hg.stencilTest_eq hloads', h]
  rw [hf.storedSteps_plain hloads, hg.storedSteps_plain hloads', htest] at h
  exact ⟨htest, depthSteps_inj (List.append_cancel_left h)⟩

/-! ## Updates -/

/-- The action that updates come from, in a format of one stencil bit or of more. -/
def actionOf (format : PixelFormat) : List Update → StencilAction
  | [.zero] => .zero
  | [.set value] => if format = .rgba5551 ∧ value = 0xFF then .increment else .replace
  | [.reload] => .replace
  | [.invert] => .invert
  | [.stepUp] => .increment
  | [.stepDown] => .decrement
  | _ => .keep

/-- Updates that show are told by what they do. -/
theorem actionOf_updates {action : StencilAction} (hformat : f.format.hasStencil = true)
    (hdistinct : f.Distinct action) :
    actionOf f.format (f.updates action) = action := by
  cases action with
  | replace =>
    unfold updates
    cases hmasked : f.stencilMasked with
    | true => rfl
    | false => exact if_neg fun h => (hdistinct h.1).2 rfl hmasked h.2
  | increment =>
    unfold updates
    cases hf : f.format with
    | rgb565 =>
      rw [hf] at hformat
      cases hformat
    | _ => rfl
  | decrement =>
    unfold updates
    cases hf : f.format with
    | rgb565 =>
      rw [hf] at hformat
      cases hformat
    | rgba5551 => exact absurd rfl (hdistinct hf).1
    | _ => rfl
  | _ => rfl

/-- A reference that is stored is told, if it is not read from the register block. -/
theorem replace_inj (h : f.updates .replace = g.updates .replace) :
    f.stencilMasked = g.stencilMasked ∧
      (f.stencilMasked = false → f.stencilRef = g.stencilRef) := by
  unfold updates at h
  cases hm : f.stencilMasked <;> cases hm' : g.stencilMasked <;> simp [hm, hm'] at h ⊢
  exact h

/-- Updates that show are told by what they do, and so is the reference that one of them stores. -/
theorem updates_inj {action action' : StencilAction} (hformat : f.format.hasStencil = true)
    (hsame : f.format = g.format) (hdistinct : f.Distinct action) (hdistinct' : g.Distinct action')
    (h : f.updates action = g.updates action') : action = action' ∧
      (action = .replace → f.stencilMasked = g.stencilMasked ∧
        (f.stencilMasked = false → f.stencilRef = g.stencilRef)) := by
  have haction : action = action' := by
    rw [← actionOf_updates hformat hdistinct, h, hsame,
      actionOf_updates (hsame ▸ hformat) hdistinct']
  subst haction
  exact ⟨rfl, fun hreplace => replace_inj (hreplace ▸ h)⟩

/-- The way out stores what has been updated and leaves. -/
theorem failSteps_append_inj {action action' : StencilAction} {ss ss' : List Step}
    (hformat : f.format = g.format) (hwrite : f.writeMasked = g.writeMasked)
    (h : f.failSteps action ++ ss = g.failSteps action' ++ ss') :
    f.updates action = g.updates action' ∧ ss = ss' := by
  have hstays (f : Features) (action : StencilAction) : ∀ s ∈ (f.updates action).map Step.update ++
      (if action = .keep then [] else [.storeStencil f.format f.writeMasked]),
      (s.stage == .exit) = false := by
    refine List.forall_mem_append.mpr ⟨List.forall_mem_map.mpr fun _ _ => rfl, ?_⟩
    split
    · exact fun _ hs => absurd hs List.not_mem_nil
    · exact List.forall_mem_singleton.mpr rfl
  unfold failSteps at h
  rw [List.append_assoc _ [Step.leave], List.append_assoc _ [Step.leave]] at h
  obtain ⟨hout, -, rfl⟩ := eq_of_first h (hstays f action) (hstays g action') rfl rfl
  refine ⟨?_, rfl⟩
  have hnone (f : Features) : f.updates .keep = [] := rfl
  by_cases hkeep : action = .keep <;> by_cases hkeep' : action' = .keep
  · rw [hkeep, hkeep', hnone, hnone]
  · simp [updates, hkeep, hkeep'] at hout
  · simp [updates, hkeep, hkeep'] at hout
  · rw [if_neg hkeep, if_neg hkeep', hformat, hwrite, List.append_cancel_right_eq] at hout
    exact List.map_injective_iff.mpr (fun _ _ => Step.update.inj) hout

section

variable {p : Step → Bool} {stencil depth : Bool} (hp : Step.Counts p stencil depth)

include hp

theorem countP_updates (action : StencilAction) :
    ((f.updates action).map Step.update).countP p = 0 :=
  List.countP_eq_zero.mpr
    (List.forall_mem_map.mpr fun u _ => Bool.eq_false_iff.mp (hp.update u))

theorem countP_failSteps (action : StencilAction) :
    (f.failSteps action).countP p = if p .leave then 1 else 0 := by
  unfold failSteps
  rw [List.countP_append, List.countP_append, countP_updates hp]
  split <;> simp [hp.store]

/-- A test leaves in one place, if it does. -/
theorem countP_updatingSteps {check : Comparing → Step} {b : Bool} (hcheck : ∀ c, p (check c) = b)
    (func : Comparison) (action : StencilAction) : (f.updatingSteps func check action).countP p =
      (if func.compares ∧ b then 1 else 0) + (if func ≠ .always ∧ p .leave then 1 else 0) := by
  have hfail := countP_failSteps (f := f) hp action
  rcases Comparison.never_or_always_or func with rfl | rfl | hc
  · rw [updatingSteps, if_pos rfl, hfail]
    simp [Comparison.compares]
  · rfl
  · have hne : func ≠ .always := by
      rintro rfl
      cases hc
    rw [updatingSteps, if_neg (ne_never_of_compares hc), checkSteps_of_compares _ _ hc,
      List.countP_cons, hfail, hcheck]
    simp only [hc, hne, true_and, ne_eq, not_false_eq_true]
    omega

theorem countP_storedSteps (hloads : f.loadsStencil = true) : f.storedSteps.countP p =
    (if f.stencilFunc.compares ∧ stencil then 1 else 0) +
        (if f.stencilFunc ≠ .always ∧ p .leave then 1 else 0) +
      ((if f.depthFunc.compares ∧ depth then 1 else 0) +
        if f.depthFunc ≠ .always ∧ p .leave then 1 else 0) := by
  rw [storedSteps, if_pos hloads, List.countP_cons, List.countP_append, List.countP_append,
    countP_updates hp, countP_updatingSteps hp (fun c => hp.checkStencil c _ _),
    countP_updatingSteps hp hp.checkDepth, hp.load]
  rfl

end

/-- Which of the tests of a stencil value leave in any case, and which compare something. -/
theorem storedSteps_kinds (hf : f.Placed) (hg : g.Placed) (hloads : f.loadsStencil = true)
    (hloads' : g.loadsStencil = true) (h : f.storedSteps = g.storedSteps) :
    (f.stencilFunc.compares = g.stencilFunc.compares ∧
        f.depthFunc.compares = g.depthFunc.compares) ∧
      (f.stencilFunc = .never ↔ g.stencilFunc = .never) ∧
        (f.depthFunc = .never ↔ g.depthFunc = .never) := by
  have hcounts {p : Step → Bool} {stencil depth : Bool} (hp : Step.Counts p stencil depth) :=
    (countP_storedSteps hp hloads).symm.trans
      ((congrArg (List.countP p) h).trans (countP_storedSteps hp hloads'))
  have hstencil : f.stencilFunc.compares = g.stencilFunc.compares :=
    bool_eq_of_ite Nat.one_ne_zero
      (by simpa [Step.checksStencil] using hcounts Step.counts_checksStencil)
  have hdepth : f.depthFunc.compares = g.depthFunc.compares :=
    bool_eq_of_ite Nat.one_ne_zero
      (by simpa [Step.checksDepth] using hcounts Step.counts_checksDepth)
  have htested {f : Features} (hloads : f.loadsStencil = true) : f.stencilTest = true :=
    (Bool.and_eq_true_iff.mp hloads).1
  exact ⟨⟨hstencil, hdepth⟩, Comparison.never_iff hstencil hdepth (hf.stored (htested hloads))
    (hg.stored (htested hloads')) (by simpa using hcounts Step.counts_leave)⟩

/-- A test with an update behind it tells what it compares with, and the update. -/
theorem updatingSteps_append_inj {func func' : Comparison} {check check' : Comparing → Step}
    {action action' : StencilAction} {ss ss' : List Step} (hformat : f.format = g.format)
    (hwrite : f.writeMasked = g.writeMasked) (hcompares : func.compares = func'.compares)
    (hnever : func = .never ↔ func' = .never) (hkeep : func = .always → action = .keep)
    (hkeep' : func' = .always → action' = .keep)
    (h : f.updatingSteps func check action ++ ss = g.updatingSteps func' check' action' ++ ss') :
    (∀ hc hc', check ⟨func, hc⟩ = check' ⟨func', hc'⟩) ∧ (func.compares = false → func = func') ∧
      f.updates action = g.updates action' ∧ ss = ss' := by
  rcases Comparison.never_or_always_or func with hn | ha | hc
  · obtain rfl := hn
    obtain rfl := hnever.mp rfl
    rw [updatingSteps, updatingSteps, if_pos rfl, if_pos rfl] at h
    exact ⟨fun hc => Bool.noConfusion hc, fun _ => rfl, failSteps_append_inj hformat hwrite h⟩
  · obtain rfl := ha
    have ha' : func' = .always := by
      rcases Comparison.never_or_always_or func' with hn' | ha' | hc'
      · exact Comparison.noConfusion (hnever.mpr hn')
      · exact ha'
      · exact Bool.noConfusion (hcompares.trans hc')
    obtain rfl := ha'
    rw [hkeep rfl, hkeep' rfl]
    exact ⟨fun hc => Bool.noConfusion hc, fun _ => rfl, rfl, h⟩
  · have hc' : func'.compares = true := hcompares ▸ hc
    rw [updatingSteps, updatingSteps, if_neg (ne_never_of_compares hc),
      if_neg (ne_never_of_compares hc'), checkSteps_of_compares _ _ hc,
      checkSteps_of_compares _ _ hc', List.cons_append, List.cons_append] at h
    obtain ⟨hcheck, hrest⟩ := List.cons.inj h
    exact ⟨fun _ _ => hcheck, fun hno => Bool.noConfusion (hno.symm.trans hc),
      failSteps_append_inj hformat hwrite hrest⟩

/-- The updates, and the reference if it is stored, are told by what the updates do. -/
theorem actions_inj (hf : f.Updated) (hg : g.Updated) (hstencil : f.format.hasStencil = true)
    (hformat : f.format = g.format) (hfail : f.updates f.stencilFail = g.updates g.stencilFail)
    (hdepthFail : f.updates f.depthFail = g.updates g.depthFail)
    (hdepthPass : f.updates f.depthPass = g.updates g.depthPass) :
    (f.stencilFail = g.stencilFail ∧ f.depthFail = g.depthFail ∧ f.depthPass = g.depthPass) ∧
      (f.replaces = true → f.stencilMasked = g.stencilMasked ∧
        (f.stencilMasked = false → f.stencilRef = g.stencilRef)) := by
  have htold {action action' : StencilAction} (hmem : action ∈ f.actions)
      (hmem' : action' ∈ g.actions) (h : f.updates action = g.updates action') :=
    updates_inj hstencil hformat (hf.distinct action hmem) (hg.distinct action' hmem') h
  have hfails := htold (by simp [actions]) (by simp [actions]) hfail
  have hdepthFails := htold (by simp [actions]) (by simp [actions]) hdepthFail
  have hdepthPasses := htold (by simp [actions]) (by simp [actions]) hdepthPass
  refine ⟨⟨hfails.1, hdepthFails.1, hdepthPasses.1⟩, fun hreplaces => ?_⟩
  have hmem : StencilAction.replace ∈ f.actions := List.contains_iff_mem.mp hreplaces
  simp only [actions, List.mem_cons, List.not_mem_nil, or_false] at hmem
  rcases hmem with h | h | h
  · exact hfails.2 h.symm
  · exact hdepthFails.2 h.symm
  · exact hdepthPasses.2 h.symm

/-- A reference that is not compared is told if it is stored. -/
theorem reference_eq (hf : f.Visible) (hg : g.Visible) (hno : f.stencilFunc.compares = false)
    (hno' : g.stencilFunc.compares = false) (hactions : f.actions = g.actions)
    (hstored : f.replaces = true → f.stencilMasked = g.stencilMasked ∧
      (f.stencilMasked = false → f.stencilRef = g.stencilRef)) :
    f.stencilRef = g.stencilRef ∧ f.stencilMasked = g.stencilMasked := by
  have hreplaces : f.replaces = g.replaces := by rw [replaces, replaces, hactions]
  obtain ⟨hmask, href⟩ := hf.reference hno
  obtain ⟨hmask', href'⟩ := hg.reference hno'
  cases hr : f.replaces with
  | false =>
    have hr' := hreplaces.symm.trans hr
    have hzero : f.stencilRef = 0 := of_not_not fun h => Bool.noConfusion (hr.symm.trans (href h).1)
    have hzero' : g.stencilRef = 0 :=
      of_not_not fun h => Bool.noConfusion (hr'.symm.trans (href' h).1)
    have hplain : f.stencilMasked = false :=
      Bool.eq_false_iff.mpr fun h => Bool.noConfusion (hr.symm.trans (hmask h))
    have hplain' : g.stencilMasked = false :=
      Bool.eq_false_iff.mpr fun h => Bool.noConfusion (hr'.symm.trans (hmask' h))
    exact ⟨hzero.trans hzero'.symm, hplain.trans hplain'.symm⟩
  | true =>
    obtain ⟨hmasked, hvalue⟩ := hstored hr
    cases hm : f.stencilMasked with
    | false => exact ⟨hvalue hm, hm ▸ hmasked⟩
    | true =>
      have hm' := hmasked.symm.trans hm
      have hzero : f.stencilRef = 0 :=
        of_not_not fun h => Bool.noConfusion (hm.symm.trans (href h).2)
      have hzero' : g.stencilRef = 0 :=
        of_not_not fun h => Bool.noConfusion (hm'.symm.trans (href' h).2)
      exact ⟨hzero.trans hzero'.symm, hm ▸ hmasked⟩

/-- The tests of a stencil value tell their settings. -/
theorem storedSteps_inj (hf : f.Visible) (hg : g.Visible) (hformat : f.format = g.format)
    (hwrite : f.writeMasked = g.writeMasked) (hloads : f.loadsStencil = true)
    (hloads' : g.loadsStencil = true) (h : f.storedSteps = g.storedSteps) :
    f.depthFunc = g.depthFunc ∧ f.stencilFunc = g.stencilFunc ∧ f.stencilRef = g.stencilRef ∧
      f.stencilMasked = g.stencilMasked ∧ f.stencilFail = g.stencilFail ∧
      f.depthFail = g.depthFail ∧ f.depthPass = g.depthPass := by
  obtain ⟨⟨hstencil, hdepth⟩, hnever, hnever'⟩ :=
    storedSteps_kinds hf.toPlaced hg.toPlaced hloads hloads' h
  rw [storedSteps, storedSteps, if_pos hloads, if_pos hloads', List.append_assoc,
    List.append_assoc] at h
  obtain ⟨hchecks, hnone, hfail, h⟩ := updatingSteps_append_inj hformat hwrite hstencil hnever
    hf.fail hg.fail (List.cons.inj h).2
  obtain ⟨hchecks', hnone', hdepthFail, h⟩ := updatingSteps_append_inj hformat hwrite hdepth hnever'
    hf.depthFail hg.depthFail h
  have hdepthPass := List.map_injective_iff.mpr (fun _ _ => Step.update.inj) h
  have hdepthFunc : f.depthFunc = g.depthFunc := by
    cases hc : f.depthFunc.compares with
    | false => exact hnone' hc
    | true => exact congrArg Subtype.val (Step.checkDepth.inj (hchecks' hc (hdepth ▸ hc)))
  obtain ⟨⟨hfails, hdepthFails, hdepthPasses⟩, hstored⟩ := actions_inj hf.toUpdated hg.toUpdated
    (Bool.and_eq_true_iff.mp hloads).2 hformat hfail hdepthFail hdepthPass
  cases hc : f.stencilFunc.compares with
  | true =>
    obtain ⟨hfunc, href, hmasked⟩ := Step.checkStencil.inj (hchecks hc (hstencil ▸ hc))
    exact ⟨hdepthFunc, congrArg Subtype.val hfunc, href, hmasked, hfails, hdepthFails, hdepthPasses⟩
  | false =>
    have hactions : f.actions = g.actions := by
      rw [actions, actions, hfails, hdepthFails, hdepthPasses]
    obtain ⟨href, hmasked⟩ := reference_eq hf hg hc (hstencil ▸ hc) hactions hstored
    exact ⟨hdepthFunc, hnone hc, href, hmasked, hfails, hdepthFails, hdepthPasses⟩

/-- Stored tests of either kind tell their settings. -/
theorem tests_inj (hf : f.Visible) (hg : g.Visible) (hformat : f.format = g.format)
    (hwrite : f.writeMasked = g.writeMasked) (hloads : f.loadsStencil = g.loadsStencil)
    (h : f.storedSteps = g.storedSteps) :
    f.stencilTest = g.stencilTest ∧ f.depthFunc = g.depthFunc ∧
      (f.stencilTest = true → f.stencilFunc = g.stencilFunc ∧ f.stencilRef = g.stencilRef ∧
        f.stencilMasked = g.stencilMasked ∧ f.stencilFail = g.stencilFail ∧
        f.depthFail = g.depthFail ∧ f.depthPass = g.depthPass) := by
  cases hl : f.loadsStencil with
  | true =>
    have hl' := hloads.symm.trans hl
    obtain ⟨hdepth, hstencil⟩ := storedSteps_inj hf hg hformat hwrite hl hl' h
    have htest := (Bool.and_eq_true_iff.mp hl).1
    exact ⟨htest.trans (Bool.and_eq_true_iff.mp hl').1.symm, hdepth, fun _ => hstencil⟩
  | false =>
    obtain ⟨htest, hdepth⟩ :=
      plainSteps_inj hf.toPlaced hg.toPlaced hl (hloads.symm.trans hl) h
    refine ⟨htest, hdepth, fun hon => ?_⟩
    have hplain : f.format.hasStencil = false := by
      rwa [loadsStencil, hon, Bool.true_and] at hl
    have hplain' : g.format.hasStencil = false := hformat ▸ hplain
    obtain ⟨hfunc, href, hmasked⟩ := hf.plain hon hplain
    obtain ⟨hfunc', href', hmasked'⟩ := hg.plain (htest ▸ hon) hplain'
    obtain ⟨hfail, hdepthFail, hdepthPass⟩ := hf.actions hplain
    obtain ⟨hfail', hdepthFail', hdepthPass'⟩ := hg.actions hplain'
    exact ⟨hfunc.trans hfunc'.symm, href.trans href'.symm, hmasked.trans hmasked'.symm,
      hfail.trans hfail'.symm, hdepthFail.trans hdepthFail'.symm, hdepthPass.trans hdepthPass'.symm⟩

/-! ## The blend -/

theorem mix_inj (hf : f.Visible) (hg : g.Visible) (h : f.mix = g.mix) :
    f.blendEquation = g.blendEquation ∧
      (f.blendEquation.usesFactors = true → f.blendSrc = g.blendSrc ∧ f.blendDst = g.blendDst) := by
  rw [mix, mix, if_neg hf.subtract, if_neg hg.subtract] at h
  split at h <;> split at h
  · obtain ⟨hequation, hfactors⟩ := Mix.factors.inj h
    exact ⟨hequation, fun _ => hfactors⟩
  · cases h
  · cases h
  · rename_i huses _
    exact ⟨Mix.bytes.inj h, fun h => absurd h huses⟩

/-! ## Draws -/

/-- A draw writes the color, and no alpha. -/
theorem Visible.finish_eq (hf : f.Visible) :
    f.finish = .write f.format f.writeMasked false f.rasterOp := by
  have hcolor : f.writesColor = true := by
    rw [writesColor, hf.draws]
    rfl
  have halpha : f.writesAlpha = false := by
    rw [writesAlpha, stencilClear, hf.draws]
    rfl
  rw [finish, if_pos hcolor, halpha]

theorem Visible.reach_eq (hf : f.Visible) : f.reach = .color f.standardStride := by
  have hcolor : f.writesColor = true := by
    rw [writesColor, hf.draws]
    rfl
  have hfast : fastAddress f = f.standardStride := by
    rw [fastAddress]
    cases hd : f.dither with
    | false => exact Bool.and_true _
    | true => rw [hf.stride hd, Bool.false_and]
  rw [reach, hcolor, hfast]
  rfl

/-- The program of a draw tells its features. -/
theorem Visible.program_inj (hf : f.Visible) (hg : g.Visible) (h : f.program = g.program) :
    f = g := by
  -- The last step tells the format and whether there is a mask, which the tests are read with; the
  -- way to the pixel tells the stride, and the stages the rest.
  obtain ⟨hsteps, hfinish, hreach⟩ := Program.mk.inj h
  rw [hf.finish_eq, hg.finish_eq] at hfinish
  rw [hf.reach_eq, hg.reach_eq] at hreach
  obtain ⟨hformat, hmask, -, hrop⟩ := Finish.write.inj hfinish
  obtain ⟨hrange, hfog, hcolor, hwrite, hblends, hdither, htests⟩ := steps_inj hsteps
  have hloads : f.loadsStencil = g.loadsStencil := by
    rw [← isSome_loadedBy_steps, hsteps, isSome_loadedBy_steps]
  obtain ⟨halphas, hstored⟩ := testSteps_inj hf.toPlaced hg.toPlaced hfog hcolor hloads htests
  obtain ⟨htest, hdepth, hstencils⟩ := tests_inj hf hg hformat hmask hloads hstored
  obtain ⟨halpha, halphaRefs⟩ := alphaSteps_inj halphas
  have halphaRef : f.alphaRef = g.alphaRef ∧ f.alphaMasked = g.alphaMasked := by
    cases hc : f.alphaFunc.compares with
    | true => exact halphaRefs hc
    | false =>
      obtain ⟨href, hmasked⟩ := hf.compares hc
      obtain ⟨href', hmasked'⟩ := hg.compares (halpha ▸ hc)
      exact ⟨href.trans href'.symm, hmasked.trans hmasked'.symm⟩
  obtain ⟨hstencil, hstencilRef, hstencilMasked, hfail, hdepthFail, hdepthPass⟩ :=
    stencil_eq hf.toNormal hg.toNormal htest hstencils
  have hmix : f.blend = g.blend ∧ (f.blend = true → f.mix = g.mix) := by
    cases hb : f.blend <;> cases hb' : g.blend <;> simp [hb, hb'] at hblends ⊢
    exact hblends.2
  obtain ⟨hequation, hsrc, hdst⟩ :=
    blend_eq hf.toNormal hg.toNormal hmix.1 fun h => mix_inj hf hg (hmix.2 h)
  have hclear : f.clearMode = g.clearMode := hf.draws.trans hg.draws.symm
  obtain ⟨hcolorFlag, hstencilFlag, hdepthFlag⟩ := flags_eq hclear
    (fun h => absurd (hf.draws.symm.trans h) Bool.false_ne_true) hcolor htest
    (by rw [hwrite, hclear])
  cases f
  cases g
  simp only [Features.mk.injEq]
  exact ⟨hclear, hcolorFlag, hstencilFlag, hdepthFlag, hrange, halpha, hdepth, hstencil, hformat,
    halphaRef.1, hstencilRef, hmix.1, hequation, hsrc, hdst, halphaRef.2, hstencilMasked, hdither,
    hrop, hfog, Reach.color.inj hreach, hmask, hfail, hdepthFail, hdepthPass⟩

/-! ## Clears -/

theorem Cleared.writesColor_eq (hf : f.Cleared) : f.writesColor = f.colorFlag := by
  rw [writesColor, hf.clears, Bool.true_and, Bool.not_not]

/-- A clear writes color and alpha, or stencil bits, or neither. -/
theorem Cleared.finish_eq (hf : f.Cleared) : f.finish =
    if f.colorFlag then .write f.format f.writeMasked true false
    else if f.clearsStencil then .clearStencil f.format f.writeMasked else .nothing := by
  rw [finish, hf.writesColor_eq]
  cases hcolor : f.colorFlag with
  | false => rfl
  | true => rw [hf.color hcolor, hf.rasterOp_of_clear hf.clears]

theorem Cleared.reach_eq (hf : f.Cleared) : f.reach =
    if f.colorFlag || f.clearsStencil then .color f.standardStride
    else if f.depthWrite then
      .depth f.standardStride (if f.standardStride then f.format.bytesPerPixel else 0)
    else .nowhere := by
  have hfast : fastAddress f = f.standardStride := by
    rw [fastAddress, hf.dither_of_clear hf.clears, Bool.not_false, Bool.and_true]
  rw [reach, hf.writesColor_eq, hfast]

/-- A clear that writes the stencil bits has been asked to. -/
theorem stencilFlag_of_stencilClear (h : f.stencilClear = true) : f.stencilFlag = true :=
  (Bool.and_eq_true_iff.mp h).2

/-- What of the buffers is written by a clear, and how it finds the pixel. -/
theorem Cleared.buffers_inj (hf : f.Cleared) (hg : g.Cleared) (hwrite : f.depthWrite = g.depthWrite)
    (hfinish : f.finish = g.finish) (hreach : f.reach = g.reach) :
    f.colorFlag = g.colorFlag ∧ f.stencilFlag = g.stencilFlag ∧ f.format = g.format ∧
      f.writeMasked = g.writeMasked ∧ f.standardStride = g.standardStride := by
  rw [hf.finish_eq, hg.finish_eq] at hfinish
  rw [hf.reach_eq, hg.reach_eq, ← hwrite] at hreach
  have halpha {f : Features} (hf : f.Cleared) (hcolor : f.colorFlag = true) :
      f.stencilFlag = true := by
    have h := hf.color hcolor
    rw [writesAlpha, Bool.and_eq_true, Bool.and_eq_true] at h
    exact stencilFlag_of_stencilClear h.1.1
  have hstencil {f : Features} (hclears : f.clearsStencil = true) : f.stencilFlag = true := by
    rw [clearsStencil, Bool.and_eq_true, Bool.and_eq_true] at hclears
    exact stencilFlag_of_stencilClear hclears.1.2
  -- Whatever is written tells the format and the mask.  If nothing is, they have been settled, and
  -- the format is told by the way to the depth.
  cases hc : f.colorFlag <;> cases hc' : g.colorFlag
  · cases hs : f.clearsStencil <;> cases hs' : g.clearsStencil <;>
      simp only [hc, hc', hs, hs', Bool.false_eq_true, if_false, if_true, Bool.or_false,
        Bool.or_true] at hfinish hreach
    · obtain ⟨hflag, hmask, hdeep, hformat⟩ := hf.idle hc hs
      obtain ⟨hflag', hmask', hdeep', hformat'⟩ := hg.idle hc' hs'
      have hways : f.standardStride = g.standardStride ∧ (f.standardStride = true →
          f.format.bytesPerPixel = g.format.bytesPerPixel) := by
        cases hd : f.depthWrite with
        | false =>
          have hno : f.standardStride = false :=
            Bool.eq_false_iff.mpr fun h => Bool.noConfusion (hd.symm.trans (hdeep h))
          have hno' : g.standardStride = false :=
            Bool.eq_false_iff.mpr fun h =>
              Bool.noConfusion ((hwrite.symm.trans hd).symm.trans (hdeep' h))
          exact ⟨hno.trans hno'.symm, fun h => Bool.noConfusion (hno.symm.trans h)⟩
        | true =>
          rw [hd] at hreach
          obtain ⟨hstride, hsize⟩ := Reach.depth.inj hreach
          refine ⟨hstride, fun h => ?_⟩
          rwa [← hstride, h, if_pos rfl, if_pos rfl] at hsize
      refine ⟨rfl, hflag.trans hflag'.symm, ?_, hmask.trans hmask'.symm, hways.1⟩
      rw [hformat, hformat', ← hways.1]
      cases hstride : f.standardStride with
      | false => rfl
      | true => rw [hways.2 hstride]
    · cases hfinish
    · cases hfinish
    · obtain ⟨hformat, hmask⟩ := Finish.clearStencil.inj hfinish
      exact ⟨rfl, (hstencil hs).trans (hstencil hs').symm, hformat, hmask, Reach.color.inj hreach⟩
  · rw [hc, hc', if_pos rfl, if_neg Bool.false_ne_true] at hfinish
    split at hfinish <;> cases hfinish
  · rw [hc, hc', if_pos rfl, if_neg Bool.false_ne_true] at hfinish
    split at hfinish <;> cases hfinish
  · rw [hc, hc'] at hfinish hreach
    obtain ⟨hformat, hmask, -⟩ := Finish.write.inj hfinish
    exact ⟨rfl, (halpha hf hc).trans (halpha hg hc').symm, hformat, hmask, Reach.color.inj hreach⟩

/-- The program of a clear tells its features. -/
theorem Cleared.program_inj (hf : f.Cleared) (hg : g.Cleared) (h : f.program = g.program) :
    f = g := by
  obtain ⟨hsteps, hfinish, hreach⟩ := Program.mk.inj h
  obtain ⟨hrange, -, -, hwrite, -⟩ := steps_inj hsteps
  obtain ⟨hcolor, hstencil, hformat, hmask, hstride⟩ := hf.buffers_inj hg hwrite hfinish hreach
  have hdepth : f.depthFlag = g.depthFlag := hwrite
  rw [hf.eq_clear hf.clears, hg.eq_clear hg.clears, hcolor, hstencil, hdepth, hrange, hformat,
    hmask, hstride]

/-! ## The whole -/

/-- A draw writes no alpha, and a clear writes it or writes no color. -/
theorem Visible.program_ne (hf : f.Visible) (hg : g.Cleared) : f.program ≠ g.program := by
  intro h
  have hfinish := congrArg Program.finish h
  change f.finish = g.finish at hfinish
  rw [hf.finish_eq, hg.finish_eq] at hfinish
  split at hfinish
  · exact absurd (Finish.write.inj hfinish).2.2.1 Bool.false_ne_true
  · split at hfinish <;> cases hfinish

/-- The program tells what is settled. -/
theorem settled_eq (hf : f.Tidy) (hg : g.Tidy) (h : f.settled.program = g.settled.program) :
    f.settled = g.settled := by
  rcases settled_visible hf with hf | hf <;> rcases settled_visible hg with hg | hg
  · exact hf.program_inj hg h
  · exact absurd h (hf.program_ne hg)
  · exact absurd h.symm (hg.program_ne hf)
  · exact hf.program_inj hg h

theorem tidy_settled (hf : f.Tidy) : f.settled.Tidy :=
  (settled_visible hf).elim (·.toTidy) (·.toTidy)

/-- Code that is the same but for its marks is of the same program. -/
theorem program_eq_of_bare {env env' : Env} (hf : env.features.Tidy) (hg : env'.features.Tidy)
    (h : bare env = bare env') : env.features.program = env'.features.program := by
  obtain ⟨code, hcode, -⟩ := exists_body env
  obtain ⟨code', hcode', -⟩ := exists_body env'
  rw [bare_of_ok hcode, bare_of_ok hcode'] at h
  exact program_eq_of_bytes hf.rasterOp_of_clear hg.rasterOp_of_clear hcode hcode'
    (functionBytes_congr (Except.ok.inj h) 0 0)

/-- What is settled is not part of the program. -/
theorem program_settled (hf : f.Tidy) : f.settled.program = f.program :=
  @program_eq_of_bare ⟨f.settled, ⟨0, 0⟩⟩ ⟨f, ⟨0, 0⟩⟩ (tidy_settled hf) hf (bare_settled hf)

/-- Programs are the same exactly if the features are, once they are settled. -/
theorem program_eq_iff (hf : f.Tidy) (hg : g.Tidy) :
    f.program = g.program ↔ f.settled = g.settled := by
  rw [← program_settled hf, ← program_settled hg]
  exact ⟨settled_eq hf hg, congrArg program⟩

end Features

namespace Compile

theorem tidy_features (c : Config) (s : DrawState) : (Key.ofConfig c s).features.Tidy := by
  rw [Key.features_ofConfig]
  exact Features.tidy_ofConfig c s

/-- Pipelines that are settled alike lie in the same bytes at the same place. -/
theorem bytesAt_eq_of_settled {f f' : Features} (hf : f.Tidy) (hf' : f'.Tidy)
    {addresses : DataAddresses} {base : Address} {b b' b₁ b₁' : CodeBuffer}
    {r r' : CompiledFunction} (h : function f addresses base b = .ok r b₁)
    (h' : function f' addresses base b' = .ok r' b₁') (hoffset : b.offset = b'.offset)
    (hsettled : f.settled = f'.settled) :
    b₁.bytesAt r.start (r.stop - r.start) = b₁'.bytesAt r'.start (r'.stop - r'.start) := by
  obtain ⟨code, hcode, happ, -⟩ := appended_of_ok h
  obtain ⟨code', hcode', happ', -⟩ := appended_of_ok h'
  have hbare : bare ⟨f, addresses⟩ = bare ⟨f', addresses⟩ := by
    rw [← bare_settled hf, ← bare_settled hf', hsettled]
  rw [bare_of_ok hcode, bare_of_ok hcode'] at hbare
  rw [happ.bytesAt, happ'.bytesAt, happ.start, happ'.start, hoffset]
  exact functionBytes_congr (Except.ok.inj hbare) base _

/-- Functions are byte-identical exactly if their keys are the same but for what is settled when
they are compiled.  The function tells all other settings, whatever the buffers and the addresses
that it has been compiled for; conversely, with what is settled out of the way, the same word
gives the same bytes at the same offset for the same addresses. -/
theorem byte_identical_iff {c c' : Config} {s s' : DrawState} {addresses addresses' : DataAddresses}
    {base base' : Address} {b b' b₁ b₁' : CodeBuffer} {f f' : CompiledFunction}
    (h : function (Key.ofConfig c s).features addresses base b = .ok f b₁)
    (h' : function (Key.ofConfig c' s').features addresses' base' b' = .ok f' b₁') :
    (b₁.bytesAt f.start (f.stop - f.start) = b₁'.bytesAt f'.start (f'.stop - f'.start) →
      (Key.ofConfig c s).features.settled.pack = (Key.ofConfig c' s').features.settled.pack) ∧
    (addresses = addresses' → base = base' → b.offset = b'.offset →
      (Key.ofConfig c s).features.settled.pack = (Key.ofConfig c' s').features.settled.pack →
      b₁.bytesAt f.start (f.stop - f.start) = b₁'.bytesAt f'.start (f'.stop - f'.start)) := by
  have htidy := tidy_features c s
  have htidy' := tidy_features c' s'
  refine ⟨fun hbytes => ?_, ?_⟩
  · have hprogram := program_eq_of_compiled h h' hbytes
    exact congrArg Features.pack ((Features.program_eq_iff htidy htidy').mp hprogram)
  · rintro rfl rfl hoffset hwords
    exact bytesAt_eq_of_settled htidy htidy' h h' hoffset (Features.pack_inj.mp hwords)

/-- A draw that no pixel's alpha passes does what one does that no pixel's depth passes: the words
differ, but once they are settled they are the same, and so are the bytes.  With a fog between the
tests they are not. -/
theorem byte_identical_iff_never :
    let c : Config := { alphaTest := some ⟨.never, 0⟩ }
    let c' : Config := { depthTest := some .never }
    let d : Config := { c with fog := true }
    let d' : Config := { c' with fog := true }
    let compiled (c : Config) := function (Key.ofConfig c {}).features ⟨0x1000, 0x2000⟩ 0x10000
      (CodeBuffer.ofSize 4096)
    (Key.ofConfig c {}).word ≠ (Key.ofConfig c' {}).word ∧
      (∃ f b f' b', compiled c = .ok f b ∧ compiled c' = .ok f' b' ∧
        b.bytesAt f.start (f.stop - f.start) = b'.bytesAt f'.start (f'.stop - f'.start)) ∧
      ∃ f b f' b', compiled d = .ok f b ∧ compiled d' = .ok f' b' ∧
        b.bytesAt f.start (f.stop - f.start) ≠ b'.bytesAt f'.start (f'.stop - f'.start) := by
  intro c c' d d' compiled
  have hroom : maxFunctionSize ≤ (CodeBuffer.ofSize 4096).remaining := by decide
  have hcompiled (c : Config) : ∃ f b, compiled c = .ok f b := by
    obtain ⟨-, f, b, -, hok, -⟩ :=
      function_ok (Key.ofConfig c {}).features ⟨0x1000, 0x2000⟩ 0x10000 hroom
    exact ⟨f, b, hok⟩
  obtain ⟨f, b, hok⟩ := hcompiled c
  obtain ⟨f', b', hok'⟩ := hcompiled c'
  obtain ⟨g, e, hfog⟩ := hcompiled d
  obtain ⟨g', e', hfog'⟩ := hcompiled d'
  refine ⟨by decide, ⟨f, b, f', b', hok, hok', ?_⟩, g, e, g', e', hfog, hfog', fun hbytes => ?_⟩
  · exact (byte_identical_iff hok hok').2 rfl rfl rfl (by decide)
  · exact absurd ((byte_identical_iff hfog hfog').1 hbytes) (by decide +kernel)

/-- Without stencil bits the answer of a stencil test is known when it is compiled, but its
reference is kept: two keys, one function. -/
theorem byte_identical_with_two_words :
    let c : Config :=
      { format := .rgb565, stencilTest := some ⟨.equal, 0x40, .keep, .keep, .keep⟩ }
    let c' : Config := { c with stencilTest := some ⟨.equal, 0x41, .keep, .keep, .keep⟩ }
    let compiled (c : Config) := function (Key.ofConfig c {}).features ⟨0x1000, 0x2000⟩ 0x10000
      (CodeBuffer.ofSize 4096)
    (Key.ofConfig c {}).word ≠ (Key.ofConfig c' {}).word ∧
      ∃ f b f' b', compiled c = .ok f b ∧ compiled c' = .ok f' b' ∧
        b.bytesAt f.start (f.stop - f.start) = b'.bytesAt f'.start (f'.stop - f'.start) := by
  intro c c' compiled
  have hroom : maxFunctionSize ≤ (CodeBuffer.ofSize 4096).remaining := by decide
  obtain ⟨-, f, b, -, hok, -⟩ :=
    function_ok (Key.ofConfig c {}).features ⟨0x1000, 0x2000⟩ 0x10000 hroom
  obtain ⟨-, f', b', -, hok', -⟩ :=
    function_ok (Key.ofConfig c' {}).features ⟨0x1000, 0x2000⟩ 0x10000 hroom
  exact ⟨by decide, f, b, f', b', hok, hok',
    bytesAt_eq_of_settled (tidy_features c {}) (tidy_features c' {}) hok hok' rfl (by decide)⟩

end Compile

end PixelPipeline
