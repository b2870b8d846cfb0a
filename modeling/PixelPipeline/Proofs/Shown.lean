/-
# Proofs.Shown — every stage shows its steps

Stage by stage, what is seen of the code is the rows of the steps that the features
name (`Features.steps`), and what is known is handed on from each to the next.
-/
import PixelPipeline.Proofs.Places
import PixelPipeline.Proofs.Ways

namespace PixelPipeline

open X86 Compile

/-- The working color is recognised, and the stencil value if it has been loaded. -/
abbrev Eye.at_ (c : Xmm) (stored : Option Xmm) (stencil : Option Reg) : Eye :=
  ⟨some c, none, stored, stencil⟩

/-! ## Steps -/

/-- Neither a stencil value is loaded, nor the depth stored, nor are colors joined. -/
def Step.plain : Step → Bool
  | .loadStencil _ | .storeDepth | .blend .. => false
  | _ => true

/-- A property of the steps that tests of stored values are made of, but for the one that
loads the stencil value. -/
structure Step.Tested (P : Step → Prop) : Prop where
  leave : P .leave
  stencil : ∀ func reference masked, P (.checkStencil func reference masked)
  depth : ∀ func, P (.checkDepth func)
  update : ∀ u, P (.update u)
  store : ∀ format masked, P (.storeStencil format masked)

theorem Step.tested_plain : Tested (·.plain = true) :=
  ⟨rfl, fun _ _ _ => rfl, fun _ => rfl, fun _ => rfl, fun _ _ => rfl⟩

theorem loadedBy_of_plain {loaded : Option PixelFormat} {ss : List Step} (h : ∀ s ∈ ss, s.plain = true) :
    loadedBy loaded ss = loaded := by
  induction ss generalizing loaded with
  | nil => rfl
  | cons s rest ih =>
    have hs : s.next loaded = loaded := by
      have := h s List.mem_cons_self
      cases s <;> first | rfl | cases this
    rw [loadedBy, List.foldl_cons, hs]
    exact ih fun s hs => h s (List.mem_cons_of_mem _ hs)

theorem loadedBy_append (loaded : Option PixelFormat) (ss ss' : List Step) :
    loadedBy loaded (ss ++ ss') = loadedBy (loadedBy loaded ss) ss' := List.foldl_append

namespace Features

section

variable {func : Comparison} {pass : Cond} (check : Comparing → Step) (failed : List Step)

theorem compares_of_mirrored (h : mirroredPassCond func = some pass) : func.compares = true := by
  cases func <;> first | rfl | cases h

theorem checkSteps_of_compares (h : func.compares = true) :
    checkSteps func check failed = check ⟨func, h⟩ :: failed := dif_pos h

theorem checkSteps_of_none (h : passCond func = none) : checkSteps func check failed = [] :=
  dif_neg fun hc => by cases func <;> cases h <;> cases hc

theorem checkSteps_of_mirrored_none (h : mirroredPassCond func = none) :
    checkSteps func check failed = [] :=
  dif_neg fun hc => by cases func <;> cases h <;> cases hc

theorem ne_never_of_compares (h : func.compares = true) : func ≠ .never := by
  rintro rfl
  cases h

theorem forall_checkSteps {P : Step → Prop} {check : Comparing → Step} {failed : List Step}
    (hcheck : ∀ func, P (check func)) (hfailed : ∀ s ∈ failed, P s) :
    ∀ s ∈ checkSteps func check failed, P s := by
  unfold checkSteps
  split
  · exact List.forall_mem_cons.mpr ⟨hcheck _, hfailed⟩
  · exact fun _ hs => absurd hs List.not_mem_nil

end

variable (f : Features) {P : Step → Prop} (hP : Step.Tested P)

include hP

theorem forall_failSteps (action : StencilAction) : ∀ s ∈ f.failSteps action, P s := by
  refine List.forall_mem_append.mpr ⟨List.forall_mem_append.mpr
    ⟨List.forall_mem_map.mpr fun u _ => hP.update u, ?_⟩, List.forall_mem_singleton.mpr hP.leave⟩
  split
  · exact fun _ hs => absurd hs List.not_mem_nil
  · exact List.forall_mem_singleton.mpr (hP.store _ _)

theorem forall_updatingSteps (func : Comparison) {check : Comparing → Step}
    (hcheck : ∀ func, P (check func)) (action : StencilAction) :
    ∀ s ∈ f.updatingSteps func check action, P s := by
  unfold updatingSteps
  split
  · exact f.forall_failSteps hP action
  · exact forall_checkSteps hcheck (f.forall_failSteps hP action)

end Features

/-! ## Tests of the fragment -/

namespace Emit.Tells

/-- The color argument is moved to the register of the working color. -/
theorem enterColor {f : Features} {ways : Ways} :
    Tells f ⟨none, none, none, none⟩ ⟨none, none, none, ways⟩ enterColor [] fun _ e₁ w₁ =>
      ∃ c, e₁ = .at_ c none none ∧ w₁ = ⟨some c, none, none, ways⟩ := by
  dsimp only [Compile.enterColor]
  refine (Shows.mark (e := ⟨none, none, none, none⟩) .clampColor).tells.bind_nothing fun _ e₁ w₁ h => ?_
  obtain ⟨rfl, rfl⟩ := h
  refine allocColor.bind_nothing fun x e₁ w₁ h => ?_
  obtain ⟨rfl, rfl⟩ := h
  have hmov (g : Reg) : Instr.Seen ⟨none, none, none, none⟩ (.movdToVec x g) [] (.at_ x none none) :=
    ⟨rfl, rfl, rfl, rfl⟩
  exact (Shows.of_eq inferInstance rfl :
    Shows f _ _ _ _ (.at_ x none none) ⟨some x, none, none, ways⟩).tells.mono
      fun _ _ _ h => ⟨x, h⟩

end Emit.Tells

namespace Emit.Shows

variable (env : Env) {e : Eye} {c : Xmm} {stencil : Option Reg} {ways : Ways} {w : Ties}

theorem depthRange [e.HoldsStencil w] : Shows env.features e w (depthRange env)
    (rows none (if env.features.depthRange then [.checkRange] else [])) e w := by
  dsimp only [Compile.depthRange]
  refine of_eq inferInstance ?_
  cases env.features.depthRange <;> cases needsDepthAddr env.features <;> rfl

theorem compareAlpha {pass : Cond} (func : Comparing) (hpass : passCond func = some pass) :
    Shows env.features (.at_ c none none) ⟨some c, none, none, ways⟩ (compareAlpha env pass)
      (Step.sketch none (.checkAlpha func env.features.alphaRef env.features.alphaMasked))
      (.at_ c none none) ⟨some c, none, none, ways⟩ := by
  dsimp only [Compile.compareAlpha]
  refine of_eq inferInstance ?_
  rw [Step.sketch, Comparing.pass, hpass]
  cases env.features.alphaMasked <;> rfl

theorem alphaTest : Shows env.features (.at_ c none none) ⟨some c, none, none, ways⟩ (alphaTest env)
    (rows none env.features.alphaSteps) (.at_ c none none) ⟨some c, none, none, ways⟩ := by
  dsimp only [Compile.alphaTest]
  cases hpass : passCond env.features.alphaFunc with
  | some pass =>
    have := @compareAlpha env c ways pass ⟨_, compares_of_passCond hpass⟩ hpass
    refine of_eq inferInstance ?_
    have hc := compares_of_passCond hpass
    rw [Features.alphaSteps, if_neg (Features.ne_never_of_compares hc),
      Features.checkSteps_of_compares _ _ hc, rows_singleton]
    rfl
  | none =>
    refine of_eq inferInstance ?_
    rw [Features.alphaSteps, Features.checkSteps_of_none _ _ hpass]
    split <;> rfl

/-- The color and that of the fog are widened, and each takes its share. -/
instance blendFog : Shows env.features (.at_ c none none) ⟨some c, none, none, ways⟩ (blendFog env)
    (Step.sketch none .fog) (.at_ c none none) ⟨some c, none, none, ways⟩ := by
  dsimp only [Compile.blendFog]
  exact of_eq (.seq inferInstance fun fogColor => .seq inferInstance fun state =>
    .seq inferInstance fun _ => .seq inferInstance fun _ => .seq inferInstance fun _ =>
      .seq inferInstance fun rest => .seq inferInstance fun color => .seq inferInstance fun _ =>
        .seq inferInstance fun alpha => .seq inferInstance fun _ =>
          .seq inferInstance fun amount => inferInstance) rfl

theorem fog : Shows env.features (.at_ c none none) ⟨some c, none, none, ways⟩ (fog env)
    (rows none (if env.features.fog then [.fog] else [])) (.at_ c none none)
    ⟨some c, none, none, ways⟩ := by
  dsimp only [Compile.fog]
  refine of_eq inferInstance ?_
  split <;> rfl

/-- The function of the color test is compared twice, and the colors once on each way but one. -/
instance dispatchColorTest {func reference masked : Reg} :
    Shows env.features (.at_ c none none) ⟨some c, none, none, ways⟩
      (dispatchColorTest func reference masked)
      [.aluImm .cmp false .rax (ColorTest.always.code.setWidth 32), .jumpIf .b 0, .jumpIf .e 0,
        .aluImm .cmp false .rax (ColorTest.equal.code.setWidth 32), .jumpIf .e 0, .jumpIf .e 0,
        .jump 0, .jumpIf .ne 0] (.at_ c none none) ⟨some c, none, none, ways⟩ := by
  dsimp only [Compile.dispatchColorTest]
  exact of_eq inferInstance rfl

theorem colorTest : Shows env.features (.at_ c none none) ⟨some c, none, none, ways⟩ (colorTest env)
    (rows none (if env.features.colorTest then [.checkColor] else [])) (.at_ c none none)
    ⟨some c, none, none, ways⟩ := by
  dsimp only [Compile.colorTest]
  refine seq_nil inferInstance fun _ => ?_
  cases env.features.colorTest with
  | false => exact of_eq inferInstance rfl
  | true =>
    exact of_eq (.seq inferInstance fun state => .seq inferInstance fun func =>
      .seq inferInstance fun masked => .seq inferInstance fun reference => inferInstance) rfl

end Emit.Shows

/-! ## Tests of stored values -/

namespace Emit.Tells

variable (env : Env) {c : Xmm} {ways : Ways}

theorem storedStencil {paired deep : Bool} {depth : Way} (h : env.features.format.hasStencil = true) :
    (storedStencil env).Tells env.features (.at_ c none none)
      ⟨some c, none, none, ⟨paired, deep, .settled, depth⟩⟩ [env.features.format.loadsStencil]
      fun o e₁ w₁ => ∃ st, o = some st ∧ e₁ = .at_ c none (some st) ∧
        w₁ = ⟨some c, none, some st, ⟨paired, deep, .settled, depth⟩⟩ := by
  dsimp only [Compile.storedStencil]
  rw [h, if_neg (by decide)]
  refine behind (Shows.colorAddr env) fun addr => ?_
  refine allocStencil.bind_nothing fun st e₁ w₁ h' => ?_
  obtain ⟨rfl, rfl⟩ := h'
  cases hformat : env.features.format with
  | rgb565 =>
    rw [hformat] at h
    cases h
  | rgba5551 =>
    have (g : Reg) : Instr.Seen (.at_ c none none) (.loadExt .signByte st (atOffset g 1))
        [PixelFormat.rgba5551.loadsStencil] (.at_ c none (some st)) := ⟨rfl, rfl, rfl, rfl⟩
    exact of_shows rfl ⟨st, rfl, rfl, rfl⟩
  | rgba4444 =>
    have (g : Reg) : Instr.Seen (.at_ c none none) (.loadExt .zeroByte st (atOffset g 1))
        [PixelFormat.rgba4444.loadsStencil] (.at_ c none (some st)) := ⟨rfl, rfl, rfl, rfl⟩
    exact of_shows rfl ⟨st, rfl, rfl, rfl⟩
  | rgba8888 =>
    have (g : Reg) : Instr.Seen (.at_ c none none) (.loadExt .zeroByte st (atOffset g 3))
        [PixelFormat.rgba8888.loadsStencil] (.at_ c none (some st)) := ⟨rfl, rfl, rfl, rfl⟩
    exact of_shows rfl ⟨st, rfl, rfl, rfl⟩

end Emit.Tells

namespace Emit.Shows

variable (env : Env) {e : Eye} {w : Ties} {c : Xmm} {st : Reg} {ways : Ways}

instance replaceStencil : Shows env.features (.at_ c none (some st)) ⟨some c, none, some st, ways⟩
    (replaceStencil env st) (rows (some env.features.format) ((env.features.updates .replace).map .update))
    (.at_ c none (some st)) ⟨some c, none, some st, ways⟩ := by
  dsimp only [Compile.replaceStencil]
  refine of_eq inferInstance ?_
  rw [Features.updates]
  split <;> rfl

theorem incrementStencil {format : PixelFormat} (hformat : env.features.format = format) :
    Shows env.features (.at_ c none (some st)) ⟨some c, none, some st, ways⟩ (incrementStencil format st)
      (rows (some format) ((env.features.updates .increment).map .update)) (.at_ c none (some st))
      ⟨some c, none, some st, ways⟩ := by
  rw [Features.updates, hformat]
  unfold Compile.incrementStencil
  cases format <;> exact of_eq inferInstance rfl

theorem decrementStencil {format : PixelFormat} (hformat : env.features.format = format) :
    Shows env.features (.at_ c none (some st)) ⟨some c, none, some st, ways⟩ (decrementStencil format st)
      (rows (some format) ((env.features.updates .decrement).map .update)) (.at_ c none (some st))
      ⟨some c, none, some st, ways⟩ := by
  rw [Features.updates, hformat]
  unfold Compile.decrementStencil
  cases format <;> exact of_eq inferInstance rfl

instance updateStencil (action : StencilAction) :
    Shows env.features (.at_ c none (some st)) ⟨some c, none, some st, ways⟩ (updateStencil env action st)
      (rows (some env.features.format) ((env.features.updates action).map .update)) (.at_ c none (some st))
      ⟨some c, none, some st, ways⟩ := by
  unfold Compile.updateStencil
  cases action with
  | keep => exact of_eq inferInstance rfl
  | zero => exact of_eq inferInstance rfl
  | replace => exact replaceStencil env
  | invert => exact of_eq inferInstance rfl
  | increment => exact incrementStencil env rfl
  | decrement => exact decrementStencil env rfl

/-- The stencil bits alone are stored. -/
instance storeStencilMasked [e.HoldsStencil w] {addr : Reg} {format : PixelFormat} :
    Shows env.features e w
      (storeStencilMasked env addr st (stencilByte format).1 (stencilByte format).2)
      (format.storesStencil true) e w := by
  dsimp only [Compile.storeStencilMasked]
  cases format <;> exact of_eq inferInstance rfl

instance storeStencilPlain {addr : Reg} {format : PixelFormat} :
    Shows env.features e w (storeStencilPlain addr st (stencilByte format).1 (stencilByte format).2)
      (format.storesStencil false) e w := by
  dsimp only [Compile.storeStencilPlain]
  cases format <;> exact of_eq inferInstance rfl

section

variable {paired deep : Bool} {depth : Way}

theorem writeStencilOnly (h : env.features.format.hasStencil = true) :
    Shows env.features (.at_ c none (some st)) ⟨some c, none, some st, ⟨paired, deep, .settled, depth⟩⟩
      (writeStencilOnly env st) (env.features.format.storesStencil env.features.writeMasked)
      (.at_ c none (some st)) ⟨some c, none, some st, ⟨paired, deep, .settled, depth⟩⟩ := by
  dsimp only [Compile.writeStencilOnly]
  rw [if_pos h]
  refine of_eq inferInstance ?_
  cases env.features.writeMasked <;> exact List.append_nil _

/-- A pixel that fails updates the stencil value and leaves. -/
theorem failStencil (h : env.features.format.hasStencil = true) (action : StencilAction) :
    Shows env.features (.at_ c none (some st)) ⟨some c, none, some st, ⟨paired, deep, .settled, depth⟩⟩
      (failStencil env action) (rows (some env.features.format) (env.features.failSteps action))
      (.at_ c none (some st)) ⟨some c, none, some st, ⟨paired, deep, .settled, depth⟩⟩ := by
  dsimp only [Compile.failStencil]
  by_cases hkeep : action = .keep
  · subst hkeep
    rw [if_neg (not_not_intro rfl)]
    exact of_eq inferInstance rfl
  · have := @writeStencilOnly env c st paired deep depth h
    rw [if_pos hkeep, Features.failSteps, if_neg hkeep]
    refine of_eq inferInstance ?_
    rw [rows_append, rows_append, loadedBy_of_plain (List.forall_mem_map.mpr fun _ _ => rfl),
      rows_singleton, rows_singleton, List.append_assoc]
    rfl

end

/-! ### The stencil test -/

instance compareStencil : Shows env.features (.at_ c none (some st)) ⟨some c, none, some st, ways⟩
    (compareStencil env st)
    ((if env.features.stencilMasked then [.loadExt .zeroByte .rax (cell DrawState.stencilMaskAt)] else []) ++
      [.aluImm .cmp false .rax (env.features.stencilRef.setWidth 32)])
    (.at_ c none (some st)) ⟨some c, none, some st, ways⟩ := by
  dsimp only [Compile.compareStencil]
  refine of_eq inferInstance ?_
  cases env.features.stencilMasked <;> rfl

section

variable {paired deep : Bool} {depth : Way}

theorem stencilTest (h : env.features.format.hasStencil = true) :
    Shows env.features (.at_ c none (some st)) ⟨some c, none, some st, ⟨paired, deep, .settled, depth⟩⟩
      (stencilTest env st)
      (rows (some env.features.format) (env.features.updatingSteps env.features.stencilFunc
        (.checkStencil · env.features.stencilRef env.features.stencilMasked) env.features.stencilFail))
      (.at_ c none (some st)) ⟨some c, none, some st, ⟨paired, deep, .settled, depth⟩⟩ := by
  have := @failStencil env c st paired deep depth h env.features.stencilFail
  dsimp only [Compile.stencilTest]
  by_cases hnever : env.features.stencilFunc = .never
  · rw [if_pos hnever, Features.updatingSteps, if_pos hnever]
    exact this
  · rw [if_neg hnever, Features.updatingSteps, if_neg hnever]
    cases hpass : mirroredPassCond env.features.stencilFunc with
    | none =>
      rw [Features.checkSteps_of_mirrored_none _ _ hpass]
      exact of_eq inferInstance rfl
    | some pass =>
      rw [Features.checkSteps_of_compares _ _ (Features.compares_of_mirrored hpass)]
      refine of_eq inferInstance ?_
      rw [rows, Step.sketch, Comparing.mirrored, hpass, List.append_assoc, List.append_assoc]
      rfl

end

end Emit.Shows

namespace Emit

variable (env : Env) {e : Eye} {w : Ties} {c : Xmm} {st : Reg} {color stored : Option Xmm}
  {stencil : Option Reg} {deep : Bool} {way : Way}

/-! ### The depth test -/

namespace Shows

instance dropDepthArg : Shows env.features e w (dropDepthArg env) [] e w := by
  dsimp only [Compile.dropDepthArg]
  exact ite_same inferInstance inferInstance

section

variable {α : Type} {k : Option Cond → Emit α} {row : List Instr} {e₁ : Eye} {w₁ : Ties}

theorem bind_compareDepth_none (hpass : passCond env.features.depthFunc = none)
    [hk : Shows env.features e w (k none) row e₁ w₁] :
    Shows env.features e w (compareDepth env >>= k) row e₁ w₁ := by
  dsimp only [Compile.compareDepth]
  rw [hpass]
  refine ⟨(Tells.pure none).bind_nothing fun _ _ _ h => ?_⟩
  obtain ⟨rfl, rfl, rfl⟩ := h
  exact hk.tells

/-- The depth is compared, and what follows knows the condition. -/
theorem bind_compareDepth_some {pass : Cond} (hpass : passCond env.features.depthFunc = some pass)
    [he : e.HoldsStencil ⟨color, stored, stencil, ⟨true, deep, way, .settled⟩⟩]
    [hk : Shows env.features e ⟨color, stored, stencil, ⟨true, deep, way, .settled⟩⟩ (k (some pass))
      row e₁ w₁] :
    Shows env.features e ⟨color, stored, stencil, ⟨true, deep, way, .settled⟩⟩
      (compareDepth env >>= k) (.aluLoad .cmp .word .rax (cell 0) :: row) e₁ w₁ := by
  have : Shows env.features e ⟨color, stored, stencil, ⟨true, deep, way, .settled⟩⟩
      (Compile.depthAddr env) [] e ⟨color, stored, stencil, ⟨true, deep, way, .settled⟩⟩ :=
    Shows.depthAddr env (Bool.or_eq_true_iff.mpr (.inr (compares_of_passCond hpass)))
  have hcompare : (compareDepth env).Tells env.features e
      ⟨color, stored, stencil, ⟨true, deep, way, .settled⟩⟩ [.aluLoad .cmp .word .rax (cell 0)]
      fun o e₁ w₁ => o = some pass ∧ e₁ = e ∧
        w₁ = ⟨color, stored, stencil, ⟨true, deep, way, .settled⟩⟩ := by
    dsimp only [Compile.compareDepth]
    rw [hpass]
    exact Tells.of_shows rfl ⟨rfl, rfl, rfl⟩
  refine ⟨hcompare.bind fun _ _ _ h => ?_⟩
  obtain ⟨rfl, rfl, rfl⟩ := h
  exact hk.tells

end

/-- The depth test of a pixel that has no stencil value to update. -/
theorem depthTest : Shows env.features (.at_ c none none)
    ⟨some c, none, none, ⟨true, deep, way, .settled⟩⟩ (depthTest env) (rows none env.features.depthSteps)
    (.at_ c none none) ⟨some c, none, none, ⟨true, deep, way, .settled⟩⟩ := by
  dsimp only [Compile.depthTest]
  refine seq_nil inferInstance fun _ => ?_
  by_cases hnever : env.features.depthFunc = .never
  · rw [if_pos hnever, Features.depthSteps, if_pos hnever]
    exact of_eq inferInstance rfl
  · rw [if_neg hnever, Features.depthSteps, if_neg hnever]
    cases hpass : passCond env.features.depthFunc with
    | none =>
      refine of_eq (bind_compareDepth_none env hpass) ?_
      rw [Features.checkSteps_of_none _ _ hpass]
      rfl
    | some pass =>
      refine of_eq (bind_compareDepth_some env hpass) ?_
      rw [Features.checkSteps_of_compares _ _ (compares_of_passCond hpass), rows_singleton, Step.sketch,
        Comparing.pass, hpass]
      rfl

/-- The depth test of a pixel that updates the stencil value if it fails. -/
theorem depthTestUpdating (h : env.features.format.hasStencil = true) :
    Shows env.features (.at_ c none (some st)) ⟨some c, none, some st, ⟨true, deep, .settled, .settled⟩⟩
      (depthTestUpdating env)
      (rows (some env.features.format)
        (env.features.updatingSteps env.features.depthFunc .checkDepth env.features.depthFail))
      (.at_ c none (some st)) ⟨some c, none, some st, ⟨true, deep, .settled, .settled⟩⟩ := by
  have := @failStencil env c st true deep .settled h env.features.depthFail
  dsimp only [Compile.depthTestUpdating]
  refine seq_nil inferInstance fun _ => ?_
  by_cases hnever : env.features.depthFunc = .never
  · rw [if_pos hnever, Features.updatingSteps, if_pos hnever]
    exact of_eq inferInstance (List.append_nil _)
  · rw [if_neg hnever, Features.updatingSteps, if_neg hnever]
    cases hpass : passCond env.features.depthFunc with
    | none =>
      refine of_eq (bind_compareDepth_none env hpass) ?_
      rw [Features.checkSteps_of_none _ _ hpass]
      rfl
    | some pass =>
      refine of_eq (bind_compareDepth_some env hpass) ?_
      rw [Features.checkSteps_of_compares _ _ (compares_of_passCond hpass), rows, Step.sketch,
        Comparing.pass, hpass]
      exact congrArg _ (List.append_nil _)

end Shows

namespace Tells

/-- The tests of stored values.  Behind them it is known whether there is a stencil
value. -/
theorem storedTests : (storedTests env).Tells env.features (.at_ c none none)
    ⟨some c, none, none, ⟨true, deep, .settled, .settled⟩⟩ (rows none env.features.storedSteps)
    fun _ e₁ w₁ => ∃ stencil, stencil.isSome = env.features.loadsStencil ∧ e₁ = .at_ c none stencil ∧
      w₁ = ⟨some c, none, stencil, ⟨true, deep, .settled, .settled⟩⟩ := by
  dsimp only [Compile.storedTests, Compile.stencilAndDepthTest]
  cases htest : env.features.stencilTest with
  | false =>
    have hloads : env.features.loadsStencil = false := by rw [Features.loadsStencil, htest]; rfl
    rw [if_neg Bool.false_ne_true, Features.storedSteps, if_neg (Bool.eq_false_iff.mp hloads), htest]
    exact (Shows.depthTest env).tells.mono fun _ _ _ h => ⟨none, hloads.symm, h⟩
  | true =>
    rw [if_pos rfl]
    refine behind inferInstance fun _ => ?_
    cases hhas : env.features.format.hasStencil with
    | false =>
      have hloads : env.features.loadsStencil = false := by rw [Features.loadsStencil, hhas, Bool.and_false]
      have hstored : Compile.storedStencil env = Pure.pure none := by
        rw [Compile.storedStencil, hhas]
        rfl
      rw [hstored, Features.storedSteps, if_neg (Bool.eq_false_iff.mp hloads), htest]
      refine (Tells.pure none).bind_nothing fun _ e₁ w₁ h => ?_
      obtain ⟨rfl, rfl, rfl⟩ := h
      have hdepth := @Shows.depthTest env c deep .settled
      refine (Shows.tells.mono fun _ _ _ h => ⟨none, hloads.symm, h⟩).of_eq ?_
      cases env.features.stencilFunc.passes (env.features.stencilRef.setWidth 32) 0 <;> rfl
    | true =>
      have hloads : env.features.loadsStencil = true := by rw [Features.loadsStencil, hhas, htest]; rfl
      rw [Features.storedSteps, if_pos hloads]
      refine (Tells.storedStencil env hhas).bind fun _ e₁ w₁ h => ?_
      obtain ⟨st, rfl, rfl, rfl⟩ := h
      have := @Shows.stencilTest env c st true deep .settled hhas
      have := @Shows.depthTestUpdating env c st deep hhas
      refine (Shows.tells.mono fun _ _ _ h => ⟨some st, hloads.symm, h⟩).of_eq ?_
      rw [rows_append, rows_append, loadedBy_append,
        loadedBy_of_plain (env.features.forall_updatingSteps Step.tested_plain _ (fun _ => rfl) _),
        loadedBy_of_plain (env.features.forall_updatingSteps Step.tested_plain _ (fun _ => rfl) _)]
      simp only [List.nil_append, List.append_nil, List.append_assoc]
      rfl

end Tells

end Emit

end PixelPipeline
