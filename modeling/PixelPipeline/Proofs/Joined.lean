/-
# Proofs.Joined — what is seen of a blend

A blend is seen by the colors it multiplies and by the factors it builds.  The two
colors are recognised by their registers, which the table keeps apart; the routine
that widens a stored pixel is seen by its bits of blue alone.
-/
import PixelPipeline.Proofs.Shown

namespace PixelPipeline

open X86 Compile

/-- What is left of the stored color under the factor zero is as well added as subtracted. -/
theorem Mix.sketch_factors (equation : BlendEquation) (src dst : BlendFactor) :
    (Mix.factors (if equation = .subtract ∧ dst = .zero then .add else equation) src dst).sketch =
      scaled src dst ++ ((if src = .zero then [.packed .pxor ⟨1⟩ ⟨1⟩] else []) ++
        ((if dst = .zero ∧ equation = .reverseSubtract then [.packed .pxor ⟨0⟩ ⟨0⟩] else []) ++
          (if equation = .subtract ∧ dst = .zero then .add else equation).sketch (dst == .zero))) := by
  rw [Mix.sketch, List.append_assoc, List.append_assoc]
  by_cases h : equation = .subtract ∧ dst = .zero
  · rw [if_pos h]
    obtain ⟨rfl, rfl⟩ := h
    rfl
  · rw [if_neg h]

namespace Emit

section

variable {f : Features} {e e₁ : Eye} {w : Ties} {row : List Instr}

/-- A routine without branches. -/
theorem Shows.ops {is : List Instr} (hencodable : is.all (·.encodable) = true)
    (hplain : is.all (·.line.plain) = true) (hsees : e.scan (is.map Instr.line) = row)
    (hafter : e.after (is.map Instr.line) = e₁) : Shows f e w (Emit.ops is) row e₁ w := by
  have hlines : (Code.ofInstrs is).lines [] = is.map Instr.line :=
    (Code.lines_ofInstrs is []).trans (List.append_nil _)
  refine ⟨.put (Code.encodable_ofInstrs (List.all_eq_true.mp hencodable)) (fun ls => ?_)
    (hlines.symm ▸ hsees) (hlines.symm ▸ hafter) fun l hl => ?_⟩
  · rw [hlines, Code.lines_ofInstrs]
  · rw [hlines] at hl
    obtain ⟨i, hi, rfl⟩ := List.mem_map.mp hl
    exact Instr.apt_of_plain (List.all_eq_true.mp hplain i hi)

end

variable (env : Env) {c x : Xmm} {stored : Option Xmm} {stencil : Option Reg}
  {paired deep : Bool} {depth : Way} {ways : Ways}

/-! ## The depth write -/

/-- The depth is written, and the depth address is not asked for again. -/
theorem Shows.writeDepth : Shows env.features (.at_ c none stencil)
    ⟨some c, none, stencil, ⟨true, deep, .settled, .settled⟩⟩ (writeDepth env)
    (rows (loadedBy none env.features.storedSteps) (if env.features.depthWrite then [.storeDepth] else []))
    (.at_ c none stencil) ⟨some c, none, stencil, ⟨false, false, .settled,
      if env.features.depthWrite then .behind else .settled⟩⟩ := by
  dsimp only [Compile.writeDepth]
  cases hwrite : env.features.depthWrite with
  | false =>
    rw [if_neg Bool.false_ne_true, if_neg Bool.false_ne_true, if_neg Bool.false_ne_true]
    exact of_eq inferInstance rfl
  | true =>
    have : Shows env.features (.at_ c none stencil)
        ⟨some c, none, stencil, ⟨true, deep, .settled, .settled⟩⟩ (Compile.depthAddr env) []
        (.at_ c none stencil) ⟨some c, none, stencil, ⟨true, deep, .settled, .behind⟩⟩ :=
      ⟨Tells.depthAddr env (Bool.or_eq_true_iff.mpr (.inl hwrite)) rfl fun h => by cases h⟩
    rw [if_pos rfl, if_pos rfl, if_pos rfl]
    exact of_eq inferInstance rfl

/-! ## The stored color -/

/-- A stored pixel is seen by its bits of blue as it is widened. -/
theorem Shows.widen {format : PixelFormat} (hformat : format ≠ .rgba8888) {e : Eye} {w : Ties}
    {color t₁ t₂ : Reg} {keepAlpha : Bool} :
    Shows env.features e w (Emit.ops (Conversion.widen format color t₁ t₂ keepAlpha))
      [.aluImm .and false .rax format.blueMask] e w := by
  cases format with
  | rgba8888 => exact absurd rfl hformat
  | _ => cases keepAlpha <;> exact ops rfl rfl rfl rfl

namespace Tells

/-- A 16-bit pixel is loaded and widened. -/
theorem loadNarrow {format : PixelFormat} (hformat : format ≠ .rgba8888) (keepAlpha : Bool) {addr : Reg} :
    Tells env.features (.at_ c none stencil) ⟨some c, some x, stencil, ways⟩ (do
      let pixel ← Emit.allocGen .gen0
      let t₁ ← Emit.allocGen .gen1
      let t₂ ← Emit.allocGen .gen2
      Emit.op (.loadExt .zeroWord pixel (atOffset addr 0))
      Emit.ops (Conversion.widen format pixel t₁ t₂ keepAlpha)
      Emit.op (.movdToVec x pixel)
      Emit.release .gen2
      Emit.release .gen1
      Emit.release .gen0
      Emit.unlock .colorAddr
      Pure.pure x) format.loads fun a e₁ w₁ =>
        a = x ∧ e₁ = .at_ c (some x) stencil ∧ w₁ = ⟨some c, some x, stencil, ways⟩ := by
  have hload (pixel g : Reg) : Instr.Seen (.at_ c none stencil) (.loadExt .zeroWord pixel (atOffset g 0))
      [.loadExt .zeroWord .rax (cell 0)] ⟨some c, some pixel, none, stencil⟩ := ⟨rfl, rfl, rfl, rfl⟩
  have hmove (pixel : Reg) : Instr.Seen ⟨some c, some pixel, none, stencil⟩ (.movdToVec x pixel) []
      (.at_ c (some x) stencil) := by
    refine ⟨rfl, ?_, rfl, rfl⟩
    show (if some pixel = some pixel then _ else _ : Eye) = _
    exact if_pos rfl
  have hwiden (e : Eye) (w : Ties) (color t₁ t₂ : Reg) :=
    @Shows.widen env format hformat e w color t₁ t₂ keepAlpha
  refine of_shows ?_ ⟨rfl, rfl, rfl⟩
  cases format with
  | rgba8888 => exact absurd rfl hformat
  | _ => rfl

/-- The stored color is recognised from here on, by a register of its own. -/
theorem loadStoredColor (keepAlpha : Bool) :
    (loadStoredColor env keepAlpha).Tells env.features (.at_ c none stencil)
      ⟨some c, none, stencil, ⟨paired, deep, .settled, depth⟩⟩ env.features.format.loads fun x e₁ w₁ =>
        c ≠ x ∧ e₁ = .at_ c (some x) stencil ∧
          w₁ = ⟨some c, some x, stencil, ⟨paired, deep, .settled, depth⟩⟩ := by
  dsimp only [Compile.loadStoredColor]
  refine behind (Shows.colorAddr env) fun addr => ?_
  have hload : Tells env.features (.at_ c none stencil)
      ⟨some c, none, stencil, ⟨paired, deep, .settled, depth⟩⟩ (do
        let dst ← Emit.allocVec .vec0
        if env.features.format = .rgba8888 then
          Emit.op (.movdLoad dst (atOffset addr 0))
          Emit.unlock .colorAddr
          Pure.pure dst
        else
          let pixel ← Emit.allocGen .gen0
          let t₁ ← Emit.allocGen .gen1
          let t₂ ← Emit.allocGen .gen2
          Emit.op (.loadExt .zeroWord pixel (atOffset addr 0))
          Emit.ops (Conversion.widen env.features.format pixel t₁ t₂ keepAlpha)
          Emit.op (.movdToVec dst pixel)
          Emit.release .gen2
          Emit.release .gen1
          Emit.release .gen0
          Emit.unlock .colorAddr
          Pure.pure dst) env.features.format.loads fun x e₁ w₁ =>
        c ≠ x ∧ e₁ = .at_ c (some x) stencil ∧
          w₁ = ⟨some c, some x, stencil, ⟨paired, deep, .settled, depth⟩⟩ := by
    refine allocStored.bind_nothing fun x e₁ w₁ h => ?_
    obtain ⟨rfl, rfl, hne⟩ := h
    have hne : c ≠ x := fun h => hne (congrArg some h)
    by_cases hformat : env.features.format = .rgba8888
    · have hmove (g : Reg) : Instr.Seen (.at_ c none stencil) (.movdLoad x (atOffset g 0))
          [.movdLoad ⟨0⟩ (cell 0)] (.at_ c (some x) stencil) := ⟨rfl, rfl, rfl, rfl⟩
      rw [if_pos hformat, hformat]
      exact of_shows rfl ⟨hne, rfl, rfl⟩
    · rw [if_neg hformat]
      exact (loadNarrow env hformat keepAlpha).mono fun _ _ _ h => ⟨h.1 ▸ hne, h.1 ▸ h.2⟩
  split
  · exact behind inferInstance fun _ => behind inferInstance fun _ => hload
  · exact hload

end Tells

/-! ## Factors -/

namespace Shows

section

variable {v : Xmm} {factor : BlendFactor} (hne : c ≠ x) (hfactor : factor.isTrivial = false)

include hne hfactor

theorem factorValue (forDst : Bool) : Shows env.features (.at_ c (some x) stencil)
    ⟨some c, some x, stencil, ways⟩ (factorValue env factor v c x forDst) (factor.value forDst)
    (.at_ c (some x) stencil) ⟨some c, some x, stencil, ways⟩ := by
  have hsource : (Eye.at_ c (some x) stencil).shade c = ⟨1⟩ := if_pos rfl
  have hstored : (Eye.at_ c (some x) stencil).shade x = ⟨0⟩ := if_neg fun h => hne (Option.some.inj h)
  have : DrawState.Field (if forDst then DrawState.blendFixBAt else DrawState.blendFixAAt) := by
    cases forDst with
    | false => exact inferInstanceAs (DrawState.Field DrawState.blendFixAAt)
    | true => exact inferInstanceAs (DrawState.Field DrawState.blendFixBAt)
  unfold Compile.factorValue
  cases factor with
  | zero => cases hfactor
  | one => cases hfactor
  | fixed => exact of_eq inferInstance rfl
  | otherColor => exact of_eq inferInstance rfl
  | invOtherColor => exact of_eq inferInstance rfl
  | srcAlpha => exact of_eq inferInstance (by rw [hsource]; rfl)
  | invSrcAlpha => exact of_eq inferInstance (by rw [hsource]; rfl)
  | doubleSrcAlpha => exact of_eq inferInstance (by rw [hsource]; rfl)
  | doubleInvSrcAlpha => exact of_eq inferInstance (by rw [hsource]; rfl)
  | dstAlpha => exact of_eq inferInstance (by rw [hstored]; rfl)
  | invDstAlpha => exact of_eq inferInstance (by rw [hstored]; rfl)
  | doubleDstAlpha => exact of_eq inferInstance (by rw [hstored]; rfl)
  | doubleInvDstAlpha => exact of_eq inferInstance (by rw [hstored]; rfl)

theorem blendFactor (role : Role) [role.Local] (forDst : Bool) :
    Shows env.features (.at_ c (some x) stencil) ⟨some c, some x, stencil, ways⟩
      (blendFactor env role factor c x forDst) (factor.sketch forDst) (.at_ c (some x) stencil)
      ⟨some c, some x, stencil, ways⟩ := by
  have (v : Xmm) := @factorValue env c x stencil ways v factor hne hfactor forDst
  dsimp only [Compile.blendFactor]
  refine seq_nil inferInstance fun r => ?_
  split <;> rename_i hinverse
  · refine of_eq (.seq inferInstance fun v => inferInstance) ?_
    cases factor <;> first | rfl | cases hinverse
  · refine of_eq inferInstance ?_
    cases factor <;> first | rfl | exact absurd rfl hinverse

end

end Shows

/-! ## Scaling -/

/-- The value of an action is handed on in another form. -/
theorem Tells.lift {α β : Type} {f : Features} {e e₁ : Eye} {w w₁ : Ties} {row : List Instr} {m : Emit α}
    {g : α → β} {Q : β → Eye → Ties → Prop} (hm : Shows f e w m row e₁ w₁) (hq : ∀ a, Q (g a) e₁ w₁) :
    Tells f e w (m >>= fun a => Pure.pure (g a)) row Q := by
  refine Tells.of_eq (hm.tells.bind fun a _ _ h => ?_) (List.append_nil row)
  obtain ⟨rfl, rfl⟩ := h
  refine (Tells.pure (g a)).mono fun b _ _ h => ?_
  obtain ⟨rfl, rfl, rfl⟩ := h
  exact hq a

theorem isTrivial_of_inversePair : ∀ {src dst : BlendFactor}, BlendPlan.inversePair src dst = true →
    src.isTrivial = false := by
  intro src dst h
  cases src <;> first | rfl | cases h

section

variable (hne : c ≠ x)

include hne

/-- A factor that is the inverse of the other one is made from it. -/
theorem Tells.dstFactor {src dst : BlendFactor} (hdst : env.features.blendDst = dst) {sf : Option Xmm}
    (hsf : sf.isSome = !src.isTrivial) :
    (dstFactor env (.ofFactors src dst) sf c x).Tells env.features (.at_ c (some x) stencil)
      ⟨some c, some x, stencil, ways⟩
      (if dst.isTrivial then []
        else if BlendPlan.inversePair src dst then BlendFactor.inverted else dst.sketch true)
      fun o e₁ w₁ => o.isSome = !dst.isTrivial ∧ e₁ = .at_ c (some x) stencil ∧
        w₁ = ⟨some c, some x, stencil, ways⟩ := by
  dsimp only [Compile.dstFactor, BlendPlan.ofFactors]
  rw [hdst]
  cases htrivial : dst.isTrivial with
  | true =>
    rw [if_pos (show (!!true) = true from rfl), if_pos rfl]
    exact of_shows rfl ⟨rfl, rfl, rfl⟩
  | false =>
    rw [if_neg (by decide), if_neg Bool.false_ne_true]
    have hbuilt := @Shows.blendFactor env c x stencil ways _ hne htrivial .vec2 _ true
    cases hpair : BlendPlan.inversePair src dst with
    | false =>
      rw [if_neg Bool.false_ne_true]
      cases sf <;> exact lift hbuilt fun _ => ⟨rfl, rfl, rfl⟩
    | true =>
      rw [if_pos rfl]
      obtain ⟨s, rfl⟩ := Option.isSome_iff_exists.mp (hsf.trans (by rw [isTrivial_of_inversePair hpair]; rfl))
      refine (Shows.tells : Emit.Tells _ _ _ _ [_] _).bind fun df _ _ h => ?_
      obtain ⟨rfl, rfl⟩ := h
      exact lift inferInstance fun _ => ⟨rfl, rfl, rfl⟩

/-- Colors are multiplied by the factors that have been built. -/
theorem Shows.multiply (sf df : Option Xmm) : Shows env.features (.at_ c (some x) stencil)
    ⟨some c, some x, stencil, ways⟩ (do
      if sf.isSome || df.isSome then
        let half ← Compile.loadConst env .vec3 VectorPool.halfAt
        scaleBy half c sf
        scaleBy half x df
        Emit.release .vec3
        Emit.release .vec2
        Emit.release .vec1)
    (if sf.isSome || df.isSome then
      .packedLoad .movdqa ⟨0⟩ (cell VectorPool.halfAt) ::
        ((if sf.isSome then times ⟨1⟩ else []) ++ (if df.isSome then times ⟨0⟩ else []))
    else []) (.at_ c (some x) stencil) ⟨some c, some x, stencil, ways⟩ := by
  have hsource : (Eye.at_ c (some x) stencil).shade c = ⟨1⟩ := if_pos rfl
  have hstored : (Eye.at_ c (some x) stencil).shade x = ⟨0⟩ := if_neg fun h => hne (Option.some.inj h)
  dsimp only [scaleBy]
  cases sf with
  | none =>
    cases df with
    | none => exact of_eq inferInstance rfl
    | some g => exact of_eq inferInstance (by rw [hstored]; rfl)
  | some g =>
    cases df with
    | none => exact of_eq inferInstance (by rw [hsource]; rfl)
    | some h => exact of_eq inferInstance (by rw [hsource, hstored]; rfl)

/-- Both colors are scaled. -/
theorem Shows.scaleColors {src dst : BlendFactor} (hsrc : env.features.blendSrc = src)
    (hdst : env.features.blendDst = dst) : Shows env.features (.at_ c (some x) stencil)
      ⟨some c, some x, stencil, ways⟩ (scaleColors env (.ofFactors src dst) c x) (scaled src dst)
      (.at_ c (some x) stencil) ⟨some c, some x, stencil, ways⟩ := by
  have hrest (sf : Option Xmm) (hsf : sf.isSome = !src.isTrivial) : Tells env.features
      (.at_ c (some x) stencil) ⟨some c, some x, stencil, ways⟩ (do
        let df ← dstFactor env (.ofFactors src dst) sf c x
        if sf.isSome || df.isSome then
          let half ← Compile.loadConst env .vec3 VectorPool.halfAt
          scaleBy half c sf
          scaleBy half x df
          Emit.release .vec3
          Emit.release .vec2
          Emit.release .vec1)
      ((if dst.isTrivial then []
        else if BlendPlan.inversePair src dst then BlendFactor.inverted else dst.sketch true) ++
        (if src.isTrivial ∧ dst.isTrivial then [] else
          .packedLoad .movdqa ⟨0⟩ (cell VectorPool.halfAt) ::
            ((if src.isTrivial then [] else times ⟨1⟩) ++ (if dst.isTrivial then [] else times ⟨0⟩))))
      fun _ e₁ w₁ => e₁ = .at_ c (some x) stencil ∧ w₁ = ⟨some c, some x, stencil, ways⟩ := by
    refine (Tells.dstFactor env hne hdst hsf).bind fun df _ _ h => ?_
    obtain ⟨hdf, rfl, rfl⟩ := h
    refine (Shows.multiply env hne sf df).tells.of_eq ?_
    rw [hsf, hdf]
    cases src.isTrivial <;> cases dst.isTrivial <;> rfl
  dsimp only [Compile.scaleColors]
  rw [hsrc, scaled, List.append_assoc]
  cases htrivial : src.isTrivial with
  | true =>
    rw [if_pos rfl, if_neg (by simp [BlendPlan.ofFactors, htrivial])]
    refine ⟨(Tells.pure none).bind_nothing fun sf _ _ h => ?_⟩
    obtain ⟨rfl, rfl, rfl⟩ := h
    exact (hrest none (by rw [htrivial]; rfl)).of_eq (by rw [htrivial]; rfl)
  | false =>
    have hbuilt := @blendFactor env c x stencil ways _ hne htrivial .vec1 _ false
    rw [if_neg Bool.false_ne_true, if_pos (by simp [BlendPlan.ofFactors, htrivial])]
    refine ⟨hbuilt.tells.bind fun g _ _ h => ?_⟩
    obtain ⟨rfl, rfl⟩ := h
    refine (Tells.pure (some g)).bind_nothing fun sf _ _ h => ?_
    obtain ⟨rfl, rfl, rfl⟩ := h
    exact (hrest (some g) (by rw [htrivial]; rfl)).of_eq (by rw [htrivial])

/-! ## Joining -/

/-- A color under the factor zero is cleared, if the equation still reads it. -/
theorem Shows.trivialDst {plan : BlendPlan} {equation : BlendEquation} {dst : BlendFactor} :
    Shows env.features (.at_ c (some x) stencil) ⟨some c, some x, stencil, ways⟩
      (trivialDst plan equation dst x)
      (if dst = .zero ∧ equation = .reverseSubtract then [.packed .pxor ⟨0⟩ ⟨0⟩] else [])
      (.at_ c (some x) stencil) ⟨some c, some x, stencil, ways⟩ := by
  have hclear : Instr.Seen (.at_ c (some x) stencil) (.packed .pxor x x) [.packed .pxor ⟨0⟩ ⟨0⟩]
      (.at_ c (some x) stencil) := .zeroStored hne
  dsimp only [Compile.trivialDst]
  refine of_eq inferInstance ?_
  split <;> split <;> rfl

omit hne in
theorem Shows.trivialSrc {plan : BlendPlan} {src : BlendFactor} : Shows env.features
    (.at_ c stored stencil) ⟨some c, stored, stencil, ways⟩ (trivialSrc plan src c)
      (if src = .zero then [.packed .pxor ⟨1⟩ ⟨1⟩] else []) (.at_ c stored stencil)
      ⟨some c, stored, stencil, ways⟩ := by
  dsimp only [Compile.trivialSrc]
  refine of_eq inferInstance ?_
  split <;> split <;> rfl

omit hne in
/-- Nothing is joined with a color that is zero. -/
theorem Shows.joinColors {equation : BlendEquation} {dst : BlendFactor} (h : equation.usesFactors = true) :
    Shows env.features (.at_ c (some x) stencil) ⟨some c, some x, stencil, ways⟩
      (joinColors equation (dst == .zero) c x)
      ((if equation = .subtract ∧ dst = .zero then .add else equation).sketch (dst == .zero))
      (.at_ c (some x) stencil) ⟨some c, some x, stencil, ways⟩ := by
  unfold Compile.joinColors
  by_cases hdst : dst = .zero
  · subst hdst
    rw [show (BlendFactor.zero == .zero) = true from rfl]
    cases equation with
    | add => exact of_eq inferInstance rfl
    | subtract => exact of_eq inferInstance rfl
    | reverseSubtract => exact of_eq inferInstance rfl
    | _ => cases h
  · rw [beq_false_of_ne hdst, if_neg fun h => hdst h.2]
    cases equation with
    | add => exact of_eq inferInstance rfl
    | subtract => exact of_eq inferInstance rfl
    | reverseSubtract => exact of_eq inferInstance rfl
    | _ => cases h

/-- Colors are joined under factors. -/
theorem Shows.blendWithFactors {src dst : BlendFactor} (hsrc : env.features.blendSrc = src)
    (hdst : env.features.blendDst = dst) (hequation : env.features.blendEquation.usesFactors = true) :
    Shows env.features (.at_ c (some x) stencil) ⟨some c, some x, stencil, ways⟩
      (blendWithFactors env (.ofFactors src dst) c x)
      (Mix.factors (if env.features.blendEquation = .subtract ∧ dst = .zero then .add
        else env.features.blendEquation) src dst).sketch
      (.at_ c (some x) stencil) ⟨some c, some x, stencil, ways⟩ := by
  dsimp only [Compile.blendWithFactors]
  rw [hsrc, hdst]
  have hshift (v : Xmm) : Shows env.features (.at_ c (some x) stencil) ⟨some c, some x, stencil, ways⟩
      (Emit.op (.laneShift .sll v 4)) [] (.at_ c (some x) stencil) ⟨some c, some x, stencil, ways⟩ :=
    of_eq inferInstance rfl
  have hrest : Shows env.features (.at_ c (some x) stencil) ⟨some c, some x, stencil, ways⟩ (do
      Compile.scaleColors env (.ofFactors src dst) c x
      Compile.trivialSrc (.ofFactors src dst) src c
      Compile.trivialDst (.ofFactors src dst) env.features.blendEquation dst x
      Compile.joinColors env.features.blendEquation (dst == .zero) c x)
      (Mix.factors (if env.features.blendEquation = .subtract ∧ dst = .zero then .add
        else env.features.blendEquation) src dst).sketch
      (.at_ c (some x) stencil) ⟨some c, some x, stencil, ways⟩ :=
    of_eq ((scaleColors env hne hsrc hdst).seq fun _ => (trivialSrc env).seq fun _ =>
      (trivialDst env hne).seq fun _ => joinColors env hequation) (Mix.sketch_factors _ src dst).symm
  refine seq_nil inferInstance fun _ => seq_nil inferInstance fun _ => ?_
  split
  · refine seq_nil (hshift c) fun _ => ?_
    exact ite_same (seq_nil (hshift x) fun _ => hrest) hrest
  · exact ite_same (seq_nil (hshift x) fun _ => hrest) hrest

end

/-- Colors are joined as packed bytes. -/
theorem Shows.blendBytes {equation : BlendEquation} (h : equation.usesFactors = false) :
    Shows env.features (.at_ c (some x) stencil) ⟨some c, some x, stencil, ways⟩ (blendBytes equation c x)
      (Mix.bytes equation).sketch (.at_ c (some x) stencil) ⟨some c, some x, stencil, ways⟩ := by
  unfold Compile.blendBytes
  cases equation with
  | min => exact of_eq inferInstance rfl
  | max => exact of_eq inferInstance rfl
  | absDiff => exact of_eq inferInstance rfl
  | _ => cases h

namespace Tells

/-- The blend.  Behind it a register is still recognised that may hold another value. -/
theorem blendBy {loaded : Option PixelFormat} : (blendBy env (.ofFeatures env.features)).Tells env.features
    (.at_ c none stencil) ⟨some c, none, stencil, ⟨paired, deep, .settled, depth⟩⟩
    (rows loaded (if env.features.blend then [.blend env.features.format env.features.mix] else []))
    fun _ e₁ w₁ => ∃ stored, e₁ = .at_ c stored stencil ∧
      w₁ = ⟨some c, none, stencil, ⟨paired, deep, .settled, depth⟩⟩ := by
  dsimp only [Compile.blendBy]
  refine behind inferInstance fun _ => ?_
  cases hblend : env.features.blend with
  | false =>
    rw [if_neg Bool.false_ne_true, if_neg Bool.false_ne_true]
    exact Shows.tells.mono fun _ _ _ h => ⟨none, h⟩
  | true =>
    rw [if_pos rfl, if_pos rfl, rows_singleton]
    refine (loadStoredColor env _).bind fun x _ _ h => ?_
    obtain ⟨hne, rfl, rfl⟩ := h
    rw [Features.mix, BlendPlan.ofFeatures, hblend, Bool.true_and]
    cases husing : env.features.blendEquation.usesFactors with
    | false =>
      have := @Shows.blendBytes env c x stencil ⟨paired, deep, .settled, depth⟩ _ husing
      have hplan : ({} : BlendPlan).usesFactors = false := rfl
      simp only [Bool.false_eq_true, if_false, hplan]
      exact (Shows.tells.mono fun _ _ _ h => ⟨some x, h⟩).of_eq (List.append_nil _)
    | true =>
      have := @Shows.blendWithFactors env c x stencil ⟨paired, deep, .settled, depth⟩ hne _ _ rfl rfl husing
      have hplan : (BlendPlan.ofFactors env.features.blendSrc env.features.blendDst).usesFactors = true := rfl
      simp only [if_true, hplan]
      exact (Shows.tells.mono fun _ _ _ h => ⟨some x, h⟩).of_eq (List.append_nil _)

/-- The dither. -/
theorem dither {loaded : Option PixelFormat} : (dither env).Tells env.features
    (.at_ c stored stencil) ⟨some c, none, stencil, ⟨paired, deep, .settled, depth⟩⟩
    (rows loaded (if env.features.dither then [.dither] else []))
    fun _ e₁ w₁ => ∃ stored, e₁ = .at_ c stored stencil ∧
      w₁ = ⟨some c, none, stencil, ⟨paired, deep, .settled, depth⟩⟩ := by
  dsimp only [Compile.dither]
  refine behind inferInstance fun _ => ?_
  cases hdither : env.features.dither with
  | false =>
    rw [if_neg Bool.false_ne_true, if_neg Bool.false_ne_true]
    exact Shows.tells.mono fun _ _ _ h => ⟨stored, h⟩
  | true =>
    rw [if_pos rfl, if_pos rfl]
    dsimp only [Compile.addDither]
    refine behind (Shows.colorAddr env) fun _ => behind inferInstance fun _ => behind inferInstance fun x =>
      behind inferInstance fun y => behind inferInstance fun key => ?_
    refine (allocGen (by decide)).bind_nothing fun value _ _ h => ?_
    obtain ⟨rfl, rfl, hvalue, -⟩ := h
    have := Reg.Indexes.mk hvalue
    exact (Shows.tells.mono fun _ _ _ h => ⟨none, h⟩).of_eq rfl

end Tells

end Emit

end PixelPipeline
