/-
# Proofs.Selections — where code selects through a table

The bodies of the selections in code are its tables (`Code.tables`).  Actions
that put down none are plain (`Emit.Plain`), and a row of plain actions is plain:
stage by stage, a short row is walked by instance search, and a long one step by
step (`Emit.Plain.seq`).  All stages are plain but for the raster operation, which
puts down one table, with the bodies of all sixteen operations.
-/
import PixelPipeline.Proofs.Leads
import PixelPipeline.Compile.Function

namespace PixelPipeline

open X86 Compile

namespace Code

/-- The bodies of each selection. -/
def tables : Code → List (List (Option (List Instr)))
  | done => []
  | instr _ next => next.tables
  | mark _ next => next.tables
  | leave next => next.tables
  | leaveIf _ next => next.tables
  | skipIf _ body next => body.tables ++ next.tables
  | choose _ no yes next => no.tables ++ yes.tables ++ next.tables
  | select _ _ bodies next => bodies :: next.tables

theorem tables_append (a b : Code) : (a ++ b).tables = a.tables ++ b.tables := by
  show (a.append b).tables = _
  induction a with
  | done => rfl
  | _ => simp_all only [append, tables, List.append_assoc, List.cons_append]

theorem tables_ofInstrs (is : List Instr) : (ofInstrs is).tables = [] := by
  induction is with
  | nil => rfl
  | cons i rest ih => exact ih

end Code

/-! ## Plain actions -/

/-- The action puts down no selection. -/
class Emit.Plain {α : Type} (m : Emit α) : Prop where
  tables : ∀ d r, m d = .ok r → r.code.tables = []

namespace Emit.Plain

variable {α β : Type}

instance pure (a : α) : Plain (Pure.pure a) := ⟨fun _ _ hr => by cases hr; rfl⟩

instance bind {m : Emit α} {f : α → Emit β} [hm : Plain m] [hf : ∀ a, Plain (f a)] :
    Plain (m >>= f) where
  tables d r hr := by
    obtain ⟨r₁, r₂, hr₁, hr₂, rfl⟩ := bind_ok hr
    rw [Code.tables_append, hm.tables d r₁ hr₁, (hf _).tables _ r₂ hr₂]
    rfl

/-- The same for an action whose value is not asked for. -/
instance behind {m : Emit α} {k : Emit β} [hm : Plain m] [hk : Plain k] :
    Plain (m >>= fun _ => k) := bind

/-- The same, for what instance search does not see through. -/
theorem seq {m : Emit α} {f : α → Emit β} (_ : Plain m) (_ : ∀ a, Plain (f a)) :
    Plain (m >>= f) :=
  inferInstance

instance ite {c : Prop} [Decidable c] {m m' : Emit α} [hm : Plain m] [hm' : Plain m'] :
    Plain (if c then m else m') := by
  split
  · exact hm
  · exact hm'

instance op (i : Instr) : Plain (Emit.op i) := ⟨fun _ _ hr => by cases hr; rfl⟩

instance ops (is : List Instr) : Plain (Emit.ops is) :=
  ⟨fun _ _ hr => by cases hr; exact Code.tables_ofInstrs is⟩

instance mark (s : Stage) : Plain (Emit.mark s) := ⟨fun _ _ hr => by cases hr; rfl⟩

instance leave : Plain Emit.leave := ⟨fun _ _ hr => by cases hr; rfl⟩

instance leaveIf (c : Cond) : Plain (Emit.leaveIf c) := ⟨fun _ _ hr => by cases hr; rfl⟩

instance skipIf {c : Cond} {body : Emit Unit} [h : Plain body] : Plain (Emit.skipIf c body) where
  tables d r hr := by
    obtain ⟨r₁, hr₁, rfl⟩ := skipIf_ok hr
    exact (List.append_nil _).trans (h.tables d r₁ hr₁)

instance choose {c : Cond} {no yes : Emit Unit} [hno : Plain no] [hyes : Plain yes] :
    Plain (Emit.choose c no yes) where
  tables d r hr := by
    obtain ⟨r₁, r₂, hr₁, hr₂, rfl⟩ := choose_ok hr
    simp only [Code.tables, hno.tables d r₁ hr₁, hyes.tables _ r₂ hr₂, List.append_nil]

instance diverging {path : Emit Unit} [h : Plain path] : Plain (Emit.diverging path) where
  tables d r hr := by
    obtain ⟨r₁, hr₁, rfl⟩ := diverging_ok hr
    exact h.tables d r₁ hr₁

instance onTable (action : RoleTable → Except Failure (α × RoleTable)) :
    Plain (Emit.onTable action) where
  tables d r hr := by
    obtain ⟨a, t, -, rfl⟩ := onTable_ok hr
    rfl

instance adjust (change : RoleTable → RoleTable) : Plain (Emit.adjust change) :=
  ⟨fun _ _ hr => by cases hr; rfl⟩

instance has (r : Role) : Plain (Emit.has r) := ⟨fun _ _ hr => by cases hr; rfl⟩

instance isWide : Plain Emit.isWide := ⟨fun _ _ hr => by cases hr; rfl⟩

instance setWide (wide : Bool) : Plain (Emit.setWide wide) := ⟨fun _ _ hr => by cases hr; rfl⟩

instance allocGen (r : Role) : Plain (Emit.allocGen r) := onTable _
instance allocVec (r : Role) : Plain (Emit.allocVec r) := onTable _
instance findGen (r : Role) : Plain (Emit.findGen r) := onTable _
instance findVec (r : Role) : Plain (Emit.findVec r) := onTable _
instance rename (old new : Role) : Plain (Emit.rename old new) := onTable _
instance unlock (r : Role) : Plain (Emit.unlock r) := adjust _
instance release (r : Role) : Plain (Emit.release r) := adjust _
instance retain (r : Role) : Plain (Emit.retain r) := adjust _
instance forceRelease (r : Role) : Plain (Emit.forceRelease r) := adjust _

end Emit.Plain

/-! ## Plain stages -/

namespace Compile

open Emit

variable (env : Env)

section Shared

instance stateBase_plain : Plain (stateBase env) := by dsimp only [stateBase]; infer_instance

instance poolBase_plain : Plain (poolBase env) := by dsimp only [poolBase]; infer_instance

instance zeroVec_plain : Plain zeroVec := by dsimp only [zeroVec]; infer_instance

instance loadConst_plain (role : Role) (offset : Nat) : Plain (loadConst env role offset) := by
  dsimp only [loadConst]; infer_instance

instance widenBytes_plain (x : Xmm) : Plain (widenBytes x) := by
  dsimp only [widenBytes]; infer_instance

instance expandColor_plain (color : Xmm) : Plain (expandColor color) := by
  dsimp only [expandColor]; infer_instance

instance packColor_plain (color : Xmm) : Plain (packColor color) := by
  dsimp only [packColor]; infer_instance

instance generalAddress_plain (dst : Reg) (strideAt baseAt : Nat) (shift : BitVec 8) :
    Plain (generalAddress env dst strideAt baseAt shift) := by
  dsimp only [generalAddress]; infer_instance

instance fastColorAddr_plain : Plain (fastColorAddr env) := by
  dsimp only [fastColorAddr]
  exact .seq inferInstance fun x => .seq inferInstance fun y => .seq inferInstance fun _ =>
    .seq inferInstance fun _ => .seq inferInstance fun _ => .seq inferInstance fun state =>
      inferInstance

instance colorAddr_plain : Plain (colorAddr env) := by dsimp only [colorAddr]; infer_instance

instance depthAddr_plain : Plain (depthAddr env) := by dsimp only [depthAddr]; infer_instance

end Shared

section Tests

instance depthRange_plain : Plain (depthRange env) := by dsimp only [depthRange]; infer_instance

instance enterColor_plain : Plain enterColor := by dsimp only [enterColor]; infer_instance

instance compareAlpha_plain (pass : Cond) : Plain (compareAlpha env pass) := by
  dsimp only [compareAlpha]; infer_instance

instance alphaTest_plain : Plain (alphaTest env) := by
  dsimp only [alphaTest]
  cases passCond env.features.alphaFunc <;> infer_instance

instance dispatchColorTest_plain (func reference masked : Reg) :
    Plain (dispatchColorTest func reference masked) := by
  dsimp only [dispatchColorTest]; infer_instance

instance colorTest_plain : Plain (colorTest env) := by dsimp only [colorTest]; infer_instance

end Tests

section Shading

instance blendFog_plain : Plain (blendFog env) := by
  dsimp only [blendFog]
  exact .seq inferInstance fun fogColor => .seq inferInstance fun state =>
    .seq inferInstance fun _ => .seq inferInstance fun _ => .seq inferInstance fun _ =>
      .seq inferInstance fun rest => .seq inferInstance fun color => .seq inferInstance fun _ =>
        .seq inferInstance fun alpha => .seq inferInstance fun _ =>
          .seq inferInstance fun amount => inferInstance

instance fog_plain : Plain (fog env) := by dsimp only [fog]; infer_instance

instance addDither_plain : Plain (addDither env) := by
  dsimp only [addDither]
  exact .seq inferInstance fun _ => .seq inferInstance fun _ => .seq inferInstance fun x =>
    .seq inferInstance fun y => .seq inferInstance fun key => .seq inferInstance fun value =>
      .seq inferInstance fun column => inferInstance

instance dither_plain : Plain (dither env) := by dsimp only [dither]; infer_instance

end Shading

section Stencil

instance compareDepth_plain : Plain (compareDepth env) := by
  dsimp only [compareDepth]
  cases passCond env.features.depthFunc <;> infer_instance

instance dropDepthArg_plain : Plain (dropDepthArg env) := by
  dsimp only [dropDepthArg]; infer_instance

instance depthTest_plain : Plain (depthTest env) := by
  dsimp only [depthTest]
  refine .seq inferInstance fun _ => ?_
  split
  · infer_instance
  · refine .seq inferInstance fun pass => ?_
    cases pass <;> infer_instance

instance writeDepth_plain : Plain (writeDepth env) := by dsimp only [writeDepth]; infer_instance

instance storedStencil_plain : Plain (storedStencil env) := by
  dsimp only [storedStencil]
  cases env.features.format <;> infer_instance

instance replaceStencil_plain (st : Reg) : Plain (replaceStencil env st) := by
  dsimp only [replaceStencil]; infer_instance

instance incrementStencil_plain (format : PixelFormat) (st : Reg) :
    Plain (incrementStencil format st) := by
  cases format <;> dsimp only [incrementStencil] <;> infer_instance

instance decrementStencil_plain (format : PixelFormat) (st : Reg) :
    Plain (decrementStencil format st) := by
  cases format <;> dsimp only [decrementStencil] <;> infer_instance

instance updateStencil_plain (action : StencilAction) (st : Reg) :
    Plain (updateStencil env action st) := by
  cases action <;> dsimp only [updateStencil] <;> infer_instance

instance storeStencilMasked_plain (addr st : Reg) (offset : Nat) (colorBits : BitVec 8) :
    Plain (storeStencilMasked env addr st offset colorBits) := by
  dsimp only [storeStencilMasked]; infer_instance

instance storeStencilPlain_plain (addr st : Reg) (offset : Nat) (colorBits : BitVec 8) :
    Plain (storeStencilPlain addr st offset colorBits) := by
  dsimp only [storeStencilPlain]; infer_instance

instance writeStencilOnly_plain (st : Reg) : Plain (writeStencilOnly env st) := by
  dsimp only [writeStencilOnly]; infer_instance

instance failStencil_plain (action : StencilAction) : Plain (failStencil env action) := by
  dsimp only [failStencil]; infer_instance

instance compareStencil_plain (st : Reg) : Plain (compareStencil env st) := by
  dsimp only [compareStencil]; infer_instance

instance stencilTest_plain (st : Reg) : Plain (stencilTest env st) := by
  dsimp only [stencilTest]
  split
  · infer_instance
  · cases mirroredPassCond env.features.stencilFunc <;> infer_instance

instance depthTestUpdating_plain : Plain (depthTestUpdating env) := by
  dsimp only [depthTestUpdating]
  refine .seq inferInstance fun _ => ?_
  split
  · infer_instance
  · refine .seq inferInstance fun pass => ?_
    cases pass <;> infer_instance

instance stencilAndDepthTest_plain : Plain (stencilAndDepthTest env) := by
  dsimp only [stencilAndDepthTest]
  refine .seq inferInstance fun _ => .seq inferInstance fun st => ?_
  cases st <;> infer_instance

instance storedTests_plain : Plain (storedTests env) := by dsimp only [storedTests]; infer_instance

end Stencil

section Blending

instance loadStoredColor_plain (keepAlpha : Bool) : Plain (loadStoredColor env keepAlpha) := by
  dsimp only [loadStoredColor]
  refine .seq inferInstance fun addr => ?_
  split
  · exact .seq inferInstance fun _ => .seq inferInstance fun _ => .seq inferInstance fun dst =>
      inferInstance
  · exact .seq inferInstance fun dst => inferInstance

instance factorValue_plain (factor : BlendFactor) (v color dst : Xmm) (forDst : Bool) :
    Plain (factorValue env factor v color dst forDst) := by
  cases factor <;> dsimp only [factorValue] <;> infer_instance

instance blendFactor_plain (role : Role) (factor : BlendFactor) (color dst : Xmm) (forDst : Bool) :
    Plain (blendFactor env role factor color dst forDst) := by
  dsimp only [blendFactor]
  refine .seq inferInstance fun r => ?_
  split
  · exact .seq inferInstance fun v => inferInstance
  · infer_instance

instance dstFactor_plain (plan : BlendPlan) (srcFactor : Option Xmm) (color dst : Xmm) :
    Plain (dstFactor env plan srcFactor color dst) := by
  dsimp only [dstFactor]
  cases srcFactor <;> cases plan.dstIsInverse <;> infer_instance

instance scaleBy_plain (half color : Xmm) (factor : Option Xmm) :
    Plain (scaleBy half color factor) := by
  cases factor <;> dsimp only [scaleBy] <;> infer_instance

instance scaleColors_plain (plan : BlendPlan) (color dst : Xmm) :
    Plain (scaleColors env plan color dst) := by
  dsimp only [scaleColors]; infer_instance

instance trivialSrc_plain (plan : BlendPlan) (factor : BlendFactor) (color : Xmm) :
    Plain (trivialSrc plan factor color) := by
  dsimp only [trivialSrc]; infer_instance

instance trivialDst_plain (plan : BlendPlan) (equation : BlendEquation) (factor : BlendFactor)
    (dst : Xmm) : Plain (trivialDst plan equation factor dst) := by
  dsimp only [trivialDst]; infer_instance

instance joinColors_plain (equation : BlendEquation) (dstIsZero : Bool) (color dst : Xmm) :
    Plain (joinColors equation dstIsZero color dst) := by
  cases equation <;> cases dstIsZero <;> dsimp only [joinColors] <;> infer_instance

instance blendWithFactors_plain (plan : BlendPlan) (color dst : Xmm) :
    Plain (blendWithFactors env plan color dst) := by
  dsimp only [blendWithFactors]; infer_instance

instance blendBytes_plain (equation : BlendEquation) (color dst : Xmm) :
    Plain (blendBytes equation color dst) := by
  cases equation <;> dsimp only [blendBytes] <;> infer_instance

instance blendBy_plain (plan : BlendPlan) : Plain (blendBy env plan) := by
  dsimp only [blendBy]; infer_instance

end Blending

section Write

instance placeStencil_plain (format : PixelFormat) (st : Reg) : Plain (placeStencil format st) := by
  cases format <;> dsimp only [placeStencil] <;> infer_instance

instance loadWriteMask_plain : Plain (loadWriteMask env) := by
  dsimp only [loadWriteMask]; infer_instance

instance storeMasked_plain (size : OpSize) (addr color mask : Reg) :
    Plain (storeMasked size addr color mask) := by
  dsimp only [storeMasked]; infer_instance

instance storeKeeping_plain (size : OpSize) (addr color : Reg) (kept : BitVec 32) :
    Plain (storeKeeping env size addr color kept) := by
  dsimp only [storeKeeping]; infer_instance

instance storeColor_plain (addr color : Reg) (mask : Option Reg) (kept : BitVec 32) :
    Plain (storeColor env addr color mask kept) := by
  cases mask <;> dsimp only [storeColor] <;> infer_instance

instance clearStencil_plain : Plain (clearStencil env) := by
  dsimp only [clearStencil]; infer_instance

instance storedBits_plain (convertAlpha : Bool) : Plain (storedBits env convertAlpha) := by
  dsimp only [storedBits]
  exact .seq inferInstance fun vec => .seq inferInstance fun _ => .seq inferInstance fun color =>
    .seq inferInstance fun _ => .seq inferInstance fun _ => .seq inferInstance fun loaded =>
      inferInstance

instance mergeStencil_plain (color : Reg) (stencil : Option Reg) :
    Plain (mergeStencil env color stencil) := by
  cases stencil <;> dsimp only [mergeStencil] <;> infer_instance

end Write

/-! ## The one selection -/

/-- The action puts down one selection, that of a raster operation. -/
def Selects {α : Type} (m : Emit α) : Prop :=
  ∀ d r, m d = .ok r →
    ∃ color dst hasStencil, r.code.tables = [rasterOpBodies color dst hasStencil]

namespace Selects

variable {α β : Type} {m : Emit α} {f : α → Emit β}

theorem put (table index color dst : Reg) (hasStencil : Bool) :
    Selects (Emit.put (.select table index (rasterOpBodies color dst hasStencil) .done)) := by
  intro d r hr
  cases hr
  exact ⟨color, dst, hasStencil, rfl⟩

/-- What comes before it is plain. -/
theorem after [hm : Plain m] (hf : ∀ a, Selects (f a)) : Selects (m >>= f) := by
  intro d r hr
  obtain ⟨r₁, r₂, hr₁, hr₂, rfl⟩ := bind_ok hr
  rw [Code.tables_append, hm.tables d r₁ hr₁]
  exact hf _ _ r₂ hr₂

/-- What comes behind it is plain. -/
theorem before (hm : Selects m) [hf : ∀ a, Plain (f a)] : Selects (m >>= f) := by
  intro d r hr
  obtain ⟨r₁, r₂, hr₁, hr₂, rfl⟩ := bind_ok hr
  obtain ⟨color, dst, hasStencil, h⟩ := hm d r₁ hr₁
  refine ⟨color, dst, hasStencil, ?_⟩
  rw [Code.tables_append, h, (hf _).tables _ r₂ hr₂]
  rfl

end Selects

variable {env}

theorem rasterOp_selects (color addr : Reg) (hasStencil : Bool) :
    Selects (rasterOp env color addr hasStencil) := by
  dsimp only [rasterOp]
  refine .after fun _ => .after fun dst => ?_
  split
  all_goals
    exact .after fun _ => .after fun index => .after fun _ => .after fun _ => .after fun _ =>
      .after fun _ => .after fun table => .before (.put table index color dst hasStencil)

section

variable (hop : env.features.rasterOp = true)

include hop

theorem combineAndStore_selects (addr color : Reg) (stencil : Option Reg) :
    Selects (combineAndStore env addr color stencil) := by
  simp only [combineAndStore, hop, if_true]
  exact .after fun _ => .after fun _ => .before (rasterOp_selects color addr _)

theorem writePixel_selects : Selects (writePixel env) := by
  dsimp only [writePixel]
  refine .after fun addr => .after fun _ => .after fun _ => .after fun (color, stencil) => ?_
  cases stencil with
  | none => exact combineAndStore_selects hop addr color none
  | some st => exact .after fun _ => combineAndStore_selects hop addr color (some st)

theorem writeColor_selects (hclear : env.features.clearMode = false) :
    Selects (writeColor env) := by
  dsimp only [writeColor]
  rw [hclear, Bool.false_and, if_neg Bool.false_ne_true]
  exact .after fun _ => writePixel_selects hop

theorem stages_selects (hclear : env.features.clearMode = false) (plan : BlendPlan) :
    Selects (stages env plan) := by
  have tail : Selects (do
      depthRange env
      enterColor
      alphaTest env
      fog env
      colorTest env
      storedTests env
      writeDepth env
      blendBy env plan
      dither env
      writeColor env) :=
    .after fun _ => .after fun _ => .after fun _ => .after fun _ => .after fun _ => .after fun _ =>
      .after fun _ => .after fun _ => .after fun _ => writeColor_selects hop hclear
  dsimp only [stages]
  refine .after fun _ => ?_
  split
  · exact .after fun _ => tail
  · exact tail

end

section

variable (hop : env.features.rasterOp = false)

include hop

theorem combineAndStore_plain (addr color : Reg) (stencil : Option Reg) :
    Plain (combineAndStore env addr color stencil) := by
  simp only [combineAndStore, hop, Bool.false_eq_true, if_false]
  infer_instance

theorem writePixel_plain : Plain (writePixel env) := by
  dsimp only [writePixel]
  refine .seq inferInstance fun addr => .seq inferInstance fun _ => .seq inferInstance fun _ =>
    .seq inferInstance fun (color, stencil) => ?_
  cases stencil with
  | none => exact combineAndStore_plain hop addr color none
  | some st => exact .seq inferInstance fun _ => combineAndStore_plain hop addr color (some st)

theorem stages_plain (plan : BlendPlan) : Plain (stages env plan) := by
  have hpixel : Plain (writePixel env) := writePixel_plain hop
  have hcolor : Plain (writeColor env) := by
    dsimp only [writeColor]
    infer_instance
  dsimp only [stages]
  infer_instance

end

/-- The code of a pipeline without a raster operation has no table. -/
theorem tables_plain (hop : env.features.rasterOp = false) {code : Code} (h : body env = .ok code) :
    code.tables = [] := by
  unfold body at h
  cases hr : stages env (.ofFeatures env.features) entry with
  | error e => rw [hr] at h; cases h
  | ok r =>
    rw [hr] at h
    cases h
    exact (stages_plain hop _).tables _ r hr

/-- The code of a pipeline with a raster operation, not being a clear, has one. -/
theorem tables_rasterOp (hop : env.features.rasterOp = true)
    (hclear : env.features.clearMode = false) {code : Code} (h : body env = .ok code) :
    ∃ color dst hasStencil, code.tables = [rasterOpBodies color dst hasStencil] := by
  unfold body at h
  cases hr : stages env (.ofFeatures env.features) entry with
  | error e => rw [hr] at h; cases h
  | ok r =>
    rw [hr] at h
    cases h
    exact stages_selects hop hclear _ _ r hr

end Compile

end PixelPipeline
