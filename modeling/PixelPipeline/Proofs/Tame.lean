/-
# Proofs.Tame — actions that only touch bindings

Most actions of the compiler leave the register files alone, and the form of
the working color too: they are tame.  A tame path that never comes back is
steady, since its bindings are forgotten.
-/
import PixelPipeline.Compile.Stencil
import PixelPipeline.Proofs.Leads

namespace PixelPipeline

open X86 Compile

/-- The action leaves the register files as they are, and the form of the
working color. -/
def Emit.Tame {α : Type} (m : Emit α) : Prop :=
  ∀ d r, m d = .ok r → d.table.SamePools r.draft.table ∧ r.draft.wideColor = d.wideColor

namespace Emit.Tame

variable {α β : Type}

theorem pure (a : α) : Tame (pure a) := by
  intro d r hr
  cases hr
  exact ⟨⟨rfl, rfl⟩, rfl⟩

theorem bind {m : Emit α} {f : α → Emit β} (hm : Tame m) (hf : ∀ a, Tame (f a)) :
    Tame (m >>= f) := by
  intro d r hr
  obtain ⟨r₁, r₂, hr₁, hr₂, rfl⟩ := bind_ok hr
  obtain ⟨hp₁, hw₁⟩ := hm d r₁ hr₁
  obtain ⟨hp₂, hw₂⟩ := hf _ _ r₂ hr₂
  exact ⟨⟨hp₂.1.trans hp₁.1, hp₂.2.trans hp₁.2⟩, hw₂.trans hw₁⟩

theorem ite {c : Prop} [Decidable c] {m m' : Emit α} (h : Tame m) (h' : Tame m') :
    Tame (if c then m else m') := by
  split
  · exact h
  · exact h'

theorem put (code : Code) : Tame (Emit.put code) := by
  intro d r hr
  cases hr
  exact ⟨⟨rfl, rfl⟩, rfl⟩

theorem op (i : Instr) : Tame (Emit.op i) := put _

theorem mark (s : Stage) : Tame (Emit.mark s) := put _

theorem leave : Tame Emit.leave := put _

theorem skipIf {c : Cond} {body : Emit Unit} (h : Tame body) : Tame (Emit.skipIf c body) := by
  intro d r hr
  obtain ⟨r₁, hr₁, rfl⟩ := skipIf_ok hr
  exact h d r₁ hr₁

/-- A path that never comes back leaves what the compiler knows alone. -/
theorem steady {path : Emit Unit} (h : Tame path) : (Emit.diverging path).Steady := by
  intro d r hr
  obtain ⟨r₁, hr₁, rfl⟩ := diverging_ok hr
  obtain ⟨hp, hw⟩ := h d r₁ hr₁
  exact ⟨rfl, hp, hw⟩

/-! ### Requests to the table -/

theorem has (r : Role) : Tame (Emit.has r) := by
  intro d e hr
  cases hr
  exact ⟨⟨rfl, rfl⟩, rfl⟩

theorem onTable {action : RoleTable → Except Failure (α × RoleTable)}
    (h : ∀ t a t', action t = .ok (a, t') → t.SamePools t') : Tame (Emit.onTable action) := by
  intro d r hr
  obtain ⟨a, t, ht, rfl⟩ := onTable_ok hr
  exact ⟨h _ a t ht, rfl⟩

theorem adjust {change : RoleTable → RoleTable} (h : ∀ t : RoleTable, t.SamePools (change t)) :
    Tame (Emit.adjust change) := by
  intro d r hr
  cases hr
  exact ⟨h _, rfl⟩

theorem findGen (r : Role) : Tame (Emit.findGen r) :=
  onTable fun t a t' ht => by
    obtain ⟨-, ⟨_, _⟩, h, he⟩ := RoleTable.inFile_ok ht
    cases he
    exact (RoleTable.find_spec h).1

theorem allocGen (r : Role) : Tame (Emit.allocGen r) :=
  onTable fun t a t' ht => by
    obtain ⟨-, ⟨_, _⟩, h, he⟩ := RoleTable.inFile_ok ht
    cases he
    exact RoleTable.samePools_alloc h

theorem unlock (r : Role) : Tame (Emit.unlock r) := adjust fun _ => ⟨rfl, rfl⟩

theorem retain (r : Role) : Tame (Emit.retain r) := adjust fun _ => ⟨rfl, rfl⟩

theorem forceRelease (r : Role) : Tame (Emit.forceRelease r) := adjust fun _ => ⟨rfl, rfl⟩

theorem release (r : Role) : Tame (Emit.release r) := adjust fun t => t.samePools_release r

theorem rename (old new : Role) : Tame (Emit.rename old new) :=
  onTable fun t a t' ht => by
    cases h : t.rename old new with
    | error e => rw [h] at ht; cases ht
    | ok t₁ =>
      rw [h] at ht
      cases ht
      exact RoleTable.samePools_rename h

end Emit.Tame

/-! ## Shared values and addresses -/

namespace Compile

open Emit

variable {env : Env}

theorem stateBase_tame : Tame (stateBase env) :=
  .bind (.has _) fun _ => .ite (.findGen _) (.bind (.allocGen _) fun _ =>
    .bind (.op _) fun _ => .pure _)

theorem generalAddress_tame (dst : Reg) (strideAt baseAt : Nat) (shift : BitVec 8) :
    Tame (generalAddress env dst strideAt baseAt shift) :=
  .bind stateBase_tame fun _ => .bind (.findGen _) fun _ => .bind (.findGen _) fun _ =>
    .bind (.op _) fun _ => .bind (.op _) fun _ => .bind (.op _) fun _ => .bind (.op _) fun _ =>
    .bind (.op _) fun _ => .bind (.unlock _) fun _ => .bind (.unlock _) fun _ => .unlock _

theorem fastColorAddr_tame : Tame (fastColorAddr env) := by
  have tail (state y : Reg) : Tame (do
      Emit.op (.shift .shl true y (pixelShift env.features.format))
      Emit.op (.aluLoad .add .qword y (atOffset state DrawState.fbBaseAt))
      Emit.unlock .stateBase
      Emit.rename .argY .colorAddr
      Emit.retain .colorAddr
      Pure.pure y) :=
    .bind (.op _) fun _ => .bind (.op _) fun _ => .bind (.unlock _) fun _ =>
      .bind (.rename _ _) fun _ => .bind (.retain _) fun _ => .pure _
  exact .bind (.findGen _) fun _ => .bind (.findGen _) fun _ => .bind (.op _) fun _ =>
    .bind (.op _) fun _ => .bind (.unlock _) fun _ => .bind stateBase_tame fun _ =>
    .ite (.bind (.op _) fun _ => .bind (.op _) fun _ => .bind (.rename _ _) fun _ =>
      .bind (.retain _) fun _ => tail _ _) (.bind (.forceRelease _) fun _ => tail _ _)

theorem colorAddr_tame : Tame (colorAddr env) :=
  .bind (.has _) fun _ => .ite (.findGen _) (.ite fastColorAddr_tame
    (.bind (.allocGen _) fun _ => .bind (generalAddress_tame _ _ _ _) fun _ =>
      .bind (.retain _) fun _ => .pure _))

/-! ## Stencil updates -/

theorem replaceStencil_tame (st : Reg) : Tame (replaceStencil env st) :=
  .ite (.bind stateBase_tame fun _ => .bind (.op _) fun _ => .unlock _) (.op _)

theorem incrementStencil_tame (format : PixelFormat) (st : Reg) :
    Tame (incrementStencil format st) :=
  match format with
  | .rgb565 => Tame.pure ()
  | .rgba5551 => Tame.op _
  | .rgba4444 => .bind (.op _) fun _ => .skipIf (.op _)
  | .rgba8888 => .bind (.op _) fun _ => .skipIf (.op _)

theorem decrementStencil_tame (format : PixelFormat) (st : Reg) :
    Tame (decrementStencil format st) :=
  match format with
  | .rgb565 => Tame.pure ()
  | .rgba5551 => Tame.op _
  | .rgba4444 => .bind (.op _) fun _ => .skipIf (.op _)
  | .rgba8888 => .bind (.op _) fun _ => .skipIf (.op _)

theorem updateStencil_tame (action : StencilAction) (st : Reg) :
    Tame (updateStencil env action st) :=
  match action with
  | .keep => Tame.pure ()
  | .zero | .invert => Tame.op _
  | .replace => replaceStencil_tame st
  | .increment => incrementStencil_tame _ st
  | .decrement => decrementStencil_tame _ st

theorem storeStencilMasked_tame (addr st : Reg) (offset : Nat) (colorBits : BitVec 8) :
    Tame (storeStencilMasked env addr st offset colorBits) := by
  have tail (mask : Reg) : Tame (do
      Emit.op (.not false st)
      Emit.op (.alu .or false st mask)
      Emit.op (.not false st)
      Emit.op (.aluStore .and .byte (atOffset addr offset) mask)
      Emit.op (.aluStore .or .byte (atOffset addr offset) st)
      Emit.release .gen5) :=
    .bind (.op _) fun _ => .bind (.op _) fun _ => .bind (.op _) fun _ => .bind (.op _) fun _ =>
      .bind (.op _) fun _ => .release _
  exact .bind (.allocGen _) fun _ => .bind stateBase_tame fun _ => .bind (.op _) fun _ =>
    .bind (.unlock _) fun _ => .ite (.bind (.op _) fun _ => tail _) (tail _)

theorem storeStencilPlain_tame (addr st : Reg) (offset : Nat) (colorBits : BitVec 8) :
    Tame (storeStencilPlain addr st offset colorBits) :=
  .ite (.bind (.op _) fun _ => .bind (.op _) fun _ => .op _) (.op _)

theorem writeStencilOnly_tame (st : Reg) : Tame (writeStencilOnly env st) :=
  .bind (.mark _) fun _ => .ite (.bind colorAddr_tame fun _ =>
    .ite (.bind (storeStencilMasked_tame _ _ _ _) fun _ => .unlock _)
      (.bind (storeStencilPlain_tame _ _ _ _) fun _ => .unlock _)) (.pure _)

/-- The path of a pixel that fails a test, which never comes back. -/
theorem failPath_tame (action : StencilAction) : Tame (do
    if action ≠ .keep then
      let st ← Emit.findGen .stencil
      updateStencil env action st
      writeStencilOnly env st
    Emit.leave) :=
  .ite (.bind (.findGen _) fun _ => .bind (updateStencil_tame _ _) fun _ =>
    .bind (writeStencilOnly_tame _) fun _ => .leave) .leave

theorem failStencil_steady (action : StencilAction) : (failStencil env action).Steady :=
  (failPath_tame action).steady

end Compile

end PixelPipeline
