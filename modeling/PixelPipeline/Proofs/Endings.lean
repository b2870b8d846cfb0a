/-
# Proofs.Endings — what is seen of the last step

Reading a function ends at its return, or at the line that finds out which of the raster
operations is meant, for behind that one lie bodies that are not read in order.  Code
that ends a function is seen up to there (`Code.Closes`), and the write of the color, the
last of all stages, shows the last step of the program (`Features.finish`).
-/
import PixelPipeline.Proofs.Joined

namespace PixelPipeline

open X86 Compile

/-! ## Code that ends a function -/

/-- What a reader finds in code that nothing but the return is behind: a row up to the
line that reading stops at, and in front of that line the ways to the addresses that are
asked for. -/
structure Code.Closes (f : Features) (e : Eye) (t : RoleTable) (w : Ways) (c : Code)
    (row : List Instr) (asked : List Role) : Prop where
  encodable : c.Encodable
  split : ∃ ls l rest, c.lines [.ret] = ls ++ l :: rest ∧ l.stops = true ∧ (∀ i ∈ ls, i.Apt f) ∧
    e.scan (ls ++ [l]) = row ∧ ∀ r ∈ asked, t.Reached w r ∨ Found f r ls

theorem Code.Told.closes {f : Features} {e e₁ : Eye} {t t₁ : RoleTable} {w w₁ : Ways} {a b : Code}
    {row row' : List Instr} {asked : List Role} (ha : a.Told f e t w row e₁ t₁ w₁)
    (hb : b.Closes f e₁ t₁ w₁ row' asked) : (a ++ b).Closes f e t w (row ++ row') asked where
  encodable := ha.encodable.append hb.encodable
  split := by
    obtain ⟨ls, l, rest, hlines, hstops, hapt, hscan, hfound⟩ := hb.split
    refine ⟨a.lines [] ++ ls, l, rest, ?_, hstops, fun i hi => ?_, ?_, fun r hr => ?_⟩
    · rw [lines_append, ha.whole, hlines, List.append_assoc]
    · exact (List.mem_append.mp hi).elim (ha.apt i) (hapt i)
    · rw [List.append_assoc, Eye.scan_append, ha.sees, ha.after, hscan]
    · rcases hfound r hr with h | h
      · exact (ha.found r h).imp_right (·.mono (List.subset_append_left _ _))
      · exact .inr (h.mono (List.subset_append_right _ _))

/-- The action ends a function, and shows a row. -/
def Emit.Closes {α : Type} (f : Features) (e : Eye) (w : Ties) (m : Emit α) (row : List Instr)
    (asked : List Role) : Prop :=
  ∀ d r, d.table.Tied f w → m d = .ok r → r.code.Closes f e d.table w.ways row asked

namespace Emit

variable {α β : Type} {f : Features} {e e₁ : Eye} {w w₁ : Ties} {row row' : List Instr}
  {asked : List Role} {Q : α → Eye → Ties → Prop}

theorem Tells.closes {m : Emit α} {k : α → Emit β} (hm : m.Tells f e w row Q)
    (hk : ∀ a e' w', Q a e' w' → (k a).Closes f e' w' row' asked) :
    (m >>= k).Closes f e w (row ++ row') asked := by
  intro d r hd hr
  obtain ⟨r₁, r₂, hr₁, hr₂, rfl⟩ := bind_ok hr
  obtain ⟨e₁, w₁, htold, htied, hq⟩ := hm d r₁ hd hr₁
  exact htold.closes (hk _ e₁ w₁ hq _ r₂ htied hr₂)

/-- Behind what shows nothing. -/
theorem Shows.closes {m : Emit α} {k : α → Emit β} (hm : Shows f e w m [] e₁ w₁)
    (hk : ∀ a, (k a).Closes f e₁ w₁ row asked) : (m >>= k).Closes f e w row asked :=
  hm.tells.closes fun a _ _ h => h.1 ▸ h.2 ▸ hk a

/-- Behind a line. -/
theorem Shows.closes_line {m : Emit α} {k : α → Emit β} {l : Instr} (hm : Shows f e w m [l] e₁ w₁)
    (hk : ∀ a, (k a).Closes f e₁ w₁ row asked) : (m >>= k).Closes f e w (l :: row) asked :=
  hm.tells.closes fun a _ _ h => h.1 ▸ h.2 ▸ hk a

/-- An action behind which the function returns. -/
theorem Tells.returns {m : Emit α} (hm : m.Tells f e w row Q)
    (hways : ∀ a e' w', Q a e' w' → ∀ r ∈ asked, w'.ways.way r = .behind) :
    m.Closes f e w (row ++ [.ret]) asked := by
  intro d r hd hr
  obtain ⟨e', w', htold, htied, hq⟩ := hm d r hd hr
  refine ⟨htold.encodable, r.code.lines [], .ret, [], htold.whole _, rfl, htold.apt, ?_,
    fun q hq' => ?_⟩
  · rw [Eye.scan_append, htold.sees]
    rfl
  · refine htold.found q ?_
    unfold RoleTable.Reached
    rw [hways _ _ _ hq q hq']
    trivial

/-- An instruction that reading stops at. -/
theorem stop {i : Instr} {k : Emit α} (hencodable : i.encodable = true)
    (hstops : i.line.stops = true) (hways : ∀ r ∈ asked, w.ways.way r = .behind)
    (hk : ∀ d r, k d = .ok r → r.code.Encodable) :
    (Emit.op i >>= fun _ => k).Closes f e w (e.sees i.line).toList asked := by
  intro d r hd hr
  obtain ⟨r₁, r₂, hr₁, hr₂, rfl⟩ := bind_ok hr
  cases hr₁
  refine ⟨⟨hencodable, hk _ _ hr₂⟩, [], i.line, r₂.code.lines [.ret], ?_, hstops,
    fun _ hi => absurd hi List.not_mem_nil, List.append_nil _, fun q hq => .inl ?_⟩
  · rfl
  · unfold RoleTable.Reached
    rw [hways q hq]
    trivial

end Emit

/-! ## What is asked for -/

namespace Features

variable (f : Features)

/-- The address that a pipeline needs at last, and that it has been to therefore. -/
def asks : List Role :=
  if f.writesColor || f.clearsStencil then [.colorAddr]
  else if f.depthWrite then [.depthAddr]
  else []

theorem leaves_color : (f.clearMode && !f.colorClear) = !f.writesColor := by
  simp only [colorClear, writesColor, Bool.not_not]
  cases f.clearMode <;> rfl

variable {f}

/-- Only a clear leaves the color alone, and a clear tests nothing. -/
theorem loadsStencil_of_leaves (h : f.writesColor = false) : f.loadsStencil = false := by
  simp only [writesColor, Bool.not_eq_eq_eq_not, Bool.not_false, Bool.and_eq_true] at h
  simp only [loadsStencil, stencilTest, h.1, Bool.not_true, Bool.false_and]

end Features

/-! ## The color in its stored form -/

namespace PixelFormat

variable (f : PixelFormat) (clear masked loaded : Bool)

/-- A format without stencil bits has no alpha to narrow, and no other narrowing tells
a 32-bit pixel from one without alpha. -/
theorem narrows_written : f.narrows (clear && f.hasStencil) =
    f.narrows (clear && f.hasStencil && !(f == .rgba8888 && masked)) := by
  cases f <;> cases clear <;> rfl

/-- Nor does a store under a mask. -/
theorem stores_written : f.stores masked (clear || loaded) =
    f.stores masked (clear && f.hasStencil && !(f == .rgba8888 && masked) || loaded) := by
  cases f <;> cases clear <;> cases masked <;> cases loaded <;> rfl

end PixelFormat

namespace Emit

variable (env : Env) {e : Eye} {w : Ties} {c : Xmm} {color stored : Option Xmm}
  {stencil : Option Reg}
  {pixel : Option Reg} {deep : Bool} {depth : Way} {ways : Ways}

/-- A color is seen by its bits of blue as it is narrowed, and by its alpha if there is any. -/
theorem Shows.narrow {format : PixelFormat} {color t₁ t₂ : Reg} {alpha : Bool} :
    Shows env.features e w (Emit.ops (Conversion.narrow format color t₁ t₂ alpha))
      (format.narrows (alpha && format.hasStencil)) e w := by
  cases format <;> cases alpha <;> exact ops rfl rfl rfl rfl

namespace Tells

/-- There is a stencil value if its register is known. -/
theorem hasStencil : (Emit.has .stencil).Tells env.features e ⟨color, stored, stencil, ways⟩ []
    fun o e₁ w₁ => o = stencil.isSome ∧ e₁ = e ∧ w₁ = ⟨color, stored, stencil, ways⟩ := by
  intro d r hd hr
  cases hr
  refine ⟨e, _, .done fun _ _ => .inl, hd, ?_, rfl, rfl⟩
  cases stencil with
  | none => exact hd.bare rfl
  | some st =>
    obtain ⟨b, hb, -⟩ := hd.stencil rfl
    show d.table.has .stencil = true
    rw [RoleTable.has_eq, hb]
    rfl

/-- The color in its stored form, beside the stencil value if one has been loaded. -/
theorem storedBits (alpha : Bool) : (storedBits env alpha).Tells env.features
    (.at_ c stored stencil) ⟨some c, none, stencil, ways⟩
    (.movdToReg .rax ⟨0⟩ :: env.features.format.narrows (alpha && env.features.format.hasStencil))
    fun o e₁ w₁ =>
      o.2 = stencil ∧ e₁ = .at_ c stored stencil ∧ w₁ = ⟨none, none, stencil, ways⟩ := by
  have htail (color : Reg) (st : Option Reg) : Tells env.features (.at_ c stored stencil)
      ⟨none, none, stencil, ways⟩ (do
        let st ← Pure.pure st
        let t₁ ← Emit.allocGen .gen1
        let t₂ ← Emit.allocGen .gen2
        Emit.ops (Conversion.narrow env.features.format color t₁ t₂ alpha)
        Emit.release .gen1
        Emit.release .gen2
        Pure.pure (color, st))
      (env.features.format.narrows (alpha && env.features.format.hasStencil))
      fun o e₁ w₁ => o.2 = st ∧ e₁ = .at_ c stored stencil ∧ w₁ = ⟨none, none, stencil, ways⟩ := by
    have hnarrow (t₁ t₂ : Reg) := @Shows.narrow env (.at_ c stored stencil)
      ⟨none, none, stencil, ways⟩ env.features.format color t₁ t₂ alpha
    refine (Tells.pure st).bind_nothing fun _ _ _ h => ?_
    obtain ⟨rfl, rfl, rfl⟩ := h
    exact of_shows (List.append_nil _) ⟨rfl, rfl, rfl⟩
  dsimp only [Compile.storedBits]
  refine behind inferInstance fun vec => behind inferInstance fun _ => ?_
  refine behind inferInstance fun color => ?_
  refine Tells.of_eq (Shows.tells.bind fun _ _ _ h => ?_) List.singleton_append
  obtain ⟨rfl, rfl⟩ := h
  refine behind inferInstance fun _ => (hasStencil env).bind_nothing fun _ _ _ h => ?_
  obtain ⟨rfl, rfl, rfl⟩ := h
  cases stencil with
  | none =>
    rw [Option.isSome_none, if_neg Bool.false_ne_true]
    exact htail color none
  | some st =>
    rw [Option.isSome_some, if_pos rfl]
    refine findGen.bind_nothing fun g _ _ h => ?_
    obtain ⟨rfl, rfl, -, hst⟩ := h
    rw [hst rfl st rfl]
    exact htail color (some st)

/-- The protected bits, if there are any. -/
theorem loadWriteMask : (loadWriteMask env).Tells env.features e w
    (if env.features.writeMasked then [.load false .rax (cell Key.writeMaskAt)] else [])
    fun o e₁ w₁ => o.isSome = env.features.writeMasked ∧ e₁ = e ∧ w₁ = w := by
  dsimp only [Compile.loadWriteMask]
  split
  · rename_i hmasked
    refine behind inferInstance fun m => behind inferInstance fun key => ?_
    exact lift (g := fun _ => some m) inferInstance fun _ => ⟨hmasked.symm, rfl, rfl⟩
  · rename_i hmasked
    have hnone : (none : Option Reg).isSome = env.features.writeMasked :=
      (Bool.eq_false_iff.mpr hmasked).symm
    exact (Tells.pure none).mono fun _ _ _ h => ⟨h.1 ▸ hnone, h.2⟩

end Tells

/-! ## The store -/

namespace Shows

instance placeStencil {format : PixelFormat} {st : Reg} :
    Shows env.features e w (placeStencil format st) [] e w := by
  unfold Compile.placeStencil
  cases format with
  | rgb565 => exact inferInstance
  | rgba8888 => exact inferInstance
  | _ => exact ops rfl rfl rfl rfl

/-- The stencil value joins the color, and is not held any longer. -/
instance mergeStencil {g : Reg} :
    Shows env.features e ⟨none, none, stencil, ways⟩ (mergeStencil env g stencil) [] e
      ⟨none, none, none, ways⟩ := by
  unfold Compile.mergeStencil
  cases stencil with
  | none => exact of_eq inferInstance rfl
  | some st =>
    refine of_eq inferInstance ?_
    cases env.features.format <;> rfl

/-- The pixel is stored, or all of it but the stencil bits. -/
theorem storeColor {addr g : Reg} {mask : Option Reg} (whole : Bool)
    (hplain : env.features.rasterOp = false) :
    Shows env.features e w
      (storeColor env addr g mask (if whole then 0 else env.features.format.stencilBits))
      (env.features.format.stores mask.isSome whole) e w := by
  unfold Compile.storeColor
  cases mask with
  | some m =>
    dsimp only [Compile.storeMasked]
    exact of_eq inferInstance rfl
  | none =>
    dsimp only [Compile.storeKeeping]
    rw [hplain]
    refine of_eq inferInstance ?_
    cases whole <;> cases env.features.format <;> rfl

end Shows

/-! ## Raster operations -/

/-- What the lines that look up a raster operation are made of can be written down. -/
theorem encodable_select {α : Type} {index : Reg} {bodies : Reg → List (Option (List Instr))}
    {k : Emit α} {d : Draft} {r : Emission α} (hr : (do
      Emit.unlock .stateBase
      Emit.op (.aluImm .and false index 0xF)
      let table ← Emit.allocGen .helper
      Emit.put (.select table index (bodies table) .done)
      k) d = .ok r) : r.code.Encodable := by
  obtain ⟨r₁, r₂, hr₁, hr₂, rfl⟩ := bind_ok hr
  obtain ⟨r₃, r₄, hr₃, hr₄, rfl⟩ := bind_ok hr₂
  obtain ⟨r₅, r₆, hr₅, hr₆, rfl⟩ := bind_ok hr₄
  obtain ⟨r₇, r₈, hr₇, hr₈, rfl⟩ := bind_ok hr₆
  cases hr₁
  cases hr₃
  cases hr₇
  obtain ⟨_, _, _, rfl⟩ := onTable_ok hr₅
  exact ⟨rfl, trivial⟩

/-- The color is combined with the stored one and stored. -/
theorem combineAndStore {addr g : Reg} {asked : List Role}
    (hways : ∀ r ∈ asked, ways.way r = .behind) :
    (combineAndStore env addr g stencil).Closes env.features (.at_ c stored stencil)
      ⟨none, none, stencil, ways⟩
      ((if env.features.writeMasked then [.load false .rax (cell Key.writeMaskAt)] else []) ++
        (if env.features.rasterOp then
          [if env.features.format = .rgba8888 then .load false .rax (cell 0)
            else .loadExt .zeroWord .rax (cell 0),
            .loadExt .zeroByte .rax (cell DrawState.rasterOpAt)]
        else env.features.format.stores env.features.writeMasked
          (env.features.stencilClear || stencil.isSome) ++ [.ret])) asked := by
  dsimp only [Compile.combineAndStore]
  refine (Tells.loadWriteMask env).closes fun mask _ _ h => ?_
  obtain ⟨hmask, rfl, rfl⟩ := h
  refine Shows.closes inferInstance fun _ => ?_
  cases hop : env.features.rasterOp with
  | false =>
    rw [if_neg Bool.false_ne_true, if_neg Bool.false_ne_true, ← hmask]
    have hstore (e : Eye) (w : Ties) := @Shows.storeColor env e w addr g mask
      (env.features.stencilClear || stencil.isSome) hop
    refine Tells.returns (Shows.of_eq inferInstance (List.append_nil _)).tells ?_
    intro _ _ _ h r hr
    obtain ⟨rfl, rfl⟩ := h
    exact hways r hr
  | true =>
    rw [if_pos rfl, if_pos rfl]
    by_cases hformat : env.features.format = .rgba8888
    · simp only [Compile.rasterOp, if_pos hformat, bind_assoc]
      refine Shows.closes inferInstance fun _ => Shows.closes inferInstance fun dst => ?_
      refine Shows.closes_line inferInstance fun _ => ?_
      refine Shows.closes inferInstance fun _ => Shows.closes inferInstance fun state => ?_
      exact stop rfl rfl hways fun _ _ => encodable_select
    · have hload (dst : Reg) : Instr.Seen (.at_ c stored stencil)
          (.loadExt .zeroWord dst (atOffset addr 0)) [.loadExt .zeroWord .rax (cell 0)]
          ⟨some c, some dst, stored, stencil⟩ := ⟨rfl, rfl, rfl, rfl⟩
      simp only [Compile.rasterOp, if_neg hformat, bind_assoc]
      refine Shows.closes inferInstance fun _ => Shows.closes inferInstance fun dst => ?_
      refine Shows.closes_line inferInstance fun _ => ?_
      refine Shows.closes inferInstance fun _ => Shows.closes inferInstance fun state => ?_
      exact stop rfl rfl hways fun _ _ => encodable_select

/-! ## The write of the color -/

/-- The pixel is written. -/
theorem writePixel : (writePixel env).Closes env.features (.at_ c stored stencil)
    ⟨some c, none, stencil, ⟨false, false, .settled, depth⟩⟩
    ((Finish.write env.features.format env.features.writeMasked env.features.writesAlpha
      env.features.rasterOp).sketch stencil.isSome) [.colorAddr] := by
  rw [Finish.sketch, Features.writesAlpha, ← PixelFormat.narrows_written,
    ← PixelFormat.stores_written, List.append_assoc, ← List.cons_append]
  dsimp only [Compile.writePixel]
  refine (Tells.colorAddr env fun h => by cases h).closes fun addr _ _ h => ?_
  obtain ⟨rfl, rfl⟩ := h
  refine Shows.closes inferInstance fun _ => Shows.closes inferInstance fun _ => ?_
  refine (Tells.storedBits env env.features.stencilClear).closes fun o _ _ h => ?_
  obtain ⟨color, st⟩ := o
  obtain ⟨hst, rfl, rfl⟩ := h
  obtain rfl : st = stencil := hst
  have hways : ∀ r ∈ [Role.colorAddr], Ways.way ⟨false, false, .behind, depth⟩ r = .behind := by
    simp [Ways.way]
  cases st with
  | none => exact combineAndStore env hways
  | some st => exact Shows.closes inferInstance fun _ => combineAndStore env hways

/-- The stencil bits alone are stored, with the way to the pixel behind. -/
theorem Tells.writeStencilOnly [e.HoldsStencil w] {st : Reg}
    (h : env.features.format.hasStencil = true) (hw : w.ways.color ≠ .owed) :
    (writeStencilOnly env st).Tells env.features e w
      (env.features.format.storesStencil env.features.writeMasked)
      fun _ e₁ w₁ => e₁ = e ∧ w₁ = w.set .colorAddr .behind := by
  dsimp only [Compile.writeStencilOnly]
  rw [if_pos h]
  refine behind inferInstance fun _ => (Tells.colorAddr env hw).bind_nothing fun addr _ _ h' => ?_
  obtain ⟨rfl, rfl⟩ := h'
  refine Shows.tells.of_eq ?_
  cases env.features.writeMasked <;> exact List.append_nil _

/-- The stencil bits are cleared, and the color is left alone. -/
theorem clearStencil (h : (env.features.stencilClear && env.features.format.hasStencil) = true) :
    (clearStencil env).Closes env.features (.at_ c stored none)
      ⟨some c, none, none, ⟨false, false, .settled, depth⟩⟩
      ((Finish.clearStencil env.features.format env.features.writeMasked).sketch false)
      [.colorAddr] := by
  have hstencil := (Bool.and_eq_true_iff.mp h).2
  dsimp only [Compile.clearStencil]
  rw [if_pos h]
  refine Shows.closes inferInstance fun vec => Shows.closes inferInstance fun _ => ?_
  refine Tells.allocStencil.closes fun st _ _ h' => ?_
  obtain ⟨rfl, rfl⟩ := h'
  refine Shows.closes_line inferInstance fun _ => Shows.closes inferInstance fun _ => ?_
  refine Shows.closes inferInstance fun _ => ?_
  have hwrite : Tells env.features (.at_ c stored none)
      ⟨some c, none, some st, ⟨false, false, .settled, depth⟩⟩ (do
        Compile.writeStencilOnly env st
        Emit.forceRelease .stencil) (env.features.format.storesStencil env.features.writeMasked)
      fun _ _ w₁ => w₁.ways = ⟨false, false, .behind, depth⟩ := by
    refine ((Tells.writeStencilOnly env hstencil fun h => by cases h).bind fun _ _ _ h' => ?_).of_eq
      (List.append_nil _)
    obtain ⟨rfl, rfl⟩ := h'
    exact Shows.releaseStencil.tells.mono fun _ _ _ h' => h'.2 ▸ rfl
  refine hwrite.returns fun _ _ _ h' r hr => ?_
  rw [h', List.mem_singleton.mp hr]
  rfl

/-- The color write shows the last step. -/
theorem writeColor (hloaded : stencil.isSome = env.features.loadsStencil) :
    (writeColor env).Closes env.features (.at_ c stored stencil) ⟨some c, none, stencil,
      ⟨false, false, .settled, if env.features.depthWrite then .behind else .settled⟩⟩
      (env.features.finish.sketch stencil.isSome) env.features.asks := by
  dsimp only [Compile.writeColor]
  refine Shows.closes inferInstance fun _ => ?_
  rw [Features.leaves_color, Features.asks, Features.finish]
  cases hcolor : env.features.writesColor with
  | true => exact writePixel env
  | false =>
    have hnone : stencil = none := by
      rw [Features.loadsStencil_of_leaves hcolor] at hloaded
      exact Option.isNone_iff_eq_none.mp (Option.isSome_eq_false_iff.mp hloaded)
    subst hnone
    have hmay : env.features.clearsStencil =
        (env.features.stencilClear && env.features.format.hasStencil) := by
      rw [Features.clearsStencil, hcolor, Bool.not_false, Bool.true_and]
    rw [hmay]
    cases hstencil : env.features.stencilClear && env.features.format.hasStencil with
    | true => exact clearStencil env hstencil
    | false =>
      have hskip : Compile.clearStencil env = Pure.pure () := by
        rw [Compile.clearStencil, hstencil]
        rfl
      rw [if_pos (show (!false) = true from rfl), hskip]
      refine (Tells.pure ()).returns fun _ _ _ h r hr => ?_
      obtain ⟨-, -, rfl⟩ := h
      cases hdepth : env.features.depthWrite with
      | true =>
        rw [hdepth] at hr
        rw [List.mem_singleton.mp hr]
        rfl
      | false =>
        rw [hdepth] at hr
        exact absurd hr List.not_mem_nil

end Emit

end PixelPipeline
