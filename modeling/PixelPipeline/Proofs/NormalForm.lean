/-
# Proofs.NormalForm — what the word of a key says

Of a configuration that is drawn under given registers, a key keeps what makes a
difference (`NormalForm`): which buffers a clear writes, or what the tests, the
updates and the blend of another draw come down to.  The forms are said in terms of
the configuration and the registers alone, and what the key stores is shown to be
those.  The word of the key holds that and one more bit, for a write mask that
protects something.  All of it can be read off, and keys are the same exactly if it is.
-/
import PixelPipeline.Key

namespace PixelPipeline

/-! ## Normal forms -/

/-- What an alpha test comes down to. -/
@[ext]
structure AlphaForm where
  func : Comparison
  /-- The reference, masked already. -/
  reference : BitVec 8
  masked : Bool

/-- What a stencil test comes down to. -/
@[ext]
structure StencilForm where
  func : Comparison
  /-- The reference, masked already. -/
  reference : BitVec 8
  masked : Bool
  fail : StencilAction
  depthFail : StencilAction
  depthPass : StencilAction

/-- What a draw that is not a clear comes down to. -/
@[ext]
structure DrawForm where
  alpha : AlphaForm
  depth : Comparison
  depthWrite : Bool
  stencil : Option StencilForm
  colorTest : Bool
  fog : Bool
  dither : Bool
  rasterOp : Bool
  blend : Option Blend

/-- What a configuration comes down to. -/
@[ext]
structure NormalForm where
  format : PixelFormat
  depthRange : Bool
  standardStride : Bool
  /-- A clear with its flags, or another draw. -/
  mode : ClearFlags ⊕ DrawForm

/-- A test that all pass or none has no reference, and no mask. -/
def AlphaForm.of (test : Option AlphaTest) (mask : BitVec 8) : AlphaForm :=
  match test with
  | none => ⟨.always, 0, false⟩
  | some t =>
      if t.func = .always ∨ t.func = .never then ⟨t.func, 0, false⟩
      else ⟨t.func, t.reference &&& mask, mask != 0xFF⟩

/-- The format of 565 bits has no stencil and keeps it.  A reference that is neither compared nor
stored is dropped. -/
def StencilForm.of (t : StencilTest) (format : PixelFormat) (mask : BitVec 8) : StencilForm :=
  let stored (action : StencilAction) : StencilAction := if format = .rgb565 then .keep else action
  let replaces := [t.fail, t.depthFail, t.depthPass].any (stored · == .replace)
  let reads := t.func != .always && t.func != .never || replaces
  { func := t.func
    reference := if reads then t.reference &&& mask else 0
    masked := reads && mask != 0xFF
    fail := stored t.fail
    depthFail := stored t.depthFail
    depthPass := stored t.depthPass }

/-- The blend of no equation and no factors, which has the codes zero. -/
def Blend.unset : Blend := ⟨.add, .otherColor, .otherColor⟩

/-- The fixed factor comes down to zero if all bits of the three channels of its color are
clear, and to one if they are all set.  The alpha of the color means nothing. -/
def BlendFactor.normal (f : BlendFactor) (color : BitVec 32) : BlendFactor :=
  if f = .fixed ∧ color.setWidth 24 = 0 then .zero
  else if f = .fixed ∧ color.setWidth 24 = .allOnes 24 then .one
  else f

/-- The equations that take the lesser, the greater or the difference have no factors. -/
def Blend.normal (b : Blend) (s : DrawState) : Blend :=
  match b.equation with
  | .add | .subtract | .reverseSubtract =>
      ⟨b.equation, b.src.normal s.blendFixA, b.dst.normal s.blendFixB⟩
  | .min | .max | .absDiff => { Blend.unset with equation := b.equation }

/-- What a draw that is not a clear comes down to under given registers. -/
def DrawForm.of (c : Config) (s : DrawState) : DrawForm where
  alpha := .of c.alphaTest s.alphaTestMask
  depth := c.depthTest.getD .always
  depthWrite := c.depthWrite
  stencil := c.stencilTest.map (.of · c.format s.stencilMask)
  colorTest := c.colorTest
  fog := c.fog
  dither := c.dither
  rasterOp := c.rasterOp
  blend := c.blend.map (·.normal s)

/-- What a configuration comes down to under given registers.  A clear is its flags,
whatever else it asks for. -/
def NormalForm.of (c : Config) (s : DrawState) : NormalForm where
  format := c.format
  depthRange := c.depthRange
  standardStride := s.fbStride == 512 && s.depthStride == 512
  mode := match c.clear with
    | some flags => .inl flags
    | none => .inr (.of c s)

/-! ## What is stored -/

/-- Functions other than these two compare. -/
theorem Comparison.compares_eq (f : Comparison) : f.compares = (f != .always && f != .never) := by
  cases f <;> rfl

theorem AlphaForm.of_some (t : AlphaTest) (mask : BitVec 8) :
    AlphaForm.of (some t) mask =
      if t.func.compares then ⟨t.func, t.reference &&& mask, mask != 0xFF⟩
      else ⟨t.func, 0, false⟩ := by
  rw [AlphaForm.of]
  cases t.func <;> rfl

/-- Updates are stored where there is a stencil. -/
theorem StencilForm.stored_eq (format : PixelFormat) (action : StencilAction) :
    (if format = .rgb565 then .keep else action) = if format.hasStencil then action else .keep := by
  cases format <;> rfl

/-- The low bits of a color are its three channels. -/
theorem channels_eq (color : BitVec 32) :
    color &&& 0x00FFFFFF = (color.setWidth 24).setWidth 32 := by
  apply BitVec.eq_of_toNat_eq
  rw [BitVec.toNat_and, BitVec.toNat_setWidth, BitVec.toNat_setWidth]
  show color.toNat &&& 2 ^ 24 - 1 = color.toNat % 2 ^ 24 % 2 ^ 32
  rw [Nat.and_two_pow_sub_one_eq_mod]
  omega

/-- Folding a factor gives what it comes down to. -/
theorem BlendFactor.fold_eq_normal (f : BlendFactor) (color : BitVec 32) :
    f.fold color = f.normal color := by
  have hchannels (v : BitVec 24) : color &&& 0x00FFFFFF = v.setWidth 32 ↔ color.setWidth 24 = v := by
    rw [channels_eq]
    refine ⟨fun h => ?_, fun h => by rw [h]⟩
    have hback := congrArg (BitVec.setWidth 24) h
    rwa [BitVec.setWidth_setWidth_of_le (color.setWidth 24) (by decide),
      BitVec.setWidth_setWidth_of_le v (by decide), BitVec.setWidth_eq, BitVec.setWidth_eq] at hback
  cases f with
  | fixed =>
    show (if color &&& 0x00FFFFFF = (0 : BitVec 24).setWidth 32 then zero
      else if color &&& 0x00FFFFFF = (BitVec.allOnes 24).setWidth 32 then one else fixed) = _
    simp only [hchannels, normal, true_and]
  | _ => rfl

theorem Blend.normal_eq (b : Blend) (s : DrawState) :
    b.normal s =
      if b.equation.usesFactors then
        ⟨b.equation, b.src.fold s.blendFixA, b.dst.fold s.blendFixB⟩
      else { Blend.unset with equation := b.equation } := by
  rw [Blend.normal, BlendFactor.fold_eq_normal, BlendFactor.fold_eq_normal]
  cases b.equation <;> rfl

/-! ## Features of a normal form -/

/-- The stencil test of a draw that has none. -/
def StencilForm.unset : StencilForm := ⟨.always, 0, false, .keep, .keep, .keep⟩

/-- The features that stand for a clear. -/
def ClearFlags.features (flags : ClearFlags) (n : NormalForm) (writeMasked : Bool) : Features where
  format := n.format
  depthRange := n.depthRange
  standardStride := n.standardStride
  writeMasked := writeMasked
  clearMode := true
  colorFlag := flags.color
  stencilFlag := flags.stencil
  depthFlag := flags.depth
  alphaFunc := .always
  alphaRef := 0
  alphaMasked := false
  depthFunc := .always
  stencilFunc := .always
  stencilRef := 0
  stencilMasked := false
  stencilFail := .keep
  depthFail := .keep
  depthPass := .keep
  fog := false
  dither := false
  rasterOp := false
  blend := false
  blendEquation := Blend.unset.equation
  blendSrc := Blend.unset.src
  blendDst := Blend.unset.dst

/-- The features that stand for another draw. -/
def DrawForm.features (d : DrawForm) (n : NormalForm) (writeMasked : Bool) : Features where
  format := n.format
  depthRange := n.depthRange
  standardStride := n.standardStride
  writeMasked := writeMasked
  clearMode := false
  colorFlag := d.colorTest
  stencilFlag := d.stencil.isSome
  depthFlag := d.depthWrite
  alphaFunc := d.alpha.func
  alphaRef := d.alpha.reference
  alphaMasked := d.alpha.masked
  depthFunc := d.depth
  stencilFunc := (d.stencil.getD .unset).func
  stencilRef := (d.stencil.getD .unset).reference
  stencilMasked := (d.stencil.getD .unset).masked
  stencilFail := (d.stencil.getD .unset).fail
  depthFail := (d.stencil.getD .unset).depthFail
  depthPass := (d.stencil.getD .unset).depthPass
  fog := d.fog
  dither := d.dither
  rasterOp := d.rasterOp
  blend := d.blend.isSome
  blendEquation := (d.blend.getD .unset).equation
  blendSrc := (d.blend.getD .unset).src
  blendDst := (d.blend.getD .unset).dst

/-- The features that stand for a normal form, given whether a write mask
protects something. -/
def NormalForm.features (n : NormalForm) (writeMasked : Bool) : Features :=
  match n.mode with
  | .inl flags => flags.features n writeMasked
  | .inr d => d.features n writeMasked

/-! ## What a configuration's features are -/

theorem NormalForm.mode_of (c : Config) (s : DrawState) :
    (NormalForm.of c s).mode = c.clear.elim (.inr (.of c s)) .inl := by
  unfold NormalForm.of
  cases c.clear <;> rfl

namespace Features

variable {f : Features}

/-- Features without an alpha test take the form of one. -/
theorem withAlphaTest_eq (test : Option AlphaTest) (mask : BitVec 8)
    (hfunc : f.alphaFunc = .always) (href : f.alphaRef = 0) (hmasked : f.alphaMasked = false) :
    f.withAlphaTest test mask =
      { f with
        alphaFunc := (AlphaForm.of test mask).func
        alphaRef := (AlphaForm.of test mask).reference
        alphaMasked := (AlphaForm.of test mask).masked } := by
  cases test with
  | none => simp only [withAlphaTest, AlphaForm.of, ← hfunc, ← href, ← hmasked]
  | some t =>
    simp only [withAlphaTest, AlphaForm.of_some]
    split
    · rfl
    · simp only [← href, ← hmasked]

/-- Updates of a test are stored as its form has them. -/
theorem storedActions_eq (t : StencilTest) (format : PixelFormat) (mask : BitVec 8) :
    storedActions t format =
      ((StencilForm.of t format mask).fail, (StencilForm.of t format mask).depthFail,
        (StencilForm.of t format mask).depthPass) := by
  simp only [storedActions, StencilForm.of, StencilForm.stored_eq]
  split <;> rfl

/-- Features without a stencil test take the form of one. -/
theorem withStencilTest_eq (test : Option StencilTest) (mask : BitVec 8)
    (hflag : f.stencilFlag = false) (hfunc : f.stencilFunc = .always) (href : f.stencilRef = 0)
    (hmasked : f.stencilMasked = false) (hfail : f.stencilFail = .keep)
    (hdepthFail : f.depthFail = .keep) (hdepthPass : f.depthPass = .keep) :
    f.withStencilTest test mask =
      { f with
        stencilFlag := test.isSome
        stencilFunc := ((test.map (StencilForm.of · f.format mask)).getD .unset).func
        stencilRef := ((test.map (StencilForm.of · f.format mask)).getD .unset).reference
        stencilMasked := ((test.map (StencilForm.of · f.format mask)).getD .unset).masked
        stencilFail := ((test.map (StencilForm.of · f.format mask)).getD .unset).fail
        depthFail := ((test.map (StencilForm.of · f.format mask)).getD .unset).depthFail
        depthPass := ((test.map (StencilForm.of · f.format mask)).getD .unset).depthPass } := by
  cases test with
  | none =>
    cases f
    simp_all only [withStencilTest, Option.map_none, Option.getD_none, Option.isSome_none,
      StencilForm.unset]
  | some t =>
    simp only [withStencilTest, storedActions_eq t f.format mask, Option.map_some,
      Option.getD_some, Option.isSome_some, StencilForm.of, Comparison.compares_eq, List.any_cons,
      List.any_nil, Bool.or_false, Bool.or_assoc]

/-- Features without a blend take the form of one. -/
theorem withBlend_eq (blend : Option Blend) (s : DrawState)
    (hblend : f.blend = false) (hequation : f.blendEquation = Blend.unset.equation)
    (hsrc : f.blendSrc = Blend.unset.src) (hdst : f.blendDst = Blend.unset.dst) :
    f.withBlend blend s =
      { f with
        blend := blend.isSome
        blendEquation := ((blend.map (Blend.normal · s)).getD Blend.unset).equation
        blendSrc := ((blend.map (Blend.normal · s)).getD Blend.unset).src
        blendDst := ((blend.map (Blend.normal · s)).getD Blend.unset).dst } := by
  cases blend with
  | none =>
    cases f
    simp_all only [withBlend, Option.map_none, Option.getD_none, Option.isSome_none]
  | some b =>
    simp only [withBlend, Option.map_some, Option.getD_some, Option.isSome_some, Blend.normal_eq]
    split
    · rfl
    · simp only [← hsrc, ← hdst]

/-- The features of a draw that is not a clear are those of what it comes down to. -/
theorem ofDraw_eq (c : Config) (s : DrawState) (masked : Bool) :
    { ofDraw c s with
      depthRange := c.depthRange
      standardStride := s.hasStandardStride
      writeMasked := masked } = (DrawForm.of c s).features (.of c s) masked := by
  rw [ofDraw, withAlphaTest_eq _ _ rfl rfl rfl, withStencilTest_eq _ _ rfl rfl rfl rfl rfl rfl rfl,
    withBlend_eq _ _ rfl rfl rfl rfl]
  simp only [DrawForm.features, DrawForm.of, NormalForm.of, Option.isSome_map]
  rfl

/-- The features of a configuration are those of what it comes down to. -/
theorem ofConfig_eq (c : Config) (s : DrawState) :
    ofConfig c s = (NormalForm.of c s).features (masksWrites c s) := by
  rw [ofConfig, NormalForm.features, NormalForm.mode_of]
  cases c.clear with
  | some flags => rfl
  | none => exact ofDraw_eq c s (masksWrites c s)

end Features

/-! ## What features tell -/

/-- Options are equal if both are there or none is, and they read the same. -/
theorem option_eq_of_getD {α : Type} {a b : Option α} (d : α) (hsome : a.isSome = b.isSome)
    (hval : a.getD d = b.getD d) : a = b := by
  cases a <;> cases b <;> simp_all

/-- Draws with the same features come down to the same. -/
theorem DrawForm.features_inj {d d' : DrawForm} {n n' : NormalForm} {masked masked' : Bool}
    (h : d.features n masked = d'.features n' masked') : d = d' := by
  simp only [DrawForm.features, Features.mk.injEq, true_and] at h
  have hstencil : d.stencil = d'.stencil :=
    option_eq_of_getD .unset (by simp only [h]) (by ext1 <;> simp only [h])
  have hblend : d.blend = d'.blend := by
    refine option_eq_of_getD Blend.unset (by simp only [h]) ?_
    cases hb : d.blend.getD Blend.unset
    cases hb' : d'.blend.getD Blend.unset
    simp only [hb, hb'] at h
    simp only [h]
  have halpha : d.alpha = d'.alpha := by ext1 <;> simp only [h]
  ext1 <;> simp only [h, halpha, hstencil, hblend]

theorem NormalForm.features_format (n : NormalForm) (masked : Bool) :
    (n.features masked).format = n.format := by
  unfold features; split <;> rfl

theorem NormalForm.features_depthRange (n : NormalForm) (masked : Bool) :
    (n.features masked).depthRange = n.depthRange := by
  unfold features; split <;> rfl

theorem NormalForm.features_standardStride (n : NormalForm) (masked : Bool) :
    (n.features masked).standardStride = n.standardStride := by
  unfold features; split <;> rfl

theorem NormalForm.features_writeMasked (n : NormalForm) (masked : Bool) :
    (n.features masked).writeMasked = masked := by
  unfold features; split <;> rfl

theorem NormalForm.features_clearMode (n : NormalForm) (masked : Bool) :
    (n.features masked).clearMode = n.mode.isLeft := by
  unfold features; split <;> simp_all [ClearFlags.features, DrawForm.features]

/-- The features tell forms apart. -/
theorem NormalForm.mode_of_features {n n' : NormalForm} {masked masked' : Bool}
    (h : n.features masked = n'.features masked') : n.mode = n'.mode := by
  have hmode := congrArg Features.clearMode h
  rw [features_clearMode, features_clearMode] at hmode
  cases hn : n.mode with
  | inl flags =>
    cases hn' : n'.mode with
    | inl flags' =>
      simp only [features, hn, hn', ClearFlags.features, Features.mk.injEq] at h
      cases flags; cases flags'
      simp_all only
    | inr d => simp [hn, hn'] at hmode
  | inr d =>
    cases hn' : n'.mode with
    | inl flags' => simp [hn, hn'] at hmode
    | inr d' =>
      simp only [features, hn, hn'] at h
      rw [DrawForm.features_inj h]

/-- No clear has a raster operation. -/
theorem NormalForm.clearMode_of_rasterOp {n : NormalForm} {masked : Bool}
    (h : (n.features masked).rasterOp = true) : (n.features masked).clearMode = false := by
  unfold features at h ⊢
  cases hmode : n.mode with
  | inl flags =>
    rw [hmode] at h
    cases h
  | inr d => rfl

/-- The features tell normal forms apart. -/
theorem NormalForm.features_inj {n n' : NormalForm} {masked masked' : Bool} :
    n.features masked = n'.features masked' ↔ n = n' ∧ masked = masked' := by
  refine ⟨fun h => ⟨?_, ?_⟩, fun ⟨hn, hm⟩ => hn ▸ hm ▸ rfl⟩
  · ext1
    · rw [← n.features_format masked, h, features_format]
    · rw [← n.features_depthRange masked, h, features_depthRange]
    · rw [← n.features_standardStride masked, h, features_standardStride]
    · exact mode_of_features h
  · rw [← n.features_writeMasked masked, h, features_writeMasked]

/-! ## What a word tells -/

namespace Key

/-- The word of a key unpacks to the features it was packed from. -/
theorem features_ofConfig (c : Config) (s : DrawState) :
    (ofConfig c s).features = Features.ofConfig c s :=
  Features.unpack_pack _

/-- The word of a key holds its fields, and nothing behind them. -/
theorem word_ofConfig_shift (c : Config) (s : DrawState) :
    (ofConfig c s).word >>> KeyWord.width = 0 := by
  apply BitVec.eq_of_getLsbD_eq
  intro i _
  rw [BitVec.getLsbD_ushiftRight, ofConfig, Features.getLsbD_pack _ (Nat.le_add_right _ _)]
  exact BitVec.getLsbD_zero.symm

/-- Keys are the same exactly if they were made for the same normal form, and both
or none for a write mask that protects something. -/
theorem same_iff (c c' : Config) (s s' : DrawState) :
    (ofConfig c s).same (ofConfig c' s') = true ↔
      NormalForm.of c s = NormalForm.of c' s' ∧
        Features.masksWrites c s = Features.masksWrites c' s' := by
  rw [same, beq_iff_eq, ← NormalForm.features_inj, ← Features.ofConfig_eq, ← Features.ofConfig_eq]
  exact Features.pack_inj

/-- Everything read off the word of a key is the normal form that it was made for:
its fields, what the flags shared between clears and other draws mean in each,
and that no more is in the word. -/
theorem tells_normal_form (c : Config) (s : DrawState) :
    (ofConfig c s).features = (NormalForm.of c s).features (Features.masksWrites c s) ∧
    (ofConfig c s).features.colorClear = c.clear.any (·.color) ∧
    (ofConfig c s).features.stencilClear = c.clear.any (·.stencil) ∧
    (ofConfig c s).features.depthClear = c.clear.any (·.depth) ∧
    (ofConfig c s).features.colorTest = (c.clear.isNone && c.colorTest) ∧
    (ofConfig c s).features.stencilTest = (c.clear.isNone && c.stencilTest.isSome) ∧
    (ofConfig c s).features.depthWrite = c.clear.elim c.depthWrite (·.depth) ∧
    (ofConfig c s).features.needsConstants =
      ((c.clear.isNone && c.dither) || Features.masksWrites c s) ∧
    (ofConfig c s).word >>> KeyWord.width = 0 ∧
    ∀ c' s', (ofConfig c s).same (ofConfig c' s') = true ↔
      NormalForm.of c s = NormalForm.of c' s' ∧
        Features.masksWrites c s = Features.masksWrites c' s' := by
  have hfeatures := (features_ofConfig c s).trans (Features.ofConfig_eq c s)
  refine ⟨hfeatures, ?_, ?_, ?_, ?_, ?_, ?_, ?_, word_ofConfig_shift c s,
    fun c' s' => same_iff c c' s s'⟩
  all_goals
    rw [hfeatures, NormalForm.features, NormalForm.mode_of]
    cases c.clear
  -- A draw has a stencil form if it has a stencil test; the other flags are copied.
  all_goals first
    | rfl
    | exact Option.isSome_map

end Key

end PixelPipeline
