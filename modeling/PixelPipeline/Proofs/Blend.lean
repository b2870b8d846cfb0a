/-
# Proofs.Blend — joining the working color with the stored one

Both colors are four integers in vector registers (`Setting.Holds`), in 11.4
fixed point where the plan of the blend asks for it.  Factors are built as
`BlendFactor.weight` says, and a product with one drops the bits that
`BlendFactor.scaleLane` drops.  The alpha of the result is not followed: it is
stored by no pipeline that blends.
-/
import PixelPipeline.Compile.Blending
import PixelPipeline.Proofs.Conversions
import PixelPipeline.Proofs.Shading

namespace PixelPipeline

open X86 Compile

/-! ## Values -/

/-- A lane in fixed point, if it is to be. -/
def fixedPoint (b : Bool) (n : Nat) : Nat := if b then n <<< 4 else n

theorem shiftLeft_four_lt {n : Nat} (h : n < 256) : n <<< 4 < 65536 := by
  rw [Nat.shiftLeft_eq]
  omega

namespace BlendFactor

/-- A factor in fixed point before it is inverted. -/
def direct (factor : BlendFactor) (v : Nat) : Nat :=
  if factor.isDouble then 2 * (v <<< 4) else v <<< 4

/-- The destination factor of an inverse pair is what the source factor leaves
of one. -/
theorem weight_of_inversePair {src dst : BlendFactor} (h : BlendPlan.inversePair src dst = true)
    (o o' f f' a d : Nat) :
    dst.weight (dst.source o f a d) = 0xFF0 - src.weight (src.source o' f' a d) := by
  unfold BlendPlan.inversePair at h
  split at h <;> first | rfl | cases h

/-- The destination alpha matters only where it is read. -/
theorem source_congr {factor : BlendFactor} {d d' : Nat} (h : factor.readsDstAlpha = true → d = d')
    (o f a : Nat) : factor.source o f a d = factor.source o f a d' := by
  cases factor <;> first | rfl | exact h rfl

theorem scaled_of_nontrivial {factor : BlendFactor} (h : factor.isTrivial = false) (x v : Nat) :
    factor.scaled x v = scaleLane x (factor.weight v) := by
  cases factor <;> first | rfl | cases h

/-- A product of lanes in fixed point is a scaled lane. -/
theorem mulHigh_eq_scaleLane (x w : Nat) :
    (x <<< 4 ||| 8) * (w ||| 8) / 65536 = scaleLane x w := by
  rw [scaleLane, Nat.shiftRight_eq_div_pow]

end BlendFactor

/-- The blend of a pipeline may go by this plan: by the one for the pipeline, or by
the one that builds the destination factor from scratch. -/
def BlendPlan.Serves (plan : BlendPlan) (f : Features) : Prop :=
  plan = ofFeatures f ∨ plan = (ofFeatures f).withoutInverse

/-- The color a blend is given of a stored pixel. -/
def PixelFormat.loaded (f : PixelFormat) (p : BitVec 32) (keepAlpha : Bool) : BitVec 32 :=
  if f = .rgba8888 then p else f.widen p keepAlpha

theorem PixelFormat.widen_rgba8888 (p : BitVec 32) : PixelFormat.rgba8888.widen p true = p := by
  rw [widen, if_pos rfl, widenRGB, widenAlpha, ← BitVec.and_or_distrib_left]
  exact BitVec.and_allOnes

theorem PixelFormat.widenAlpha_low (f : PixelFormat) (p : BitVec 32) :
    f.widenAlpha p &&& 0x00FFFFFF = 0#32 := by
  cases f with
  | rgb565 => exact BitVec.zero_and
  | rgba5551 =>
    rw [widenAlpha]
    split <;> rfl
  | rgba4444 =>
    apply BitVec.eq_of_getLsbD_eq
    intro j hj
    interval_cases j <;> simp [widenAlpha, widen4, -BitVec.getLsbD_eq_getElem]
  | rgba8888 => rw [widenAlpha, BitVec.and_assoc]; exact BitVec.and_zero

/-- Bits of the last channel are not seen in the others. -/
theorem channels_or_high (rgb : BitVec 32) {c : BitVec 32} (hc : c &&& 0x00FFFFFF = 0#32) {i : Fin 4}
    (hi : i ≠ 3) : channels (rgb ||| c) i = channels rgb i := by
  have hin (j : Nat) (hj : j < 24) : (0x00FFFFFF : BitVec 32).getLsbD j = true := by
    revert j; decide
  refine congrArg BitVec.toNat (BitVec.eq_of_getLsbD_eq fun j hj => ?_)
  have hbit := congrArg (BitVec.getLsbD · (8 * i + j)) hc
  rw [BitVec.getLsbD_and, hin _ (by omega), Bool.and_true, BitVec.getLsbD_zero] at hbit
  rw [BitVec.getLsbD_extractLsb', BitVec.getLsbD_extractLsb', BitVec.getLsbD_or, hbit,
    Bool.or_false]

/-- Its red, green and blue are those of the pixel, and so is its alpha if it is
asked for. -/
theorem PixelFormat.channels_loaded (f : PixelFormat) (p : BitVec 32) (keepAlpha : Bool) (i : Fin 4)
    (hi : i = 3 → keepAlpha = true) :
    channels (f.loaded p keepAlpha) i = channels (f.widen p true) i := by
  unfold loaded
  split
  · rename_i hf
    rw [hf, widen_rgba8888]
  · cases keepAlpha with
    | true => rfl
    | false =>
      rw [widen, widen, if_pos rfl, if_neg Bool.false_ne_true]
      exact (channels_or_high _ (f.widenAlpha_low p) fun h => Bool.false_ne_true (hi h)).symm

namespace Setting

variable {k : Setting} {s s' : View} {L : Memory → Prop}

/-- A vector register shows four integers that are not negative. -/
def Holds (k : Setting) (s : View) (r : Role) (x : Xmm) (c : Fin 4 → Nat) : Prop :=
  ∃ v, s.roles r = .lanes x v ∧ (k.exact → Lanes.Has v c)

theorem Holds.of_frame {r : Role} {x : Xmm} {c : Fin 4 → Nat} {rs : List Role} (h : k.Holds s r x c)
    (hs : s.Frame rs s') (hr : r ∉ rs) : k.Holds s' r x c := by
  obtain ⟨v, hv, hc⟩ := h
  exact ⟨v, (hs.roles r hr).trans hv, hc⟩

theorem Holds.of_eq {r : Role} {x : Xmm} {c c' : Fin 4 → Nat} (h : k.Holds s r x c)
    (hc : ∀ i, c i = c' i) : k.Holds s r x c' := by
  obtain ⟨v, hv, hshows⟩ := h
  exact ⟨v, hv, fun he => (hshows he).of_eq hc⟩

/-! ## The stored color -/

/-- The stored color in a vector register, as packed bytes. -/
theorem loadStoredColor_leads {keepAlpha : Bool} {Q : Xmm → View → Prop} (hk : k.Sound)
    (hs : s.Idle) (hp : k.Places False (k.features.dither = true) s)
    (hpixel : k.exact → k.features.format.readPixel s.mem k.pixelAddress = k.fragment.pixel)
    (h : ∀ x v s', s.Keeps placeRoles s' → k.Places False (k.features.dither = true) s' →
      s'.roles .vec0 = .lanes x v → (k.exact → Lanes.Shows false v fun i =>
        channels (k.features.format.loaded k.fragment.pixel keepAlpha) i) → Q x s') :
    k.Leads (loadStoredColor k.env keepAlpha) s Q L := by
  refine .bind (colorAddr_leads hk hs hp nofun id fun g s₁ hkeeps hg hp₁ => ?_)
  extract_lets jp
  have tail (s₂ : View) (hkeeps₂ : s₁.Keeps placeRoles s₂)
      (hg₂ : s₂.roles .colorAddr = .word g k.pixelAddress)
      (hp₂ : k.Places False (k.features.dither = true) s₂) : k.Leads (jp ()) s₂ Q L := by
    have hkeeps := hkeeps.trans hkeeps₂
    rw [← hkeeps.mem] at hpixel
    refine .bind (.allocVec fun x v => ?_)
    extract_lets jp₂
    have tail₂ (s₃ : View) (hframe : s₂.Frame [.vec0, .gen0, .gen1, .gen2] s₃) {c : BitVec 32}
        (hv : s₃.roles .vec0 = .lanes x (.ofWord32 c))
        (hc : k.exact → c = k.features.format.loaded k.fragment.pixel keepAlpha) :
        k.Leads (jp₂ ()) s₃ Q L := by
      have hkeeps₃ : s₂.Keeps [] s₃ := hframe.keeps hkeeps₂.idle (by decide)
      refine .bind (.unlock rfl (.pure (h x _ s₃ (hkeeps.trans (hkeeps₃.mono (by simp)))
        (hp₂.of_keeps hkeeps₃ (by simp)) hv fun he => ?_)))
      exact hc he ▸ Lanes.shows_ofWord32 c
    have hframe := (View.Frame.refl s₂ [.vec0, .gen0, .gen1, .gen2]).set (r := .vec0) (by simp)
    split
    · rename_i hf
      refine .bind (.movdLoad (r := .vec0) rfl (.start (r := .colorAddr) hg₂) rfl ?_)
      refine tail₂ _ ((hframe _).set (by simp) _) rfl fun he => ?_
      rw [PixelFormat.loaded, if_pos hf, ← hpixel he, PixelFormat.readPixel,
        if_neg (by rw [hf]; decide)]
      rfl
    · rename_i hf
      refine .bind (.allocGen fun g₀ v₀ => .bind (.allocGen fun g₁ v₁ => .bind (.allocGen fun g₂ v₂ => ?_)))
      refine .bind (.loadExt (r := .gen0) rfl (.start (r := .colorAddr) hg₂) rfl ?_)
      refine .bind (widen_works (View.works_self (b := g₁) (c := g₂) rfl rfl rfl) rfl keepAlpha _ hf
        fun s₃ v₃ hworks hv₃ => ?_)
      have hframe₃ := ((((hframe (.lanes x v)).set (by simp) _).set (by simp) _).set (by simp) _).set
        (by simp) _ |>.trans (hworks.frame.mono (by simp))
      refine .bind (.movdToVec (r := .vec0) (q := .gen0) (hworks.frame.roles .vec0 (by simp))
        (hworks.regs 0) ?_)
      refine .bind (.release rfl (.bind (.release rfl (.bind (.release rfl ?_)))))
      refine tail₂ _ ((((hframe₃.set (by simp) _).set (by simp) _).set (by simp) _).set (by simp) _) rfl
        fun he => ?_
      rw [hv₃, low_widened, PixelFormat.loaded, if_neg hf, ← hpixel he, PixelFormat.readPixel,
        if_pos (by cases hc : k.features.format <;> first | rfl | exact absurd hc hf)]
      rfl
  split
  · rename_i hno
    refine .bind (.forceRelease (.bind (.forceRelease ?_)))
    refine tail _ (((hkeeps.idle.keeps _).set (by decide) rfl).set (by decide) rfl) hg
      ⟨.inl ⟨g, hg⟩, nofun, fun h => ?_⟩
    simp [h] at hno
  · exact tail s₁ (hkeeps.idle.keeps _) hg hp₁

/-! ## Factors -/

/-- Roles that factors are built in. -/
def factorRoles : List Role := [.vec1, .vec2, .vec3]

/-- Both colors are in vector registers. -/
structure Paired (k : Setting) (s : View) (color dst : Xmm) (p q : Fin 4 → Nat) : Prop where
  color : k.Holds s .vecColor color p
  stored : k.Holds s .vec0 dst q

theorem Paired.of_frame {color dst : Xmm} {p q : Fin 4 → Nat} {rs : List Role}
    (h : k.Paired s color dst p q) (hs : s.Frame rs s') (hc : .vecColor ∉ rs) (hd : .vec0 ∉ rs) :
    k.Paired s' color dst p q :=
  ⟨h.color.of_frame hs hc, h.stored.of_frame hs hd⟩

section

variable {factor : BlendFactor} {forDst srcFixed dstFixed : Bool} {color dst : Xmm}
  {p d : Fin 4 → Nat} (hk : k.Sound) (hs : s.Idle)
  (hpair : k.Paired s color dst (fun i => fixedPoint srcFixed (p i)) (fun i => fixedPoint dstFixed (d i)))
  (hp : ∀ i, p i < 256) (hd : ∀ i, d i < 256) (htrivial : factor.isTrivial = false)
  (hother : factor.readsOtherColor = true → (if forDst then srcFixed else dstFixed) = true)
  (hsrc : factor.readsSrcAlpha = true → srcFixed = true)
  (hdst : factor.readsDstAlpha = true → dstFixed = true)

/-- The value that a factor is made of. -/
def factorSource (k : Setting) (factor : BlendFactor) (forDst : Bool) (p d : Fin 4 → Nat)
    (i : Fin 4) : Nat :=
  factor.source (if forDst then p i else d i)
    (channels (if forDst then k.fragment.block.blendFixB else k.fragment.block.blendFixA) i)
    (p alphaLane) (d alphaLane)

include hp hd in
theorem factorSource_lt (i : Fin 4) : k.factorSource factor forDst p d i < 256 := by
  refine factor.source_lt ?_ (channels_lt _ i) (hp 3) (hd 3)
  split
  · exact hp i
  · exact hd i

include hk hs hpair htrivial hother hsrc hdst

theorem factorValue_leads {r : Role} {x : Xmm} {v : Lanes} {Q : Unit → View → Prop}
    (hr : r ∈ factorRoles) (hv : s.roles r = .lanes x v)
    (h : ∀ s', s.Frame [r] s' →
      k.Holds s' r x (fun i => k.factorSource factor forDst p d i <<< 4) → Q () s') :
    k.Leads (factorValue k.env factor x color dst forDst) s Q L := by
  have hdone (u : Lanes) (hu : k.exact → Lanes.Has u fun i => k.factorSource factor forDst p d i <<< 4)
      (f : Flags) : Q () ((s.set r (.lanes x u)).setFlags f) :=
    h _ (((View.Frame.refl s [r]).set (List.mem_singleton_self r) _).setFlags f)
      ⟨u, View.roles_set_self r _, hu⟩
  have copied {q : Role} {x' : Xmm} {b : Bool} {c : Fin 4 → Nat}
      (hq : k.Holds s q x' fun i => fixedPoint b (c i)) (hb : b = true)
      (hsource : ∀ i, k.factorSource factor forDst p d i = c i) :
      k.Leads (Emit.op (.packed .movdqa x x')) s Q L := by
    obtain ⟨u, hu, hc⟩ := hq
    refine .packed (r := r) (q := q) hv hu (hdone _ (fun he => (hc he).of_eq fun i => ?_) s.flags)
    rw [hsource, fixedPoint, if_pos hb]
  have spread {q : Role} {x' : Xmm} {b : Bool} {c : Fin 4 → Nat}
      (hq : k.Holds s q x' fun i => fixedPoint b (c i)) (hb : b = true)
      (hsource : ∀ i, k.factorSource factor forDst p d i = c 3) :
      k.Leads (Emit.op (.pshuflw x x' 0xFF)) s Q L := by
    obtain ⟨u, hu, hc⟩ := hq
    refine .pshuflw (r := r) (q := q) hv hu (hdone _ (fun he => (hc he).spread.of_eq fun i => ?_) s.flags)
    rw [hsource, fixedPoint, if_pos hb]
  cases factor with
  | otherColor | invOtherColor =>
    cases forDst with
    | true => exact copied hpair.color (hother rfl) fun _ => rfl
    | false => exact copied hpair.stored (hother rfl) fun _ => rfl
  | srcAlpha | invSrcAlpha | doubleSrcAlpha | doubleInvSrcAlpha =>
    exact spread hpair.color (hsrc rfl) fun _ => rfl
  | dstAlpha | invDstAlpha | doubleDstAlpha | doubleInvDstAlpha =>
    exact spread hpair.stored (hdst rfl) fun _ => rfl
  | zero | one => cases htrivial
  | fixed =>
    have hS : r ≠ .stateBase := by rintro rfl; revert hr; decide
    have hZ : r ≠ .vecZero := by rintro rfl; revert hr; decide
    have hat : (if forDst then DrawState.blendFixBAt else DrawState.blendFixAAt) < 51 := by
      cases forDst <;> decide
    have hfixed : k.entry.mem.read32 (k.env.addresses.state + BitVec.ofNat 64
        (if forDst then DrawState.blendFixBAt else DrawState.blendFixAAt)) =
          if forDst then k.fragment.block.blendFixB else k.fragment.block.blendFixA := by
      cases forDst <;> rfl
    refine .of_later fun hm => .bind (stateBase_leads hs.state fun g f => ?_)
    refine .bind (.movdLoad (r := r) (u := v) (by simp [hS, hv]) (.offset (r := .stateBase) rfl (by omega))
      ((hm.state32 hk hat).trans hfixed) (.bind (.unlock_made (g := g) rfl (by simp [hS.symm]) ?_)))
    rw [forget hs.state hS]
    refine .bind (widenBytes_leads (by simp [hZ.symm, hs.zero]) hZ (View.roles_set_self r _) ?_)
    have hset := List.mem_singleton_self r
    refine .laneShift (r := r) (View.roles_set_self r _) (h _
      (((((View.Frame.refl s [r]).set hset _).setFlags f).set hset _).set hset _)
      ⟨_, View.roles_set_self r _, fun he => ?_⟩)
    exact (Lanes.shows_ofWord32 _).has_widen.shiftLeft fun i => shiftLeft_four_lt (channels_lt _ i)

include hp hd

/-- A factor before it is inverted, and what comes next. -/
theorem directFactor_leads {α : Type} {r : Role} {x : Xmm} {v : Lanes} {next : Unit → Emit α}
    {Q : α → View → Prop} (hr : r ∈ factorRoles) (hv : s.roles r = .lanes x v)
    (h : ∀ s', s.Frame [r] s' →
      k.Holds s' r x (fun i => factor.direct (k.factorSource factor forDst p d i)) →
      k.Leads (next ()) s' Q L) :
    k.Leads (do
      factorValue k.env factor x color dst forDst
      if factor.isDouble then do
        let u ← Emit.op (.laneShift .sll x 1)
        next u
      else next ()) s Q L := by
  refine .bind (factorValue_leads hk hs hpair htrivial hother hsrc hdst hr hv
    fun s₁ hframe ⟨u, hu, hc⟩ => ?_)
  split
  · rename_i hdouble
    refine .bind (.laneShift (r := r) hu (h _ (hframe.set (List.mem_singleton_self r) _)
      ⟨_, View.roles_set_self r _, fun he => ?_⟩))
    have hlt (i : Fin 4) : k.factorSource factor forDst p d i < 256 := k.factorSource_lt hp hd i
    refine ((hc he).shiftLeft (n := 1) fun i => ?_).of_eq fun i => ?_
    · have := hlt i
      show _ <<< 4 <<< 1 < _
      simp only [Nat.shiftLeft_eq]
      omega
    · rw [BlendFactor.direct, if_pos hdouble]
      show _ <<< 1 = _
      rw [Nat.shiftLeft_eq _ 1, Nat.mul_comm]
  · rename_i hsingle
    refine h s₁ hframe ⟨u, hu, fun he => (hc he).of_eq fun i => ?_⟩
    rw [BlendFactor.direct, if_neg hsingle]

/-- A factor, in fixed point. -/
theorem blendFactor_leads {r : Role} {Q : Xmm → View → Prop} (hr : r = .vec1 ∨ r = .vec2)
    (h : ∀ x s', s.Frame [r, .vec3] s' →
      k.Holds s' r x (fun i => factor.weight (k.factorSource factor forDst p d i)) → Q x s') :
    k.Leads (blendFactor k.env r factor color dst forDst) s Q L := by
  have hvec3 : r ≠ .vec3 := by rintro rfl; simp at hr
  have hfactor : r ∈ factorRoles := by rcases hr with rfl | rfl <;> decide
  have hc : .vecColor ∉ [r, Role.vec3] := by rcases hr with rfl | rfl <;> decide
  have hstored : .vec0 ∉ [r, Role.vec3] := by rcases hr with rfl | rfl <;> decide
  have hrec : ∀ q ∈ [r, Role.vec3], q.isReconstructible = false := by
    rcases hr with rfl | rfl <;> decide
  have hpool : .poolBase ∉ [r, Role.vec3] := by rcases hr with rfl | rfl <;> decide
  refine .bind (.allocVec fun x v => ?_)
  have hframe := (View.Frame.refl s [r, .vec3]).set (r := r) (by simp) (.lanes x v)
  cases hinv : factor.isInverse with
  | false =>
    refine .bind (.pure (directFactor_leads hk (hframe.idle hs hrec) (hpair.of_frame hframe hc hstored)
      hp hd htrivial hother hsrc hdst hfactor (View.roles_set_self r _) fun s₁ hframe₁ hholds => ?_))
    refine .pure (h x s₁ (hframe.trans (hframe₁.mono (by simp))) (hholds.of_eq fun i => ?_))
    rw [BlendFactor.weight, hinv]
    rfl
  | true =>
    refine .bind (.allocVec fun x' v' => ?_)
    have hframe := hframe.set (r := .vec3) (by simp) (.lanes x' v')
    refine directFactor_leads hk (hframe.idle hs hrec) (hpair.of_frame hframe hc hstored)
      hp hd htrivial hother hsrc hdst (by decide) (View.roles_set_self .vec3 _)
      fun s₁ hframe₁ hholds => ?_
    obtain ⟨u, hu, hdirect⟩ := hholds
    have hidle := hframe₁.idle (hframe.idle hs hrec) (by decide)
    have hne : r ≠ .poolBase := by rintro rfl; simp at hr
    have hx : s₁.roles r = .lanes x v := (hframe₁.roles r (by simpa using hvec3)).trans (by simp [hvec3])
    refine .of_later fun hm => .bind (poolBase_leads hidle.pool fun g f => ?_)
    refine .bind (.packedLoad (r := r) (u := v) (by simp [hne, hx]) (.offset (r := .poolBase) rfl (by decide))
      (aligned_add hk.aligned 3) rfl (.bind (.unlock_made (g := g) rfl (by simp [hne.symm]) ?_)))
    rw [forget hidle.pool hne]
    refine .bind (.packed (r := r) (q := .vec3) (View.roles_set_self r _)
      ((View.roles_set_ne hvec3.symm _).trans hu) (.bind (.release rfl (.pure ?_))))
    refine h x _ ?_ ⟨_, (View.roles_set_ne hvec3 _).trans (View.roles_set_self r _), fun he => ?_⟩
    · exact ((((hframe.trans (hframe₁.mono (by simp))).set (by simp) _).setFlags f).set
        (by simp) _).set (by simp) _
    · refine ((pool_has (j := 3) hk he hm (by decide)).subSat (hdirect he)).of_eq fun i => ?_
      rw [BlendFactor.weight, hinv]
      rfl

end

/-! ## Scaling -/

/-- There is a factor in a register, unless it is trivial. -/
def Factored (k : Setting) (s : View) (r : Role) (factor : BlendFactor) (x : Option Xmm)
    (w : Fin 4 → Nat) : Prop :=
  match x with
  | none => factor.isTrivial = true
  | some x => factor.isTrivial = false ∧ k.Holds s r x w

theorem Factored.of_frame {r : Role} {factor : BlendFactor} {x : Option Xmm} {w : Fin 4 → Nat}
    {rs : List Role} (h : k.Factored s r factor x w) (hs : s.Frame rs s') (hr : r ∉ rs) :
    k.Factored s' r factor x w := by
  cases x with
  | none => exact h
  | some x => exact ⟨h.1, h.2.of_frame hs hr⟩

/-- A color under its factor, if the factor is multiplied. -/
def scaledLane (factor : BlendFactor) (b : Bool) (x w : Nat) : Nat :=
  if factor.isTrivial then fixedPoint b x else BlendFactor.scaleLane x w

theorem scaleBy_leads {r q : Role} {factor : BlendFactor} {f : Option Xmm} {half color : Xmm}
    {b : Bool} {c w : Fin 4 → Nat} {Q : Unit → View → Prop} (hr : r ≠ .vec3) (hqr : q ≠ r)
    (hhalf : k.Holds s .vec3 half fun _ => 8) (hcolor : k.Holds s q color fun i => fixedPoint b (c i))
    (hfactor : k.Factored s r factor f w) (hb : factor.isTrivial = false → b = true)
    (h : ∀ s', s.Frame [r, q] s' →
      k.Holds s' q color (fun i => scaledLane factor b (c i) (w i)) → Q () s') :
    k.Leads (scaleBy half color f) s Q L := by
  cases f with
  | none =>
    refine .pure (h s (.refl s _) (hcolor.of_eq fun i => ?_))
    rw [scaledLane, if_pos (show factor.isTrivial = true from hfactor)]
  | some f =>
    obtain ⟨hfactor, u, hu, hw⟩ := hfactor
    obtain ⟨v, hv, hc⟩ := hcolor
    obtain ⟨e, he, h8⟩ := hhalf
    refine .bind (.packed (r := r) (q := .vec3) hu he ?_)
    refine .bind (.packed (r := q) (q := .vec3) ((View.roles_set_ne hqr _).trans hv)
      ((View.roles_set_ne hr.symm _).trans he) ?_)
    refine .packed (r := q) (q := r) (View.roles_set_self q _)
      ((View.roles_set_ne hqr.symm _).trans (View.roles_set_self r _)) (h _ ?_ ?_)
    · exact (((View.Frame.refl s _).set (by simp) _).set (by simp) _).set (by simp) _
    · refine ⟨_, View.roles_set_self q _, fun hexact => ?_⟩
      have hprod := ((hc hexact).or (h8 hexact)).mulHigh ((hw hexact).or (h8 hexact))
      refine hprod.of_eq fun i => ?_
      rw [scaledLane, hfactor, fixedPoint, if_pos (hb hfactor), if_neg Bool.false_ne_true,
        BlendFactor.mulHigh_eq_scaleLane]

/-! ## Equations with factors -/

/-- The plan for the factors of the pipeline. -/
abbrev plan (k : Setting) : BlendPlan := .ofFactors k.features.blendSrc k.features.blendDst

/-- The same plan, with the destination factor taken from the source factor or not. -/
abbrev planWith (k : Setting) (inverse : Bool) : BlendPlan := { k.plan with dstIsInverse := inverse }

def srcFixed (k : Setting) : Bool := k.plan.multiplySrc || k.plan.srcFeedsFactor

def dstFixed (k : Setting) : Bool := k.plan.multiplyDst || k.plan.dstFeedsFactor

/-- A factor that reads a color finds it in fixed point. -/
theorem srcFixed_of (h : k.features.blendSrc.readsSrcAlpha = true ∨
    k.features.blendDst.readsSrcAlpha = true ∨ k.features.blendDst.readsOtherColor = true ∨
      k.features.blendSrc.isTrivial = false) : k.srcFixed = true := by
  rcases h with h | h | h | h <;> simp [srcFixed, plan, BlendPlan.ofFactors, h]

theorem dstFixed_of (h : k.features.blendSrc.readsDstAlpha = true ∨
    k.features.blendDst.readsDstAlpha = true ∨ k.features.blendSrc.readsOtherColor = true ∨
      k.features.blendDst.isTrivial = false) : k.dstFixed = true := by
  rcases h with h | h | h | h <;> simp [dstFixed, plan, BlendPlan.ofFactors, h]

def srcWeight (k : Setting) (p d : Fin 4 → Nat) (i : Fin 4) : Nat :=
  k.features.blendSrc.weight (k.factorSource k.features.blendSrc false p d i)

def dstWeight (k : Setting) (p d : Fin 4 → Nat) (i : Fin 4) : Nat :=
  k.features.blendDst.weight (k.factorSource k.features.blendDst true p d i)

section

variable {color dst : Xmm} {p d : Fin 4 → Nat} (hk : k.Sound) (hs : s.Idle)
  (hpair : k.Paired s color dst (fun i => fixedPoint k.srcFixed (p i))
    (fun i => fixedPoint k.dstFixed (d i)))
  (hp : ∀ i, p i < 256) (hd : ∀ i, d i < 256)

include hk hs hpair hp hd

theorem dstFactor_leads {inverse : Bool} {sf : Option Xmm} {Q : Option Xmm → View → Prop}
    (hinv : inverse = true → BlendPlan.inversePair k.features.blendSrc k.features.blendDst = true)
    (hsf : k.Factored s .vec1 k.features.blendSrc sf (k.srcWeight p d))
    (h : ∀ df s', s.Frame [.vec2, .vec3] s' →
      k.Factored s' .vec2 k.features.blendDst df (k.dstWeight p d) → Q df s') :
    k.Leads (dstFactor k.env (k.planWith inverse) sf color dst) s Q L := by
  unfold dstFactor
  split
  · rename_i htrivial
    refine .pure (h none s (.refl s _) (?_ : k.features.blendDst.isTrivial = true))
    simpa [BlendPlan.ofFactors] using htrivial
  rename_i hmul
  have hmul : k.features.blendDst.isTrivial = false := by simpa [BlendPlan.ofFactors] using hmul
  split
  · rename_i sf hinverse
    obtain ⟨-, u, hu, hw⟩ := hsf
    refine .of_later fun hm => ?_
    refine .bind (loadConst_leads (j := 3) hk hs.pool (by decide) (by decide) fun x f => ?_)
    refine .bind (.packed (r := .vec2) (q := .vec1) rfl hu (.pure (h _ _ ?_ ⟨hmul, _, rfl, fun he => ?_⟩)))
    · exact (((View.Frame.refl s _).set (by simp) _).setFlags f).set (by simp) _
    · refine ((pool_has (j := 3) hk he hm (by decide)).subSat (hw he)).of_eq fun i => ?_
      exact (BlendFactor.weight_of_inversePair (hinv hinverse) _ _ _ _ _ _).symm
  · refine .bind (blendFactor_leads hk hs hpair hp hd hmul (fun h => ?_) (fun h => ?_) (fun h => ?_)
      (.inr rfl) fun x s' hframe hholds => .pure (h _ s' hframe ⟨hmul, hholds⟩))
    · exact srcFixed_of (.inr (.inr (.inl h)))
    · exact srcFixed_of (.inr (.inl h))
    · exact dstFixed_of (.inr (.inl h))

omit hp hd in
/-- Both products, once the factors are there. -/
theorem scalePair_leads {sf df : Option Xmm} {Q : Unit → View → Prop}
    (hsf : k.Factored s .vec1 k.features.blendSrc sf (k.srcWeight p d))
    (hdf : k.Factored s .vec2 k.features.blendDst df (k.dstWeight p d))
    (h : ∀ s', s.Frame [.vecColor, .vec0, .vec1, .vec2, .vec3] s' →
      k.Paired s' color dst
        (fun i => scaledLane k.features.blendSrc k.srcFixed (p i) (k.srcWeight p d i))
        (fun i => scaledLane k.features.blendDst k.dstFixed (d i) (k.dstWeight p d i)) → Q () s') :
    k.Leads (do
      let half ← loadConst k.env .vec3 VectorPool.halfAt
      scaleBy half color sf
      scaleBy half dst df
      Emit.release .vec3
      Emit.release .vec2
      Emit.release .vec1) s Q L := by
  refine .of_later fun hm => .bind (loadConst_leads (j := 2) hk hs.pool (by decide) (by decide)
    fun half f => ?_)
  generalize hs₁ : (s.set .vec3 _).setFlags f = s₁
  have hframe : s.Frame [.vec3] s₁ :=
    hs₁ ▸ ((View.Frame.refl s _).set (List.mem_singleton_self Role.vec3) _).setFlags f
  have hhalf : k.Holds s₁ .vec3 half fun _ => 8 := by
    subst hs₁
    exact ⟨_, rfl, fun he => pool_has (j := 2) hk he hm (by decide)⟩
  have hpair := hpair.of_frame hframe (by simp) (by simp)
  refine .bind (scaleBy_leads (by decide) (by decide) hhalf hpair.color
    (hsf.of_frame hframe (by simp)) (fun h => srcFixed_of (.inr (.inr (.inr h))))
    fun s₂ hframe₂ hcolor => ?_)
  refine .bind (scaleBy_leads (by decide) (by decide) (hhalf.of_frame hframe₂ (by simp))
    (hpair.stored.of_frame hframe₂ (by simp)) ((hdf.of_frame hframe (by simp)).of_frame hframe₂ (by simp))
    (fun h => dstFixed_of (.inr (.inr (.inr h)))) fun s₃ hframe₃ hstored => ?_)
  have hcolor := hcolor.of_frame hframe₃ (by simp)
  refine .bind (.release rfl (.bind (.release rfl (.release rfl (h _ ?_ ⟨hcolor, hstored⟩)))))
  exact ((((hframe.mono (by simp)).trans ((hframe₂.mono (by simp)).trans (hframe₃.mono (by simp)))).set
    (by simp) _).set (by simp) _).set (by simp) _

theorem scaleColors_leads {inverse : Bool} {Q : Unit → View → Prop}
    (hinv : inverse = true → BlendPlan.inversePair k.features.blendSrc k.features.blendDst = true)
    (h : ∀ s', s.Frame [.vecColor, .vec0, .vec1, .vec2, .vec3] s' →
      k.Paired s' color dst
        (fun i => scaledLane k.features.blendSrc k.srcFixed (p i) (k.srcWeight p d i))
        (fun i => scaledLane k.features.blendDst k.dstFixed (d i) (k.dstWeight p d i)) → Q () s') :
    k.Leads (scaleColors k.env (k.planWith inverse) color dst) s Q L := by
  unfold scaleColors
  extract_lets jp
  have tail (sf : Option Xmm) (s₁ : View) (hframe : s.Frame [.vec1, .vec3] s₁)
      (hsf : k.Factored s₁ .vec1 k.features.blendSrc sf (k.srcWeight p d)) :
      k.Leads (jp sf) s₁ Q L := by
    have hpair := hpair.of_frame hframe (by simp) (by simp)
    refine .bind (dstFactor_leads hk (hframe.idle hs (by decide)) hpair hp hd hinv hsf
      fun df s₂ hframe₂ hdf => ?_)
    have hpair := hpair.of_frame hframe₂ (by simp) (by simp)
    have hsf := hsf.of_frame hframe₂ (by simp)
    have hframe : s.Frame [.vecColor, .vec0, .vec1, .vec2, .vec3] s₂ :=
      (hframe.mono (by simp)).trans (hframe₂.mono (by simp))
    split
    · exact scalePair_leads hk (hframe.idle hs (by decide)) hpair hsf hdf fun s₃ hframe₃ hpair =>
        h s₃ (hframe.trans hframe₃) hpair
    · rename_i hnone
      obtain ⟨rfl, rfl⟩ : sf = none ∧ df = none := by simpa using hnone
      refine .pure (h s₂ hframe ⟨hpair.color.of_eq fun i => ?_, hpair.stored.of_eq fun i => ?_⟩)
      · exact (if_pos hsf).symm
      · exact (if_pos hdf).symm
  split
  · rename_i hmul
    have hmul : k.features.blendSrc.isTrivial = false := by simpa [BlendPlan.ofFactors] using hmul
    refine .bind (blendFactor_leads hk hs hpair hp hd hmul (fun h => ?_) (fun h => ?_) (fun h => ?_)
      (.inl rfl) fun x s' hframe hholds => .bind (.pure (tail (some x) s' hframe ⟨hmul, hholds⟩)))
    · exact dstFixed_of (.inr (.inr (.inl h)))
    · exact srcFixed_of (.inl h)
    · exact dstFixed_of (.inl h)
  · rename_i hmul
    refine .bind (.pure (tail none s (.refl s _) (?_ : k.features.blendSrc.isTrivial = true)))
    simpa [BlendPlan.ofFactors] using hmul

end

/-- A color under its factor. -/
def srcScaled (k : Setting) (p d : Fin 4 → Nat) (i : Fin 4) : Nat :=
  k.features.blendSrc.scaled (p i) (k.factorSource k.features.blendSrc false p d i)

def dstScaled (k : Setting) (p d : Fin 4 → Nat) (i : Fin 4) : Nat :=
  k.features.blendDst.scaled (d i) (k.factorSource k.features.blendDst true p d i)

theorem shiftRight_four (n : Nat) : (n <<< 4) >>> 4 = n := by
  rw [Nat.shiftLeft_eq, Nat.shiftRight_eq_div_pow]
  omega

/-- A color under a factor that is not multiplied: it is cleared, or brought back
from fixed point, or left as it is. -/
theorem trivialScale_leads {r : Role} {x : Xmm} {factor : BlendFactor} {b : Bool}
    {c w : Fin 4 → Nat} {clear shifted : Prop} [Decidable clear] [Decidable shifted]
    {Q : Unit → View → Prop}
    (hholds : k.Holds s r x fun i => scaledLane factor b (c i) (factor.weight (w i)))
    (hclear : clear → factor = .zero) (hshifted : shifted ↔ factor = .one ∧ b = true)
    (h : ∀ s', s.Frame [r] s' → (factor = .zero → clear) →
      k.Holds s' r x (fun i => factor.scaled (c i) (w i)) → Q () s')
    (hkeep : factor = .zero → ¬clear → Q () s) :
    k.Leads (do
      if clear then Emit.op (.packed .pxor x x)
      if shifted then Emit.op (.laneShift .srl x 4)) s Q L := by
  obtain ⟨u, hu, hc⟩ := hholds
  have hset := List.mem_singleton_self r
  extract_lets jp
  by_cases hcl : clear
  · have hzero := hclear hcl
    have hno : ¬shifted := fun hsh => by rw [hzero] at hshifted; cases (hshifted.mp hsh).1
    rw [if_pos hcl]
    refine .bind (.packed (r := r) (q := r) hu hu ?_)
    show k.Leads (if shifted then _ else _) _ Q L
    rw [if_neg hno]
    refine .pure (h _ ((View.Frame.refl s [r]).set hset _) (fun _ => hcl)
      ⟨_, View.roles_set_self r _, fun he => ?_⟩)
    rw [Lanes.packed_pxor_self, hzero]
    exact Lanes.has_zero
  rw [if_neg hcl]
  show k.Leads (if shifted then _ else _) s Q L
  by_cases hsh : shifted
  · obtain ⟨hone, hb⟩ := hshifted.mp hsh
    rw [if_pos hsh]
    refine .laneShift (r := r) hu (h _ ((View.Frame.refl s [r]).set hset _)
      (fun hz => by rw [hone] at hz; cases hz) ⟨_, View.roles_set_self r _, fun he => ?_⟩)
    refine ((hc he).shiftRight 4).of_eq fun i => ?_
    rw [hone, scaledLane, if_pos (show BlendFactor.one.isTrivial = true from rfl), fixedPoint, if_pos hb]
    exact shiftRight_four _
  rw [if_neg hsh]
  by_cases hzero : factor = .zero
  · exact .pure (hkeep hzero hcl)
  refine .pure (h s (.refl s _) (fun hz => absurd hz hzero) ⟨u, hu, fun he => (hc he).of_eq fun i => ?_⟩)
  cases htrivial : factor.isTrivial with
  | true =>
    have hone : factor = .one := by
      revert hzero htrivial; cases factor <;> decide
    rw [scaledLane, if_pos htrivial, fixedPoint, if_neg fun hb => hsh (hshifted.mpr ⟨hone, hb⟩), hone]
    rfl
  | false =>
    rw [scaledLane, htrivial, if_neg Bool.false_ne_true, BlendFactor.scaled_of_nontrivial htrivial]

section

variable {inverse : Bool} {color dst : Xmm} {p d : Fin 4 → Nat} {Q : Unit → View → Prop}

theorem trivialSrc_leads (hcolor : k.Holds s .vecColor color fun i =>
      scaledLane k.features.blendSrc k.srcFixed (p i) (k.srcWeight p d i))
    (h : ∀ s', s.Frame [.vecColor] s' → k.Holds s' .vecColor color (k.srcScaled p d) → Q () s') :
    k.Leads (trivialSrc (k.planWith inverse) k.features.blendSrc color) s Q L := by
  refine trivialScale_leads hcolor id ?_ (fun s' hframe _ hholds => h s' hframe hholds)
    fun hz hno => absurd hz hno
  constructor <;> rintro ⟨hone, hfeeds⟩ <;> refine ⟨hone, ?_⟩ <;>
    simpa [srcFixed, BlendPlan.ofFactors, hone, BlendFactor.isTrivial] using hfeeds

/-- The stored color is exact, unless nothing reads it. -/
theorem trivialDst_leads (hdst : k.Holds s .vec0 dst fun i =>
      scaledLane k.features.blendDst k.dstFixed (d i) (k.dstWeight p d i))
    (h : ∀ s', s.Frame [.vec0] s' →
      (k.features.blendDst = .zero → k.features.blendEquation = .reverseSubtract) →
      k.Holds s' .vec0 dst (k.dstScaled p d) → Q () s')
    (hkeep : k.features.blendDst = .zero → k.features.blendEquation ≠ .reverseSubtract → Q () s) :
    k.Leads (trivialDst (k.planWith inverse) k.features.blendEquation k.features.blendDst dst) s Q L := by
  refine trivialScale_leads hdst And.left ?_ (fun s' hframe hcl hholds =>
    h s' hframe (fun hz => (hcl hz).2) hholds) fun hz hno => hkeep hz fun heq => hno ⟨hz, heq⟩
  constructor <;> rintro ⟨hone, hfeeds⟩ <;> refine ⟨hone, ?_⟩ <;>
    simpa [dstFixed, BlendPlan.ofFactors, hone, BlendFactor.isTrivial] using hfeeds

end

/-- Two scaled colors are joined as the equation says. -/
theorem joinColors_leads {equation : BlendEquation} {isZero : Bool} {color dst : Xmm}
    {p q : Fin 4 → Nat} {Q : Unit → View → Prop} (hequation : equation.usesFactors = true)
    (hcolor : k.Holds s .vecColor color p)
    (hdst : (isZero = true → equation = .reverseSubtract) → k.Holds s .vec0 dst q)
    (hp : ∀ i, p i < 512) (hq : ∀ i, q i < 512) (hzero : isZero = true → ∀ i, q i = 0)
    (h : ∀ s', s.Frame [.vecColor, .vec0] s' →
      k.Holds s' .vecColor color (fun i => equation.join (p i) (q i)) → Q () s') :
    k.Leads (joinColors equation isZero color dst) s Q L := by
  obtain ⟨u, hu, hc⟩ := id hcolor
  have hframe (v : Lanes) := (View.Frame.refl s [.vecColor, Role.vec0]).set
    (List.mem_cons_self (a := Role.vecColor) (l := [.vec0])) (.lanes color v)
  cases equation with
  | min | max | absDiff => cases hequation
  | reverseSubtract =>
    obtain ⟨u', hu', hd⟩ := hdst fun _ => rfl
    refine .bind (.packed (r := .vec0) (q := .vecColor) hu' hu ?_)
    refine .packed (r := .vecColor) (q := .vec0) hu rfl (h _ ?_ ⟨_, rfl, fun he => (hd he).subSat (hc he)⟩)
    exact ((View.Frame.refl s _).set (by simp) _).set (by simp) _
  | add =>
    cases isZero with
    | true =>
      refine .pure (h s (.refl s _) (hcolor.of_eq fun i => ?_))
      rw [BlendEquation.join, hzero rfl i, Nat.add_zero]
    | false =>
      obtain ⟨u', hu', hd⟩ := hdst fun h => absurd h Bool.false_ne_true
      refine .packed (r := .vecColor) (q := .vec0) hu hu' (h _ (hframe _) ⟨_, rfl, fun he => ?_⟩)
      exact (hc he).addSat (hd he) fun i => by have := hp i; have := hq i; omega
  | subtract =>
    cases isZero with
    | true =>
      refine .pure (h s (.refl s _) (hcolor.of_eq fun i => ?_))
      rw [BlendEquation.join, hzero rfl i, Nat.sub_zero]
    | false =>
      obtain ⟨u', hu', hd⟩ := hdst fun h => absurd h Bool.false_ne_true
      exact .packed (r := .vecColor) (q := .vec0) hu hu' (h _ (hframe _)
        ⟨_, rfl, fun he => (hc he).subSat (hd he)⟩)

/-- A color brought to fixed point, if it is to be. -/
theorem toFixedPoint_leads {r : Role} {x : Xmm} {b : Bool} {c : Fin 4 → Nat} {v : Lanes}
    {next : Unit → Emit Unit} {Q : Unit → View → Prop} (hr : s.roles r = .lanes x v)
    (hv : k.exact → Lanes.Has v c) (hc : ∀ i, c i < 256)
    (h : ∀ s', s.Frame [r] s' → k.Holds s' r x (fun i => fixedPoint b (c i)) →
      k.Leads (next ()) s' Q L) :
    k.Leads (if b then do
        let u ← Emit.op (.laneShift .sll x 4)
        next u
      else next ()) s Q L := by
  cases b with
  | true =>
    rw [if_pos rfl]
    refine .bind (.laneShift (r := r) hr (h _ ((View.Frame.refl s [r]).set
      (List.mem_singleton_self r) _) ⟨_, View.roles_set_self r _, fun he => ?_⟩))
    exact (hv he).shiftLeft fun i => shiftLeft_four_lt (hc i)
  | false =>
    rw [if_neg Bool.false_ne_true]
    exact h s (.refl s _) ⟨v, hr, fun he => (hv he).of_eq fun i => rfl⟩

section

variable {color dst : Xmm} {u v : Lanes} {p d : Fin 4 → Nat} {Q : Unit → View → Prop}
  (hs : s.Idle) (hu : s.roles .vecColor = .lanes color u) (hv : s.roles .vec0 = .lanes dst v)
  (hshows : k.exact → Lanes.Shows s.wide u fun i => p i)
  (hstored : k.exact → Lanes.Shows false v fun i => d i)
  (hp : ∀ i, p i < 256) (hd : ∀ i, d i < 256)

include hs hu hv hshows hstored hp hd

theorem blendWithFactors_leads {inverse : Bool} (hk : k.Sound)
    (hinv : inverse = true → BlendPlan.inversePair k.features.blendSrc k.features.blendDst = true)
    (hequation : k.features.blendEquation.usesFactors = true)
    (h : ∀ s', s.Keeps [.vecColor] s' → k.Colored s' (fun i =>
      k.features.blendEquation.join (k.srcScaled p d i) (k.dstScaled p d i)) → Q () s') :
    k.Leads (blendWithFactors k.env (k.planWith inverse) color dst) s Q L := by
  refine .bind (expandColor_leads hs hu hshows fun u₁ hu₁ => ?_)
  refine .bind (widenBytes_leads (r := .vec0) hs.zero (by decide) hv ?_)
  generalize hs₀ : ((s.set .vecColor _).setWide true).set .vec0 _ = s₀
  have hidle : s₀.Idle := hs₀ ▸ ⟨hs.state, hs.pool, hs.zero⟩
  have hwide : s₀.wide = true := by rw [← hs₀]; rfl
  have hkeeps : s.Keeps [.vecColor] s₀ := by
    subst hs₀
    exact ⟨hidle, by simp [Role.lasting], rfl, by simp⟩
  have hstored₀ : s₀.roles .vec0 = .lanes dst (Lanes.packed .punpcklbw v .zero) := by rw [← hs₀]; rfl
  refine toFixedPoint_leads (r := .vecColor) (b := k.srcFixed) (hs₀ ▸ rfl) (fun he => (hu₁ he).has) hp
    fun s₁ hframe₁ hcolor₁ => ?_
  refine toFixedPoint_leads (r := .vec0) (b := k.dstFixed) ((hframe₁.roles .vec0 (by simp)).trans hstored₀)
    (fun he => (hstored he).has_widen) hd fun s₂ hframe₂ hstored₂ => ?_
  have hframe : s₀.Frame [.vecColor, .vec0, .vec1, .vec2, .vec3] s₂ :=
    (hframe₁.mono (by simp)).trans (hframe₂.mono (by simp))
  refine .bind (scaleColors_leads hk (hframe.idle hidle (by decide))
    ⟨hcolor₁.of_frame hframe₂ (by simp), hstored₂⟩ hp hd hinv fun s₃ hframe₃ hpair => ?_)
  have hframe := hframe.trans hframe₃
  refine .bind (trivialSrc_leads hpair.color fun s₄ hframe₄ hcolor₄ => ?_)
  have hframe := hframe.trans (hframe₄.mono (by simp))
  have hsrc (i : Fin 4) : k.srcScaled p d i < 512 :=
    BlendFactor.scaled_lt _ (hp i) (k.factorSource_lt hp hd i)
  have hdst (i : Fin 4) : k.dstScaled p d i < 512 :=
    BlendFactor.scaled_lt _ (hd i) (k.factorSource_lt hp hd i)
  have join (s₅ : View) (hframe₅ : s₄.Frame [.vec0] s₅)
      (hstored₅ : (k.features.blendDst = .zero → k.features.blendEquation = .reverseSubtract) →
        k.Holds s₅ .vec0 dst (k.dstScaled p d)) :
      k.Leads (joinColors k.features.blendEquation (k.features.blendDst == .zero) color dst) s₅ Q L := by
    have hframe := hframe.trans (hframe₅.mono (by simp))
    refine joinColors_leads hequation (hcolor₄.of_frame hframe₅ (by simp)) (fun h => hstored₅ fun hz => ?_)
      hsrc hdst (fun hz i => ?_) fun s₆ hframe₆ hcolor => ?_
    · exact h (beq_iff_eq.mpr hz)
    · rw [dstScaled, beq_iff_eq.mp hz]
      rfl
    · have hframe := hframe.trans (hframe₆.mono (by simp))
      obtain ⟨w, hw, hc⟩ := hcolor
      refine h s₆ (hkeeps.trans (hframe.keeps hidle (by decide))) ⟨color, w, hw, fun he => ?_⟩
      rw [hframe.wide, hwide]
      refine (hc he).shows fun i => ?_
      have := BlendEquation.join_le k.features.blendEquation (k.srcScaled p d i) (k.dstScaled p d i)
      have := hsrc i
      have := hdst i
      omega
  refine .bind (trivialDst_leads (hpair.stored.of_frame hframe₄ (by simp)) (fun s₅ hframe₅ _ hstored₅ =>
    join s₅ hframe₅ fun _ => hstored₅) fun hz hne => join s₄ (.refl s₄ _) fun h => absurd (h hz) hne)

omit hd in
/-- An equation on packed bytes. -/
theorem blendBytes_leads (hequation : k.features.blendEquation.usesFactors = false)
    (h : ∀ s', s.Keeps [.vecColor] s' → k.Colored s' (fun i =>
      k.features.blendEquation.join (p i) (d i)) → Q () s') :
    k.Leads (blendBytes k.features.blendEquation color dst) s Q L := by
  refine .bind (packColor_leads hu hshows fun u₁ hu₁ => ?_)
  have hkeeps (w : Lanes) : s.Keeps [.vecColor]
      (((s.set .vecColor (.lanes color u₁)).setWide false).set .vecColor (.lanes color w)) :=
    ⟨⟨hs.state, hs.pool, hs.zero⟩, by simp [Role.lasting], rfl, by simp⟩
  have hu₁ (he : k.exact) : Lanes.Shows false u₁ fun i => p i :=
    (hu₁ he).of_eq fun i => Lanes.clamp_of_lt (hp i)
  cases he : k.features.blendEquation with
  | add | subtract | reverseSubtract => rw [he] at hequation; cases hequation
  | min =>
    refine .packed (r := .vecColor) (q := .vec0) rfl hv (h _ (hkeeps _) ⟨_, _, rfl, fun hexact => ?_⟩)
    rw [he]
    exact (hu₁ hexact).minBytes (hstored hexact)
  | max =>
    refine .packed (r := .vecColor) (q := .vec0) rfl hv (h _ (hkeeps _) ⟨_, _, rfl, fun hexact => ?_⟩)
    rw [he]
    exact (hu₁ hexact).maxBytes (hstored hexact)
  | absDiff =>
    refine .bind (.allocVec fun t w => .bind (.packed (r := .vec1) (q := .vec0) rfl hv ?_))
    refine .bind (.packed (r := .vec1) (q := .vecColor) rfl rfl ?_)
    refine .bind (.packed (r := .vecColor) (q := .vec0) rfl hv ?_)
    refine .bind (.packed (r := .vecColor) (q := .vec1) rfl rfl (.release rfl (h _ ?_
      ⟨_, _, rfl, fun hexact => ?_⟩)))
    · exact ⟨⟨hs.state, hs.pool, hs.zero⟩, by simp [Role.lasting], rfl, by simp⟩
    · rw [he]
      exact (hu₁ hexact).absDiffBytes (hstored hexact)

end

/-! ## The blend as a whole -/

theorem ofFeatures_of_factors (hon : k.features.blend = true)
    (h : k.features.blendEquation.usesFactors = true) : BlendPlan.ofFeatures k.features = k.plan := by
  rw [BlendPlan.ofFeatures, hon, h]
  rfl

theorem ofFeatures_of_bytes (h : k.features.blendEquation.usesFactors = false) :
    BlendPlan.ofFeatures k.features = {} := by
  rw [BlendPlan.ofFeatures, h, Bool.and_false]
  rfl

/-- With factors, plans that serve differ in nothing but the inverse. -/
theorem planWith_of_serves {plan : BlendPlan} (hplan : plan.Serves k.features)
    (hon : k.features.blend = true) (h : k.features.blendEquation.usesFactors = true) :
    ∃ inverse, plan = k.planWith inverse ∧
      (inverse = true → BlendPlan.inversePair k.features.blendSrc k.features.blendDst = true) := by
  rw [BlendPlan.Serves, ofFeatures_of_factors hon h] at hplan
  rcases hplan with rfl | rfl
  · exact ⟨_, rfl, id⟩
  · exact ⟨false, rfl, fun hno => absurd hno Bool.false_ne_true⟩

/-- Without factors, nothing is needed. -/
theorem empty_of_serves {plan : BlendPlan} (hplan : plan.Serves k.features)
    (h : k.features.blendEquation.usesFactors = false) : plan = {} := by
  rw [BlendPlan.Serves, ofFeatures_of_bytes h] at hplan
  rcases hplan with rfl | rfl <;> rfl

/-- What is joined is what is meant to be, but for alpha. -/
theorem blended_of_factors (hon : k.features.blend = true)
    (hequation : k.features.blendEquation.usesFactors = true) {d : Fin 4 → Nat}
    (hd : ∀ i, (i = 3 → k.plan.usesDstAlpha = true) → d i = k.features.oldColor k.fragment i)
    (i : Fin 4) (hi : i ≠ 3) :
    k.features.blendEquation.join (k.srcScaled (k.features.fogged k.fragment) d i)
      (k.dstScaled (k.features.fogged k.fragment) d i) = k.features.blended k.fragment i := by
  have hlane := hd i fun h => absurd h hi
  have halpha (h : k.plan.usesDstAlpha = true) := hd 3 fun _ => h
  have hsrc (o f a : Nat) : k.features.blendSrc.source o f a (d 3) =
      k.features.blendSrc.source o f a (k.features.oldColor k.fragment 3) :=
    BlendFactor.source_congr (fun h => halpha (by simp [BlendPlan.ofFactors, h])) o f a
  have hdst (o f a : Nat) : k.features.blendDst.source o f a (d 3) =
      k.features.blendDst.source o f a (k.features.oldColor k.fragment 3) :=
    BlendFactor.source_congr (fun h => halpha (by simp [BlendPlan.ofFactors, h])) o f a
  rw [Features.blended, if_pos hon, if_pos hequation, srcScaled, dstScaled, factorSource,
    factorSource, hsrc, hdst, hlane]
  rfl

theorem blended_of_bytes (hon : k.features.blend = true)
    (hequation : k.features.blendEquation.usesFactors = false) (i : Fin 4) :
    k.features.blendEquation.join (k.features.fogged k.fragment i)
      (k.features.oldColor k.fragment i) = k.features.blended k.fragment i := by
  simp only [Features.blended, hon, hequation, if_true, if_neg Bool.false_ne_true]

/-- The working color joined with the stored one. -/
theorem blendBy_leads {plan : BlendPlan} {Q : Unit → View → Prop}
    (hplan : plan.Serves k.features) (hk : k.Sound) (hs : s.Idle)
    (hp : k.Places False (k.features.dither = true) s)
    (hpixel : k.exact → k.features.format.readPixel s.mem k.pixelAddress = k.fragment.pixel)
    (hc : k.Colored s fun i => k.features.fogged k.fragment i)
    (h : ∀ s' c, s.Keeps (.vecColor :: placeRoles) s' →
      k.Places False (k.features.dither = true) s' → k.Colored s' c → k.Blended c → Q () s') :
    k.Leads (blendBy k.env plan) s Q L := by
  refine .bind (.mark ?_)
  split
  · rename_i hon
    have hon : k.features.blend = true := hon
    refine .bind (loadStoredColor_leads hk hs hp hpixel fun dst v s₁ hkeeps hp₁ hv hstored => ?_)
    obtain ⟨color, u, hu, hshows⟩ := hkeeps.colored hc (by decide)
    refine .bind (.findVec hu ?_)
    have hfogged (i : Fin 4) := k.features.fogged_lt k.fragment i
    have hlt (i : Fin 4) : channels (k.features.format.loaded k.fragment.pixel
      plan.usesDstAlpha) i < 256 := channels_lt _ i
    have hold (i : Fin 4) := k.features.format.channels_loaded k.fragment.pixel
      plan.usesDstAlpha i
    extract_lets jp
    have tail (s₂ : View) (c : Fin 4 → Int) (hkeeps₂ : s₁.Keeps [.vecColor] s₂) (hc : k.Colored s₂ c)
        (hblend : k.Blended c) : k.Leads (jp ()) s₂ Q L := by
      refine .bind (.release rfl (.unlock rfl (h _ c ?_ ?_ ?_ hblend)))
      · exact ((hkeeps.mono fun _ => List.mem_cons_of_mem _).trans (hkeeps₂.mono (by simp))).set
          (by decide) rfl
      · exact (hp₁.of_keeps hkeeps₂ (by decide)).of_keeps ((hkeeps₂.idle.keeps []).set (r := .vec0)
          (by decide) rfl) (by simp)
      · obtain ⟨x, w, hw, hc⟩ := hc
        exact ⟨x, w, hw, hc⟩
    cases hequation : k.features.blendEquation.usesFactors with
    | true =>
      obtain ⟨inverse, rfl, hinv⟩ := planWith_of_serves hplan hon hequation
      rw [if_pos (show (k.planWith inverse).usesFactors = true from rfl)]
      refine .bind (blendWithFactors_leads hkeeps.idle hu hv hshows hstored hfogged hlt hk hinv hequation
        fun s₂ hkeeps₂ hc => tail s₂ _ hkeeps₂ hc fun he i hi => ?_)
      exact congrArg Int.ofNat (blended_of_factors hon hequation hold i fun h3 => by
        rw [hon] at hi; cases hi h3)
    | false =>
      obtain rfl := empty_of_serves hplan hequation
      rw [if_neg (show ¬({} : BlendPlan).usesFactors = true from Bool.false_ne_true)]
      refine .bind (blendBytes_leads hkeeps.idle hu hv hshows hstored hfogged hequation
        fun s₂ hkeeps₂ hc => tail s₂ _ hkeeps₂ hc fun he i hi => ?_)
      rw [hold i fun h3 => by rw [hon] at hi; cases hi h3]
      exact congrArg Int.ofNat (blended_of_bytes hon hequation i)
  · rename_i hoff
    refine .pure (h s _ (hs.keeps _) hp hc fun he i hi => ?_)
    rw [Features.blended, if_neg hoff]

end Setting

end PixelPipeline
