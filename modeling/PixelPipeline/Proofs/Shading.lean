/-
# Proofs.Shading — fog and dither

Fog is exact: the division by 255 is done by a product and a shift, which is
the same for all 16-bit values.  Dithering leaves lanes that may lie outside of
a byte, to be cut when the color is packed.
-/
import PixelPipeline.Compile.Shading
import PixelPipeline.Proofs.Places
import PixelPipeline.Proofs.Tests

namespace PixelPipeline

open X86 Compile

namespace Setting

variable {k : Setting} {s : View} {L : Memory → Prop} {Q : Unit → View → Prop}

/-! ## Fog -/

/-- Division by 255 as a product and a shift. -/
theorem mul_shift_eq_div (x : Nat) (h : x < 65536) : (x * 0x8081 / 65536) >>> 7 = x / 255 := by
  rw [Nat.shiftRight_eq_div_pow]
  omega

theorem blendFog_leads (hk : k.Sound) (hs : s.Idle) (hon : k.features.fog = true)
    (hf : s.Has .argFog (k.entry.reg .rcx))
    (hc : k.Colored s (fun i => channels k.fragment.color i))
    (h : ∀ s', s.Keeps [.vecColor, .argFog] s' →
      k.Colored s' (fun i => k.features.fogged k.fragment i) → Q () s') :
    k.Leads (blendFog k.env) s Q L := by
  obtain ⟨x, v, hx, hv⟩ := hc
  obtain ⟨ga, hga⟩ := hf
  refine .of_later fun hm => ?_
  refine .bind (.allocVec fun xf vf => .bind (stateBase_leads hs.state fun gs f => ?_))
  refine .bind (.movdLoad (r := .vec1) rfl (.offset (r := .stateBase) rfl (by decide))
    (hm.state32 hk (by decide)) (.bind (.unlock_made (g := gs) rfl rfl ?_)))
  refine .bind (widenBytes_leads (r := .vec1) hs.zero (by decide) rfl ?_)
  refine .bind (loadConst_leads (j := 0) hk hs.pool (by decide) (by decide) fun xr f₁ => ?_)
  refine .bind (.findVec (r := .vecColor) hx ?_)
  refine .bind (expandColor_leads ⟨rfl, hs.pool, hs.zero⟩ hx hv fun v' hv' => ?_)
  refine .bind (.allocGen fun gα vα => .bind (.pextrw (r := .srcAlpha) (q := .vecColor) rfl rfl ?_))
  refine .bind (.allocVec fun xa va => .bind (.findGen (r := .argFog) hga ?_))
  refine .bind (.movdToVec (r := .vec3) (q := .argFog) rfl hga ?_)
  refine .bind (.pshuflw (r := .vec3) (q := .vec3) rfl rfl (.bind (.forceRelease ?_)))
  refine .bind (.packed (r := .vecColor) (q := .vec3) rfl rfl ?_)
  refine .bind (.packed (r := .vec2) (q := .vec3) rfl rfl ?_)
  refine .bind (.packed (r := .vec1) (q := .vec2) rfl rfl ?_)
  refine .bind (.packed (r := .vecColor) (q := .vec1) rfl rfl ?_)
  refine .bind (.release rfl (.bind (.release rfl (.bind (.release rfl ?_)))))
  refine .bind (poolBase_leads hs.pool fun gp f₂ => ?_)
  refine .bind (.packedLoad (r := .vecColor) rfl (.offset (r := .poolBase) rfl (by decide))
    (aligned_add hk.aligned 1) rfl (.bind (.unlock_made (g := gp) rfl rfl ?_)))
  refine .bind (.laneShift (r := .vecColor) rfl (.bind (.pinsrw (r := .vecColor) (q := .srcAlpha) rfl rfl ?_)))
  refine .bind (.release rfl (.unlock rfl (h _
    ⟨⟨rfl, rfl, hs.zero⟩, by simp [Role.lasting], rfl, by simp⟩ ⟨x, _, rfl, fun he => ?_⟩)))
  have hcolor := (hv' he).has
  have hfogColor := (Lanes.shows_ofWord32 k.fragment.block.fogColor).has_widen
  have hamount : Lanes.Has ((Lanes.ofWord32 ((k.entry.reg .rcx).setWidth 32)).shuffleLow 0)
      fun _ => k.fragment.fog.toNat := by
    refine (Lanes.has_spreadFirst _).of_eq fun _ => ?_
    rw [show (k.entry.reg .rcx).setWidth 32 = k.fragment.fog.setWidth 32 from hk.fog he,
      BitVec.extractLsb'_toNat, BitVec.toNat_setWidth]
    have := k.fragment.fog.isLt
    omega
  have hrest : Lanes.Has _ fun _ => 255 - k.fragment.fog.toNat :=
    (pool_has (j := 0) hk he hm (by decide)).subSat hamount
  have hby := pool_has (j := 1) hk he hm (by decide)
  have hle (i : Fin 4) : channels k.fragment.color i * k.fragment.fog.toNat +
      channels k.fragment.block.fogColor i * (255 - k.fragment.fog.toNat) ≤ 255 * 255 :=
    fogSum_le (channels_lt _ i) (channels_lt _ i) k.fragment.fog.isLt
  have hscaled := hcolor.mul hamount fun i => by have := hle i; omega
  have hfogScaled := hfogColor.mul hrest fun i => by have := hle i; omega
  have hsum := hscaled.addSat hfogScaled fun i => by have := hle i; omega
  have hlast : ((((v'.lane 3).setWidth 32).setWidth 64).setWidth 16).toNat =
      channels k.fragment.color 3 := by
    rw [BitVec.setWidth_setWidth_of_le _ (by decide), BitVec.setWidth_setWidth_of_le _ (by decide),
      BitVec.setWidth_eq]
    exact hcolor 3
  have hdone := ((hsum.mulHigh hby).shiftRight 7).insertLast hlast
  have hfogged (i : Fin 4) : (if i = 3 then channels k.fragment.color 3 else
      ((channels k.fragment.color i * k.fragment.fog.toNat +
        channels k.fragment.block.fogColor i * (255 - k.fragment.fog.toNat)) * 0x8081 / 65536) >>> 7) =
      k.features.fogged k.fragment i := by
    have := hle i
    by_cases hi : i = 3
    · rw [if_pos hi, Features.fogged, if_neg fun h => h.2 hi, hi]
    · rw [if_neg hi, Features.fogged, if_pos ⟨hon, hi⟩, fogLane, mul_shift_eq_div _ (by omega)]
  have hlt (i : Fin 4) := k.features.fogged_lt k.fragment i
  exact (hdone.of_eq hfogged).shows fun i => by have := hlt i; omega

theorem fog_leads (hk : k.Sound) (hs : s.Idle) (hf : s.Has .argFog (k.entry.reg .rcx))
    (hc : k.Colored s (fun i => channels k.fragment.color i))
    (h : ∀ s', s.Keeps [.vecColor, .argFog] s' →
      k.Colored s' (fun i => k.features.fogged k.fragment i) → Q () s') :
    k.Leads (Compile.fog k.env) s Q L := by
  refine .bind (.mark ?_)
  split
  · rename_i hon
    exact blendFog_leads hk hs hon hf hc h
  · rename_i hoff
    have hkeeps := ((hs.keeps [.vecColor, .argFog]).set (r := .argFog) (h := .absent) (by decide) rfl)
    refine .forceRelease (h _ hkeeps ?_)
    obtain ⟨x, v, hx, hv⟩ := hc
    refine ⟨x, v, hx, fun he => (hv he).of_eq fun i => ?_⟩
    rw [Features.fogged, if_neg fun h => hoff h.1]

/-! ## Dither -/

/-- The index of a pixel's place in the dither table, as it is computed. -/
theorem ditherIndex (x y : BitVec 32) :
    (x &&& 3).setWidth 64 + ((y &&& 3).setWidth 64 <<< 2) + BitVec.ofNat 64 0 =
      BitVec.ofNat 64 (y.extractLsb' 0 2 ++ x.extractLsb' 0 2 : BitVec 4).toNat := by
  have hlow (v : BitVec 32) : (v &&& 3).toNat = v.toNat % 4 := by
    rw [BitVec.toNat_and]
    exact Nat.and_two_pow_sub_one_eq_mod _ 2
  apply BitVec.eq_of_toNat_eq
  rw [BitVec.add_zero, BitVec.toNat_append, BitVec.toNat_ofNat, BitVec.toNat_add,
    BitVec.toNat_shiftLeft, BitVec.toNat_setWidth, BitVec.toNat_setWidth, hlow, hlow,
    BitVec.extractLsb'_toNat, BitVec.extractLsb'_toNat, Nat.shiftRight_zero, Nat.shiftRight_zero,
    ← Nat.shiftLeft_add_eq_or_of_lt (Nat.mod_lt _ (by decide))]
  simp only [Nat.shiftLeft_eq]
  omega

theorem addDither_leads {c : Fin 4 → Int} (hk : k.Sound) (hs : s.Idle)
    (hon : k.features.dither = true) (hp : k.Places False True s) (hkey : s.Has .argKey k.key)
    (hc : k.Colored s c) (hlt : k.exact → ∀ i, i ≠ 3 → 0 ≤ c i ∧ c i < 1024)
    (h : ∀ s', s.Keeps (.vecColor :: placeRoles) s' → k.Places False False s' →
      k.Colored s' (fun i => if i = 3 then c i else c i + k.fragment.ditherBias) → Q () s') :
    k.Leads (addDither k.env) s Q L := by
  refine .bind (colorAddr_leads hk hs hp nofun (fun _ => hon) fun g s₁ hkeeps hg hp₁ => ?_)
  obtain ⟨x, v, hx, hv⟩ := hkeeps.colored hc (by decide)
  obtain ⟨⟨gx, hX⟩, ⟨gy, hY⟩⟩ := hp₁.coordinates trivial
  obtain ⟨gk, hK⟩ := hkeeps.has hkey (by decide) (by decide)
  refine .of_later fun hm => .bind (.unlock rfl ?_)
  refine .bind (.findGen hX (.bind (.findGen hY (.bind (.findGen hK ?_)))))
  refine .bind (.allocGen fun gv vv => .bind (.allocGen fun gc vc => ?_))
  refine .bind (.mov (r := .gen0) (q := .argY) rfl hY ?_)
  refine .bind (.aluImm (r := .gen0) (o := .and) trivial rfl fun f₁ => ?_)
  refine .bind (.mov (r := .gen1) (q := .argX) rfl hX ?_)
  refine .bind (.aluImm (r := .gen1) (o := .and) trivial rfl fun f₂ => ?_)
  refine .of_word (r := .gen0) (g := gv) rfl fun hscratch => ?_
  have hindex := ditherIndex k.fragment.x k.fragment.y
  generalize hn : (k.fragment.y.extractLsb' 0 2 ++ k.fragment.x.extractLsb' 0 2 : BitVec 4) = n at hindex
  refine .bind (.lea (r := .gen0) rfl
    (.indexed (r := .gen1) (q := .gen0) rfl rfl hscratch (n := 0) (by decide)) ?_)
  rw [low_widened, low_widened]
  generalize ha : (_ + _ + BitVec.ofNat 64 0 : BitVec 64) = a
  have ha : a = BitVec.ofNat 64 n.toNat := ha.symm.trans hindex
  have hbyte : s₁.mem.read (k.key + (a <<< 0) + BitVec.ofNat 64 Key.ditherAt) =
      k.fragment.constants.dither.get n.toFin := by
    have hlt := n.isLt
    rw [ha, BitVec.shiftLeft_zero, BitVec.add_assoc, ← BitVec.ofNat_add, Nat.add_comm,
      hm.key8 hk (by unfold Key.ditherAt; omega)]
    exact (KeyConstants.read_dither _ _ n.toFin).symm
  refine .bind (.loadExt (r := .gen0) rfl
    (.indexed (r := .argKey) (q := .gen0) hK rfl hscratch (by decide))
    (congrArg (BitVec.signExtend 32) hbyte) ?_)
  refine .bind (.aluImm (r := .gen0) (o := .and) trivial rfl fun f₃ => ?_)
  refine .bind (.release rfl (.bind (.unlock rfl (.bind (.forceRelease (.bind (.forceRelease ?_)))))))
  refine .bind (.allocVec fun xb vb => .bind (.movdToVec (r := .vec0) (q := .gen0) rfl rfl ?_))
  refine .bind (.release rfl (.bind (.pshuflw (r := .vec0) (q := .vec0) rfl rfl ?_)))
  refine .bind (.findVec (r := .vecColor) hx (.bind (expandColor_leads
    ⟨hkeeps.idle.state, hkeeps.idle.pool, hkeeps.idle.zero⟩ hx hv fun v' hv' => ?_)))
  refine .bind (.packed (r := .vecColor) (q := .vec0) rfl rfl (.bind (.release rfl (.unlock rfl ?_))))
  refine h _ ((hkeeps.mono fun _ => List.mem_cons_of_mem _).trans ⟨⟨hkeeps.idle.state, hkeeps.idle.pool, hkeeps.idle.zero⟩,
    by simp [Role.lasting, placeRoles], rfl, by simp⟩) ⟨.inl ⟨g, hg⟩, nofun, nofun⟩
    ⟨x, _, rfl, fun he i => ?_⟩
  show _ = if i = 3 then c i else c i + k.fragment.ditherBias
  rw [low_widened, low_widened]
  have hbias : (k.fragment.constants.dither.get n.toFin).toInt = k.fragment.ditherBias := by
    rw [Fragment.ditherBias, hn]
  have hrange := (hv' he).range i
  have hsum := (hv' he).addSat (Lanes.shows_bias (k.fragment.constants.dither.get n.toFin)) i
  have hbiasLe := BitVec.le_toInt (k.fragment.constants.dither.get n.toFin)
  have hbiasLt := BitVec.toInt_lt (x := k.fragment.constants.dither.get n.toFin)
  rw [hbias] at hsum hbiasLe hbiasLt
  by_cases hi : i = 3
  · rw [if_pos hi, Int.add_zero] at hsum
    rw [if_pos hi]
    exact hsum hrange.1 hrange.2
  · have := hlt he i hi
    rw [if_neg hi] at hsum ⊢
    exact hsum (by omega) (by omega)

/-- What the color shows after the blend; alpha is not exact, unless nothing is
blended. -/
def Blended (k : Setting) (c : Fin 4 → Int) : Prop :=
  k.exact → ∀ i, (i = alphaLane → k.features.blend = false) → c i = k.features.blended k.fragment i

/-- What the color shows after dithering. -/
def Dithered (k : Setting) (c : Fin 4 → Int) : Prop :=
  k.exact → ∀ i, (i = alphaLane → k.features.blend = false) → c i = k.features.dithered k.fragment i

theorem dither_leads {c : Fin 4 → Int} (hk : k.Sound) (hs : s.Idle)
    (hp : k.Places False (k.features.dither = true) s)
    (hkey : k.features.dither = true → s.Has .argKey k.key) (hc : k.Colored s c)
    (hblend : k.Blended c)
    (h : ∀ s' c', s.Keeps (.vecColor :: placeRoles) s' → k.Places False False s' →
      k.Colored s' c' → k.Dithered c' → Q () s') : k.Leads (Compile.dither k.env) s Q L := by
  refine .bind (.mark ?_)
  split
  · rename_i hon
    refine addDither_leads hk hs hon (hp.weaken id fun _ => hon) (hkey hon) hc
      (fun he i hi => ?_) fun s' hkeeps hp' hc' => h s' _ hkeeps hp' hc' fun he i hi => ?_
    · have := k.features.blended_lt k.fragment i
      rw [hblend he i fun h => absurd h hi]
      omega
    · by_cases h3 : i = 3
      · rw [if_pos h3, Features.dithered, if_neg fun h => h.2 h3, hblend he i hi]
      · rw [if_neg h3, Features.dithered, if_pos ⟨hon, h3⟩, hblend he i hi]
  · rename_i hoff
    refine .pure (h s c (hs.keeps _) (hp.weaken id nofun) hc fun he i hi => ?_)
    rw [hblend he i hi, Features.dithered, if_neg fun h => hoff h.1]

end Setting

end PixelPipeline
