/-
# Proofs.Tests — depth range, alpha test and color test

Each test leaves with memory as it is exactly for the fragments that fail it,
and takes nothing from the stages behind it.
-/
import PixelPipeline.Compile.Tests
import PixelPipeline.Proofs.Shared

namespace PixelPipeline

open X86 Compile

namespace Setting

variable {k : Setting} {s : View} {L : Memory → Prop} {Q : Unit → View → Prop}

/-! ## Depth range -/

theorem depthRange_leads (hk : k.Sound) (hs : s.Idle) (hz : s.Has .argZ (k.entry.reg .rdx))
    (hfail : k.features.rangePasses k.fragment = false → L s.mem)
    (hpass : ∀ s', k.features.rangePasses k.fragment = true → s.Keeps [.argZ] s' →
      (needsDepthAddr k.features = true → s'.Has .argZ (k.entry.reg .rdx)) → Q () s') :
    k.Leads (depthRange k.env) s Q L := by
  obtain ⟨gz, hz⟩ := hz
  refine .of_later fun hm => .bind (.mark ?_)
  extract_lets jp
  have tail (s₁ : View) (hkeeps : s.Keeps [] s₁) (hrange : k.features.rangePasses k.fragment = true) :
      k.Leads (jp ()) s₁ Q L := by
    have hz₁ := (hkeeps.roles .argZ (by decide) (by decide)).trans hz
    show k.Leads (if (!needsDepthAddr k.features) = true then _ else _) s₁ Q L
    split
    · rename_i hno
      refine .forceRelease (hpass _ hrange ((hkeeps.mono (by simp)).set (by decide) rfl) fun h => ?_)
      simp [h] at hno
    · exact .pure (hpass _ hrange (hkeeps.mono (by simp)) fun _ => ⟨gz, hz₁⟩)
  split
  · rename_i hon
    have hrange : k.features.rangePasses k.fragment =
        (!(k.fragment.z.ult k.fragment.block.minZ) && !(k.fragment.block.maxZ.ult k.fragment.z)) := by
      rw [Features.rangePasses, hon, BitVec.ule_eq_not_ult, BitVec.ule_eq_not_ult]
      rfl
    refine .bind (stateBase_leads hs.state fun b f => .bind (.findGen (r := .argZ) hz ?_))
    refine .bind (.cmpLoadWord (r := .argZ) hz (.offset (r := .stateBase) rfl (by decide))
      (hm.state16 hk (by decide)) ?_)
    refine .bind (.leaveIf (fun h => hfail ?_) fun hmin => ?_)
    · rw [hrange, (Cond.holds_b k.fragment.z k.fragment.block.minZ).symm.trans h]
      rfl
    refine .bind (.cmpLoadWord (r := .argZ) hz (.offset (r := .stateBase) rfl (by decide))
      (hm.state16 hk (by decide)) ?_)
    refine .bind (.leaveIf (fun h => hfail ?_) fun hmax => ?_)
    · rw [hrange, (Cond.holds_a k.fragment.z k.fragment.block.maxZ).symm.trans h, Bool.and_comm]
      rfl
    refine .bind (.unlock rfl (.bind (.unlock_made (g := b) rfl rfl ?_)))
    refine tail _ ⟨⟨rfl, hs.pool, hs.zero⟩, by simp [Role.lasting], rfl, fun _ => rfl⟩ ?_
    rw [hrange, (Cond.holds_b k.fragment.z k.fragment.block.minZ).symm.trans hmin,
      (Cond.holds_a k.fragment.z k.fragment.block.maxZ).symm.trans hmax]
    rfl
  · rename_i hoff
    exact tail s (hs.keeps _) (by simp [Features.rangePasses, show k.features.depthRange = false by simpa using hoff])

/-! ## The color -/

/-- The color argument in the vector register. -/
theorem enterColor_leads (hs : s.Idle) (hc : s.Has .argColor (k.entry.reg .r8))
    (h : ∀ s', s.Keeps [.argColor, .vecColor] s' →
      k.Colored s' (fun i => channels k.fragment.color i) → s'.wide = false → Q () s') :
    k.Leads enterColor s Q L := by
  obtain ⟨g, hg⟩ := hc
  refine .bind (.mark (.bind (.allocVec fun x v => .bind (.findGen (r := .argColor) hg ?_))))
  refine .bind (.movdToVec (r := .vecColor) (q := .argColor) rfl hg ?_)
  refine .bind (.forceRelease (.bind (.unlock rfl (.setWide ?_))))
  refine h _ ⟨⟨hs.state, hs.pool, hs.zero⟩, by simp [Role.lasting], rfl, by simp⟩ ?_ rfl
  exact ⟨x, _, rfl, fun _ => Lanes.shows_ofWord32 _⟩

/-! ## Alpha test -/

/-- A color is put together from its channels. -/
theorem packColor_channels (c : BitVec 32) :
    packColor (channels c 0) (channels c 1) (channels c 2) (channels c 3) = c := by
  rw [← (Lanes.shows_ofWord32 c).toWord32]
  apply BitVec.eq_of_getLsbD_eq
  intro i hi
  rw [Lanes.toWord32, Lanes.ofWord32, Lanes.lane_ofFn, Lanes.lane_ofFn]
  simp only [BitVec.getLsbD_append, if_true, BitVec.getLsbD_extractLsb']
  split
  · rename_i h
    rw [decide_eq_true h, Bool.true_and, Nat.zero_add]
  · rename_i h
    show ((c.extractLsb' 16 16).getLsbD (i - 16)) = _
    rw [BitVec.getLsbD_extractLsb', decide_eq_true (show i - 16 < 16 by omega), Bool.true_and,
      show 16 + (i - 16) = i by omega]

theorem passes_of_passCond_none {c : Comparison} (h : passCond c = none) (a b : BitVec 32) :
    c.passes a b = decide (c ≠ .never) := by
  cases c <;> first | rfl | cases h

/-- A byte masked in place. -/
theorem masked_byte {v : BitVec 64} {b mask : BitVec 32} {m : BitVec 8} (hv : v = b.setWidth 64)
    (hb : b = mask >>> 24) :
    (v.extractLsb' 8 56 ++ (v.setWidth 8 &&& m)).setWidth 32 = b &&& m.setWidth 32 := by
  subst hv hb
  apply BitVec.eq_of_getLsbD_eq
  intro i hi
  simp only [BitVec.getLsbD_setWidth, BitVec.getLsbD_append, BitVec.getLsbD_extractLsb',
    BitVec.getLsbD_and, BitVec.getLsbD_ushiftRight]
  split
  · rename_i h
    rw [decide_eq_true h, decide_eq_true (show i < 64 by omega), decide_eq_true hi]
    simp only [Bool.true_and]
  · rename_i h
    have hhigh : mask.getLsbD (24 + (8 + (i - 8))) = false :=
      BitVec.getLsbD_of_ge _ _ (by omega)
    have hm : m.getLsbD i = false := BitVec.getLsbD_of_ge _ _ (by omega)
    rw [hhigh, hm, Bool.and_false, Bool.and_false, Bool.and_false, Bool.and_false]

theorem alphaTest_leads (hk : k.Sound) (hs : s.Idle)
    (hc : k.Colored s (fun i => channels k.fragment.color i)) (hw : s.wide = false)
    (hfail : (k.exact → k.features.alphaPasses k.fragment = false) → L s.mem)
    (hpass : ∀ s', (k.exact → k.features.alphaPasses k.fragment = true) → s.Keeps [] s' → Q () s') :
    k.Leads (alphaTest k.env) s Q L := by
  obtain ⟨x, v, hx, hv⟩ := hc
  refine .of_later fun hm => .bind (.mark ?_)
  cases hp : passCond k.env.features.alphaFunc with
  | none =>
    have hanswer : k.features.alphaPasses k.fragment = decide (k.features.alphaFunc ≠ .never) :=
      passes_of_passCond_none hp _ _
    show k.Leads (if k.features.alphaFunc = .never then _ else _) s Q L
    split
    · rename_i hnever
      exact .leave (hfail fun _ => by rw [hanswer, hnever]; rfl)
    · rename_i hnever
      exact .pure (hpass s (fun _ => by rw [hanswer, decide_eq_true hnever]) (hs.keeps _))
  | some pass =>
    refine .bind (.findVec hx (.bind (.allocGen fun g a => ?_)))
    refine .bind (.movdToReg (r := .srcAlpha) (q := .vecColor) rfl hx ?_)
    refine .bind (.shift (r := .srcAlpha) (by decide) rfl fun f => .bind (.unlock rfl ?_))
    extract_lets jp
    have tail (s₁ : View) (a : BitVec 64) (ha : s₁.roles .srcAlpha = .word g a)
        (htested : k.exact → a.setWidth 32 = k.features.testedAlpha k.fragment)
        (hkeeps : s.Keeps [] s₁) : k.Leads (jp ()) s₁ Q L := by
      have hpasses (he : k.exact) : pass.holds (.compared (a.setWidth 32)
          (k.features.alphaRef.setWidth 32)) = k.features.alphaPasses k.fragment := by
        rw [holds_passCond (Nat.le_refl 32) _ _ hp, htested he]
        simp [Features.alphaPasses]
      refine .bind (.cmpImm (r := .srcAlpha) ha (.bind (.leaveIf (fun h => ?_) fun h => ?_)))
      · rw [Cond.holds_invert, Bool.not_eq_true'] at h
        exact hkeeps.mem ▸ hfail fun he => (hpasses he).symm.trans h
      · rw [Cond.holds_invert, Bool.not_eq_false'] at h
        exact .release rfl (hpass _ (fun he => (hpasses he).symm.trans h)
          ((hkeeps.setFlags _).set (by decide) rfl))
    have hcolor (he : k.exact) : v.toWord32 = k.fragment.color := by
      rw [(hw ▸ hv he : Lanes.Shows false v _).toWord32]
      exact packColor_channels _
    split
    · rename_i hmasked
      refine .bind (stateBase_leads hs.state fun b f' => ?_)
      refine .bind (.andLoadByte (r := .srcAlpha) rfl (.offset (r := .stateBase) rfl (by decide))
        (hm.state8 hk (by decide)) fun f'' => .bind (.unlock_made (g := b) rfl rfl ?_))
      refine tail _ _ rfl (fun he => ?_)
        ⟨⟨rfl, hs.pool, hs.zero⟩, by simp [Role.lasting], rfl, fun _ => rfl⟩
      rw [Features.testedAlpha, if_pos hmasked, masked_byte (b := k.fragment.color >>> 24) ?_ rfl]
      · rfl
      · rw [low_widened, hcolor he]
        rfl
    · rename_i hmasked
      refine tail _ _ rfl (fun he => ?_)
        ⟨⟨hs.state, hs.pool, hs.zero⟩, by simp [Role.lasting], rfl, fun _ => rfl⟩
      rw [Features.testedAlpha, if_neg hmasked, low_widened, low_widened, hcolor he]
      rfl

/-! ## Color test -/

/-- The dispatch on a byte, by what the byte stands for. -/
theorem dispatchColorTest_leads {func reference masked : Reg} {code : BitVec 8}
    {a b : BitVec 32} (hf : s.roles .gen0 = .word func ((code.setWidth 32).setWidth 64))
    (hr : s.roles .gen2 = .word reference (b.setWidth 64))
    (hm : s.roles .gen1 = .word masked (a.setWidth 64))
    (hfail : Features.colorTestPasses code a b = false → L s.mem)
    (hpass : ∀ f, Features.colorTestPasses code a b = true → Q () (s.setFlags f)) :
    k.Leads (dispatchColorTest func reference masked) s Q L := by
  have hne {n : BitVec 8} (h : (code.setWidth 32 == n.setWidth 32) = false) : code ≠ n := by
    rw [beq_widened (by decide)] at h
    exact beq_eq_false_iff_ne.mp h
  have heq {n : BitVec 8} (h : (code.setWidth 32 == n.setWidth 32) = true) : code = n := by
    rw [beq_widened (by decide)] at h
    exact eq_of_beq h
  refine .bind (.cmpImm (r := .gen0) hf (.bind (.leaveIf (fun h => hfail ?_) fun h₀ => ?_)))
  · simp only [View.flags_setFlags, low_widened, Cond.holds_b] at h
    rw [ult_widened (by decide), BitVec.ult, decide_eq_true_eq] at h
    rw [show code = 0 from BitVec.eq_of_toNat_eq (Nat.lt_one_iff.mp h)]
    rfl
  have h₀ : code ≠ 0 := by
    simp only [View.flags_setFlags, low_widened, Cond.holds_b] at h₀
    rintro rfl
    cases h₀
  refine .skipIf (.bind (.put _) fun _ => .choose (.bind (.put _) fun _ => .put _)
    (.bind (.put _) fun _ => .put _)) (fun h₁ => ?_) fun h₁ => ?_
  · simp only [View.flags_setFlags, low_widened, Cond.holds_e] at h₁
    exact hpass _ (by rw [heq h₁]; rfl)
  simp only [View.flags_setFlags, low_widened, Cond.holds_e] at h₁
  have h₁ : code ≠ 1 := hne h₁
  refine .bind (.cmpImm (r := .gen0) hf (.choose (.bind (.put _) fun _ => .put _)
    (.bind (.put _) fun _ => .put _) (fun h₂ => ?_) fun h₂ => ?_)) <;>
    simp only [View.flags_setFlags, low_widened, Cond.holds_e] at h₂
  · have hpasses : Features.colorTestPasses code a b = (b == a) := by
      rw [Features.colorTestPasses, if_neg h₀, if_neg h₁, if_pos (show code = 2 from heq h₂)]
    refine .bind (.cmp (r := .gen2) (q := .gen1) hr hm (.leaveIf (fun h => hfail ?_)
      fun h => hpass _ ?_)) <;>
      simp only [View.flags_setFlags, low_widened, Cond.holds_ne] at h <;>
      simpa [hpasses] using h
  · have hpasses : Features.colorTestPasses code a b = (b != a) := by
      rw [Features.colorTestPasses, if_neg h₀, if_neg h₁, if_neg (show code ≠ 2 from hne h₂)]
    refine .bind (.cmp (r := .gen2) (q := .gen1) hr hm (.leaveIf (fun h => hfail ?_)
      fun h => hpass _ ?_)) <;>
      simp only [View.flags_setFlags, low_widened, Cond.holds_e] at h <;>
      simpa [hpasses] using h

theorem colorTest_leads (hk : k.Sound) (hs : s.Idle)
    (hc : k.Colored s (fun i => k.features.fogged k.fragment i))
    (hfail : (k.exact → k.features.colorPasses k.fragment = false) → L s.mem)
    (hpass : ∀ s', (k.exact → k.features.colorPasses k.fragment = true) → s.Keeps [.vecColor] s' →
      k.Colored s' (fun i => k.features.fogged k.fragment i) → Q () s') :
    k.Leads (colorTest k.env) s Q L := by
  obtain ⟨x, v, hx, hv⟩ := id hc
  refine .of_later fun hm => .bind (.mark ?_)
  split
  · rename_i hon
    refine .bind (stateBase_leads hs.state fun gs f => ?_)
    refine .bind (.allocGen fun gf vf => .bind (.allocGen fun gm vm => .bind (.allocGen fun gr vr => ?_)))
    refine .bind (.load (r := .gen1) rfl (.offset (r := .stateBase) rfl (by decide))
      (hm.state32 hk (by decide)) ?_)
    refine .bind (.aluImm (r := .gen1) (o := .and) trivial rfl fun f₁ => ?_)
    refine .bind (.load (r := .gen2) rfl (.offset (r := .stateBase) rfl (by decide))
      (hm.state32 hk (by decide)) ?_)
    refine .bind (.alu (r := .gen2) (q := .gen1) (o := .and) trivial rfl rfl fun f₂ => ?_)
    refine .bind (.findVec (r := .vecColor) hx (.bind (packColor_leads hx hv fun v' hv' => ?_)))
    refine .bind (.movdToReg (r := .gen0) (q := .vecColor) rfl rfl ?_)
    refine .bind (.alu (r := .gen1) (q := .gen0) (o := .and) trivial rfl rfl fun f₃ => ?_)
    refine .bind (.unlock rfl ?_)
    refine .bind (.loadExt (r := .gen0) rfl (.offset (r := .stateBase) rfl (by decide))
      (congrArg (BitVec.setWidth 32) (hm.state8 hk (by decide))) ?_)
    refine .bind (.unlock_made (g := gs) rfl rfl ?_)
    have hshows (he : k.exact) : Lanes.Shows false v' fun i => k.features.fogged k.fragment i :=
      (hv' he).of_eq fun i => Lanes.clamp_of_lt (Features.fogged_lt _ _ i)
    have hpasses (he : k.exact) : k.features.colorPasses k.fragment =
        Features.colorTestPasses k.fragment.block.colorTest
          (k.fragment.block.colorTestMask &&& 0x00FFFFFF &&& v'.toWord32)
          (k.fragment.block.colorTestRef &&& (k.fragment.block.colorTestMask &&& 0x00FFFFFF)) := by
      rw [(hshows he).toWord32, Features.colorPasses, hon]
      rfl
    refine .bind (dispatchColorTest_leads rfl rfl rfl (fun h => hfail fun he => ?_) fun f₄ h => ?_)
    · simp only [low_widened] at h
      exact (hpasses he).trans h
    simp only [low_widened] at h
    refine .bind (.release rfl (.bind (.release rfl (.release rfl (hpass _ (fun he => ?_) ?_ ?_)))))
    · exact (hpasses he).trans h
    · exact ⟨⟨rfl, hs.pool, hs.zero⟩, by simp [Role.lasting], rfl, by simp⟩
    · exact ⟨x, v', rfl, hshows⟩
  · rename_i hoff
    refine .pure (hpass s (fun _ => ?_) (hs.keeps _) hc)
    simp [Features.colorPasses, hoff]

end Setting

end PixelPipeline
