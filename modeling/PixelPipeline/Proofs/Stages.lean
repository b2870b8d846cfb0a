/-
# Proofs.Stages — all stages in order

Each stage hands its results to the next through the lasting roles, so the
theorems of the stages chain.  A fragment that fails a test leaves with what it
found, and one that passes all of them ends in the color write; either way the
two cells end as `Features.outcome` says.
-/
import PixelPipeline.Compile.Function
import PixelPipeline.Proofs.Blend
import PixelPipeline.Proofs.Tests
import PixelPipeline.Proofs.Write

namespace PixelPipeline

open X86 Compile

namespace Setting

variable {k : Setting}

/-! ## On entry -/

/-- What is known on entry: the arguments are in their registers, and nothing
else has one. -/
def entryView (k : Setting) : View where
  roles
    | .argX => .word .rdi (k.entry.reg .rdi)
    | .argY => .word .rsi (k.entry.reg .rsi)
    | .argZ => .word .rdx (k.entry.reg .rdx)
    | .argFog => .word .rcx (k.entry.reg .rcx)
    | .argColor => .word .r8 (k.entry.reg .r8)
    | .argKey => .word .r9 (k.entry.reg .r9)
    | .stateBase | .poolBase | .vecZero => .unknown
    | _ => .absent
  flags := k.entry.flags
  mem := k.entry.mem
  wide := false

theorem find?_entry {r : Role} {b : Binding} (h : Compile.entry.table.find? r = some b) :
    b ∈ Compile.entry.table.bindings ∧ b.role = r :=
  ⟨RoleTable.mem_of_find? h, RoleTable.role_of_find? h⟩

theorem wellFormed_entry : Compile.entry.table.WellFormed :=
  RoleTable.wellFormed_setupArguments .fresh

theorem models_entry (k : Setting) : k.Models Compile.entry k.entry k.entryView where
  wide := rfl
  flags := rfl
  mem := rfl
  later := .refl _ _
  kept := fun _ _ => rfl
  table := wellFormed_entry
  pools := ⟨rfl, rfl⟩
  roles r := by
    cases r with
    | argX | argY | argZ | argFog | argColor | argKey =>
      exact ⟨_, rfl, rfl, rfl, rfl, nofun⟩
    | stateBase | poolBase | vecZero => exact fun b hb => by cases hb
    | _ => exact rfl

/-! ## Tests that fail before the stored values are looked at -/

theorem ended_of_range (h : k.features.rangePasses k.fragment = false) : k.Ended k.entry.mem :=
  ended_discarded fun _ => by rw [Features.verdict, h]; rfl

theorem ended_of_alpha (h : k.exact → k.features.alphaPasses k.fragment = false) :
    k.Ended k.entry.mem :=
  ended_discarded fun he => by rw [Features.verdict, h he, Bool.and_false]; rfl

theorem ended_of_color (h : k.exact → k.features.colorPasses k.fragment = false) :
    k.Ended k.entry.mem :=
  ended_discarded fun he => by rw [Features.verdict, h he, Bool.and_false]; rfl

/-! ## The stages -/

section

variable {plan : BlendPlan} (hplan : plan.Serves k.features) (hk : k.Sound)
  (hcover : k.exact → k.features.Covered k.fragment)
  (hclear : k.exact → k.features.clearMode = true → k.features.blend = false)

include hplan hk hcover hclear

/-- The stages behind the tests. -/
theorem passed_leads {s : View} (hs : s.Idle) (hmem : s.mem = k.entry.mem)
    (hverdict : k.exact → k.features.verdict k.fragment = .passed)
    (hp : k.Places (needsDepthAddr k.features = true) (k.features.dither = true) s)
    (hz : k.features.depthWrite = true → s.Has .argZ (k.entry.reg .rdx)) (hst : k.Carried s)
    (hc : k.Colored s (fun i => k.features.fogged k.fragment i))
    (hkey : k.features.needsConstants = true → s.Has .argKey k.key) :
    k.Leads (do
      writeDepth k.env
      blendBy k.env plan
      dither k.env
      writeColor k.env) s (fun _ s' => k.Ended s'.mem) k.Ended := by
  refine .bind (writeDepth_leads hk hs hp id hz fun s₁ hlater hdepth hkeeps₁ hp₁ => ?_)
  have hpixel₁ (he : k.exact) :
      k.features.format.readPixel s₁.mem k.pixelAddress = k.fragment.pixel :=
    (pixel_kept hk he hlater).trans (hmem ▸ rfl)
  rw [hmem] at hdepth
  refine .bind (blendBy_leads hplan hk hkeeps₁.idle hp₁ hpixel₁ (hkeeps₁.colored hc (by decide))
    fun s₂ c₂ hkeeps₂ hp₂ hc₂ hblended => ?_)
  have hkept : (s.setMem s₁.mem).Keeps (.argZ :: .vecColor :: placeRoles) s₂ :=
    (hkeeps₁.mono (by decide)).trans (hkeeps₂.mono (by decide))
  have hkey₂ (h : k.features.needsConstants = true) : s₂.Has .argKey k.key :=
    hkept.has (hkey h) (by decide) (by decide)
  refine .bind (dither_leads hk hkeeps₂.idle hp₂ (fun hon => hkey₂ ?_) hc₂ hblended
    fun s₃ c₃ hkeeps₃ hp₃ hc₃ hdithered => ?_)
  · rw [Features.needsConstants, hon, Bool.true_or]
  · have hmem₃ : s₃.mem = s₁.mem := hkeeps₃.mem.trans hkeeps₂.mem
    refine writeColor_leads hk hkeeps₃.idle (hmem₃ ▸ hpixel₁) (fun _ => hmem₃ ▸ hdepth) hverdict hp₃ hc₃
      hdithered hclear ?_ (fun hon => hkeeps₃.has (hkey₂ ?_) (by decide) (by decide)) hcover
    · exact carried_of_keeps (carried_of_keeps (s := s.setMem s₁.mem) hst hkept (by decide)) hkeeps₃
        (by decide)
    · rw [Features.needsConstants, hon, Bool.or_true]

/-- The code of all stages leads to the outcome. -/
theorem stages_leads : k.Leads (stages k.env plan) k.entryView
    (fun _ s' => k.Ended s'.mem) k.Ended := by
  have hidle : k.entryView.Idle := ⟨rfl, rfl, rfl⟩
  have hplaces : k.Places (needsDepthAddr k.features = true) (k.features.dither = true) k.entryView :=
    ⟨.inr ⟨rfl, ⟨.rdi, rfl⟩, .rsi, rfl⟩, fun _ => .inr ⟨rfl, ⟨⟨.rdi, rfl⟩, .rsi, rfl⟩, fun _ => rfl⟩,
      fun _ => ⟨⟨.rdi, rfl⟩, .rsi, rfl⟩⟩
  refine .bind (.mark ?_)
  extract_lets jp
  have tail (s : View) (hkeeps : k.entryView.Keeps [.argKey] s)
      (hkey : k.features.needsConstants = true → s.Has .argKey k.key) :
      k.Leads (jp ()) s (fun _ s' => k.Ended s'.mem) k.Ended := by
    refine .bind (depthRange_leads hk hkeeps.idle (hkeeps.has ⟨.rdx, rfl⟩ (by decide) (by decide))
      (fun hfail => hkeeps.mem ▸ ended_of_range hfail) fun s₁ hrange hkeeps₁ hz => ?_)
    have hcolor₁ : s₁.Has .argColor (k.entry.reg .r8) :=
      hkeeps₁.has (hkeeps.has ⟨.r8, rfl⟩ (by decide) (by decide)) (by decide) (by decide)
    refine .bind (enterColor_leads hkeeps₁.idle hcolor₁ fun s₂ hkeeps₂ hc₂ hw₂ => ?_)
    have hmem₂ : s₂.mem = k.entry.mem := hkeeps₂.mem.trans (hkeeps₁.mem.trans hkeeps.mem)
    refine .bind (alphaTest_leads hk hkeeps₂.idle hc₂ hw₂ (fun hfail => hmem₂ ▸ ended_of_alpha hfail)
      fun s₃ halpha hkeeps₃ => ?_)
    have hall₃ : s.Keeps [.argZ, .argColor, .vecColor] s₃ :=
      (hkeeps₁.mono (by simp)).trans ((hkeeps₂.mono (by simp)).trans (hkeeps₃.mono (by simp)))
    have hfog₃ : s₃.Has .argFog (k.entry.reg .rcx) :=
      hall₃.has (hkeeps.has ⟨.rcx, rfl⟩ (by decide) (by decide)) (by decide) (by decide)
    refine .bind (fog_leads hk hkeeps₃.idle hfog₃ (hkeeps₃.colored hc₂ (by decide))
      fun s₄ hkeeps₄ hc₄ => ?_)
    have hmem₄ : s₄.mem = k.entry.mem := hkeeps₄.mem.trans (hkeeps₃.mem.trans hmem₂)
    refine .bind (colorTest_leads hk hkeeps₄.idle hc₄ (fun hfail => hmem₄ ▸ ended_of_color hfail)
      fun s₅ hcolor hkeeps₅ hc₅ => ?_)
    have hall : s.Keeps [.argZ, .argColor, .vecColor, .argFog] s₅ :=
      (hall₃.mono (by simp)).trans ((hkeeps₄.mono (by simp)).trans (hkeeps₅.mono (by simp)))
    have hplaces₅ := (hplaces.of_keeps hkeeps (by decide)).of_keeps hall (by decide)
    refine .bind (storedTests_leads hk hkeeps₅.idle hplaces₅ id (hkeeps₅.mem.trans hmem₄) (fun h => ?_)
      ?_ (fun he => ?_) fun s₆ hverdict hkeeps₆ hp₆ hz₆ hst₆ => ?_)
    · exact hkeeps₅.has (hkeeps₄.has (hkeeps₃.has (hkeeps₂.has (hz h) (by decide) (by decide))
        (by decide) (by decide)) (by decide) (by decide)) (by decide) (by decide)
    · exact (hall.roles .stencil (by decide) (by decide)).trans
        (hkeeps.roles .stencil (by decide) (by decide))
    · rw [hrange, halpha he, hcolor he]
      rfl
    · refine passed_leads hplan hk hcover hclear hkeeps₆.idle ?_ hverdict hp₆ hz₆ hst₆
        (hkeeps₆.colored hc₅ (by decide)) fun h => ?_
      · exact hkeeps₆.mem.trans (hkeeps₅.mem.trans hmem₄)
      · exact hkeeps₆.has (hall.has (hkey h) (by decide) (by decide)) (by decide) (by decide)
  split
  · rename_i hno
    refine .bind (.forceRelease (tail _ ?_ fun h => ?_))
    · exact (hidle.keeps _).set (by decide) rfl
    · rw [h] at hno
      cases hno
  · exact tail _ (hidle.keeps _) fun _ => ⟨.r9, rfl⟩

end

end Setting

end PixelPipeline
