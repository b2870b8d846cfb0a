/-
# Proofs.Variants — functions that were built otherwise

A function may have been compiled for a key of other registers than it runs
under, or with another plan for its blend (`PixelCall.DrawsAs`).  Two calls have
the same effect (`PixelCall.SameEffect`) if every byte that was the same in front
of them is the same behind them, and every other byte is as it was: the code and
the keys differ, and no call changes them.

Whether a function knows the stride or loads it makes no difference of this kind.
The features of the two keys differ in nothing but the flag of the stride, which
the outcome of a fragment does not depend on, and either way the cells are those
of the strides that the registers have.
-/
import PixelPipeline.Proofs.Drawn

namespace PixelPipeline

open X86 Compile

namespace PixelCall

variable {p q : PixelCall} {d : Draw} {built built' : DrawState} {plan plan' : BlendPlan}

/-! ## Calls with the same effect -/

/-- Both calls come to an end.  Bytes that were the same are the same afterwards, and
no byte changed that was not. -/
def SameEffect (p q : PixelCall) : Prop :=
  ∃ c c', p.result = some c ∧ q.result = some c' ∧ ∀ a,
    (p.entry.mem.read a = q.entry.mem.read a → c.mem.read a = c'.mem.read a) ∧
    (p.entry.mem.read a ≠ q.entry.mem.read a →
      c.mem.read a = p.entry.mem.read a ∧ c'.mem.read a = q.entry.mem.read a)

/-- Calls on the same two cells have the same effect if the outcomes of their
fragments are equal. -/
theorem DrawsAs.sameEffect (hp : p.DrawsAs d built plan) (hq : q.DrawsAs d built' plan')
    (hplan : plan.Serves (.ofConfig d.config built))
    (hplan' : plan'.Serves (.ofConfig d.config built'))
    (haddresses : p.pixelAddress = q.pixelAddress ∧ p.depthAddress = q.depthAddress)
    (houtcome : (Features.ofConfig d.config built).outcome (d.fragmentFor built) =
      (Features.ofConfig d.config built').outcome (d.fragmentFor built')) : p.SameEffect q := by
  obtain ⟨c, hresult, hlater, hcolor, hz⟩ := hp.exists_result hplan
  obtain ⟨c', hresult', hlater', hcolor', hz'⟩ := hq.exists_result hplan'
  have hcells := hp.inCells_iff hq.toFinds haddresses
  obtain ⟨hpixel, hdepth⟩ := haddresses
  refine ⟨c, c', hresult, hresult', fun a => ?_⟩
  by_cases ha : p.InCells a
  · have hentry : p.entry.mem.read a = q.entry.mem.read a := by
      refine hp.read_cells ?_ ?_ ha
      · rw [hp.pixel, hpixel, hq.pixel]
      · rw [hp.depth, hdepth, hq.depth]
    have hexit : c.mem.read a = c'.mem.read a := by
      refine hp.read_cells ?_ ?_ ha
      · rw [hcolor, hpixel, hcolor', houtcome]
      · rw [hz, hdepth, hz', houtcome]
    exact ⟨fun _ => hexit, fun hne => absurd hentry hne⟩
  · have hc := hlater.read_eq ha
    have hc' := hlater'.read_eq fun hin => ha ((hcells a).mp hin)
    exact ⟨fun he => by rw [hc, hc', he], fun _ => ⟨hc, hc'⟩⟩

end PixelCall

/-! ## Strides -/

/-- The registers with other strides. -/
def DrawState.withStrides (s : DrawState) (fbStride depthStride : BitVec 16) : DrawState :=
  { s with fbStride := fbStride, depthStride := depthStride }

/-- What becomes of a fragment does not depend on how it was found. -/
theorem Features.outcome_standardStride (f : Features) (b : Bool) (p : Fragment) :
    { f with standardStride := b }.outcome p = f.outcome p := rfl

/-- A flag is all that the features have of the strides. -/
theorem Features.ofConfig_withStrides (c : Config) (s : DrawState) (fbStride depthStride : BitVec 16) :
    ofConfig c (s.withStrides fbStride depthStride) = { ofConfig c s with
      standardStride := (s.withStrides fbStride depthStride).hasStandardStride } := rfl

namespace PixelCall

variable {p q : PixelCall} {d : Draw}

/-- Under standard strides, the function that knows them and one that was compiled for
any other strides, and so loads the strides and multiplies, have the same effect,
whatever is drawn, wherever it is, and whatever is stored. -/
theorem Draws.addressing_agrees {fbStride depthStride : BitVec 16} (hp : p.Draws d)
    (hstandard : d.state.hasStandardStride = true)
    (hq : q.DrawsUnder d (d.state.withStrides fbStride depthStride)) : p.SameEffect q := by
  have haddresses := hp.finds.addresses_eq hq.toFinds id fun _ => hstandard
  refine hp.drawsUnder.sameEffect hq (.inl rfl) (.inl rfl) haddresses ?_
  rw [Features.ofConfig_withStrides, Features.outcome_standardStride]
  rfl

/-- A pixel in the second row, blended and tested for depth. -/
theorem addressing_agrees_blended : ∃ (p q : PixelCall) (d : Draw), p.Draws d ∧
    d.state.hasStandardStride = true ∧ q.DrawsUnder d (d.state.withStrides 256 512) ∧
      p.key.features.standardStride = true ∧ q.key.features.standardStride = false ∧
        p.SameEffect q := by
  let config : Config := { format := .rgb565, depthTest := some .less, depthWrite := true,
                           blend := some ⟨.add, .srcAlpha, .invSrcAlpha⟩ }
  let other : DrawState := DrawState.withStrides {} 256 512
  obtain ⟨cache, f, h⟩ := Drawing.exists_holds config {} 1024 0x12345678 9
  obtain ⟨cache', f', h'⟩ := Drawing.exists_holdsBy (Key.ofConfig config other)
    (.ofFeatures (.ofConfig config other)) {} 1024 0x12345678 9
  have hp := h.draws_seen ⟨3, 1, 7, 255, 0x80402010⟩
  have hq := h'.drawsAs ⟨3, 1, 7, 255, 0x80402010⟩ (fun hno => by cases hno)
  exact ⟨_, _, _, hp, rfl, hq, hp.finds.features ▸ rfl, hq.features ▸ rfl,
    hp.addressing_agrees rfl hq⟩

end PixelCall

end PixelPipeline
