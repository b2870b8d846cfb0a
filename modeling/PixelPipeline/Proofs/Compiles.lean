/-
# Proofs.Compiles — every pipeline compiles

All stages are walked through for what can fail: a role that is looked for is
bound, a role that is renamed has a free name, and at no point do more than nine
roles ask for the nine general registers.  The bytes of each stage are added up
along the way, so that every function fits into the size that is promised.
-/
import PixelPipeline.Proofs.Stages
import PixelPipeline.Proofs.Succeeds

namespace PixelPipeline

open X86 RoleTable Setting

namespace Compile

open Emit

variable {env : Env} {S U : Finset Role} {n : Nat}

/-! ## Addresses -/

/-- Other roles are bound as before. -/
def Alike (rs : List Role) (S S' : Finset Role) : Prop := ∀ r, r ∉ rs → (r ∈ S' ↔ r ∈ S)

namespace Alike

variable {rs : List Role} {S' S'' : Finset Role} {r old new : Role}

theorem refl (rs : List Role) (S : Finset Role) : Alike rs S S := fun _ _ => Iff.rfl

theorem trans (h : Alike rs S S') (h' : Alike rs S' S'') : Alike rs S S'' :=
  fun r hr => (h' r hr).trans (h r hr)

theorem mono {rs' : List Role} (h : Alike rs S S') (hsub : ∀ r ∈ rs, r ∈ rs') : Alike rs' S S' :=
  fun r hr => h r fun hm => hr (hsub r hm)

theorem erase (hr : r ∈ rs) : Alike rs S (S.erase r) := fun r' hn => by
  have hne : r' ≠ r := fun he => hn (he ▸ hr)
  simp [hne]

theorem insert (hr : r ∈ rs) : Alike rs S (Insert.insert r S) := fun r' hn => by
  have hne : r' ≠ r := fun he => hn (he ▸ hr)
  simp [hne]

theorem insert_erase (hnew : new ∈ rs) (hold : old ∈ rs) :
    Alike rs S (Insert.insert new (S.erase old)) :=
  (erase hold).trans (insert hnew)

end Alike

/-- The roles that are bound are among those of `U`, and each address is there or
can be computed: that of the pixel, that of its depth if `depth` asks for it,
and the coordinates themselves if `coordinates` does. -/
structure Placed (f : Features) (U : Finset Role) (depth coordinates : Prop) (S : Finset Role) :
    Prop where
  within : S ⊆ U
  color : .colorAddr ∈ S ∨ .argX ∈ S ∧ .argY ∈ S
  depth : depth → .depthAddr ∈ S ∨
    .argX ∈ S ∧ .argY ∈ S ∧ (fastAddress f = true → .colorAddr ∉ S)
  /-- The fast way finds no address of the depth before it makes one. -/
  fresh : fastAddress f = true → .colorAddr ∉ S → .depthAddr ∉ S
  coordinates : coordinates → .argX ∈ S ∧ .argY ∈ S

section

variable {depth coordinates : Prop} (hp : Placed env.features U depth coordinates S)

include hp

theorem Placed.alike {rs : List Role} {U' S' : Finset Role} (h : Alike rs S S') (hU : S' ⊆ U')
    (hrs : ∀ r ∈ placeRoles, r ∉ rs) : Placed env.features U' depth coordinates S' := by
  obtain ⟨-, hcolor, hdepth, hfresh, hcoords⟩ := hp
  have hx := h .argX (hrs _ (by decide))
  have hy := h .argY (hrs _ (by decide))
  have hc := h .colorAddr (hrs _ (by decide))
  have hd := h .depthAddr (hrs _ (by decide))
  constructor
  · exact hU
  · rwa [hc, hx, hy]
  · rwa [hd, hx, hy, hc]
  · rwa [hc, hd]
  · rwa [hx, hy]

theorem Placed.weaken {depth' coordinates' : Prop} (hd : depth' → depth)
    (hc : coordinates' → coordinates) : Placed env.features U depth' coordinates' S :=
  ⟨hp.within, hp.color, hp.depth ∘ hd, hp.fresh, hp.coordinates ∘ hc⟩

end

section

variable {Q : Unit → Finset Role → List Role → Nat → Prop}

theorem generalAddress_succeeds {dst : Reg} {strideAt baseAt : Nat} {shift : BitVec 8}
    (hx : .argX ∈ S) (hy : .argY ∈ S) (hroom : Spare S []) (h : Q () S [] n) :
    (generalAddress env dst strideAt baseAt shift).Succeeds S [] (n + 78) Q :=
  .bind (stateBase_succeeds hroom (by decide) fun _ => .bind (.findGen (by decide) rfl hx fun _ =>
    .bind (.findGen (by decide) rfl hy fun _ => .bind (.op rfl (.bind (.op rfl (.bind (.op rfl (.bind (.op rfl
      (.bind (.op rfl (.bind (.unlock (.bind (.unlock (.unlock_made rfl h)))))))))))))))))

end

section

variable {depth coordinates : Prop} {Q : Reg → Finset Role → List Role → Nat → Prop}
  (hp : Placed env.features U depth coordinates S) (hroom : (generals U).card < 9)
  (hcolor : .colorAddr ∈ U) (hdepth : .depthAddr ∈ U)
  (hd : depth → needsDepthAddr env.features = true)
  (hc : coordinates → env.features.dither = true)

include hp hroom hcolor hdepth hd hc

theorem fastColorAddr_succeeds (hfast : fastAddress env.features = true) (hno : .colorAddr ∉ S)
    (h : ∀ g S', Placed env.features U depth coordinates S' → .colorAddr ∈ S' →
      Alike placeRoles S S' → (needsDepthAddr env.features = true → .depthAddr ∈ S') →
      Q g S' [] n) : (fastColorAddr env).Succeeds S [] (n + 91) Q := by
  obtain ⟨hx, hy⟩ := hp.color.resolve_left hno
  have hdither : ¬coordinates := fun h => by
    have := hc h
    rw [fastAddress, this] at hfast
    simp at hfast
  refine .bind (.findGen (by decide) rfl hx fun x => .bind (.findGen (by decide) rfl hy fun y => ?_))
  refine .bind (.op rfl (.bind (.op rfl (.bind (.unlock (.bind (stateBase_succeeds
    (spare_of_subset hp.within hroom) (by decide) fun state => ?_)))))))
  extract_lets jp
  have tail (S₁ : Finset Role) (hwithin : S₁ ⊆ U) (hy₁ : .argY ∈ S₁) (hno₁ : .colorAddr ∉ S₁)
      (halike : Alike placeRoles S S₁)
      (hd₁ : needsDepthAddr env.features = true → .depthAddr ∈ S₁) :
      (jp ()).Succeeds S₁ [.stateBase] (n + 26) Q := by
    have hd₂ (hneed : needsDepthAddr env.features = true) :
        .depthAddr ∈ insert .colorAddr (S₁.erase .argY) :=
      Finset.mem_insert_of_mem (Finset.mem_erase.mpr ⟨by decide, hd₁ hneed⟩)
    refine .bind (.op rfl (.bind (.op rfl (.bind (.unlock_made rfl ?_)))))
    refine .bind (.rename hy₁ (by decide) hno₁ (by decide) rfl (by decide) ?_)
    refine .bind (.retain (by decide) (.pure (h y _ ?_ ?_ ?_ hd₂)))
    · refine ⟨?_, .inl (Finset.mem_insert_self _ _), fun hdep => .inl (hd₂ (hd hdep)), fun _ hn => ?_,
        fun hco => absurd hco hdither⟩
      · exact Finset.insert_subset hcolor ((Finset.erase_subset _ _).trans hwithin)
      · exact absurd (Finset.mem_insert_self _ _) hn
    · exact Finset.mem_insert_self _ _
    · exact halike.trans (.insert_erase (by decide) (by decide))
  split
  · refine .bind (.op rfl (.bind (.op rfl (.bind (.rename hx (by decide) (hp.fresh hfast hno) (by decide) rfl
      (by decide) ?_)))))
    refine .bind (.retain (by decide) (tail _ ?_ ?_ ?_ ?_ fun _ => ?_))
    · exact Finset.insert_subset hdepth ((Finset.erase_subset _ _).trans hp.within)
    · exact Finset.mem_insert_of_mem (Finset.mem_erase.mpr ⟨by decide, hy⟩)
    · simp [hno]
    · exact .insert_erase (by decide) (by decide)
    · exact Finset.mem_insert_self _ _
  · rename_i hneed
    refine .bind (.forceRelease (.mono (tail _ ?_ ?_ ?_ ?_ fun h => absurd h hneed) (by omega)))
    · exact (Finset.erase_subset _ _).trans hp.within
    · exact Finset.mem_erase.mpr ⟨by decide, hy⟩
    · simp [hno]
    · exact .erase (by decide)

theorem colorAddr_succeeds (h : ∀ g S', Placed env.features U depth coordinates S' →
      .colorAddr ∈ S' → Alike placeRoles S S' →
      (fastAddress env.features = true → .colorAddr ∉ S → needsDepthAddr env.features = true →
        .depthAddr ∈ S') → Q g S' [] n) : (colorAddr env).Succeeds S [] (n + 91) Q := by
  by_cases hin : .colorAddr ∈ S
  · refine .bind (.has_mem (by decide) hin (.mono (.findGen (by decide) rfl hin fun g => ?_)
      (Nat.le_add_right n 91)))
    exact h g S hp hin (.refl _ _) fun _ hn => absurd hin hn
  · refine .bind (.has_not_mem (by decide) hin ?_)
    show (if fastAddress env.features then _ else _ : Emit Reg).Succeeds _ _ _ _
    split
    · rename_i hfast
      exact fastColorAddr_succeeds hp hroom hcolor hdepth hd hc hfast hin
        fun g S' hp' hin' halike hd' => h g S' hp' hin' halike fun _ _ => hd'
    · rename_i hslow
      obtain ⟨hx, hy⟩ := hp.color.resolve_left hin
      have hwithin : insert .colorAddr S ⊆ U := Finset.insert_subset hcolor hp.within
      refine .bind (.allocLasting (by decide) rfl (spare_of_subset hp.within hroom) fun g => ?_)
      refine .mono (n := n + 78) (.bind (generalAddress_succeeds (Finset.mem_insert_of_mem hx)
        (Finset.mem_insert_of_mem hy) (spare_of_subset hwithin hroom) ?_)) (by omega)
      refine .bind (.retain (by decide) (.pure (h g _ ?_ (Finset.mem_insert_self _ _)
        (.insert (by decide)) fun hfast => absurd hfast hslow)))
      refine ⟨hwithin, .inl (Finset.mem_insert_self _ _), fun hdep => ?_, fun hfast => absurd hfast hslow,
        fun hco => ?_⟩
      · exact (hp.depth hdep).imp Finset.mem_insert_of_mem fun ⟨hx, hy, _⟩ =>
          ⟨Finset.mem_insert_of_mem hx, Finset.mem_insert_of_mem hy, fun hfast => absurd hfast hslow⟩
      · exact ⟨Finset.mem_insert_of_mem hx, Finset.mem_insert_of_mem hy⟩

theorem depthAddr_succeeds (hdep : depth) (h : ∀ g S', Placed env.features U depth coordinates S' →
      .depthAddr ∈ S' → Alike placeRoles S S' → Q g S' [] n) :
    (depthAddr env).Succeeds S [] (n + 91) Q := by
  by_cases hin : .depthAddr ∈ S
  · refine .bind (.has_mem (by decide) hin (.mono (.findGen (by decide) rfl hin fun g => ?_)
      (Nat.le_add_right n 91)))
    exact h g S hp hin (.refl _ _)
  · obtain ⟨hx, hy, hfar⟩ := (hp.depth hdep).resolve_left hin
    refine .bind (.has_not_mem (by decide) hin ?_)
    have general (hslow : ¬fastAddress env.features = true) : (do
        let r ← Emit.allocGen .depthAddr
        generalAddress env r DrawState.depthStrideAt DrawState.depthBaseAt 1
        Emit.retain .depthAddr
        Pure.pure r).Succeeds S [] (n + 91) Q := by
      have hwithin : insert .depthAddr S ⊆ U := Finset.insert_subset hdepth hp.within
      refine .bind (.allocLasting (by decide) rfl (spare_of_subset hp.within hroom) fun g => ?_)
      refine .mono (n := n + 78) (.bind (generalAddress_succeeds (Finset.mem_insert_of_mem hx)
        (Finset.mem_insert_of_mem hy) (spare_of_subset hwithin hroom) ?_)) (by omega)
      refine .bind (.retain (by decide) (.pure (h g _ ?_ (Finset.mem_insert_self _ _)
        (.insert (by decide)))))
      refine ⟨hwithin, hp.color.imp Finset.mem_insert_of_mem fun ⟨hx, hy⟩ =>
        ⟨Finset.mem_insert_of_mem hx, Finset.mem_insert_of_mem hy⟩,
        fun _ => .inl (Finset.mem_insert_self _ _), fun hfast => absurd hfast hslow, fun _ => ?_⟩
      exact ⟨Finset.mem_insert_of_mem hx, Finset.mem_insert_of_mem hy⟩
    by_cases hcin : .colorAddr ∈ S
    · refine .bind (.has_mem (by decide) hcin ?_)
      rw [Bool.not_true, Bool.and_false, if_neg Bool.false_ne_true]
      exact general fun hfast => hfar hfast hcin
    · refine .bind (.has_not_mem (by decide) hcin ?_)
      rw [Bool.not_false, Bool.and_true]
      split
      · rename_i hfast
        refine .bind (colorAddr_succeeds hp hroom hcolor hdepth hd hc fun _ S' hp' hcin' halike hd' => ?_)
        have hdin := hd' hfast hcin (hd hdep)
        exact .bind (.unlock (.findGen (by decide) rfl hdin fun g => h g S' hp' hdin halike))
      · rename_i hslow
        exact general hslow

end

/-! ## Tests of the arguments -/

/-- Roles that may be bound before the fog. -/
def entryRoles : Finset Role := {.argX, .argY, .argZ, .argFog, .argColor, .argKey, .vecColor}

/-- Roles that may be bound at the color test. -/
def colorRoles : Finset Role := {.argX, .argY, .argZ, .argKey, .vecColor}

section

variable {Q : Unit → Finset Role → List Role → Nat → Prop}

theorem depthRange_succeeds (hS : S ⊆ entryRoles) (hz : .argZ ∈ S)
    (h : ∀ S', S' ⊆ S → Alike [.argZ] S S' → (needsDepthAddr env.features = true → .argZ ∈ S') →
      Q () S' [] n) : (depthRange env).Succeeds S [] (n + 51) Q := by
  refine .bind (.mark ?_)
  extract_lets jp
  have tail : (jp ()).Succeeds S [] n Q := by
    show (if (!needsDepthAddr env.features) = true then _ else _ : Emit Unit).Succeeds _ _ _ _
    split
    · rename_i hno
      refine .forceRelease (h _ (Finset.erase_subset _ _) (.erase (by decide)) fun hneed => ?_)
      rw [hneed] at hno
      cases hno
    · exact .pure (h S (Finset.Subset.refl S) (.refl _ _) fun _ => hz)
  split
  · refine .bind (stateBase_succeeds (spare_of_subset hS (by decide)) (by decide) fun state => ?_)
    refine .bind (.findGen (by decide) rfl hz fun z => ?_)
    refine .bind (.op rfl (.bind (.leaveIf (.bind (.op rfl (.bind (.leaveIf ?_)))))))
    exact .bind (.unlock (.bind (.unlock_made rfl tail)))
  · exact tail.mono (Nat.le_add_right n 51)

theorem enterColor_succeeds (hc : .argColor ∈ S)
    (h : Q () ((insert .vecColor S).erase .argColor) [] n) : enterColor.Succeeds S [] (n + 13) Q :=
  .bind (.mark (.bind (.allocColor fun _ => .bind (.findGen (by decide) rfl
    (Finset.mem_insert_of_mem hc) fun _ => .bind (.op rfl (.bind (.forceRelease (.bind (.unlock
      (.setWide h))))))))))

theorem alphaTest_succeeds (hS : S ⊆ entryRoles) (hc : .vecColor ∈ S) (h : Q () S [] n) :
    (alphaTest env).Succeeds S [] (n + 71) Q := by
  refine .bind (.mark ?_)
  split
  · refine .bind (.findVec hc fun vec => ?_)
    refine .bind (.allocGen (by decide) rfl rfl (spare_of_subset hS (by decide)) fun alpha => ?_)
    refine .bind (.op rfl (.bind (.op rfl (.bind (.unlock ?_)))))
    extract_lets jp
    have tail : (jp ()).Succeeds S [.srcAlpha] (n + 19) Q :=
      .bind (.op rfl (.bind (.leaveIf (.release (by decide) h))))
    split
    · refine .bind (stateBase_succeeds (spare_of_subset hS (by decide)) (by decide) fun state => ?_)
      exact .bind (.op rfl (.bind (.unlock_made rfl tail)))
    · exact tail.mono (by omega)
  · split
    · exact .mono (.leave h) (by omega)
    · exact .mono (.pure h) (by omega)

theorem fog_succeeds (hS : S ⊆ entryRoles) (hc : .vecColor ∈ S) (hf : .argFog ∈ S)
    (h : Q () (S.erase .argFog) [] n) : (fog env).Succeeds S [] (n + 247) Q := by
  refine .bind (.mark ?_)
  split
  · refine .bind (.allocVec (by decide) rfl fun fogColor => ?_)
    refine .bind (stateBase_succeeds (spare_of_subset hS (by decide)) (by decide) fun state => ?_)
    refine .bind (.op rfl (.bind (.unlock_made rfl (.bind (widenBytes_succeeds ?_)))))
    refine .bind (loadConst_succeeds (by decide) rfl (spare_of_subset hS (by decide)) (by decide)
      fun rest => ?_)
    refine .bind (.findVec hc fun color => .bind (expandColor_succeeds ?_))
    refine .bind (.allocGen (by decide) rfl rfl (spare_of_subset hS (by decide)) fun alpha => ?_)
    refine .bind (.op rfl (.bind (.allocVec (by decide) rfl fun amount => ?_)))
    refine .bind (.findGen (by decide) rfl hf fun arg => ?_)
    refine .bind (.op rfl (.bind (.op rfl (.bind (.forceRelease ?_)))))
    refine .bind (.op rfl (.bind (.op rfl (.bind (.op rfl (.bind (.op rfl ?_)))))))
    refine .bind (.release (by decide) (.bind (.release (by decide) (.bind (.release (by decide) ?_)))))
    refine .bind (poolBase_succeeds (spare_of_subset ((Finset.erase_subset _ _).trans hS) (by decide))
      (by decide) fun pool => ?_)
    refine .bind (.op rfl (.bind (.unlock_made rfl (.bind (.op rfl (.bind (.op rfl ?_)))))))
    exact .bind (.release (by decide) (.unlock h))
  · exact .mono (.forceRelease h) (by omega)

theorem dispatchColorTest_succeeds {func reference masked : Reg} {T : List Role} (h : Q () S T n) :
    (dispatchColorTest func reference masked).Succeeds S T (n + 87) Q := by
  refine .bind (.op rfl (.bind (.leaveIf (.skipIf (.bind (.op rfl (.choose ?_)))))))
  exact .bind (.op rfl (.leaveIf (.bind (.op rfl (.leaveIf h)))))

theorem colorTest_succeeds (hS : S ⊆ colorRoles) (hc : .vecColor ∈ S) (h : Q () S [] n) :
    (colorTest env).Succeeds S [] (n + 204) Q := by
  refine .bind (.mark ?_)
  split
  · refine .bind (stateBase_succeeds (spare_of_subset hS (by decide)) (by decide) fun state => ?_)
    refine .bind (.allocGen (by decide) rfl rfl (spare_of_subset hS (by decide)) fun func => ?_)
    refine .bind (.allocGen (by decide) rfl rfl (spare_of_subset hS (by decide)) fun masked => ?_)
    refine .bind (.allocGen (by decide) rfl rfl (spare_of_subset hS (by decide)) fun reference => ?_)
    refine .bind (.op rfl (.bind (.op rfl (.bind (.op rfl (.bind (.op rfl ?_)))))))
    refine .bind (.findVec hc fun vec => .bind (packColor_succeeds ?_))
    refine .bind (.op rfl (.bind (.op rfl (.bind (.unlock (.bind (.op rfl (.bind (.unlock_made rfl ?_)))))))))
    refine .bind (dispatchColorTest_succeeds ?_)
    exact .bind (.release (by decide) (.bind (.release (by decide) (.release (by decide) h))))
  · exact .mono (.pure h) (by omega)

end

/-! ## Stencil updates -/

section

variable {T : List Role} {Q : Unit → Finset Role → List Role → Nat → Prop}

theorem updateStencil_succeeds {action : StencilAction} {st : Reg} (hroom : Spare S [])
    (h : Q () S [] n) : (updateStencil env action st).Succeeds S [] (n + 32) Q := by
  cases action with
  | keep => exact .mono (.pure h) (by omega)
  | zero | invert => exact .mono (.op rfl h) (by omega)
  | replace =>
    show (if env.features.stencilMasked then _ else _ : Emit Unit).Succeeds _ _ _ _
    split
    · exact .mono (n := n + 26) (.bind (stateBase_succeeds hroom (by decide) fun _ =>
        .bind (.op rfl (.unlock_made rfl h)))) (by omega)
    · exact .mono (.op rfl h) (by omega)
  | increment =>
    show (incrementStencil env.features.format st).Succeeds _ _ _ _
    cases env.features.format with
    | rgb565 => exact .mono (.pure h) (by omega)
    | rgba5551 => exact .mono (.op rfl h) (by omega)
    | rgba4444 | rgba8888 => exact .bind (.op rfl (.skipIf (.op rfl h)))
  | decrement =>
    show (decrementStencil env.features.format st).Succeeds _ _ _ _
    cases env.features.format with
    | rgb565 => exact .mono (.pure h) (by omega)
    | rgba5551 => exact .mono (.op rfl h) (by omega)
    | rgba4444 | rgba8888 => exact .bind (.op rfl (.skipIf (.op rfl h)))

theorem storeStencilMasked_succeeds {addr st : Reg} {offset : Nat} {colorBits : BitVec 8}
    (hroom : Spare S []) (hroom' : Spare S [.gen5]) (h : Q () S [] n) :
    (storeStencilMasked env addr st offset colorBits).Succeeds S [] (n + 104) Q := by
  refine .bind (.allocGen (by decide) rfl rfl hroom fun mask => ?_)
  refine .bind (stateBase_succeeds hroom' (by decide) fun state => ?_)
  refine .bind (.op rfl (.bind (.unlock_made rfl ?_)))
  extract_lets jp
  have tail : (jp ()).Succeeds S [.gen5] (n + 65) Q :=
    .bind (.op rfl (.bind (.op rfl (.bind (.op rfl (.bind (.op rfl (.bind (.op rfl (.release (by decide) h))))))))))
  split
  · exact .bind (.op rfl tail)
  · exact tail.mono (by omega)

theorem storeStencilPlain_succeeds {addr st : Reg} {offset : Nat} {colorBits : BitVec 8}
    (h : Q () S [] n) : (storeStencilPlain addr st offset colorBits).Succeeds S [] (n + 39) Q := by
  unfold storeStencilPlain
  split
  · exact .bind (.op rfl (.bind (.op rfl (.op rfl h))))
  · exact .mono (.op rfl h) (by omega)

section

variable {depth coordinates : Prop} (hp : Placed env.features U depth coordinates S)
  (hroom : (generals U).card < 8) (hcolor : .colorAddr ∈ U) (hdepth : .depthAddr ∈ U)
  (hd : depth → needsDepthAddr env.features = true)
  (hc : coordinates → env.features.dither = true)

include hp hroom hcolor hdepth hd hc

theorem writeStencilOnly_succeeds {st : Reg} (h : ∀ S', Placed env.features U depth coordinates S' →
      Alike placeRoles S S' → Q () S' [] n) :
    (writeStencilOnly env st).Succeeds S [] (n + 195) Q := by
  refine .bind (.mark ?_)
  split
  · refine .bind (colorAddr_succeeds hp (by omega) hcolor hdepth hd hc fun addr S' hp' _ halike _ => ?_)
    split
    · refine .bind (storeStencilMasked_succeeds (spare_of_subset hp'.within ?_)
        (spare_of_subset hp'.within ?_) (.unlock (h S' hp' halike))) <;>
        simp only [List.length_cons, List.length_nil] <;> omega
    · exact .mono (.bind (storeStencilPlain_succeeds (.unlock (h S' hp' halike)))) (by omega)
  · exact .mono (.pure (h S hp (.refl _ _))) (by omega)

/-- The path of a pixel that fails a test. -/
theorem failStencil_succeeds {action : StencilAction} (hst : .stencil ∈ S) (h : Q () S [] n) :
    (failStencil env action).Succeeds S [] (n + 232) Q := by
  refine .diverging ?_
  extract_lets jp
  split
  · refine .bind (.findGen (by decide) rfl hst fun st => .bind (updateStencil_succeeds
      (spare_of_subset hp.within ?_) (.bind (writeStencilOnly_succeeds hp hroom hcolor hdepth hd hc
        fun S' _ _ => .leave h))))
    simp only [List.length_nil]
    omega
  · exact .mono (.leave h) (by omega)

end

end

/-! ## Stencil and depth tests -/

/-- Roles that may be bound at the tests of stored values. -/
def testRoles : Finset Role :=
  {.argX, .argY, .argZ, .argKey, .colorAddr, .depthAddr, .stencil, .vecColor}

/-- Roles that may be bound behind the tests. -/
def writeRoles : Finset Role :=
  {.argX, .argY, .argKey, .colorAddr, .depthAddr, .stencil, .vecColor}

section

variable {Q : Unit → Finset Role → List Role → Nat → Prop}

theorem compareStencil_succeeds {st : Reg} (hS : S ⊆ testRoles)
    (h : Q () S [] n) :
    (compareStencil env st).Succeeds S [] (n + 52) Q := by
  unfold compareStencil
  extract_lets reference
  split
  · refine .bind (.allocGen (by decide) rfl rfl (spare_of_subset hS (by decide)) fun m => ?_)
    refine .bind (stateBase_succeeds (spare_of_subset hS (by decide)) (by decide) fun state => ?_)
    refine .bind (.op rfl (.bind (.unlock_made rfl (.bind (.op rfl (.bind (.op rfl ?_)))))))
    exact .release (by decide) h
  · exact .mono (.op rfl h) (by omega)

theorem dropDepthArg_succeeds (hz : needsDepthAddr env.features = true → .argZ ∈ S)
    (h : ∀ S', S' ⊆ S → Alike [.argZ] S S' →
      (env.features.depthWrite = true → .argZ ∈ S') → Q () S' [] n) :
    (dropDepthArg env).Succeeds S [] n Q := by
  unfold dropDepthArg
  split
  · rename_i hno
    refine .forceRelease (h _ (Finset.erase_subset _ _) (.erase (by decide)) fun hon => ?_)
    rw [hon] at hno
    cases hno
  · rename_i hon
    refine .pure (h S (Finset.Subset.refl S) (.refl _ _) fun hon => hz ?_)
    rw [needsDepthAddr, hon, Bool.true_or]

end

section

variable {coordinates : Prop}
  (hp : Placed env.features testRoles (needsDepthAddr env.features = true) coordinates S)
  (hc : coordinates → env.features.dither = true)

include hp hc

theorem storedStencil_succeeds {Q : Option Reg → Finset Role → List Role → Nat → Prop}
    (hnone : Q none S [] n)
    (h : ∀ g S', Placed env.features testRoles (needsDepthAddr env.features = true) coordinates S' →
      .stencil ∈ S' → Alike (.stencil :: placeRoles) S S' → Q (some g) S' [] n) :
    (storedStencil env).Succeeds S [] (n + 156) Q := by
  unfold storedStencil
  split
  · exact .mono (.pure hnone) (by omega)
  · refine .bind (colorAddr_succeeds hp (by decide) (by decide) (by decide) id hc
      fun addr S₁ hp₁ _ halike _ => ?_)
    refine .bind (.allocLasting (by decide) rfl (spare_of_subset hp₁.within (by decide)) fun st => ?_)
    extract_lets jp
    have hwithin : insert .stencil S₁ ⊆ testRoles :=
      Finset.insert_subset (by decide) hp₁.within
    have tail : (jp ()).Succeeds (insert .stencil S₁) [] n Q :=
      .bind (.unlock (.bind (.retain (by decide) (.pure (h st _
        (hp₁.alike (.insert (List.mem_singleton_self _)) hwithin (by decide))
        (Finset.mem_insert_self _ _)
        ((halike.mono (by decide)).trans (.insert (by decide))))))))
    split
    · exact .mono (.bind (.op rfl tail)) (by omega)
    · exact .mono (n := n + 39) (.bind (.op rfl (.bind (.op rfl (.bind (.op rfl tail)))))) (by omega)
    · refine .bind (.op rfl (.bind (.op rfl (.bind (.allocGen (by decide) rfl rfl
        (spare_of_subset hwithin (by decide)) fun t => ?_)))))
      exact .bind (.op rfl (.bind (.op rfl (.bind (.op rfl (.bind (.release (by decide) tail)))))))
    · exact tail.mono (by omega)

section

variable {Q : Unit → Finset Role → List Role → Nat → Prop}

theorem stencilTest_succeeds {st : Reg} (hst : .stencil ∈ S) (h : Q () S [] n) :
    (stencilTest env st).Succeeds S [] (n + 290) Q := by
  have hfail {m : Nat} (h : Q () S [] m) :
      (failStencil env env.features.stencilFail).Succeeds S [] (m + 232) Q :=
    failStencil_succeeds hp (by decide) (by decide) (by decide) id hc hst h
  unfold stencilTest
  split
  · exact .mono (hfail h) (by omega)
  · split
    · exact .mono (.pure h) (by omega)
    · exact .bind (compareStencil_succeeds hp.within (.skipIf (hfail h)))

end

variable (hz : needsDepthAddr env.features = true → .argZ ∈ S)

include hz

theorem compareDepth_succeeds {Q : Option Cond → Finset Role → List Role → Nat → Prop}
    (h : ∀ p S', Placed env.features testRoles (needsDepthAddr env.features = true) coordinates S' →
      Alike placeRoles S S' → Q p S' [] n) :
    (compareDepth env).Succeeds S [] (n + 104) Q := by
  unfold compareDepth
  split
  · exact .mono (.pure (h _ S hp (.refl _ _))) (by omega)
  · rename_i pass hpass
    have hneed : needsDepthAddr env.features = true := by
      rw [needsDepthAddr, compares_of_passCond hpass, Bool.or_true]
    refine .bind (depthAddr_succeeds hp (by decide) (by decide) (by decide) id hc hneed
      fun depth S' hp' _ halike => ?_)
    refine .bind (.findGen (by decide) rfl ((halike .argZ (by decide)).mpr (hz hneed)) fun z => ?_)
    exact .bind (.op rfl (.bind (.unlock (.bind (.unlock (.pure (h _ S' hp' halike)))))))

variable {Q : Unit → Finset Role → List Role → Nat → Prop}

theorem depthTest_succeeds (h : ∀ S',
      Placed env.features testRoles (needsDepthAddr env.features = true) coordinates S' →
      Alike (.argZ :: placeRoles) S S' → (env.features.depthWrite = true → .argZ ∈ S') →
      Q () S' [] n) : (depthTest env).Succeeds S [] (n + 110) Q := by
  have drop {S₁ : Finset Role}
      (hp₁ : Placed env.features testRoles (needsDepthAddr env.features = true) coordinates S₁)
      (halike : Alike placeRoles S S₁) : (dropDepthArg env).Succeeds S₁ [] n Q :=
    dropDepthArg_succeeds (fun hneed => (halike .argZ (by decide)).mpr (hz hneed))
      fun S₂ hsub halike₂ hz₂ => h S₂ (hp₁.alike halike₂ (hsub.trans hp₁.within) (by decide))
        ((halike.mono (by decide)).trans (halike₂.mono (by decide))) hz₂
  refine .bind (.mark ?_)
  split
  · exact .mono (.bind (.leave (drop hp (.refl _ _)))) (by omega)
  · refine .bind (compareDepth_succeeds (n := n + 6) hp hc hz fun p S₁ hp₁ halike => ?_)
    split
    · exact .bind (.leaveIf (drop hp₁ halike))
    · exact .mono (n := n) (drop hp₁ halike) (by omega)

theorem depthTestUpdating_succeeds (hst : .stencil ∈ S) (h : ∀ S',
      Placed env.features testRoles (needsDepthAddr env.features = true) coordinates S' →
      Alike (.argZ :: placeRoles) S S' → (env.features.depthWrite = true → .argZ ∈ S') →
      Q () S' [] n) : (depthTestUpdating env).Succeeds S [] (n + 342) Q := by
  have drop {S₁ : Finset Role}
      (hp₁ : Placed env.features testRoles (needsDepthAddr env.features = true) coordinates S₁)
      (halike : Alike placeRoles S S₁) : (dropDepthArg env).Succeeds S₁ [] n Q :=
    dropDepthArg_succeeds (fun hneed => (halike .argZ (by decide)).mpr (hz hneed))
      fun S₂ hsub halike₂ hz₂ => h S₂ (hp₁.alike halike₂ (hsub.trans hp₁.within) (by decide))
        ((halike.mono (by decide)).trans (halike₂.mono (by decide))) hz₂
  refine .bind (.mark ?_)
  split
  · refine .mono (n := n + 232) (.bind (failStencil_succeeds hp (by decide) (by decide) (by decide) id hc
      hst (drop hp (.refl _ _)))) (by omega)
  · refine .bind (compareDepth_succeeds (n := n + 238) hp hc hz fun p S₁ hp₁ halike => ?_)
    have hst₁ := (halike .stencil (by decide)).mpr hst
    split
    · exact .mono (n := n) (drop hp₁ halike) (by omega)
    · exact .bind (.skipIf (failStencil_succeeds hp₁ (by decide) (by decide) (by decide) id hc hst₁
        (drop hp₁ halike)))

theorem stencilAndDepthTest_succeeds (h : ∀ S',
      Placed env.features testRoles (needsDepthAddr env.features = true) coordinates S' →
      Alike testedRoles S S' → (env.features.depthWrite = true → .argZ ∈ S') →
      Q () S' [] n) : (stencilAndDepthTest env).Succeeds S [] (n + 820) Q := by
  refine .bind (.mark (.bind (storedStencil_succeeds (n := n + 664) hp hc ?_
    fun st S₁ hp₁ hst₁ halike₁ => ?_)))
  · have hdepth : (depthTest env).Succeeds S [] (n + 110) Q :=
      depthTest_succeeds hp hc hz fun S' hp' halike hz' => h S' hp' (halike.mono (by decide)) hz'
    dsimp only
    split
    · exact .mono (n := n + 115) (.bind (.leave hdepth)) (by omega)
    · exact hdepth.mono (by omega)
  · have hz₁ (hneed : needsDepthAddr env.features = true) : .argZ ∈ S₁ :=
      (halike₁ .argZ (by decide)).mpr (hz hneed)
    refine .bind (stencilTest_succeeds hp₁ hc hst₁ ?_)
    refine .bind (depthTestUpdating_succeeds hp₁ hc hz₁ hst₁ fun S₂ hp₂ halike₂ hz₂ => ?_)
    have hst₂ := (halike₂ .stencil (by decide)).mpr hst₁
    refine .bind (.mark (.bind (.findGen (by decide) rfl hst₂ fun g => ?_)))
    refine .bind (updateStencil_succeeds (spare_of_subset hp₂.within (by decide)) ?_)
    exact .bind (.unlock (.unlock (h S₂ hp₂
      ((halike₁.mono (by decide)).trans (halike₂.mono (by decide))) hz₂)))

theorem storedTests_succeeds (h : ∀ S',
      Placed env.features testRoles (needsDepthAddr env.features = true) coordinates S' →
      Alike testedRoles S S' → (env.features.depthWrite = true → .argZ ∈ S') →
      Q () S' [] n) : (storedTests env).Succeeds S [] (n + 820) Q := by
  unfold storedTests
  split
  · exact stencilAndDepthTest_succeeds hp hc hz h
  · exact .mono (depthTest_succeeds hp hc hz fun S' hp' halike hz' =>
      h S' hp' (halike.mono (by decide)) hz') (by omega)

end

theorem writeDepth_succeeds {coordinates : Prop} {Q : Unit → Finset Role → List Role → Nat → Prop}
    (hp : Placed env.features testRoles (needsDepthAddr env.features = true) coordinates S)
    (hc : coordinates → env.features.dither = true) (hz : env.features.depthWrite = true → .argZ ∈ S)
    (h : ∀ S', Placed env.features writeRoles False coordinates S' →
      Alike (.argZ :: placeRoles) S S' → Q () S' [] n) :
    (writeDepth env).Succeeds S [] (n + 104) Q := by
  refine .bind (.mark ?_)
  extract_lets jp
  have tail {S₁ : Finset Role} (hp₁ : Placed env.features testRoles False coordinates S₁)
      (halike : Alike placeRoles S S₁) : (jp ()).Succeeds S₁ [] n Q := by
    refine .bind (.forceRelease (.forceRelease (h _ ⟨?_, ?_, nofun, fun _ _ => ?_, fun hco => ?_⟩ ?_)))
    · calc (S₁.erase .argZ).erase .depthAddr
        _ ⊆ S₁.erase .argZ := Finset.erase_subset _ _
        _ ⊆ testRoles.erase .argZ := Finset.erase_subset_erase _ hp₁.within
        _ ⊆ writeRoles := by decide
    · simpa using hp₁.color
    · exact Finset.notMem_erase _ _
    · simpa using hp₁.coordinates hco
    · exact (halike.mono (by decide)).trans
        ((Alike.erase (by decide)).trans (.erase (by decide)))
  split
  · rename_i hon
    have hneed : needsDepthAddr env.features = true := by
      rw [needsDepthAddr, show env.features.depthWrite = true from hon, Bool.true_or]
    refine .bind (depthAddr_succeeds hp (by decide) (by decide) (by decide) id hc hneed
      fun depth S₁ hp₁ _ halike => ?_)
    refine .bind (.findGen (by decide) rfl ((halike .argZ (by decide)).mpr (hz hon)) fun z => ?_)
    exact .bind (.op rfl (tail (hp₁.weaken nofun id) halike))
  · exact .mono (tail (hp.weaken nofun id) (.refl _ _)) (by omega)

/-! ## Blend -/

theorem length_widen_le (f : PixelFormat) (color t₁ t₂ : Reg) (keepAlpha : Bool) :
    (Conversion.widen f color t₁ t₂ keepAlpha).length ≤ 20 := by
  cases f <;> cases keepAlpha <;> exact Nat.le_of_ble_eq_true rfl

theorem any_isReturn_widen (f : PixelFormat) (color t₁ t₂ : Reg) (keepAlpha : Bool) :
    (Conversion.widen f color t₁ t₂ keepAlpha).any (·.isReturn) = false := by
  cases f <;> cases keepAlpha <;> rfl

theorem length_narrow_le (f : PixelFormat) (color t₁ t₂ : Reg) (keepAlpha : Bool) :
    (Conversion.narrow f color t₁ t₂ keepAlpha).length ≤ 14 := by
  cases f <;> cases keepAlpha <;> exact Nat.le_of_ble_eq_true rfl

theorem any_isReturn_narrow (f : PixelFormat) (color t₁ t₂ : Reg) (keepAlpha : Bool) :
    (Conversion.narrow f color t₁ t₂ keepAlpha).any (·.isReturn) = false := by
  cases f <;> cases keepAlpha <;> rfl

theorem loadStoredColor_succeeds {keepAlpha : Bool}
    {Q : Xmm → Finset Role → List Role → Nat → Prop}
    (hp : Placed env.features writeRoles False (env.features.dither = true) S)
    (h : ∀ x S', Placed env.features writeRoles False (env.features.dither = true) S' →
      Alike placeRoles S S' → Q x S' [] n) :
    (loadStoredColor env keepAlpha).Succeeds S [] (n + 377) Q := by
  refine .bind (colorAddr_succeeds hp (by decide) (by decide) (by decide) nofun id
    fun addr S₁ hp₁ hin₁ halike₁ _ => ?_)
  extract_lets jp
  have tail (S₂ : Finset Role)
      (hp₂ : Placed env.features writeRoles False (env.features.dither = true) S₂)
      (halike : Alike placeRoles S S₂) : (jp ()).Succeeds S₂ [] (n + 286) Q := by
    refine .bind (.allocVec (by decide) rfl fun dst => ?_)
    extract_lets jp'
    have last : (jp' ()).Succeeds S₂ [] n Q := .bind (.unlock (.pure (h dst S₂ hp₂ halike)))
    split
    · exact .mono (.bind (.op rfl last)) (by omega)
    · refine .bind (.allocGen (by decide) rfl rfl (spare_of_subset hp₂.within (by decide)) fun pixel => ?_)
      refine .bind (.allocGen (by decide) rfl rfl (spare_of_subset hp₂.within (by decide)) fun t₁ => ?_)
      refine .bind (.allocGen (by decide) rfl rfl (spare_of_subset hp₂.within (by decide)) fun t₂ => ?_)
      have hlen := length_widen_le env.features.format pixel t₁ t₂ keepAlpha
      refine .bind (.op rfl (.bind (.mono (.ops (any_isReturn_widen _ _ _ _ _) ?_)
        (Nat.add_le_add_left (Nat.mul_le_mul_left 13 hlen) _))))
      refine .bind (.op rfl (.bind (.release (by decide) (.bind (.release (by decide) (.bind
        (.release (by decide) last)))))))
  split
  · rename_i hoff
    refine .bind (.forceRelease (.bind (.forceRelease (tail _ ?_ ?_))))
    · refine ⟨?_, .inl ?_, nofun, fun _ hn => absurd ?_ hn, fun hon => ?_⟩
      · exact (Finset.erase_subset _ _).trans ((Finset.erase_subset _ _).trans hp₁.within)
      · simpa using hin₁
      · simpa using hin₁
      · rw [hon] at hoff
        cases hoff
    · exact halike₁.trans ((Alike.erase (by decide)).trans (.erase (by decide)))
  · exact tail S₁ hp₁ halike₁

section

variable (hS : S ⊆ writeRoles)

include hS

theorem factorValue_succeeds {factor : BlendFactor} {v color dst : Xmm} {forDst : Bool}
    {Q : Unit → Finset Role → List Role → Nat → Prop} (h : Q () S [] n) :
    (factorValue env factor v color dst forDst).Succeeds S [] (n + 65) Q := by
  cases factor with
  | fixed =>
    refine .bind (stateBase_succeeds (spare_of_subset hS (by decide)) (by decide) fun state => ?_)
    exact .bind (.op rfl (.bind (.unlock_made rfl (.bind (widenBytes_succeeds (.op rfl h))))))
  | one => exact .mono (n := n + 39) (.bind (.op rfl (.bind (.op rfl (.op rfl h))))) (by omega)
  | _ => exact .mono (.op rfl h) (by omega)

theorem blendFactor_succeeds {role : Role} {factor : BlendFactor} {color dst : Xmm} {forDst : Bool}
    {Q : Xmm → Finset Role → List Role → Nat → Prop} (hl : role ∉ Role.lasting)
    (hf : role.file = .vector) (h : ∀ x, Q x S [] n) :
    (blendFactor env role factor color dst forDst).Succeeds S [] (n + 117) Q := by
  refine .bind (.allocVec hl hf fun r => ?_)
  split
  · refine .bind (.allocVec (by decide) rfl fun v => .bind (factorValue_succeeds hS ?_))
    extract_lets jp jp'
    have tail : (jp' ()).Succeeds S [] (n + 39) Q := by
      refine .bind (poolBase_succeeds (spare_of_subset hS (by decide)) (by decide) fun pool => ?_)
      exact .bind (.op rfl (.bind (.unlock_made rfl (.bind (.op rfl (.bind (.release (by decide)
        (.pure (h r)))))))))
    split
    · exact .bind (.op rfl tail)
    · exact tail.mono (by omega)
  · refine .bind (.pure (.bind (factorValue_succeeds hS ?_)))
    extract_lets jp jp'
    have tail : (jp' ()).Succeeds S [] n Q := .pure (h r)
    split
    · exact .mono (n := n + 13) (.bind (.op rfl tail)) (by omega)
    · exact tail.mono (by omega)

theorem dstFactor_succeeds {plan : BlendPlan} {srcFactor : Option Xmm} {color dst : Xmm}
    {Q : Option Xmm → Finset Role → List Role → Nat → Prop} (h : ∀ x, Q x S [] n) :
    (dstFactor env plan srcFactor color dst).Succeeds S [] (n + 117) Q := by
  unfold dstFactor
  split
  · exact .mono (.pure (h none)) (by omega)
  · split
    · refine .mono (n := n + 39) (.bind (loadConst_succeeds (by decide) rfl
        (spare_of_subset hS (by decide)) (by decide) fun df => ?_)) (by omega)
      exact .bind (.op rfl (.pure (h (some df))))
    · exact .bind (blendFactor_succeeds hS (by decide) rfl fun x => .pure (h (some x)))

omit hS in
theorem scaleBy_succeeds {half color : Xmm} {factor : Option Xmm}
    {Q : Unit → Finset Role → List Role → Nat → Prop} (h : Q () S [] n) :
    (scaleBy half color factor).Succeeds S [] (n + 39) Q := by
  cases factor with
  | none => exact .mono (.pure h) (by omega)
  | some f => exact .bind (.op rfl (.bind (.op rfl (.op rfl h))))

variable {Q : Unit → Finset Role → List Role → Nat → Prop}

theorem scaleColors_succeeds {plan : BlendPlan} {color dst : Xmm} (h : Q () S [] n) :
    (scaleColors env plan color dst).Succeeds S [] (n + 338) Q := by
  have rest (sf : Option Xmm) : (do
      let df ← dstFactor env plan sf color dst
      if sf.isSome || df.isSome then
        let half ← loadConst env .vec3 VectorPool.halfAt
        scaleBy half color sf
        scaleBy half dst df
        Emit.release .vec3
        Emit.release .vec2
        Emit.release .vec1).Succeeds S [] (n + 221) Q := by
    refine .bind (dstFactor_succeeds hS fun df => ?_)
    split
    · refine .bind (loadConst_succeeds (by decide) rfl (spare_of_subset hS (by decide)) (by decide)
        fun half => ?_)
      refine .bind (scaleBy_succeeds (.bind (scaleBy_succeeds ?_)))
      exact .bind (.release (by decide) (.bind (.release (by decide) (.release (by decide) h))))
    · exact .mono (.pure h) (by omega)
  unfold scaleColors
  split
  · exact .bind (blendFactor_succeeds hS (by decide) rfl fun x => .bind (.pure (rest (some x))))
  · exact .mono (n := n + 221) (.bind (.pure (rest none))) (by omega)

omit hS in
theorem trivialSrc_succeeds {plan : BlendPlan} {factor : BlendFactor} {color : Xmm}
    (h : Q () S [] n) : (trivialSrc plan factor color).Succeeds S [] (n + 26) Q := by
  unfold trivialSrc
  extract_lets jp
  have tail : (jp ()).Succeeds S [] (n + 13) Q := by
    show (if _ then _ else _ : Emit Unit).Succeeds _ _ _ _
    split
    · exact .op rfl h
    · exact .mono (.pure h) (by omega)
  split
  · exact .bind (.op rfl tail)
  · exact tail.mono (by omega)

omit hS in
theorem trivialDst_succeeds {plan : BlendPlan} {equation : BlendEquation} {factor : BlendFactor}
    {dst : Xmm} (h : Q () S [] n) :
    (trivialDst plan equation factor dst).Succeeds S [] (n + 26) Q := by
  unfold trivialDst
  extract_lets jp
  have tail : (jp ()).Succeeds S [] (n + 13) Q := by
    show (if _ then _ else _ : Emit Unit).Succeeds _ _ _ _
    split
    · exact .op rfl h
    · exact .mono (.pure h) (by omega)
  split
  · exact .bind (.op rfl tail)
  · exact tail.mono (by omega)

omit hS in
theorem joinColors_succeeds {equation : BlendEquation} {dstIsZero : Bool} {color dst : Xmm}
    (h : Q () S [] n) : (joinColors equation dstIsZero color dst).Succeeds S [] (n + 26) Q := by
  unfold joinColors
  split
  · exact .mono (.op rfl h) (by omega)
  · exact .mono (.op rfl h) (by omega)
  · exact .bind (.op rfl (.op rfl h))
  · exact .mono (.pure h) (by omega)

theorem blendWithFactors_succeeds {plan : BlendPlan} {color dst : Xmm} (h : Q () S [] n) :
    (blendWithFactors env plan color dst).Succeeds S [] (n + 494) Q := by
  refine .bind (expandColor_succeeds (.bind (widenBytes_succeeds ?_)))
  extract_lets jp jp'
  have scaled : (jp ()).Succeeds S [] (n + 416) Q := by
    exact .bind (scaleColors_succeeds hS (.bind (trivialSrc_succeeds (.bind (trivialDst_succeeds
      (joinColors_succeeds h))))))
  have shifted : (jp' ()).Succeeds S [] (n + 429) Q := by
    show (if _ then _ else _ : Emit Unit).Succeeds _ _ _ _
    split
    · exact .bind (.op rfl scaled)
    · exact scaled.mono (by omega)
  split
  · exact .bind (.op rfl shifted)
  · exact shifted.mono (by omega)

omit hS in
theorem blendBytes_succeeds {equation : BlendEquation} {color dst : Xmm} (h : Q () S [] n) :
    (blendBytes equation color dst).Succeeds S [] (n + 65) Q := by
  refine .bind (packColor_succeeds ?_)
  split
  · exact .mono (.op rfl h) (by omega)
  · exact .mono (.op rfl h) (by omega)
  · exact .bind (.allocVec (by decide) rfl fun tmp => .bind (.op rfl (.bind (.op rfl (.bind (.op rfl (.bind (.op rfl
      (.release (by decide) h)))))))))
  · exact .mono (.pure h) (by omega)

end

theorem blendBy_succeeds {plan : BlendPlan} {Q : Unit → Finset Role → List Role → Nat → Prop}
    (hp : Placed env.features writeRoles False (env.features.dither = true) S) (hc : .vecColor ∈ S)
    (h : ∀ S', Placed env.features writeRoles False (env.features.dither = true) S' →
      Alike placeRoles S S' → Q () S' [] n) :
    (blendBy env plan).Succeeds S [] (n + 871) Q := by
  refine .bind (.mark ?_)
  split
  · refine .bind (loadStoredColor_succeeds hp fun dst S₁ hp₁ halike => ?_)
    refine .bind (.findVec ((halike .vecColor (by decide)).mpr hc) fun color => ?_)
    extract_lets jp
    have last : (jp ()).Succeeds S₁ [] n Q :=
      .bind (.release (by decide) (.unlock (h S₁ hp₁ halike)))
    split
    · exact .bind (blendWithFactors_succeeds hp₁.within last)
    · exact .mono (.bind (blendBytes_succeeds last)) (by omega)
  · exact .mono (.pure (h S hp (.refl _ _))) (by omega)

/-! ## Dither -/

theorem addDither_succeeds {Q : Unit → Finset Role → List Role → Nat → Prop}
    (hp : Placed env.features writeRoles False True S) (hon : env.features.dither = true)
    (hc : .vecColor ∈ S) (hkey : .argKey ∈ S)
    (h : ∀ S', Placed env.features writeRoles False False S' → Alike placeRoles S S' →
      Q () S' [] n) : (addDither env).Succeeds S [] (n + 247) Q := by
  refine .bind (colorAddr_succeeds hp (by decide) (by decide) (by decide) nofun (fun _ => hon)
    fun _ S₁ hp₁ hin₁ halike₁ _ => .bind (.unlock ?_))
  obtain ⟨hx, hy⟩ := hp₁.coordinates trivial
  have hkey₁ := (halike₁ .argKey (by decide)).mpr hkey
  have hc₁ := (halike₁ .vecColor (by decide)).mpr hc
  refine .bind (.findGen (by decide) rfl hx fun x => .bind (.findGen (by decide) rfl hy fun y => ?_))
  refine .bind (.findGen (by decide) rfl hkey₁ fun key => ?_)
  refine .bind (.allocGen (by decide) rfl rfl (spare_of_subset hp₁.within (by decide)) fun value => ?_)
  refine .bind (.allocGen (by decide) rfl rfl (spare_of_subset hp₁.within (by decide)) fun column => ?_)
  refine .bind (.op rfl (.bind (.op rfl (.bind (.op rfl (.bind (.op rfl ?_)))))))
  refine .bind (.op rfl (.bind (.op rfl (.bind (.op rfl (.bind (.release (by decide) (.bind (.unlock ?_)))))))))
  refine .bind (.forceRelease (.bind (.forceRelease ?_)))
  refine .bind (.allocVec (by decide) rfl fun bias => ?_)
  refine .bind (.op rfl (.bind (.release (by decide) (.bind (.op rfl ?_)))))
  refine .bind (.findVec (by simpa using hc₁) fun color => .bind (expandColor_succeeds ?_))
  refine .bind (.op rfl (.bind (.release (by decide) (.unlock (h _ ⟨?_, .inl ?_, nofun, fun _ hn => ?_, nofun⟩
    ?_)))))
  · exact (Finset.erase_subset _ _).trans ((Finset.erase_subset _ _).trans hp₁.within)
  · simpa using hin₁
  · exact absurd (by simpa using hin₁) hn
  · exact halike₁.trans ((Alike.erase (by decide)).trans (.erase (by decide)))

theorem dither_succeeds {Q : Unit → Finset Role → List Role → Nat → Prop}
    (hp : Placed env.features writeRoles False (env.features.dither = true) S) (hc : .vecColor ∈ S)
    (hkey : env.features.dither = true → .argKey ∈ S)
    (h : ∀ S', Placed env.features writeRoles False False S' → Alike placeRoles S S' →
      Q () S' [] n) : (dither env).Succeeds S [] (n + 247) Q := by
  refine .bind (.mark ?_)
  split
  · rename_i hon
    exact addDither_succeeds (hp.weaken id fun _ => hon) hon hc (hkey hon) h
  · exact .mono (.pure (h S (hp.weaken id nofun) (.refl _ _))) (by omega)

/-! ## The color write -/

/-- Roles that may be bound at the store. -/
def storeRoles : Finset Role := {.colorAddr, .depthAddr, .stencil}

theorem room_rasterOpBodies_le (table index color dst : Reg) (hasStencil : Bool) :
    (Code.select table index (rasterOpBodies color dst hasStencil) .done).room ≤ 545 := by
  cases hasStencil <;>
    simp [rasterOpBodies, RasterOp.all, rasterOpBody, Code.room, Code.bodiesRoom, Code.jumpSize]

/-- Roles that the store releases itself. -/
def storeTemporaries : List Role := [.gen3, .gen0]

section

variable {Q : Unit → Finset Role → List Role → Nat → Prop}

theorem rasterOp_succeeds {color addr : Reg} {hasStencil : Bool} (hS : S ⊆ storeRoles)
    (h : Q () S storeTemporaries n) :
    (rasterOp env color addr hasStencil).Succeeds S storeTemporaries (n + 597) Q := by
  refine .bind (.mark (.bind (.allocGen (by decide) rfl rfl (spare_of_subset hS (by decide))
    fun dst => ?_)))
  extract_lets jp
  have tail : (jp ()).Succeeds S [.gen4, .gen3, .gen0] (n + 584) Q := by
    refine .bind (.allocGen (by decide) rfl rfl (spare_of_subset hS (by decide)) fun index => ?_)
    refine .bind (stateBase_succeeds (spare_of_subset hS (by decide)) (by decide) fun state => ?_)
    refine .bind (.op rfl (.bind (.unlock_made rfl (.bind (.op rfl ?_)))))
    refine .bind (.allocGen (by decide) rfl rfl (spare_of_subset hS (by decide)) fun table => ?_)
    have hroom := room_rasterOpBodies_le table index color dst hasStencil
    have hret : (Code.select table index (rasterOpBodies color dst hasStencil) .done).returns = false := by
      cases hasStencil <;> rfl
    refine .bind (.mono (.put hret (.bind (.release (by decide) (.bind (.release (by decide)
      (.release (by decide) h)))))) (Nat.add_le_add_left hroom n))
  split <;> exact .bind (.op rfl tail)

theorem clearStencil_succeeds (hp : Placed env.features writeRoles False False S)
    (hc : .vecColor ∈ S) (h : ∀ S', Q () S' [] n) :
    (clearStencil env).Succeeds S [] (n + 234) Q := by
  unfold clearStencil
  split
  · refine .bind (.findVec hc fun vec => .bind (packColor_succeeds ?_))
    refine .bind (.allocLasting (by decide) rfl (spare_of_subset hp.within (by decide)) fun st => ?_)
    refine .bind (.op rfl (.bind (.op rfl (.bind (.unlock ?_)))))
    refine .bind (writeStencilOnly_succeeds (hp.alike (.insert (List.mem_singleton_self _))
      (Finset.insert_subset (by decide) hp.within) (by decide)) (by decide) (by decide) (by decide) nofun nofun
      fun S' _ _ => .forceRelease (h _))
  · exact .mono (.pure (h S)) (by omega)

theorem placeStencil_succeeds {format : PixelFormat} {st : Reg} {T : List Role} (h : Q () S T n) :
    (placeStencil format st).Succeeds S T (n + 26) Q := by
  cases format with
  | rgb565 => exact .mono (.pure h) (by omega)
  | rgba8888 => exact .mono (.op rfl h) (by omega)
  | rgba5551 | rgba4444 => exact .ops rfl h

theorem storedBits_succeeds {convertAlpha : Bool}
    {Q : Reg × Option Reg → Finset Role → List Role → Nat → Prop} (hS : S ⊆ insert .argKey (insert .vecColor storeRoles))
    (hc : .vecColor ∈ S) (h : ∀ p, Q p (S.erase .vecColor) [.gen0] n) :
    (storedBits env convertAlpha).Succeeds S [] (n + 208) Q := by
  refine .bind (.findVec hc fun vec => .bind (packColor_succeeds ?_))
  refine .bind (.allocGen (by decide) rfl rfl (spare_of_subset hS (by decide)) fun color => ?_)
  refine .bind (.op rfl (.bind (.forceRelease ?_)))
  extract_lets jp
  have tail (st : Option Reg) : (jp st).Succeeds (S.erase .vecColor) [.gen0] (n + 182) Q := by
    have hS' := (Finset.erase_subset .vecColor S).trans hS
    refine .bind (.allocGen (by decide) rfl rfl (spare_of_subset hS' (by decide)) fun t₁ => ?_)
    refine .bind (.allocGen (by decide) rfl rfl (spare_of_subset hS' (by decide)) fun t₂ => ?_)
    have hlen := length_narrow_le env.features.format color t₁ t₂ convertAlpha
    refine .bind (.mono (.ops (any_isReturn_narrow _ _ _ _ _) (.bind (.release (by decide) (.bind
      (.release (by decide) (.pure (h (color, st)))))))) (Nat.add_le_add_left (Nat.mul_le_mul_left 13 hlen) n))
  by_cases hst : .stencil ∈ S.erase .vecColor
  · refine .bind (.has_mem (by decide) hst ?_)
    exact .bind (.findGen (by decide) rfl hst fun st => .bind (.pure (tail (some st))))
  · exact .bind (.has_not_mem (by decide) hst (.bind (.pure (tail none))))

theorem loadWriteMask_succeeds {Q : Option Reg → Finset Role → List Role → Nat → Prop}
    (hS : S ⊆ insert .argKey storeRoles)
    (hkey : env.features.writeMasked = true → .argKey ∈ S) (h : ∀ m, Q m S storeTemporaries n) :
    (loadWriteMask env).Succeeds S [.gen0] (n + 13) Q := by
  unfold loadWriteMask
  split
  · rename_i hon
    refine .bind (.allocGen (by decide) rfl rfl (spare_of_subset hS (by decide)) fun m => ?_)
    exact .bind (.findGen (by decide) rfl (hkey hon) fun key => .bind (.op rfl (.pure (h _))))
  · exact .mono (.widen (by decide) (.pure (h none))) (by omega)

theorem mergeStencil_succeeds {color : Reg} {stencil : Option Reg} {T : List Role}
    (h : Q () (S.erase .stencil) T n) :
    (mergeStencil env color stencil).Succeeds S T (n + 26) Q := by
  cases stencil with
  | none => exact .mono (.bind (.pure (.forceRelease h))) (by omega)
  | some st => exact .bind (.op rfl (.bind (.op rfl (.forceRelease h))))

theorem storeColor_succeeds {addr color : Reg} {mask : Option Reg} {kept : BitVec 32}
    {T : List Role} (h : ∀ T', Q () S T' n) :
    (storeColor env addr color mask kept).Succeeds S T (n + 52) Q := by
  unfold storeColor
  extract_lets size
  cases mask with
  | some m =>
    exact .bind (.op rfl (.bind (.op rfl (.bind (.op rfl (.bind (.op rfl (.release (by decide) (h _)))))))))
  | none =>
    show (if kept = 0 then _ else _ : Emit Unit).Succeeds _ _ _ _
    split
    · exact .mono (.op rfl (h T)) (by omega)
    · unfold storeKeeping
      split
      · exact .mono (n := n + 39) (.bind (.op rfl (.bind (.op rfl (.op rfl (h T)))))) (by omega)
      · split
        · exact .mono (n := n + 39) (.bind (.op rfl (.bind (.op rfl (.op rfl (h T)))))) (by omega)
        · exact .mono (n := n + 26) (.bind (.op rfl (.op rfl (h T)))) (by omega)

theorem combineAndStore_succeeds {addr color : Reg} {stencil : Option Reg}
    (hS : S ⊆ insert .argKey storeRoles)
    (hkey : env.features.writeMasked = true → .argKey ∈ S) (h : ∀ S' T', Q () S' T' n) :
    (combineAndStore env addr color stencil).Succeeds S [.gen0] (n + 688) Q := by
  refine .bind (loadWriteMask_succeeds hS hkey fun m => .bind (.forceRelease ?_))
  extract_lets jp
  have hS' : S.erase .argKey ⊆ storeRoles :=
    calc S.erase .argKey
      _ ⊆ (insert .argKey storeRoles).erase .argKey := Finset.erase_subset_erase _ hS
      _ ⊆ storeRoles := by decide
  have tail : (jp ()).Succeeds (S.erase .argKey) storeTemporaries (n + 78) Q := by
    refine .bind (mergeStencil_succeeds (.bind (storeColor_succeeds fun T' => ?_)))
    exact .bind (.release (by decide) (.forceRelease (h _ _)))
  split
  · exact .bind (rasterOp_succeeds hS' (.bind (.mark tail)))
  · exact tail.mono (by omega)

theorem writePixel_succeeds (hp : Placed env.features writeRoles False False S)
    (hc : .vecColor ∈ S) (hkey : env.features.writeMasked = true → .argKey ∈ S)
    (h : ∀ S' T', Q () S' T' n) : (writePixel env).Succeeds S [] (n + 1013) Q := by
  refine .bind (colorAddr_succeeds hp (by decide) (by decide) (by decide) nofun nofun
    fun addr S₁ hp₁ _ halike _ => .bind (.forceRelease (.bind (.forceRelease ?_))))
  have hS : (S₁.erase .argX).erase .argY ⊆ insert .argKey (insert .vecColor storeRoles) :=
    calc (S₁.erase .argX).erase .argY
      _ ⊆ (writeRoles.erase .argX).erase .argY :=
        Finset.erase_subset_erase _ (Finset.erase_subset_erase _ hp₁.within)
      _ ⊆ insert .argKey (insert .vecColor storeRoles) := by decide
  have hc₁ : .vecColor ∈ (S₁.erase .argX).erase .argY := by
    simpa using (halike .vecColor (by decide)).mpr hc
  refine .bind (storedBits_succeeds hS hc₁ fun (color, stencil) => ?_)
  have hS' : ((S₁.erase .argX).erase .argY).erase .vecColor ⊆ insert .argKey storeRoles :=
    (Finset.erase_subset_erase _ hS).trans (by decide)
  have hkey₁ (hon : env.features.writeMasked = true) :
      .argKey ∈ ((S₁.erase .argX).erase .argY).erase .vecColor := by
    simpa using (halike .argKey (by decide)).mpr (hkey hon)
  cases stencil with
  | none => exact .mono (n := n + 688) (combineAndStore_succeeds hS' hkey₁ h) (by omega)
  | some st => exact .bind (placeStencil_succeeds (combineAndStore_succeeds hS' hkey₁ h))

theorem writeColor_succeeds (hp : Placed env.features writeRoles False False S)
    (hc : .vecColor ∈ S) (hkey : env.features.writeMasked = true → .argKey ∈ S)
    (h : ∀ S' T', Q () S' T' n) : (writeColor env).Succeeds S [] (n + 1013) Q := by
  refine .bind (.mark ?_)
  split
  · exact .mono (clearStencil_succeeds hp hc fun S' => h S' []) (by omega)
  · exact writePixel_succeeds hp hc hkey h

end

/-! ## The pipeline -/

/-- Roles that are bound on entry. -/
def argumentRoles : Finset Role := {.argX, .argY, .argZ, .argFog, .argColor, .argKey}

theorem fits_entry : entry.table.Fits argumentRoles [] where
  wellFormed := wellFormed_entry
  pools := ⟨rfl, rfl⟩
  lasting := by decide
  others {r b} hb hl _ _ := by
    have hall : ∀ b ∈ entry.table.bindings, b.role ∈ Role.lasting := by decide
    obtain ⟨hm, rfl⟩ := find?_entry hb
    exact absurd (hall b hm) hl
  locks {r b} hb hrec _ := by
    have hall : ∀ b ∈ entry.table.bindings, b.role ∈ Role.lasting := by decide
    obtain ⟨hm, rfl⟩ := find?_entry hb
    exact absurd (hall b hm) (not_lasting_of_reconstructible hrec)
  retained {r b} hb hret := by
    have hall : ∀ b ∈ entry.table.bindings, b.retained = false := by decide
    obtain ⟨hm, rfl⟩ := find?_entry hb
    exact absurd hret (by rw [hall b hm]; decide)

/-- The stages behind the tests. -/
theorem passed_succeeds {plan : BlendPlan} {Q : Unit → Finset Role → List Role → Nat → Prop}
    (hp : Placed env.features testRoles (needsDepthAddr env.features = true)
      (env.features.dither = true) S)
    (hz : env.features.depthWrite = true → .argZ ∈ S) (hc : .vecColor ∈ S)
    (hkey : env.features.needsConstants = true → .argKey ∈ S) (h : ∀ S' T', Q () S' T' n) :
    (do
      writeDepth env
      blendBy env plan
      dither env
      writeColor env).Succeeds S [] (n + 2235) Q := by
  refine .bind (writeDepth_succeeds hp id hz fun S₁ hp₁ halike₁ => ?_)
  have hc₁ := (halike₁ .vecColor (by decide)).mpr hc
  refine .bind (blendBy_succeeds hp₁ hc₁ fun S₂ hp₂ halike₂ => ?_)
  have hc₂ := (halike₂ .vecColor (by decide)).mpr hc₁
  have hkey₂ (hon : env.features.needsConstants = true) : .argKey ∈ S₂ :=
    (halike₂ .argKey (by decide)).mpr ((halike₁ .argKey (by decide)).mpr (hkey hon))
  refine .bind (dither_succeeds hp₂ hc₂ (fun hon => hkey₂ ?_) fun S₃ hp₃ halike₃ => ?_)
  · rw [Features.needsConstants, hon, Bool.true_or]
  · refine writeColor_succeeds hp₃ ((halike₃ .vecColor (by decide)).mpr hc₂) (fun hon => ?_) h
    refine (halike₃ .argKey (by decide)).mpr (hkey₂ ?_)
    rw [Features.needsConstants, hon, Bool.or_true]

theorem stages_succeeds {plan : BlendPlan} {Q : Unit → Finset Role → List Role → Nat → Prop}
    (h : ∀ S T, Q () S T n) : (stages env plan).Succeeds argumentRoles [] (n + 3641) Q := by
  refine .bind (.mark ?_)
  extract_lets jp
  have tail {S : Finset Role} (hS : S ⊆ argumentRoles) (halike : Alike [.argKey] argumentRoles S)
      (hkey : env.features.needsConstants = true → .argKey ∈ S) :
      (jp ()).Succeeds S [] (n + 3641) Q := by
    have hbound {r : Role} (hr : r ∈ argumentRoles) (hne : r ∉ [Role.argKey]) : r ∈ S :=
      (halike r hne).mpr hr
    have hentry : S ⊆ entryRoles := hS.trans (by decide)
    refine .bind (depthRange_succeeds hentry (hbound (by decide) (by decide)) fun S₁ hS₁ halike₁ hz₁ => ?_)
    refine .bind (enterColor_succeeds ((halike₁ .argColor (by decide)).mpr
      (hbound (by decide) (by decide))) ?_)
    have hS₂ : (insert .vecColor S₁).erase .argColor ⊆ colorRoles ∪ {.argFog} :=
      calc (insert .vecColor S₁).erase .argColor
        _ ⊆ (insert .vecColor argumentRoles).erase .argColor :=
          Finset.erase_subset_erase _ (Finset.insert_subset_insert _ (hS₁.trans hS))
        _ ⊆ colorRoles ∪ {.argFog} := by decide
    have hc₂ : .vecColor ∈ (insert .vecColor S₁).erase .argColor := by simp
    have halike₂ : Alike [.vecColor, .argColor] S₁ ((insert .vecColor S₁).erase .argColor) :=
      (Alike.insert (by decide)).trans (.erase (by decide))
    generalize (insert .vecColor S₁).erase .argColor = S₂ at hS₂ hc₂ halike₂
    have hfog : .argFog ∈ S₂ := (halike₂ .argFog (by decide)).mpr
      ((halike₁ .argFog (by decide)).mpr (hbound (by decide) (by decide)))
    refine .bind (alphaTest_succeeds (hS₂.trans (by decide)) hc₂ ?_)
    refine .bind (fog_succeeds (hS₂.trans (by decide)) hc₂ hfog ?_)
    have hS₃ : S₂.erase .argFog ⊆ colorRoles :=
      (Finset.erase_subset_erase _ hS₂).trans (by decide)
    have hc₃ : .vecColor ∈ S₂.erase .argFog := Finset.mem_erase.mpr ⟨by decide, hc₂⟩
    have halike₃ : Alike [.argZ, .vecColor, .argColor, .argFog] S (S₂.erase .argFog) :=
      (halike₁.mono (by simp)).trans ((halike₂.mono (by simp)).trans (.erase (by simp)))
    have hz₃ (hneed : needsDepthAddr env.features = true) : .argZ ∈ S₂.erase .argFog :=
      Finset.mem_erase.mpr ⟨by decide, (halike₂ .argZ (by decide)).mpr (hz₁ hneed)⟩
    generalize S₂.erase .argFog = S₃ at hS₃ hc₃ halike₃ hz₃
    refine .bind (colorTest_succeeds hS₃ hc₃ ?_)
    have hx : .argX ∈ S₃ := (halike₃ .argX (by decide)).mpr (hbound (by decide) (by decide))
    have hy : .argY ∈ S₃ := (halike₃ .argY (by decide)).mpr (hbound (by decide) (by decide))
    have hno {r : Role} (hr : r ∉ colorRoles) : r ∉ S₃ := fun hm => hr (hS₃ hm)
    refine .bind (storedTests_succeeds ⟨hS₃.trans (by decide), .inr ⟨hx, hy⟩,
      fun _ => .inr ⟨hx, hy, fun _ => hno (by decide)⟩, fun _ _ => hno (by decide), fun _ => ⟨hx, hy⟩⟩
      id hz₃ fun S₄ hp₄ halike₄ hz₄ => ?_)
    exact passed_succeeds hp₄ hz₄ ((halike₄ .vecColor (by decide)).mpr hc₃)
      (fun hon => (halike₄ .argKey (by decide)).mpr ((halike₃ .argKey (by decide)).mpr (hkey hon))) h
  split
  · rename_i hno
    refine .bind (.forceRelease (tail (Finset.erase_subset _ _) (.erase (by decide)) fun h => ?_))
    rw [h] at hno
    cases hno
  · exact tail (Finset.Subset.refl _) (.refl _ _) fun _ => by decide

/-- Every pipeline has code, whatever the plan for its blend; the code is not long,
and it has no return. -/
theorem exists_bodyBy (env : Env) (plan : BlendPlan) :
    ∃ code, bodyBy env plan = .ok code ∧ code.room ≤ 3641 ∧ code.returns = false := by
  have hstages : (stages env plan).Succeeds argumentRoles [] (0 + 3641)
      fun _ _ _ _ => True := stages_succeeds fun _ _ => trivial
  obtain ⟨r, -, -, n, hr, -, hret, hroom, -⟩ := hstages entry fits_entry
  refine ⟨r.code, ?_, by omega, hret⟩
  rw [bodyBy, hr]
  rfl

theorem exists_body (env : Env) :
    ∃ code, body env = .ok code ∧ code.room ≤ 3641 ∧ code.returns = false := by
  rw [← bodyBy_ofFeatures]
  exact exists_bodyBy env _

/-- The code of a pipeline has no return of its own. -/
theorem returns_body {code : Code} (h : body env = .ok code) : code.returns = false := by
  obtain ⟨code', h', -, hret⟩ := exists_body env
  rw [h] at h'
  cases h'
  exact hret

end Compile

end PixelPipeline
