/-
# Proofs.Ways — the ways to the addresses

Where an address is made depends on what came before, so it leaves no trace in a row.
A reader who looks for it finds out how it was made: the general way reads a stride,
and the fast way, on which both addresses are made, scales the index of the pixel by
its size (`Found`).
-/
import PixelPipeline.Proofs.Seen

namespace PixelPipeline

open X86 Compile

/-! ## What is known of a way -/

namespace Ways

/-- What is known of the way to an address from here on. -/
def set (w : Ways) (r : Role) (a : Way) : Ways :=
  match r with
  | .colorAddr => { w with color := a }
  | .depthAddr => { w with depth := a }
  | _ => w

variable (w : Ways) (a : Way)

theorem way_set_self {r : Role} (hr : r ∈ [Role.colorAddr, .depthAddr]) : (w.set r a).way r = a := by
  simp only [List.mem_cons, List.not_mem_nil, or_false] at hr
  rcases hr with rfl | rfl <;> rfl

theorem way_set_ne {r q : Role} (h : q ≠ r) : (w.set r a).way q = w.way q := by
  unfold set
  split
  · cases q <;> first | rfl | exact absurd rfl h
  · cases q <;> first | rfl | exact absurd rfl h
  · rfl

theorem set_set (r : Role) (b : Way) : (w.set r a).set r b = w.set r b := by
  cases r <;> rfl

theorem paired_set (r : Role) : (w.set r a).paired = w.paired := by
  cases r <;> rfl

theorem deep_set (r : Role) : (w.set r a).deep = w.deep := by
  cases r <;> rfl

end Ways

/-- What is known of the way to an address from here on. -/
def Ties.set (w : Ties) (r : Role) (a : Way) : Ties := { w with ways := w.ways.set r a }

theorem Ties.set_set (w : Ties) (r : Role) (a b : Way) : (w.set r a).set r b = w.set r b :=
  congrArg (Ties.mk w.color w.stored w.stencil) (w.ways.set_set a r b)

/-- As much is known as is said, or more. -/
structure Ties.Covers (w w' : Ties) : Prop where
  color : w.color = w'.color
  stored : w.stored = w'.stored
  stencil : w.stencil = w'.stencil
  paired : w'.ways.paired = true → w.ways.paired = true
  deep : w'.ways.deep = true → w.ways.deep = true
  way : ∀ r, w.ways.way r = .behind ∨ w.ways.way r = w'.ways.way r

theorem Ties.Covers.trans {w w' w'' : Ties} (h : w.Covers w') (h' : w'.Covers w'') : w.Covers w'' where
  color := h.color.trans h'.color
  stored := h.stored.trans h'.stored
  stencil := h.stencil.trans h'.stencil
  paired := h.paired ∘ h'.paired
  deep := h.deep ∘ h'.deep
  way r := by
    rcases h.way r with hw | hw
    · exact .inl hw
    · rw [hw]
      exact h'.way r

/-- More is known of a way that is behind. -/
theorem Ties.covers_behind (w : Ties) {r : Role} (hr : r ∈ [Role.colorAddr, .depthAddr]) :
    (w.set r .behind).Covers w where
  color := rfl
  stored := rfl
  stencil := rfl
  paired := w.ways.paired_set .behind r ▸ id
  deep := w.ways.deep_set .behind r ▸ id
  way q := by
    by_cases hq : q = r
    · subst hq
      exact .inl (w.ways.way_set_self .behind hr)
    · exact .inr (w.ways.way_set_ne .behind hq)

theorem Ties.Covers.set {w w' : Ties} (h : w.Covers w') {r : Role}
    (hr : r ∈ [Role.colorAddr, .depthAddr]) (a : Way) : (w.set r a).Covers (w'.set r a) where
  color := h.color
  stored := h.stored
  stencil := h.stencil
  paired hp := (w.ways.paired_set a r).trans (h.paired ((w'.ways.paired_set a r).symm.trans hp))
  deep hd := (w.ways.deep_set a r).trans (h.deep ((w'.ways.deep_set a r).symm.trans hd))
  way q := by
    by_cases hq : q = r
    · subst hq
      exact .inr ((w.ways.way_set_self a hr).trans (w'.ways.way_set_self a hr).symm)
    · have hway : (w.set r a).ways.way q = w.ways.way q := w.ways.way_set_ne a hq
      have hway' : (w'.set r a).ways.way q = w'.ways.way q := w'.ways.way_set_ne a hq
      rw [hway, hway']
      exact h.way q

namespace RoleTable

variable {f : Features} {t : RoleTable} {w w' : Ties}

theorem Tied.of_covers (h : t.Tied f w) (hc : w.Covers w') : t.Tied f w' where
  wellFormed := h.wellFormed
  pools := h.pools
  color hx := h.color (hc.color.trans hx)
  stored hx := h.stored (hc.stored.trans hx)
  stencil hx := h.stencil (hc.stencil.trans hx)
  bare hx := h.bare (hc.stencil.trans hx)
  deep hd := h.deep (hc.deep hd)
  paired hp := h.paired (hc.paired hp)

theorem Tied.set (h : t.Tied f w) (r : Role) (a : Way) : t.Tied f (w.set r a) where
  wellFormed := h.wellFormed
  pools := h.pools
  color := h.color
  stored := h.stored
  stencil := h.stencil
  bare := h.bare
  deep hd := h.deep (w.ways.deep_set a r ▸ hd)
  paired hp := h.paired (w.ways.paired_set a r ▸ hp)

theorem Reached.of_covers {r : Role} (h : t.Reached w'.ways r) (hc : w.Covers w') :
    t.Reached w.ways r := by
  unfold Reached at *
  rcases hc.way r with hw | hw
  · rw [hw]
    trivial
  · rw [hw]
    exact h

end RoleTable

instance Eye.HoldsStencil.set {e : Eye} {w : Ties} [h : e.HoldsStencil w] {r : Role} {a : Way} :
    e.HoldsStencil (w.set r a) := ⟨h.eq⟩

theorem Compile.pixelShift_eq_two {format : PixelFormat} :
    pixelShift format = 2 ↔ format.bytesPerPixel = 4 := by
  cases format <;> decide

namespace Emit

variable {α β : Type} {f : Features} {e e₁ : Eye} {w w₁ : Ties} {row row' : List Instr}

theorem bind_congr_at {m m' : Emit α} {k : α → Emit β} {d : Draft} (h : m d = m' d) :
    (m >>= k) d = (m' >>= k) d := by
  simp only [Bind.bind, h]

theorem rename_ok {old new : Role} {d : Draft} {x : Emission Unit} (h : d.table.WellFormed)
    (hx : Emit.rename old new d = .ok x) : ∃ t, d.table.Moves t [old] [new] ∧ t.has new = true ∧
      x = ⟨(), { d with table := t }, .done⟩ := by
  obtain ⟨_, t', ht, rfl⟩ := onTable_ok hx
  cases hren : d.table.rename old new with
  | error e =>
    rw [hren] at ht
    cases ht
  | ok t₁ =>
    rw [hren] at ht
    cases ht
    obtain ⟨hwf, hp, b, hb, hnone, -, hfind⟩ := h.rename hren
    refine ⟨t', ⟨hwf, hp, fun {r b'} hb' _ hn => ?_, fun {r} hr hn => ?_⟩, ?_, rfl⟩
    · have hnew : r ≠ new := by
        rintro rfl
        cases hnone.symm.trans hb'
      rw [hfind, if_neg hnew, if_neg fun he => hn (List.mem_singleton.mpr he)]
      exact ⟨b', hb', rfl⟩
    · rw [RoleTable.has_eq, hfind, if_neg fun he => hn (List.mem_singleton.mpr he)] at hr
      split at hr
      · cases hr
      · exact hr
    · rw [RoleTable.has_eq, hfind, if_pos rfl]
      rfl

theorem has_bind (r : Role) (k : Bool → Emit α) (d : Draft) :
    (Emit.has r >>= k) d = k (d.table.has r) d := by
  simp only [Bind.bind, Emit.has]
  split <;> rename_i h <;> exact h.symm

namespace Tells

theorem weaken {m : Emit α} {Q Q' : α → Eye → Ties → Prop} (hm : m.Tells f e w row Q)
    (h : ∀ a e' w', Q a e' w' → ∃ w'', w'.Covers w'' ∧ Q' a e' w'') : m.Tells f e w row Q' := by
  intro d r hd hr
  obtain ⟨e', w', htold, htied, hq⟩ := hm d r hd hr
  obtain ⟨w'', hc, hq'⟩ := h _ _ _ hq
  exact ⟨e', w'', ⟨htold.encodable, htold.whole, htold.sees, htold.after, htold.apt,
    fun q hq => htold.found q (hq.of_covers hc)⟩, htied.of_covers hc, hq'⟩

/-- Behind what shows nothing. -/
theorem behind {m : Emit α} {k : α → Emit β} {Q : β → Eye → Ties → Prop} (hm : Shows f e w m [] e₁ w₁)
    (hk : ∀ a, (k a).Tells f e₁ w₁ row Q) : (m >>= k).Tells f e w row Q :=
  hm.tells.bind fun a _ _ h => h.1 ▸ h.2 ▸ hk a

/-! ## The general way -/

section

variable {r : Role} {g h : Reg}

/-- The address gets a register. -/
theorem allocWay (hr : r ∈ [Role.colorAddr, .depthAddr]) (hfast : fastAddress f = false) :
    (Emit.allocGen r).Tells f e w [] fun _ e₁ w₁ => e₁ = e ∧ w₁ = w.set r .owed := by
  intro d x hd hx
  obtain ⟨g, t', ht, rfl⟩ := onTable_ok hx
  obtain ⟨hf, ⟨n, t₁⟩, hal, he⟩ := RoleTable.inFile_ok ht
  cases he
  have hm := RoleTable.moves_alloc hd.wellFormed hal
  have hne : r ≠ .stencil := by rintro rfl; revert hr; decide
  have htied : t'.Tied f w := hd.of_moves hm (fun hx => .inl ⟨hx, List.not_mem_nil⟩)
    (fun hx => .inl ⟨hx, List.not_mem_nil⟩) (fun hx => .inl ⟨hx, List.not_mem_nil⟩)
    (fun hx => .inl ⟨hx, fun hmem => hne (List.mem_singleton.mp hmem).symm⟩)
    (fun hx => .inl ⟨hx, List.not_mem_nil⟩)
    fun _ hfast' => absurd (hfast.symm.trans hfast') Bool.false_ne_true
  refine ⟨e, w.set r .owed, .done fun q _ hq => .inl ?_, htied.set r .owed, rfl, rfl⟩
  by_cases he : q = r
  · subst he
    unfold RoleTable.Reached at hq
    rw [show (w.set q .owed).ways.way q = .owed from Ways.way_set_self _ _ hr] at hq
    exact hq.elim
  · have hway : (w.set r .owed).ways.way q = w.ways.way q := Ways.way_set_ne _ _ he
    refine RoleTable.Reached.mono (fun has => hm.old has fun hmem => he (List.mem_singleton.mp hmem)) ?_
    unfold RoleTable.Reached at *
    rwa [hway] at hq

/-- Code in which a way is found. -/
theorem putFound {c : Code} (hencodable : c.Encodable)
    (hwhole : ∀ ls, c.lines ls = c.lines [] ++ ls) (hsees : e.scan (c.lines []) = row)
    (hafter : e.after (c.lines []) = e₁) (hapt : ∀ i ∈ c.lines [], i.Apt f)
    (hfound : Found f r (c.lines [])) :
    (Emit.put c).Tells f e w row fun _ e' w' => e' = e₁ ∧ w' = w.set r .behind := by
  refine putWay hencodable hwhole hsees hafter hapt (fun _ ht => ht.set r .behind) fun t q hq => ?_
  by_cases he : q = r
  · exact .inr (he ▸ hfound)
  · have hway : (w.set r .behind).ways.way q = w.ways.way q := Ways.way_set_ne _ _ he
    unfold RoleTable.Reached at hq ⊢
    rw [hway] at hq
    exact .inl hq

/-- A stride is read. -/
theorem strideWay {offset : Nat} (hfast : fastAddress f = false)
    (hr : (r, offset) ∈ [(Role.colorAddr, DrawState.fbStrideAt), (.depthAddr, DrawState.depthStrideAt)]) :
    (Emit.op (.loadExt .zeroWord g (atOffset h offset))).Tells f e w [] fun _ e₁ w₁ =>
      e₁ = e ∧ w₁ = w.set r .behind := by
  simp only [List.mem_cons, Prod.mk.injEq, List.not_mem_nil, or_false] at hr
  have hstride : (Instr.loadExt .zeroWord g (atOffset h offset)).StrideAt offset := ⟨g, h, rfl⟩
  have hapt : (Instr.loadExt .zeroWord g (atOffset h offset)).Apt f :=
    ⟨fun _ => hfast, (by rintro ⟨r, hr⟩; cases hr), rfl⟩
  refine putFound (c := .instr (.loadExt .zeroWord g (atOffset h offset)) .done) ⟨rfl, trivial⟩
    (fun _ => rfl) ?_ ?_ (fun i hi => List.mem_singleton.mp hi ▸ hapt) ?_
  · rcases hr with ⟨-, rfl⟩ | ⟨-, rfl⟩ <;> rfl
  · rcases hr with ⟨-, rfl⟩ | ⟨-, rfl⟩ <;> rfl
  · rcases hr with ⟨rfl, rfl⟩ | ⟨rfl, rfl⟩
    · exact fun _ => ⟨_, List.mem_singleton_self _, hstride⟩
    · exact ⟨fun _ => ⟨_, List.mem_singleton_self _, hstride⟩,
        fun hfast' => absurd (hfast.symm.trans hfast') Bool.false_ne_true⟩

end

end Tells

namespace Shows

/-- An index is scaled. -/
theorem scale {g : Reg} {shift : BitVec 8} (h : shift = 2 → f.format.bytesPerPixel = 4) :
    Shows f e w (Emit.op (.shift .shl true g shift)) [] e w :=
  ⟨.put ⟨rfl, trivial⟩ (fun _ => rfl) rfl rfl fun i hi => by
    rw [List.mem_singleton.mp hi]
    refine ⟨?_, ?_, rfl⟩
    · rintro (⟨r, b, hr⟩ | ⟨r, b, hr⟩) <;> cases hr
    · rintro ⟨r, hr⟩
      cases hr
      exact h rfl⟩

end Shows

namespace Tells

variable (env : Env)

theorem generalAddress [e.HoldsStencil w] {r : Role} {g : Reg} {strideAt baseAt : Nat} {shift : BitVec 8}
    (hfast : fastAddress env.features = false)
    (hr : (r, strideAt) ∈ [(Role.colorAddr, DrawState.fbStrideAt), (.depthAddr, DrawState.depthStrideAt)])
    (hshift : shift = 2 → env.features.format.bytesPerPixel = 4) :
    (generalAddress env g strideAt baseAt shift).Tells env.features e w [] fun _ e₁ w₁ =>
      e₁ = e ∧ w₁ = w.set r .behind := by
  unfold Compile.generalAddress
  refine behind inferInstance fun state => behind inferInstance fun x => behind inferInstance fun y => ?_
  refine (strideWay hfast hr).bind fun _ e₁ w₁ h => ?_
  obtain ⟨rfl, rfl⟩ := h
  have hscale := Shows.scale (e := e₁) (w := w.set r .behind) (g := g) hshift
  exact Shows.tells

theorem newAddress [e.HoldsStencil w] {r : Role} {strideAt baseAt : Nat} {shift : BitVec 8}
    (hfast : fastAddress env.features = false)
    (hr : (r, strideAt) ∈ [(Role.colorAddr, DrawState.fbStrideAt), (.depthAddr, DrawState.depthStrideAt)])
    (hshift : shift = 2 → env.features.format.bytesPerPixel = 4) : Tells env.features e w (do
      let g ← Emit.allocGen r
      Compile.generalAddress env g strideAt baseAt shift
      Emit.retain r
      Pure.pure g) [] fun _ e₁ w₁ => e₁ = e ∧ w₁ = w.set r .behind := by
  have hmem : r ∈ [Role.colorAddr, .depthAddr] := List.mem_map_of_mem (f := Prod.fst) hr
  refine (allocWay hmem hfast).bind fun g e₁ w₁ h => ?_
  obtain ⟨rfl, rfl⟩ := h
  refine (generalAddress env hfast hr hshift).bind fun _ e₂ w₂ h => ?_
  obtain ⟨rfl, rfl⟩ := h
  rw [Ties.set_set]
  exact Shows.tells

/-! ## The fast way -/

/-- The depth address takes over the register of a coordinate. -/
theorem renameDepth {o : Role} [ho : o.Untied] : (Emit.rename o .depthAddr).Tells f e w []
    fun _ e₁ w₁ => e₁ = e ∧
      w₁ = { w with ways := { w.ways with deep := true, depth := .owed } } := by
  intro d x hd hx
  obtain ⟨t, hm, hhas, rfl⟩ := rename_ok hd.wellFormed hx
  refine ⟨e, { w with ways := { w.ways with deep := true, depth := .owed } },
    .done fun q hq hreached => ?_, hd.of_moves hm
    (fun hx => .inl ⟨hx, fun h => ho.untied _ (by decide) (List.mem_singleton.mp h)⟩)
    (fun hx => .inl ⟨hx, fun h => ho.untied _ (by decide) (List.mem_singleton.mp h)⟩)
    (fun hx => .inl ⟨hx, fun h => ho.untied _ (by decide) (List.mem_singleton.mp h)⟩)
    (fun hx => .inl ⟨hx, by decide⟩) (fun _ => .inr hhas) (fun _ _ _ => .inr hhas), rfl, rfl⟩
  simp only [List.mem_cons, List.not_mem_nil, or_false] at hq
  rcases hq with rfl | rfl
  · exact .inl (RoleTable.Reached.mono (fun has => hm.old has (by decide)) hreached)
  · exact hreached.elim

/-- The color address takes over the register of a coordinate. -/
theorem renameColor {o : Role} [ho : o.Untied] (hfast : fastAddress f = true)
    (hdeep : needsDepthAddr f = true → w.ways.deep = true) :
    (Emit.rename o .colorAddr).Tells f e w [] fun _ e₁ w₁ => e₁ = e ∧ w₁ = w.set .colorAddr .behind := by
  intro d x hd hx
  obtain ⟨t, hm, hhas, rfl⟩ := rename_ok hd.wellFormed hx
  have hgone : Role.depthAddr ∉ [o] := fun h => ho.untied _ (by decide) (List.mem_singleton.mp h)
  have htied : t.Tied f w := hd.of_moves hm
    (fun hx => .inl ⟨hx, fun h => ho.untied _ (by decide) (List.mem_singleton.mp h)⟩)
    (fun hx => .inl ⟨hx, fun h => ho.untied _ (by decide) (List.mem_singleton.mp h)⟩)
    (fun hx => .inl ⟨hx, fun h => ho.untied _ (by decide) (List.mem_singleton.mp h)⟩)
    (fun hx => .inl ⟨hx, by decide⟩) (fun hx => .inl ⟨hx, hgone⟩)
    (fun _ _ hneeds => .inr (hm.has rfl hgone (hd.deep (hdeep hneeds))))
  refine ⟨e, _, .done fun q hq hreached => ?_, htied.set .colorAddr .behind, rfl, rfl⟩
  simp only [List.mem_cons, List.not_mem_nil, or_false] at hq
  rcases hq with rfl | rfl
  · exact .inr fun hslow => absurd (hslow.symm.trans hfast) Bool.false_ne_true
  · exact .inl (RoleTable.Reached.mono (w := w.ways) (fun has => hm.old has (by decide)) hreached)

/-- The index is scaled for both addresses. -/
theorem scaleWay {g : Reg} (hfast : fastAddress f = true) :
    (Emit.op (.shift .shl true g (pixelShift f.format))).Tells f e w [] fun _ e₁ w₁ =>
      e₁ = e ∧ w₁ = w.set .depthAddr .behind := by
  have hwide : pixelShift f.format = 2 ↔ f.format.bytesPerPixel = 4 := pixelShift_eq_two
  have hquick (hslow : fastAddress f = false) : False :=
    Bool.false_ne_true (hslow.symm.trans hfast)
  refine putFound (c := .instr (.shift .shl true g (pixelShift f.format)) .done) ⟨rfl, trivial⟩
    (fun _ => rfl) rfl rfl (fun i hi => ?_) ⟨fun hslow => (hquick hslow).elim, fun _ h4 => ?_⟩
  · rw [List.mem_singleton.mp hi]
    refine ⟨?_, ?_, rfl⟩
    · rintro (⟨r, b, hr⟩ | ⟨r, b, hr⟩) <;> cases hr
    · rintro ⟨r, hr⟩
      exact hwide.mp (Instr.shift.inj hr).2.2.2
  · exact ⟨_, List.mem_singleton_self _, g, congrArg (Instr.shift .shl true g) (hwide.mpr h4)⟩

/-- The color address is made of the index, if the depth address is not made of it or has
been made already. -/
theorem fastTail {state y : Reg} (hfast : fastAddress env.features = true)
    (hdeep : needsDepthAddr env.features = true → w.ways.deep = true) : Tells env.features e w (do
      Emit.op (.shift .shl true y (pixelShift env.features.format))
      Emit.op (.aluLoad .add .qword y (atOffset state DrawState.fbBaseAt))
      Emit.unlock .stateBase
      Emit.rename .argY .colorAddr
      Emit.retain .colorAddr
      Pure.pure y) [] fun _ e₁ w₁ => e₁ = e ∧ w₁ = (w.set .depthAddr .behind).set .colorAddr .behind := by
  refine (scaleWay hfast).bind fun _ e₁ w₁ h => ?_
  obtain ⟨rfl, rfl⟩ := h
  refine behind inferInstance fun _ => behind inferInstance fun _ => ?_
  have hdeep' : needsDepthAddr env.features = true → (w.set .depthAddr .behind).ways.deep = true := hdeep
  refine (renameColor (o := .argY) hfast hdeep').bind fun _ e₂ w₂ h => ?_
  obtain ⟨rfl, rfl⟩ := h
  exact Shows.tells

theorem fastColorAddr [e.HoldsStencil w] (hfast : fastAddress env.features = true) :
    (fastColorAddr env).Tells env.features e w [] fun _ e₁ w₁ => e₁ = e ∧
      w₁.Covers (w.set .colorAddr .behind) ∧ (needsDepthAddr env.features = true →
        w₁.Covers ((w.set .depthAddr .behind).set .colorAddr .behind)) := by
  unfold Compile.fastColorAddr
  refine behind inferInstance fun x => ?_
  refine findGen.bind fun y e₁ w₁ h => ?_
  obtain ⟨rfl, rfl, hy, -⟩ := h
  have := Reg.Indexes.mk hy
  refine behind inferInstance fun _ => behind inferInstance fun _ => behind inferInstance fun _ =>
    behind inferInstance fun state => ?_
  cases hneeds : needsDepthAddr env.features with
  | true =>
    rw [if_pos rfl]
    refine behind inferInstance fun _ => behind inferInstance fun _ => ?_
    refine (renameDepth (o := .argX)).bind fun _ e₂ w₂ h => ?_
    obtain ⟨rfl, rfl⟩ := h
    refine behind inferInstance fun _ => (fastTail env hfast fun _ => rfl).mono fun _ e₃ w₃ h => ?_
    obtain ⟨rfl, rfl⟩ := h
    have hdeep : Ties.Covers (Ties.set { w₁ with ways := { w₁.ways with deep := true, depth := .owed } }
        .depthAddr .behind) (w₁.set .depthAddr .behind) :=
      ⟨rfl, rfl, rfl, id, fun _ => rfl, fun r => .inr (by cases r <;> rfl)⟩
    exact ⟨rfl, (hdeep.trans (w₁.covers_behind (by decide))).set (by decide) .behind,
      fun _ => hdeep.set (by decide) .behind⟩
  | false =>
    rw [if_neg Bool.false_ne_true]
    have hnot (h : needsDepthAddr env.features = true) : w₁.ways.deep = true :=
      absurd (hneeds.symm.trans h) Bool.false_ne_true
    refine behind inferInstance fun _ => (fastTail env hfast hnot).mono fun _ e₃ w₃ h => ?_
    obtain ⟨rfl, rfl⟩ := h
    exact ⟨rfl, (w₁.covers_behind (by decide)).set (by decide) .behind,
      fun h => absurd h Bool.false_ne_true⟩

/-! ## Both ways -/

/-- The way to an address that is in a register is behind. -/
theorem findWay {r : Role} {d : Draft} {x : Emission Reg} (hd : d.table.Tied f w)
    (hhas : d.table.has r = true) (hw : w.ways.way r ≠ .owed) (hx : Emit.findGen r d = .ok x) :
    ∃ e' w', x.code.Told f e d.table w.ways [] e' x.draft.table w'.ways ∧ x.draft.table.Tied f w' ∧
      e' = e ∧ w' = w.set r .behind := by
  obtain ⟨e', w', htold, htied, rfl, rfl, -⟩ := findGen (e := e) d x hd hx
  refine ⟨e', w'.set r .behind, ⟨htold.encodable, htold.whole, htold.sees, htold.after, htold.apt,
    fun q hq => ?_⟩, htied.set r .behind, rfl, rfl⟩
  by_cases he : q = r
  · subst he
    refine .inl ?_
    unfold RoleTable.Reached
    split
    · exact hhas
    · exact absurd ‹_› hw
    · trivial
  · have hway : (w'.set r .behind).ways.way q = w'.ways.way q := Ways.way_set_ne _ _ he
    unfold RoleTable.Reached at hq
    rw [hway] at hq
    exact htold.found q hq

/-- The color address, with the way to it behind. -/
theorem colorAddr [e.HoldsStencil w] (hw : w.ways.color ≠ .owed) :
    (colorAddr env).Tells env.features e w [] fun _ e₁ w₁ => e₁ = e ∧ w₁ = w.set .colorAddr .behind := by
  intro d x hd hx
  rw [Compile.colorAddr, has_bind] at hx
  cases hhas : d.table.has .colorAddr with
  | true =>
    rw [hhas, if_pos rfl] at hx
    exact findWay hd hhas hw hx
  | false =>
    rw [hhas, if_neg Bool.false_ne_true] at hx
    cases hfast : fastAddress env.features with
    | true =>
      rw [hfast, if_pos rfl] at hx
      have hm : (Compile.fastColorAddr env).Tells env.features e w [] fun _ e₁ w₁ =>
          e₁ = e ∧ w₁ = w.set .colorAddr .behind :=
        (fastColorAddr env hfast).weaken fun _ _ _ h => ⟨_, h.2.1, h.1, rfl⟩
      exact hm d x hd hx
    | false =>
      rw [hfast, if_neg Bool.false_ne_true] at hx
      exact newAddress env hfast (by decide) pixelShift_eq_two.mp d x hd hx

/-- The depth address, with the way to it behind. -/
theorem depthAddr [e.HoldsStencil w] (hneeds : needsDepthAddr env.features = true)
    (hp : w.ways.paired = true) (hw : w.ways.depth ≠ .owed) :
    (depthAddr env).Tells env.features e w [] fun _ e₁ w₁ => e₁ = e ∧ w₁ = w.set .depthAddr .behind := by
  intro d x hd hx
  rw [Compile.depthAddr, has_bind] at hx
  cases hhas : d.table.has .depthAddr with
  | true =>
    rw [hhas, if_pos rfl] at hx
    exact findWay hd hhas hw hx
  | false =>
    rw [hhas, if_neg Bool.false_ne_true, has_bind] at hx
    cases hfast : fastAddress env.features with
    | true =>
      have hcolor : d.table.has .colorAddr = false := Bool.eq_false_iff.mpr fun hcolor =>
        Bool.eq_false_iff.mp hhas (hd.paired hp hfast hneeds hcolor)
      have hcode : Compile.colorAddr env d = Compile.fastColorAddr env d := by
        rw [Compile.colorAddr, has_bind, hcolor, if_neg Bool.false_ne_true, if_pos hfast]
      rw [hfast, hcolor, if_pos (by decide), bind_congr_at hcode] at hx
      have hm : Tells env.features e w (do
          let _ ← Compile.fastColorAddr env
          Emit.unlock .colorAddr
          Emit.findGen .depthAddr) [] fun _ e₁ w₁ => e₁ = e ∧ w₁ = w.set .depthAddr .behind := by
        refine (fastColorAddr env hfast).bind_nothing fun _ e₁ w₁ h => ?_
        obtain ⟨rfl, -, hboth⟩ := h
        refine Tells.weaken (Shows.tells (m := Emit.unlock .colorAddr >>= fun _ => Emit.findGen .depthAddr))
          fun _ e₂ w₂ h => ?_
        obtain ⟨rfl, rfl⟩ := h
        exact ⟨_, (hboth hneeds).trans (Ties.covers_behind _ (by decide)), rfl, rfl⟩
      exact hm d x hd hx
    | false =>
      rw [hfast, if_neg (by simp)] at hx
      exact newAddress env hfast (by decide) (fun h => absurd h (by decide)) d x hd hx

end Tells

namespace Shows

variable (env : Env)

/-- A way that was settled is said to be settled. -/
instance colorAddr {color stored : Option Xmm} {stencil : Option Reg} {paired deep : Bool} {depth : Way}
    [e.HoldsStencil ⟨color, stored, stencil, ⟨paired, deep, .settled, depth⟩⟩] :
    Shows env.features e ⟨color, stored, stencil, ⟨paired, deep, .settled, depth⟩⟩ (colorAddr env) [] e
      ⟨color, stored, stencil, ⟨paired, deep, .settled, depth⟩⟩ :=
  ⟨(Tells.colorAddr env (fun h => by cases h)).weaken fun _ _ _ h =>
    ⟨_, h.2 ▸ Ties.covers_behind _ (by decide), h.1, rfl⟩⟩

/-- The depth address is asked for by a test that may not be the last to do so. -/
theorem depthAddr {color stored : Option Xmm} {stencil : Option Reg} {deep : Bool} {way : Way}
    [e.HoldsStencil ⟨color, stored, stencil, ⟨true, deep, way, .settled⟩⟩]
    (hneeds : needsDepthAddr env.features = true) :
    Shows env.features e ⟨color, stored, stencil, ⟨true, deep, way, .settled⟩⟩ (depthAddr env) [] e
      ⟨color, stored, stencil, ⟨true, deep, way, .settled⟩⟩ :=
  ⟨(Tells.depthAddr env hneeds rfl (fun h => by cases h)).weaken fun _ _ _ h =>
    ⟨_, h.2 ▸ Ties.covers_behind _ (by decide), h.1, rfl⟩⟩

end Shows

end Emit

end PixelPipeline
