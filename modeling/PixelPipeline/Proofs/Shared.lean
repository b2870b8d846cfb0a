/-
# Proofs.Shared — what all stages rely on

Between stages the values that can be made again are unlocked (`View.Idle`),
and what a stage leaves to the next is in a few lasting roles; a stage says
which of them it changes (`View.Keeps`).  The register block, the key and the
constants lie where nothing is stored, so they read at any time as they did on
entry.
-/
import PixelPipeline.Proofs.Effects
import PixelPipeline.Proofs.Lanes

namespace PixelPipeline

open X86 Compile

/-! ## Between stages -/

/-- Roles that carry something from one stage to another. -/
def Role.lasting : List Role :=
  [.argX, .argY, .argZ, .argFog, .argColor, .argKey, .colorAddr, .depthAddr, .stencil, .vecColor]

/-- What can be made again is unlocked. -/
structure View.Idle (s : View) : Prop where
  state : s.roles .stateBase = .unknown
  pool : s.roles .poolBase = .unknown
  zero : s.roles .vecZero = .unknown

/-- All lasting roles but some are as before, and so is memory; what can be
made again is unlocked. -/
structure View.Keeps (rs : List Role) (s s' : View) : Prop where
  idle : s'.Idle
  roles : ∀ r ∈ Role.lasting, r ∉ rs → s'.roles r = s.roles r
  mem : s'.mem = s.mem
  wide : .vecColor ∉ rs → s'.wide = s.wide

/-- Every role but some is as before, and so is memory. -/
structure View.Frame (rs : List Role) (s s' : View) : Prop where
  roles : ∀ r, r ∉ rs → s'.roles r = s.roles r
  mem : s'.mem = s.mem
  wide : s'.wide = s.wide

/-- The role has a general register with a value. -/
def View.Has (s : View) (r : Role) (v : BitVec 64) : Prop := ∃ g, s.roles r = .word g v

/-- The working color shows four integers, as far as that matters. -/
def Setting.Colored (k : Setting) (s : View) (c : Fin 4 → Int) : Prop :=
  ∃ x v, s.roles .vecColor = .lanes x v ∧ (k.exact → Lanes.Shows s.wide v c)

namespace View

variable {s s' s'' : View} {rs : List Role}

theorem Idle.keeps (h : s.Idle) (rs : List Role) : s.Keeps rs s :=
  ⟨h, fun _ _ _ => rfl, rfl, fun _ => rfl⟩

theorem Keeps.trans (h : s.Keeps rs s') (h' : s'.Keeps rs s'') : s.Keeps rs s'' :=
  ⟨h'.idle, fun r hr hn => (h'.roles r hr hn).trans (h.roles r hr hn), h'.mem.trans h.mem,
    fun hn => (h'.wide hn).trans (h.wide hn)⟩

theorem Keeps.mono {rs' : List Role} (h : s.Keeps rs s') (hsub : ∀ r ∈ rs, r ∈ rs') :
    s.Keeps rs' s' :=
  ⟨h.idle, fun r hr hn => h.roles r hr fun hm => hn (hsub r hm), h.mem,
    fun hn => h.wide fun hm => hn (hsub _ hm)⟩

theorem Keeps.of_set {r : Role} {h : Held} (hk : (s.set r h).Keeps rs s') (hr : r ∈ rs) :
    s.Keeps rs s' :=
  ⟨hk.idle, fun r' hl hn => (hk.roles r' hl hn).trans (roles_set_ne (by rintro rfl; exact hn hr) h),
    hk.mem, hk.wide⟩

theorem Keeps.set {r : Role} {h : Held} (hk : s.Keeps rs s')
    (hr : r ∈ Role.lasting → r ∈ rs) (hn : r.isReconstructible = false) :
    s.Keeps rs (s'.set r h) := by
  have hidle {q : Role} (hq : q.isReconstructible = true) : (s'.set r h).roles q = s'.roles q :=
    roles_set_ne (by rintro rfl; rw [hn] at hq; cases hq) h
  refine ⟨⟨(hidle rfl).trans hk.idle.state, (hidle rfl).trans hk.idle.pool,
    (hidle rfl).trans hk.idle.zero⟩, fun r' hl hr' => ?_, hk.mem, hk.wide⟩
  exact (roles_set_ne (by rintro rfl; exact hr' (hr hl)) h).trans (hk.roles r' hl hr')

theorem Keeps.setFlags (h : s.Keeps rs s') (f : Flags) : s.Keeps rs (s'.setFlags f) :=
  ⟨⟨h.idle.state, h.idle.pool, h.idle.zero⟩, h.roles, h.mem, h.wide⟩

theorem Keeps.has {r : Role} {v : BitVec 64} (h : s.Keeps rs s') (hr : s.Has r v)
    (hl : r ∈ Role.lasting) (hn : r ∉ rs) : s'.Has r v := by
  obtain ⟨g, hg⟩ := hr
  exact ⟨g, (h.roles r hl hn).trans hg⟩

theorem Keeps.colored {k : Setting} {c : Fin 4 → Int} (h : s.Keeps rs s') (hc : k.Colored s c)
    (hn : .vecColor ∉ rs) : k.Colored s' c := by
  obtain ⟨x, v, hr, hv⟩ := hc
  exact ⟨x, v, (h.roles .vecColor (by decide) hn).trans hr, (h.wide hn).symm ▸ hv⟩

/-! ### Frames -/

theorem Frame.refl (s : View) (rs : List Role) : s.Frame rs s := ⟨fun _ _ => rfl, rfl, rfl⟩

theorem Frame.trans (h : s.Frame rs s') (h' : s'.Frame rs s'') : s.Frame rs s'' :=
  ⟨fun r hn => (h'.roles r hn).trans (h.roles r hn), h'.mem.trans h.mem, h'.wide.trans h.wide⟩

theorem Frame.mono {rs' : List Role} (h : s.Frame rs s') (hsub : ∀ r ∈ rs, r ∈ rs') :
    s.Frame rs' s' :=
  ⟨fun r hn => h.roles r fun hm => hn (hsub r hm), h.mem, h.wide⟩

theorem Frame.set {r : Role} (h : s.Frame rs s') (hr : r ∈ rs) (held : Held) :
    s.Frame rs (s'.set r held) :=
  ⟨fun _ hn => (roles_set_ne (by rintro rfl; exact hn hr) held).trans (h.roles _ hn), h.mem, h.wide⟩

theorem Frame.setFlags (h : s.Frame rs s') (f : Flags) : s.Frame rs (s'.setFlags f) :=
  ⟨h.roles, h.mem, h.wide⟩

theorem Frame.idle (h : s.Frame rs s') (hs : s.Idle)
    (hrs : ∀ r ∈ rs, r.isReconstructible = false) : s'.Idle := by
  have hsame {q : Role} (hq : q.isReconstructible = true) : s'.roles q = s.roles q :=
    h.roles q fun hm => by rw [hrs q hm] at hq; cases hq
  exact ⟨(hsame rfl).trans hs.state, (hsame rfl).trans hs.pool, (hsame rfl).trans hs.zero⟩

theorem Frame.keeps {rs' : List Role} (h : s.Frame rs s') (hs : s.Idle)
    (hrs : ∀ r ∈ rs, r.isReconstructible = false ∧ (r ∈ Role.lasting → r ∈ rs')) :
    s.Keeps rs' s' :=
  ⟨h.idle hs fun r hr => (hrs r hr).1,
    fun r hl hn => h.roles r fun hm => hn ((hrs r hm).2 hl), h.mem, fun _ => h.wide⟩

/-- A role set to what it holds. -/
theorem set_self {r : Role} {h : Held} (hr : s.roles r = h) : s.set r h = s := by
  subst hr
  simp only [set]
  congr 1
  funext r'
  split
  · rename_i he
    rw [he]
  · rfl

theorem set_wide_self {r : Role} {h : Held} (hr : s.roles r = h) :
    (s.set r h).setWide s.wide = s := congrArg (setWide · s.wide) (set_self hr)

end View

/-! ## What lies where nothing is stored -/

namespace Setting

variable {k : Setting} {m : Memory}

theorem Later.read16 (hm : k.Later m) {a : Address} (h : ¬k.Writable a) (h' : ¬k.Writable (a + 1)) :
    m.read16 a = k.entry.mem.read16 a := by
  unfold Memory.read16
  rw [hm.read_eq h, hm.read_eq h']

theorem Later.read32 (hm : k.Later m) {a : Address}
    (h : ∀ i, i < 4 → ¬k.Writable (a + BitVec.ofNat 64 i)) :
    m.read32 a = k.entry.mem.read32 a := by
  have h₀ := h 0 (by decide)
  rw [show a + BitVec.ofNat 64 0 = a from BitVec.add_zero a] at h₀
  unfold Memory.read32
  rw [hm.read_eq h₀, hm.read_eq (a := a + 1) (h 1 (by decide)),
    hm.read_eq (a := a + 2) (h 2 (by decide)), hm.read_eq (a := a + 3) (h 3 (by decide))]

theorem Later.read64 (hm : k.Later m) {a : Address}
    (h : ∀ i, i < 8 → ¬k.Writable (a + BitVec.ofNat 64 i)) :
    m.read64 a = k.entry.mem.read64 a := by
  have h₀ := h 0 (by decide)
  rw [show a + BitVec.ofNat 64 0 = a from BitVec.add_zero a] at h₀
  unfold Memory.read64
  rw [hm.read_eq h₀, hm.read_eq (a := a + 1) (h 1 (by decide)),
    hm.read_eq (a := a + 2) (h 2 (by decide)), hm.read_eq (a := a + 3) (h 3 (by decide)),
    hm.read_eq (a := a + 4) (h 4 (by decide)), hm.read_eq (a := a + 5) (h 5 (by decide)),
    hm.read_eq (a := a + 6) (h 6 (by decide)), hm.read_eq (a := a + 7) (h 7 (by decide))]

theorem add_ofNat_add (a : Address) (n i : Nat) :
    a + BitVec.ofNat 64 n + BitVec.ofNat 64 i = a + BitVec.ofNat 64 (n + i) := by
  rw [BitVec.add_assoc, ← BitVec.ofNat_add]

section

variable (hk : k.Sound) (hm : k.Later m)

include hk hm

theorem Later.state8 {n : Nat} (hn : n < 54) :
    m.read (k.env.addresses.state + BitVec.ofNat 64 n) =
      k.entry.mem.read (k.env.addresses.state + BitVec.ofNat 64 n) :=
  hm.read_eq (hk.state n hn)

theorem Later.state16 {n : Nat} (hn : n < 53) :
    m.read16 (k.env.addresses.state + BitVec.ofNat 64 n) =
      k.entry.mem.read16 (k.env.addresses.state + BitVec.ofNat 64 n) :=
  hm.read16 (hk.state n (by omega)) ((add_ofNat_add _ n 1).symm ▸ hk.state (n + 1) (by omega))

theorem Later.state32 {n : Nat} (hn : n < 51) :
    m.read32 (k.env.addresses.state + BitVec.ofNat 64 n) =
      k.entry.mem.read32 (k.env.addresses.state + BitVec.ofNat 64 n) :=
  hm.read32 fun i hi => (add_ofNat_add _ n i).symm ▸ hk.state (n + i) (by omega)

theorem Later.state64 {n : Nat} (hn : n < 47) :
    m.read64 (k.env.addresses.state + BitVec.ofNat 64 n) =
      k.entry.mem.read64 (k.env.addresses.state + BitVec.ofNat 64 n) :=
  hm.read64 fun i hi => (add_ofNat_add _ n i).symm ▸ hk.state (n + i) (by omega)

theorem Later.key8 {n : Nat} (hn : n < 28) :
    m.read (k.key + BitVec.ofNat 64 n) = k.entry.mem.read (k.key + BitVec.ofNat 64 n) :=
  hm.read_eq (hk.key n hn)

theorem Later.writeMask :
    m.read32 (k.key + BitVec.ofNat 64 Key.writeMaskAt) = k.fragment.constants.writeMask :=
  hm.read32 fun i hi => (add_ofNat_add _ Key.writeMaskAt i).symm ▸
    hk.key (Key.writeMaskAt + i) (by unfold Key.writeMaskAt; omega)

end

end Setting

/-! ## Shared values -/

namespace Setting

variable {k : Setting} {s : View} {L : Memory → Prop}

theorem stateBase_leads {Q : Reg → View → Prop} (hs : s.roles .stateBase = .unknown)
    (h : ∀ g f, Q g ((s.set .stateBase (.word g k.env.addresses.state)).setFlags f)) :
    k.Leads (stateBase k.env) s Q L := by
  refine .bind (.has_any fun b => ?_)
  cases b with
  | true => exact .findGen_made rfl hs fun g => h g s.flags
  | false =>
    refine .bind (.allocGen fun g v => .bind (.movConst (r := .stateBase) rfl fun f => .pure ?_))
    have := h g f
    rwa [View.set_set]

theorem poolBase_leads {Q : Reg → View → Prop} (hs : s.roles .poolBase = .unknown)
    (h : ∀ g f, Q g ((s.set .poolBase (.word g k.env.addresses.pool)).setFlags f)) :
    k.Leads (poolBase k.env) s Q L := by
  refine .bind (.has_any fun b => ?_)
  cases b with
  | true => exact .findGen_made rfl hs fun g => h g s.flags
  | false =>
    refine .bind (.allocGen fun g v => .bind (.movConst (r := .poolBase) rfl fun f => .pure ?_))
    have := h g f
    rwa [View.set_set]

theorem zeroVec_leads {Q : Xmm → View → Prop} (hs : s.roles .vecZero = .unknown)
    (h : ∀ x, Q x (s.set .vecZero (.lanes x .zero))) : k.Leads zeroVec s Q L := by
  refine .bind (.has_any fun b => ?_)
  cases b with
  | true => exact .findVec_zero hs h
  | false =>
    refine .bind (.allocVec fun x v => .bind (.packed (r := .vecZero) (q := .vecZero) rfl rfl
      (.pure ?_)))
    have := h x
    rwa [View.set_set, Lanes.packed_pxor_self]

/-- A value that was made for a while leaves nothing behind. -/
theorem forget {r q : Role} {a b : Held} (hq : s.roles q = .unknown) (hne : r ≠ q) (f : Flags) :
    ((((s.set q a).setFlags f).set r b).set q .unknown) = (s.set r b).setFlags f := by
  simp only [View.set, View.setFlags]
  congr 1
  funext r'
  by_cases h₁ : r' = q
  · subst h₁
    rw [if_pos rfl, if_neg (Ne.symm hne), hq]
  · simp only [if_neg h₁]

theorem aligned_add {a : Address} (ha : Cpu.aligned a = true) (j : Nat) :
    Cpu.aligned (a + BitVec.ofNat 64 (16 * j)) = true := by
  simp only [Cpu.aligned, beq_iff_eq, ← BitVec.toNat_inj, BitVec.extractLsb'_toNat,
    Nat.shiftRight_zero, BitVec.toNat_add, BitVec.toNat_ofNat] at ha ⊢
  omega

/-- A vector constant fills its lanes. -/
theorem pool_has {m : Memory} {j : Nat} (hk : k.Sound) (he : k.exact) (hm : k.Later m)
    (hj : j < 4) : Lanes.Has (Cpu.lanesAt m (k.env.addresses.pool + BitVec.ofNat 64 (16 * j)))
      fun _ => (VectorPool.values.getD j 0).toNat := by
  have hbytes : ∀ j, j < 4 → ∀ i, i < 4 →
      VectorPool.bytes[16 * j + 2 * i]? = (le16 (VectorPool.values.getD j 0))[0]? ∧
        VectorPool.bytes[16 * j + 2 * i + 1]? = (le16 (VectorPool.values.getD j 0))[1]? := by
    decide
  intro i
  obtain ⟨h₀, h₁⟩ := hbytes j hj i i.isLt
  have hat : k.env.addresses.pool + BitVec.ofNat 64 (16 * j) +
      ((BitVec.ofNat 3 i).setWidth 64 <<< 1) =
        k.env.addresses.pool + BitVec.ofNat 64 (16 * j + 2 * i) := by
    rw [BitVec.add_assoc, BitVec.ofNat_add]
    obtain rfl | rfl | rfl | rfl := Lanes.four i <;> rfl
  have hread (n : Nat) (hn : n < 64) : m.read (k.env.addresses.pool + BitVec.ofNat 64 n) =
      k.entry.mem.read (k.env.addresses.pool + BitVec.ofNat 64 n) := hm.read_eq (hk.pool he n hn)
  rw [Cpu.lanesAt, Lanes.lane_ofFn, hat, Memory.read16, hread _ (by omega),
    show k.env.addresses.pool + BitVec.ofNat 64 (16 * j + 2 * i) + 1 =
      k.env.addresses.pool + BitVec.ofNat 64 (16 * j + 2 * i + 1) from add_ofNat_add _ _ 1,
    hread _ (by omega), hk.constants he _ _ h₀, hk.constants he _ _ h₁]
  exact congrArg BitVec.toNat (word16_le16 _)

/-- A vector constant in a new register. -/
theorem loadConst_leads {r : Role} {j : Nat} {Q : Xmm → View → Prop} (hk : k.Sound)
    (hs : s.roles .poolBase = .unknown) (hr : r ≠ .poolBase) (hj : j < 4)
    (h : ∀ x f, Q x ((s.set r (.lanes x (Cpu.lanesAt s.mem
      (k.env.addresses.pool + BitVec.ofNat 64 (16 * j))))).setFlags f)) :
    k.Leads (loadConst k.env r (16 * j)) s Q L := by
  refine .bind (.allocVec fun x v => .bind (poolBase_leads ?_ fun g f => ?_))
  · rw [View.roles_set, if_neg (Ne.symm hr), hs]
  · refine .bind (.packedLoad (r := r) (u := v) ?_ (.offset (r := .poolBase) rfl (by omega))
      (aligned_add hk.aligned j) rfl ?_)
    · show (if r = .poolBase then _ else if r = r then _ else _) = _
      rw [if_neg hr, if_pos rfl]
    · refine .bind (.unlock_made (g := g) rfl ?_ (.pure ?_))
      · rw [View.roles_set, if_neg (Ne.symm hr)]
        rfl
      · rw [forget (by rw [View.roles_set, if_neg (Ne.symm hr), hs]) hr, View.set_set]
        exact h x f

/-- Bytes widened to words. -/
theorem widenBytes_leads {r : Role} {x : Xmm} {v : Lanes} {Q : Unit → View → Prop}
    (hs : s.roles .vecZero = .unknown) (hne : r ≠ .vecZero) (hr : s.roles r = .lanes x v)
    (h : Q () (s.set r (.lanes x (Lanes.packed .punpcklbw v .zero)))) :
    k.Leads (widenBytes x) s Q L := by
  refine .bind (zeroVec_leads hs fun z => .bind (.packed (r := r) (q := .vecZero) (u := v) ?_ rfl ?_))
  · rw [View.roles_set, if_neg hne, hr]
  · refine .unlock_zero (x := z) ?_ ?_
    · show (if Role.vecZero = r then _ else _) = _
      rw [if_neg (Ne.symm hne)]
      rfl
    · exact forget (a := .lanes z .zero) hs hne s.flags ▸ h

/-! ### The working color -/

/-- The color is in 16-bit lanes from here on. -/
theorem expandColor_leads {x : Xmm} {v : Lanes} {c : Fin 4 → Int} {Q : Unit → View → Prop}
    (hs : s.Idle) (hr : s.roles .vecColor = .lanes x v) (hv : k.exact → Lanes.Shows s.wide v c)
    (h : ∀ v', (k.exact → Lanes.Shows true v' c) →
      Q () ((s.set .vecColor (.lanes x v')).setWide true)) :
    k.Leads (expandColor x) s Q L := by
  refine .bind (.isWide ?_)
  cases hw : s.wide with
  | true =>
    refine .pure ?_
    have := h v (fun he => hw ▸ hv he)
    rwa [← hw, View.set_wide_self hr] at this
  | false =>
    refine .bind (widenBytes_leads hs.zero (by decide) hr (.setWide ?_))
    exact h _ fun he => (hw ▸ hv he).widen

/-- The color is in packed bytes from here on, each lane cut to a byte. -/
theorem packColor_leads {x : Xmm} {v : Lanes} {c : Fin 4 → Int} {Q : Unit → View → Prop}
    (hr : s.roles .vecColor = .lanes x v) (hv : k.exact → Lanes.Shows s.wide v c)
    (h : ∀ v', (k.exact → Lanes.Shows false v' fun i => Lanes.clamp (c i)) →
      Q () ((s.set .vecColor (.lanes x v')).setWide false)) :
    k.Leads (Compile.packColor x) s Q L := by
  refine .bind (.isWide ?_)
  cases hw : s.wide with
  | true =>
    refine .bind (.packed hr hr (.setWide ?_))
    exact h _ fun he => (hw ▸ hv he).pack
  | false =>
    have hsame : (s.set .vecColor (.lanes x v)).setWide false = s := by
      rw [← hw]
      exact View.set_wide_self hr
    refine .pure ?_
    have := h v fun he => (hw ▸ hv he : Lanes.Shows false v c).of_eq fun i => ?_
    · rwa [hsame] at this
    · have hi : ((v.byteAt (.ofNat 4 i)).toNat : Int) = c i := (hw ▸ hv he : Lanes.Shows false v c) i
      have := (v.byteAt (.ofNat 4 i)).isLt
      unfold Lanes.clamp
      omega

end Setting

end PixelPipeline
