/-
# Proofs.Places — the addresses of the pixel

Both addresses are computed on first use, in one of two ways, and the fast way
takes the registers of the coordinates.  `Setting.Places` says what there is at
a point of the code: an address in a register, or the coordinates to compute it
from.  Each request leads to a register with the address that the pixel really
has, and keeps what there is.
-/
import PixelPipeline.Compile.Address
import PixelPipeline.Proofs.Shared

namespace PixelPipeline

open X86 Compile

/-! ## Address arithmetic -/

/-- An index scaled by a power of two is an offset in a buffer. -/
theorem shl_add_eq_elementAddress (base : Address) (i : BitVec 32) {n size : Nat} (hn : n ≤ 32)
    (hsize : size = 2 ^ n) : (i.setWidth 64 <<< n) + base = elementAddress base size i := by
  have hi := i.isLt
  subst hsize
  have hshift : i.setWidth 64 <<< n = BitVec.ofNat 64 (2 ^ n * i.toNat) := by
    apply BitVec.eq_of_toNat_eq
    have hpow : 2 ^ n ≤ 2 ^ 32 := Nat.pow_le_pow_right (by decide) hn
    rw [BitVec.toNat_shiftLeft, BitVec.toNat_setWidth, BitVec.toNat_ofNat, Nat.shiftLeft_eq,
      Nat.mod_eq_of_lt (show i.toNat < 2 ^ 64 by omega), Nat.mul_comm]
  rw [elementAddress, hshift, BitVec.add_comm]

/-- The index of a pixel, as the standard stride gives it. -/
theorem standard_index (x y : BitVec 32) : (y <<< 9) + x = pixelIndex standardStride x y := by
  rw [pixelIndex, BitVec.shiftLeft_eq_mul_twoPow]
  rfl

theorem pixelShift_pow (f : PixelFormat) : 2 ^ (pixelShift f).toNat = f.bytesPerPixel := by
  cases f <;> rfl

theorem pixelShift_le (f : PixelFormat) : (pixelShift f).toNat ≤ 32 := by
  cases f <;> decide

theorem pixelShift_ne_zero (f : PixelFormat) : (pixelShift f).toNat % 64 ≠ 0 := by
  cases f <;> decide

theorem pixelShift_mod (f : PixelFormat) : (pixelShift f).toNat % 64 = (pixelShift f).toNat := by
  cases f <;> rfl

/-- A condition is compiled only for a function that compares. -/
theorem compares_of_passCond {c : Comparison} {pass : Cond} (h : passCond c = some pass) :
    c.compares = true := by
  cases c <;> first | rfl | cases h

/-! ## What there is -/

namespace Setting

variable (k : Setting)

/-- The coordinates are in their registers. -/
def HasCoordinates (s : View) : Prop :=
  s.Has .argX (k.entry.reg .rdi) ∧ s.Has .argY (k.entry.reg .rsi)

/-- Roles that the addresses are in or come from. -/
def placeRoles : List Role := [.argX, .argY, .colorAddr, .depthAddr]

/-- Roles that the tests of stored values change. -/
def testedRoles : List Role := .stencil :: .argZ :: placeRoles

/-- What there is of the addresses: that of the pixel, that of its depth if
`depth` asks for it, and the coordinates themselves if `coordinates` does. -/
structure Places (depth coordinates : Prop) (s : View) : Prop where
  color : s.Has .colorAddr k.pixelAddress ∨ s.roles .colorAddr = .absent ∧ k.HasCoordinates s
  depth : depth → s.Has .depthAddr k.depthAddress ∨
    s.roles .depthAddr = .absent ∧ k.HasCoordinates s ∧
      (fastAddress k.features = true → s.roles .colorAddr = .absent)
  coordinates : coordinates → k.HasCoordinates s

variable {k} {s s' : View} {depth coordinates : Prop} {L : Memory → Prop}

theorem HasCoordinates.of_keeps {rs : List Role} (h : k.HasCoordinates s) (hs : s.Keeps rs s')
    (hx : .argX ∉ rs) (hy : .argY ∉ rs) : k.HasCoordinates s' :=
  ⟨hs.has h.1 (by decide) hx, hs.has h.2 (by decide) hy⟩

theorem Places.of_keeps {rs : List Role} (h : k.Places depth coordinates s) (hs : s.Keeps rs s')
    (hrs : ∀ r ∈ placeRoles, r ∉ rs) : k.Places depth coordinates s' := by
  have hx := hs.roles .argX (by decide) (hrs _ (by decide))
  have hy := hs.roles .argY (by decide) (hrs _ (by decide))
  have hc := hs.roles .colorAddr (by decide) (hrs _ (by decide))
  have hd := hs.roles .depthAddr (by decide) (hrs _ (by decide))
  obtain ⟨color, depth, coordinates⟩ := h
  unfold HasCoordinates View.Has at *
  rw [← hx, ← hy, ← hc] at color
  rw [← hx, ← hy, ← hc, ← hd] at depth
  rw [← hx, ← hy] at coordinates
  exact ⟨color, depth, coordinates⟩

theorem Places.weaken {depth' coordinates' : Prop} (h : k.Places depth coordinates s)
    (hd : depth' → depth) (hc : coordinates' → coordinates) : k.Places depth' coordinates' s :=
  ⟨h.color, fun h' => h.depth (hd h'), fun h' => h.coordinates (hc h')⟩

/-! ## The general way -/

/-- The element of a buffer, from the stride and the base in the block. -/
theorem generalAddress_leads {r : Role} {g : Reg} {v : BitVec 64} {strideAt baseAt : Nat}
    {shift : BitVec 8} {Q : Unit → View → Prop} (hk : k.Sound) (hs : s.Idle)
    (hargs : k.HasCoordinates s) (hr : s.roles r = .word g v)
    (hplace : r = .colorAddr ∨ r = .depthAddr) (hstride : strideAt < 53) (hbase : baseAt < 47)
    (hshift : shift.toNat % 64 ≠ 0) (hle : shift.toNat ≤ 32)
    (h : ∀ s', s.Keeps [r] s' → s'.roles r = .word g (elementAddress
      (k.entry.mem.read64 (k.env.addresses.state + BitVec.ofNat 64 baseAt)) (2 ^ shift.toNat)
      (pixelIndex (k.entry.mem.read16 (k.env.addresses.state + BitVec.ofNat 64 strideAt))
        k.x k.y)) → Q () s') :
    k.Leads (generalAddress k.env g strideAt baseAt shift) s Q L := by
  obtain ⟨⟨gx, hx⟩, ⟨gy, hy⟩⟩ := hargs
  have hS : r ≠ .stateBase := by rintro rfl; simp at hplace
  have hX : r ≠ .argX := by rintro rfl; simp at hplace
  have hY : r ≠ .argY := by rintro rfl; simp at hplace
  refine .of_later fun hm => ?_
  refine .bind (stateBase_leads hs.state fun b f => ?_)
  refine .bind (.findGen (r := .argX) hx (.bind (.findGen (r := .argY) hy ?_)))
  refine .bind (.loadExt (r := r) (v := v) (by simp [hS, hr])
    (.offset (r := .stateBase) rfl (by omega))
    (congrArg (BitVec.setWidth 32) (hm.state16 hk hstride)) ?_)
  refine .bind (.imul (r := r) (q := .argY) (w := k.entry.reg .rsi) (View.roles_set_self r _)
    (by simp [hY.symm, hy]) fun f' => ?_)
  refine .bind (.alu (r := r) (q := .argX) (w := k.entry.reg .rdi) (o := .add) trivial
    (View.roles_set_self r _) (by simp [hX.symm, hx]) fun f' => ?_)
  refine .bind (.shiftWide (r := r) hshift (View.roles_set_self r _) fun f' => ?_)
  refine .bind (.addLoadWide (r := r) (View.roles_set_self r _)
    (.offset (r := .stateBase) (by simp [hS.symm]) (by omega)) (hm.state64 hk hbase) fun f' => ?_)
  refine .bind (.unlock rfl (.bind (.unlock rfl (.unlock_made (g := b) rfl (by simp [hS.symm]) ?_))))
  refine h _ ⟨⟨by simp, ?_, ?_⟩, ?_, rfl, fun _ => rfl⟩ ?_
  · obtain rfl | rfl := hplace <;> exact hs.pool
  · obtain rfl | rfl := hplace <;> exact hs.zero
  · intro r' hl hn
    have hne : r' ≠ .stateBase := by rintro rfl; revert hl; decide
    simp [show r' ≠ r by simpa using hn, hne]
  · simp only [View.roles_set, View.roles_setFlags, if_neg hS, if_true, Held.word.injEq, true_and]
    rw [← shl_add_eq_elementAddress _ _ hle rfl, Nat.mod_eq_of_lt (by omega)]
    simp [pixelIndex, BitVec.mul_comm]
    rfl

/-! ## The fast way -/

theorem strideOf_fast (h : fastAddress k.features = true) (stride : BitVec 16) :
    k.features.strideOf stride = standardStride := if_pos h

theorem strideOf_general (h : fastAddress k.features = false) (stride : BitVec 16) :
    k.features.strideOf stride = stride := if_neg (by rw [← Bool.not_eq_true] at h; exact h)

/-- Both addresses, in the registers of the coordinates. -/
theorem fastColorAddr_leads {Q : Reg → View → Prop} (hk : k.Sound) (hs : s.Idle)
    (hargs : k.HasCoordinates s) (hfast : fastAddress k.features = true)
    (h : ∀ g s', s.Keeps placeRoles s' → s'.roles .colorAddr = .word g k.pixelAddress →
      (needsDepthAddr k.features = true → s'.Has .depthAddr k.depthAddress) → Q g s') :
    k.Leads (fastColorAddr k.env) s Q L := by
  obtain ⟨⟨gx, hx⟩, ⟨gy, hy⟩⟩ := hargs
  refine .of_later fun hm => ?_
  refine .bind (.findGen (r := .argX) hx (.bind (.findGen (r := .argY) hy ?_)))
  refine .bind (.shift (r := .argY) (by decide) hy fun f₁ => ?_)
  refine .bind (.alu (r := .argY) (q := .argX) (o := .add) trivial rfl hx fun f₂ => ?_)
  refine .bind (.unlock rfl (.bind (stateBase_leads hs.state fun b f₃ => ?_)))
  -- the index, as it stands in the register of `y`
  have hindex (stride : BitVec 16) : AluOp.add.value (k.y <<< 9) k.x =
      pixelIndex (k.features.strideOf stride) k.x k.y :=
    (standard_index k.x k.y).trans (by rw [strideOf_fast hfast])
  rw [show ((AluOp.add.value _ _).setWidth 64 : BitVec 64) =
    (AluOp.add.value (k.y <<< 9) k.x).setWidth 64 by simp [ShiftOp.value, y, x, Cpu.reg32]]
  extract_lets jp
  have tail (s₁ : View) (hY : s₁.roles .argY = .word gy ((AluOp.add.value (k.y <<< 9) k.x).setWidth 64))
      (hS : s₁.roles .stateBase = .word b k.env.addresses.state)
      (hpool : s₁.roles .poolBase = .unknown) (hzero : s₁.roles .vecZero = .unknown)
      (hothers : ∀ r ∈ Role.lasting, r ∉ placeRoles → s₁.roles r = s.roles r)
      (hmem : s₁.mem = s.mem) (hwide : s₁.wide = s.wide)
      (hdepth : needsDepthAddr k.features = true → s₁.Has .depthAddr k.depthAddress) :
      k.Leads (jp ()) s₁ Q L := by
    refine .bind (.shiftWide (r := .argY) (pixelShift_ne_zero _) hY fun f => ?_)
    refine .bind (.addLoadWide (r := .argY) rfl (.offset (r := .stateBase) hS (by decide))
      ((congrArg (Memory.read64 · _) hmem).trans (hm.state64 hk (by decide))) fun f' => ?_)
    refine .bind (.unlock_made (g := b) rfl hS ?_)
    refine .bind (.rename (r := .argY) (g := gy) rfl rfl (.bind (.retain (.pure ?_))))
    refine h gy _ ⟨⟨rfl, hpool, hzero⟩, fun r hl hn => ?_, hmem, fun _ => hwide⟩ ?_ hdepth
    · rw [← hothers r hl hn]
      revert r
      simp [Role.lasting, placeRoles]
    · simp only [View.roles_set, if_true]
      rw [pixelAddress, Features.pixelAddress, ← hindex,
        ← shl_add_eq_elementAddress _ _ (pixelShift_le _) (pixelShift_pow _).symm]
      refine congrArg (fun v : BitVec 64 => Held.word gy (v + _)) ?_
      rw [pixelShift_mod]
      rfl
  split
  · refine .bind (.loadWide (r := .argX) hx (.offset (r := .stateBase) rfl (by decide))
      (hm.state64 hk (by decide)) ?_)
    refine .of_word (r := .argY) (g := gy) rfl fun hscratch => ?_
    refine .bind (.lea (r := .argX) rfl (.indexed (r := .argX) (q := .argY) rfl rfl hscratch (n := 0) (by decide)) ?_)
    refine .bind (.rename (r := .argX) (g := gx) rfl rfl (.bind (.retain ?_)))
    refine tail _ rfl rfl hs.pool hs.zero (by simp [Role.lasting, placeRoles]) rfl rfl fun _ => ⟨gx, ?_⟩
    simp only [View.roles_set, if_true]
    rw [depthAddress, Features.depthAddress, ← hindex,
      ← shl_add_eq_elementAddress (n := 1) _ _ (by decide) (by decide)]
    exact congrArg (Held.word gx) ((BitVec.add_zero _).trans (BitVec.add_comm _ _))
  · rename_i hneed
    refine .bind (.forceRelease ?_)
    exact tail _ rfl rfl hs.pool hs.zero (by simp [Role.lasting, placeRoles]) rfl rfl fun h => absurd h hneed

/-! ## On first use -/

/-- The address of the pixel, in a register. -/
theorem colorAddr_leads {Q : Reg → View → Prop} (hk : k.Sound) (hs : s.Idle)
    (hp : k.Places depth coordinates s) (hd : depth → needsDepthAddr k.features = true)
    (hc : coordinates → k.features.dither = true)
    (h : ∀ g s', s.Keeps placeRoles s' → s'.roles .colorAddr = .word g k.pixelAddress →
      k.Places depth coordinates s' → Q g s') : k.Leads (colorAddr k.env) s Q L := by
  rcases hp.color with ⟨g, hg⟩ | ⟨hnone, hargs⟩
  · exact .bind (.has_word hg (.findGen hg (h g s (hs.keeps _) hg hp)))
  refine .bind (.has_absent hnone ?_)
  cases hfast : fastAddress k.features with
  | true =>
    refine fastColorAddr_leads hk hs hargs hfast fun g s' hkeeps hg hdepth => ?_
    refine h g s' hkeeps hg ⟨.inl ⟨g, hg⟩, fun h => .inl (hdepth (hd h)), fun h => ?_⟩
    -- dithering never takes the fast way
    have := hc h
    simp [fastAddress, this] at hfast
  | false =>
    refine .bind (.allocGen fun g v => .bind ?_)
    refine generalAddress_leads hk ⟨hs.state, hs.pool, hs.zero⟩ hargs
      (View.roles_set_self .colorAddr _) (.inl rfl) (by decide) (by decide) (pixelShift_ne_zero _)
      (pixelShift_le _) fun s' hkeeps hg => .bind (.retain (.pure ?_))
    have hkeeps := hkeeps.of_set (by simp)
    rw [pixelShift_pow, ← strideOf_general hfast (k.entry.mem.read16 _)] at hg
    refine h g s' (hkeeps.mono (by simp [placeRoles])) hg ⟨.inl ⟨g, hg⟩, fun h => ?_, fun h => ?_⟩
    · rw [hfast]
      rcases hp.depth h with hheld | ⟨hnone, -, -⟩
      · exact .inl (hkeeps.has hheld (by decide) (by simp))
      · exact .inr ⟨(hkeeps.roles .depthAddr (by decide) (by simp)).trans hnone,
          hargs.of_keeps hkeeps (by simp) (by simp), nofun⟩
    · exact (hp.coordinates h).of_keeps hkeeps (by simp) (by simp)

/-- The address of the depth, in a register. -/
theorem depthAddr_leads {Q : Reg → View → Prop} (hk : k.Sound) (hs : s.Idle)
    (hp : k.Places True coordinates s) (hd : needsDepthAddr k.features = true)
    (hc : coordinates → k.features.dither = true)
    (h : ∀ g s', s.Keeps placeRoles s' → s'.roles .depthAddr = .word g k.depthAddress →
      k.Places True coordinates s' → Q g s') : k.Leads (depthAddr k.env) s Q L := by
  rcases hp.depth trivial with ⟨g, hg⟩ | ⟨hnone, hargs, hcolor⟩
  · exact .bind (.has_word hg (.findGen hg (h g s (hs.keeps _) hg hp)))
  refine .bind (.has_absent hnone ?_)
  cases hfast : fastAddress k.features with
  | true =>
    refine .bind (.has_absent (hcolor hfast) ?_)
    refine .bind (colorAddr_leads hk hs hp (fun _ => hd) hc fun g s' hkeeps hg hp' => ?_)
    refine .bind (.unlock rfl ?_)
    rcases hp'.depth trivial with ⟨g', hg'⟩ | ⟨-, -, hnone'⟩
    · exact .findGen hg' (h g' s' hkeeps hg' hp')
    · rw [hnone' hfast] at hg
      cases hg
  | false =>
    refine .bind (.has_any fun b => ?_)
    refine .bind (.allocGen fun g v => .bind ?_)
    refine generalAddress_leads hk ⟨hs.state, hs.pool, hs.zero⟩ hargs
      (View.roles_set_self .depthAddr _) (.inr rfl) (by decide) (by decide) (by decide)
      (by decide) fun s' hkeeps hg => .bind (.retain (.pure ?_))
    have hkeeps := hkeeps.of_set (by simp)
    rw [← strideOf_general hfast (k.entry.mem.read16 _)] at hg
    refine h g s' (hkeeps.mono (by simp [placeRoles])) hg ⟨?_, fun _ => .inl ⟨g, hg⟩, fun h => ?_⟩
    · rcases hp.color with hheld | ⟨hnone, hargs⟩
      · exact .inl (hkeeps.has hheld (by decide) (by simp))
      · exact .inr ⟨(hkeeps.roles .colorAddr (by decide) (by simp)).trans hnone,
          hargs.of_keeps hkeeps (by simp) (by simp)⟩
    · exact (hp.coordinates h).of_keeps hkeeps (by simp) (by simp)

end Setting

end PixelPipeline
