/-
# Proofs.View — what is known at a point of the code

Code is generated in terms of roles, so what is known while it runs is said in
terms of roles too.  A view gives each role what its register holds, if that is
known, together with flags and memory.  `Setting.Models` ties a view to the
role table of the compiler on one side and to the machine on the other.

A role whose value can be made again may lose its register at any allocation.
A view knows the register of such a role only while it is locked; otherwise all
that holds is that the register, if there is one, has the value that would be
made.
-/
import PixelPipeline.Compile.Env
import PixelPipeline.Proofs.Cpu
import PixelPipeline.Proofs.Reference
import PixelPipeline.Proofs.Table

namespace PixelPipeline

open X86 Compile

/-! ## Settings -/

/-- A stored pixel. -/
def PixelFormat.readPixel (f : PixelFormat) (m : Memory) (a : Address) : BitVec 32 :=
  if f.bytesPerPixel = 2 then (m.read16 a).setWidth 32 else m.read32 a

/-- The constants of a key that lies at an address. -/
def KeyConstants.read (m : Memory) (a : Address) : KeyConstants where
  dither := Vector.ofFn fun i => m.read (a + BitVec.ofNat 64 (Key.ditherAt + i))
  writeMask := m.read32 (a + BitVec.ofNat 64 Key.writeMaskAt)

theorem KeyConstants.read_dither (m : Memory) (a : Address) (i : Fin 16) :
    (read m a).dither.get i = m.read (a + BitVec.ofNat 64 (Key.ditherAt + i)) :=
  Vector.getElem_ofFn i.isLt

/-- What stays the same while a function runs: what it was compiled for, and
the state it was entered in. -/
structure Setting where
  env : Env
  entry : Cpu
  /-- The outcome matters, and not just that the function is safe to run. -/
  exact : Prop

namespace Setting

variable (k : Setting)

abbrev features : Features := k.env.features

/-- The address of the key. -/
def key : Address := k.entry.reg .r9

def block : RegisterBlock := .read k.entry.mem k.env.addresses.state

def x : BitVec 32 := k.entry.reg32 .rdi

def y : BitVec 32 := k.entry.reg32 .rsi

def pixelAddress : Address := k.features.pixelAddress k.block k.x k.y

def depthAddress : Address := k.features.depthAddress k.block k.x k.y

/-- The fragment that the function was called for. -/
def fragment : Fragment where
  block := k.block
  constants := .read k.entry.mem k.key
  x := k.x
  y := k.y
  z := k.entry.reg16 .rdx
  fog := k.entry.reg8 .rcx
  color := k.entry.reg32 .r8
  pixel := k.features.format.readPixel k.entry.mem k.pixelAddress
  depth := k.entry.mem.read16 k.depthAddress

/-- Where the function may store: to the pixel and to its depth. -/
def Writable (a : Address) : Prop :=
  InCell k.pixelAddress k.features.format.bytesPerPixel a ∨ InCell k.depthAddress 2 a

/-- What callers promise: data that the function reads does not lie where it
stores.  For the outcome to be exact the constants must be there, too, the two
cells must not overlap, and the fog must be a byte. -/
structure Sound : Prop where
  state : ∀ i, i < 54 → ¬k.Writable (k.env.addresses.state + BitVec.ofNat 64 i)
  key : ∀ i, i < 28 → ¬k.Writable (k.key + BitVec.ofNat 64 i)
  aligned : Cpu.aligned k.env.addresses.pool = true
  constants : k.exact → k.entry.mem.Holds k.env.addresses.pool VectorPool.bytes
  pool : k.exact → ∀ i, i < 64 → ¬k.Writable (k.env.addresses.pool + BitVec.ofNat 64 i)
  apart : k.exact → ∀ a, InCell k.pixelAddress k.features.format.bytesPerPixel a →
    ¬InCell k.depthAddress 2 a
  fog : k.exact → k.entry.reg32 .rcx = (k.entry.reg8 .rcx).setWidth 32

/-- Memory later in the run: stores went where they may. -/
abbrev Later (m : Memory) : Prop := k.entry.mem.Later k.Writable m

/-- The registers that are not scratch are as they were on entry. -/
def Kept (c : Cpu) : Prop := ∀ r, r ∉ scratchRegs → c.reg r = k.entry.reg r

end Setting

/-! ## Views -/

/-- What is known of a role. -/
inductive Held where
  | unknown
  /-- It has no register. -/
  | absent
  /-- It has a general register with a value. -/
  | word (r : Reg) (v : BitVec 64)
  /-- It has a vector register with a value. -/
  | lanes (x : Xmm) (v : Lanes)

/-- What is known at a point of the code. -/
structure View where
  roles : Role → Held
  flags : Flags
  mem : Memory
  /-- The working color holds 16-bit lanes. -/
  wide : Bool

namespace View

variable (s : View)

def set (r : Role) (h : Held) : View := { s with roles := fun r' => if r' = r then h else s.roles r' }

def setFlags (f : Flags) : View := { s with flags := f }

def setMem (m : Memory) : View := { s with mem := m }

def setWide (w : Bool) : View := { s with wide := w }

variable {s}

@[simp] theorem roles_set (r r' : Role) (h : Held) :
    (s.set r h).roles r' = if r' = r then h else s.roles r' := rfl
theorem roles_set_self (r : Role) (h : Held) : (s.set r h).roles r = h := if_pos rfl
theorem roles_set_ne {r r' : Role} (hne : r' ≠ r) (h : Held) :
    (s.set r h).roles r' = s.roles r' := if_neg hne
theorem set_set (r : Role) (h h' : Held) : (s.set r h).set r h' = s.set r h' := by
  simp only [set]
  congr 1
  funext r'
  split <;> rfl
@[simp] theorem flags_set (r : Role) (h : Held) : (s.set r h).flags = s.flags := rfl
@[simp] theorem mem_set (r : Role) (h : Held) : (s.set r h).mem = s.mem := rfl
@[simp] theorem wide_set (r : Role) (h : Held) : (s.set r h).wide = s.wide := rfl
@[simp] theorem roles_setFlags (f : Flags) : (s.setFlags f).roles = s.roles := rfl
@[simp] theorem flags_setFlags (f : Flags) : (s.setFlags f).flags = f := rfl
@[simp] theorem mem_setFlags (f : Flags) : (s.setFlags f).mem = s.mem := rfl
@[simp] theorem wide_setFlags (f : Flags) : (s.setFlags f).wide = s.wide := rfl
@[simp] theorem roles_setMem (m : Memory) : (s.setMem m).roles = s.roles := rfl
@[simp] theorem flags_setMem (m : Memory) : (s.setMem m).flags = s.flags := rfl
@[simp] theorem mem_setMem (m : Memory) : (s.setMem m).mem = m := rfl
@[simp] theorem wide_setMem (m : Memory) : (s.setMem m).wide = s.wide := rfl
@[simp] theorem roles_setWide (w : Bool) : (s.setWide w).roles = s.roles := rfl
@[simp] theorem flags_setWide (w : Bool) : (s.setWide w).flags = s.flags := rfl
@[simp] theorem mem_setWide (w : Bool) : (s.setWide w).mem = s.mem := rfl
@[simp] theorem wide_setWide (w : Bool) : (s.setWide w).wide = w := rfl

end View

/-! ## Models -/

/-- The value that is made for a role when it is needed. -/
def Setting.Canonical (k : Setting) (c : Cpu) (r : Role) (n : Nat) : Prop :=
  match r with
  | .stateBase => c.reg (.ofNat n) = k.env.addresses.state
  | .poolBase => c.reg (.ofNat n) = k.env.addresses.pool
  | .vecZero => c.vec (.ofNat n) = Lanes.zero
  | _ => True

/-- What is known of a role is true. -/
def Setting.Describes (k : Setting) (t : RoleTable) (c : Cpu) (r : Role) : Held → Prop
  | .unknown => ∀ b, t.find? r = some b → k.Canonical c r b.reg
  | .absent => t.find? r = none
  | .word g v => ∃ b, t.find? r = some b ∧ r.file = .general ∧ .ofNat b.reg = g ∧ c.reg g = v ∧
      (r.isReconstructible = true → 0 < b.locks)
  | .lanes x v => ∃ b, t.find? r = some b ∧ r.file = .vector ∧ .ofNat b.reg = x ∧ c.vec x = v ∧
      (r.isReconstructible = true → 0 < b.locks)

/-- A view of the machine under what the compiler knows. -/
structure Setting.Models (k : Setting) (d : Draft) (c : Cpu) (s : View) : Prop where
  wide : d.wideColor = s.wide
  flags : c.flags = s.flags
  mem : c.mem = s.mem
  later : k.Later s.mem
  kept : k.Kept c
  table : d.table.WellFormed
  pools : d.table.SamePools .fresh
  roles : ∀ r, k.Describes d.table c r (s.roles r)

/-! ## Registers of a table over the scratch registers -/

namespace RoleTable

variable {t : RoleTable}

theorem lt_of_allowed (hp : t.SamePools .fresh) {f : RegFile} {n : Nat} (h : t.Allowed f n) :
    n < 16 := by
  have small : ∀ n, n < 64 → (fresh.pool f).contains n = true → n < 16 := by
    cases f <;> decide
  rw [← hp.allowed] at h
  rcases h with h | ⟨-, h⟩
  · exact small n (RegSet.contains_lt h) h
  · revert n; decide

theorem scratch_of_allowed (hp : t.SamePools .fresh) {n : Nat} (h : t.Allowed .general n) :
    Reg.ofNat n ∈ scratchRegs := by
  have scratch : ∀ n, n < 64 → (fresh.pool .general).contains n = true →
      Reg.ofNat n ∈ scratchRegs := by decide
  rw [← hp.allowed] at h
  rcases h with h | ⟨-, h⟩
  · exact scratch n (RegSet.contains_lt h) h
  · revert n; decide

end RoleTable

theorem ofNat_inj {n m : Nat} (hn : n < 16) (hm : m < 16) (h : BitVec.ofNat 4 n = BitVec.ofNat 4 m) :
    n = m := by
  have := congrArg BitVec.toNat h
  rwa [BitVec.toNat_ofNat, BitVec.toNat_ofNat, Nat.mod_eq_of_lt hn, Nat.mod_eq_of_lt hm] at this

/-! ## Models under changes -/

/-- The machine has what a view says it has. -/
structure View.Fits (s : View) (c : Cpu) : Prop where
  flags : c.flags = s.flags
  mem : c.mem = s.mem
  word : ∀ {r g v}, s.roles r = .word g v → c.reg g = v
  lanes : ∀ {r x v}, s.roles r = .lanes x v → c.vec x = v

/-- A description holds on while the registers of the role keep their values. -/
theorem Setting.Describes.of_same {k : Setting} {t : RoleTable} {c c' : Cpu}
    {r : Role} {held : Held} (h : k.Describes t c r held)
    (hreg : ∀ b, t.find? r = some b → r.file = .general → c'.reg (.ofNat b.reg) = c.reg (.ofNat b.reg))
    (hvec : ∀ b, t.find? r = some b → r.file = .vector → c'.vec (.ofNat b.reg) = c.vec (.ofNat b.reg)) :
    k.Describes t c' r held := by
  cases held with
  | unknown =>
    intro b hb
    have := h b hb
    cases r
    case stateBase => exact (hreg b hb rfl).trans this
    case poolBase => exact (hreg b hb rfl).trans this
    case vecZero => exact (hvec b hb rfl).trans this
    all_goals trivial
  | absent => exact h
  | word g v =>
    obtain ⟨b, hb, hf, hg, hv, hl⟩ := h
    refine ⟨b, hb, hf, hg, ?_, hl⟩
    rw [← hg, hreg b hb hf, hg, hv]
  | lanes x v =>
    obtain ⟨b, hb, hf, hx, hv, hl⟩ := h
    refine ⟨b, hb, hf, hx, ?_, hl⟩
    rw [← hx, hvec b hb hf, hx, hv]

/-- A description holds on while the role keeps its register and its locks. -/
theorem Setting.Describes.of_map {k : Setting} {t t' : RoleTable} {c : Cpu} {r : Role}
    {held : Held} (h : k.Describes t c r held) {f : Binding → Binding}
    (hfind : t'.find? r = (t.find? r).map f) (hreg : ∀ b, (f b).reg = b.reg)
    (hlocks : r.isReconstructible = true → ∀ b, 0 < b.locks → 0 < (f b).locks) :
    k.Describes t' c r held := by
  cases held with
  | unknown =>
    intro b hb
    obtain ⟨b₁, hb₁, rfl⟩ := Option.map_eq_some_iff.mp (hfind.symm.trans hb)
    rw [hreg]
    exact h b₁ hb₁
  | absent => exact hfind.trans (by rw [show t.find? r = none from h]; rfl)
  | word g v =>
    obtain ⟨b, hb, hf, hg, hv, hl⟩ := h
    exact ⟨f b, hfind.trans (by rw [hb]; rfl), hf, by rw [hreg, hg], hv,
      fun hr => hlocks hr b (hl hr)⟩
  | lanes x v =>
    obtain ⟨b, hb, hf, hx, hv, hl⟩ := h
    exact ⟨f b, hfind.trans (by rw [hb]; rfl), hf, by rw [hreg, hx], hv,
      fun hr => hlocks hr b (hl hr)⟩

theorem Setting.Describes.of_find_eq {k : Setting} {t t' : RoleTable} {c : Cpu} {r : Role}
    {held : Held} (h : k.Describes t c r held) (hfind : t'.find? r = t.find? r) :
    k.Describes t' c r held :=
  h.of_map (f := id) (by rw [hfind, Option.map_id, id]) (fun _ => rfl) fun _ _ h => h

namespace Setting.Models

variable {k : Setting} {d : Draft} {c : Cpu} {s : View}

theorem fits (h : k.Models d c s) : s.Fits c where
  flags := h.flags
  mem := h.mem
  word {r g v} hr := by
    have := h.roles r
    rw [hr] at this
    obtain ⟨b, -, -, -, hv, -⟩ := this
    exact hv
  lanes {r x v} hr := by
    have := h.roles r
    rw [hr] at this
    obtain ⟨b, -, -, -, hv, -⟩ := this
    exact hv

/-- Roles of one file have registers of their own. -/
theorem apart (h : k.Models d c s) {r r' : Role} {b b' : Binding} (hb : d.table.find? r = some b)
    (hb' : d.table.find? r' = some b') (hf : r.file = r'.file)
    (he : BitVec.ofNat 4 b.reg = BitVec.ofNat 4 b'.reg) : r = r' :=
  h.table.apart hb hb' hf (ofNat_inj (RoleTable.lt_of_allowed h.pools (h.table.within hb))
    (RoleTable.lt_of_allowed h.pools (h.table.within hb')) he)

/-- A role that holds a word has its register, and it is a scratch register. -/
theorem word_spec (h : k.Models d c s) {r : Role} {g : Reg} {v : BitVec 64}
    (hr : s.roles r = .word g v) :
    ∃ b, d.table.find? r = some b ∧ r.file = .general ∧ .ofNat b.reg = g ∧ c.reg g = v ∧
      (r.isReconstructible = true → 0 < b.locks) ∧ g ∈ scratchRegs := by
  have hd := h.roles r
  rw [hr] at hd
  obtain ⟨b, hb, hf, hg, hv, hl⟩ := hd
  have := RoleTable.scratch_of_allowed h.pools (hf ▸ h.table.within hb)
  exact ⟨b, hb, hf, hg, hv, hl, hg ▸ this⟩

theorem lanes_spec (h : k.Models d c s) {r : Role} {x : Xmm} {v : Lanes}
    (hr : s.roles r = .lanes x v) :
    ∃ b, d.table.find? r = some b ∧ r.file = .vector ∧ .ofNat b.reg = x ∧ c.vec x = v ∧
      (r.isReconstructible = true → 0 < b.locks) := by
  have hd := h.roles r
  rwa [hr] at hd

/-- A role's word is replaced, and no other role sees it. -/
theorem setWord (h : k.Models d c s) {r : Role} {g : Reg} {v : BitVec 64}
    (hr : s.roles r = .word g v) (v' : BitVec 64) (f : Flags) :
    k.Models d ((c.setReg g v').setFlags f) ((s.set r (.word g v')).setFlags f) := by
  obtain ⟨b, hb, hf, hg, hv, hl, hscratch⟩ := h.word_spec hr
  refine ⟨h.wide, rfl, h.mem, h.later, fun r' hr' => ?_, h.table, h.pools, fun r' => ?_⟩
  · rw [Cpu.reg_setFlags, Cpu.reg_setReg, if_neg (fun (e : r' = g) => hr' (e ▸ hscratch))]
    exact h.kept r' hr'
  · rw [View.roles_setFlags, View.roles_set]
    split
    · rename_i e
      subst e
      exact ⟨b, hb, hf, hg, by rw [Cpu.reg_setFlags, Cpu.reg_setReg_self], hl⟩
    · rename_i hne
      refine (h.roles r').of_same (fun b' hb' hf' => ?_) fun _ _ _ => rfl
      rw [Cpu.reg_setFlags, Cpu.reg_setReg, if_neg]
      intro e
      refine hne (h.apart hb' hb (hf'.trans hf.symm) ?_)
      exact congrArg Reg.num (e.trans hg.symm)

/-- A role's lanes are replaced, and no other role sees it. -/
theorem setLanes (h : k.Models d c s) {r : Role} {x : Xmm} {v : Lanes}
    (hr : s.roles r = .lanes x v) (v' : Lanes) :
    k.Models d (c.setVec x v') (s.set r (.lanes x v')) := by
  obtain ⟨b, hb, hf, hx, hv, hl⟩ := h.lanes_spec hr
  refine ⟨h.wide, h.flags, h.mem, h.later, h.kept, h.table, h.pools, fun r' => ?_⟩
  rw [View.roles_set]
  split
  · rename_i e
    subst e
    exact ⟨b, hb, hf, hx, by rw [Cpu.vec_setVec, if_pos rfl], hl⟩
  · rename_i hne
    refine (h.roles r').of_same (fun _ _ _ => rfl) fun b' hb' hf' => ?_
    rw [Cpu.vec_setVec, if_neg]
    intro e
    refine hne (h.apart hb' hb (hf'.trans hf.symm) ?_)
    exact congrArg Xmm.num (e.trans hx.symm)

theorem setFlags (h : k.Models d c s) (f : Flags) : k.Models d (c.setFlags f) (s.setFlags f) :=
  ⟨h.wide, rfl, h.mem, h.later, h.kept, h.table, h.pools,
    fun r => (h.roles r).of_same (fun _ _ _ => rfl) fun _ _ _ => rfl⟩

/-- Memory is replaced by a later one. -/
theorem setMem (h : k.Models d c s) {m : Memory} (hm : k.Later m) :
    k.Models d (c.setMem m) (s.setMem m) :=
  ⟨h.wide, h.flags, rfl, hm, h.kept, h.table, h.pools,
    fun r => (h.roles r).of_same (fun _ _ _ => rfl) fun _ _ _ => rfl⟩

/-- Only the bindings of a table count. -/
theorem of_bindings (h : k.Models d c s) {d' : Draft} (hb : d'.table.bindings = d.table.bindings)
    (hp : d.table.SamePools d'.table) (hw : d'.wideColor = d.wideColor) : k.Models d' c s := by
  have hfind (r : Role) : d'.table.find? r = d.table.find? r := by
    unfold RoleTable.find?
    rw [hb]
  refine ⟨hw.trans h.wide, h.flags, h.mem, h.later, h.kept, ?_, ⟨h.pools.1.trans hp.1.symm,
    h.pools.2.trans hp.2.symm⟩, fun r => ?_⟩
  · exact h.table.of_sub (hb ▸ h.table.nodup) hp fun {r b} hr => ⟨b, by rw [← hfind, hr], rfl⟩
  · exact (h.roles r).of_find_eq (hfind r)

/-- The table changes, the machine does not. -/
theorem setTable (h : k.Models d c s) {t : RoleTable} (ht : t.WellFormed)
    (hp : d.table.SamePools t) {roles : Role → Held} (hr : ∀ r, k.Describes t c r (roles r)) :
    k.Models { d with table := t } c { s with roles := roles } :=
  ⟨h.wide, h.flags, h.mem, h.later, h.kept, ht, ⟨h.pools.1.trans hp.1.symm,
    h.pools.2.trans hp.2.symm⟩, hr⟩

/-! ### Requests to the table -/

/-- Locking a role changes nothing that is known. -/
theorem find (h : k.Models d c s) {r : Role} {n : Nat} {t : RoleTable}
    (ht : d.table.find r = .ok (n, t)) : k.Models { d with table := t } c s := by
  obtain ⟨hp, hwf, b, hb, -, hfind⟩ := RoleTable.find_spec ht
  refine h.setTable (hwf h.table) hp fun r' => ?_
  by_cases hr : r' = r
  · subst hr
    refine (h.roles r').of_map (f := fun b =>
      { b with locks := b.locks + 1, lastUse := d.table.clock + 1 }) ?_ (fun _ => rfl)
      fun _ _ _ => Nat.succ_pos _
    rw [hfind, if_pos rfl, hb]
    rfl
  · exact (h.roles r').of_find_eq ((hfind r').trans (if_neg hr))

/-- Allocation gives the role a register that it shares with no other. -/
theorem alloc (h : k.Models d c s) {r : Role} {n : Nat} {t : RoleTable}
    (ht : d.table.alloc r = .ok (n, t)) {held : Held} (hheld : ∀ b, t.find? r = some b →
      b.reg = n → 0 < b.locks → k.Describes t c r held) :
    k.Models { d with table := t } c (s.set r held) := by
  obtain ⟨hp, hwf, ⟨b, hb, hn, hl⟩, hothers⟩ := h.table.alloc_spec ht
  refine h.setTable hwf hp fun r' => ?_
  by_cases hr : r' = r
  · subst hr
    rw [if_pos rfl]
    exact hheld b hb hn hl
  · rw [if_neg hr]
    have hd := h.roles r'
    rcases hothers r' hr with hsame | ⟨hnone, hrec, b', hb', hl'⟩
    · exact hd.of_find_eq hsame
    · cases hheld : s.roles r' <;> rw [hheld] at hd
      case unknown => intro b₁ hb₁; cases hnone.symm.trans hb₁
      case absent => exact hnone
      case word =>
        obtain ⟨b₁, hb₁, -, -, -, hlocked⟩ := hd
        cases hb'.symm.trans hb₁
        exact absurd (hlocked hrec) (by omega)
      case lanes =>
        obtain ⟨b₁, hb₁, -, -, -, hlocked⟩ := hd
        cases hb'.symm.trans hb₁
        exact absurd (hlocked hrec) (by omega)

/-- One role's binding changes, the others stay. -/
theorem change (h : k.Models d c s) {r : Role} {t : RoleTable} {held : Held}
    (hwf : t.WellFormed) (hp : d.table.SamePools t)
    (hothers : ∀ r', r' ≠ r → t.find? r' = d.table.find? r') (hr : k.Describes t c r held) :
    k.Models { d with table := t } c (s.set r held) := by
  refine h.setTable hwf hp fun r' => ?_
  by_cases he : r' = r
  · subst he
    rwa [if_pos rfl]
  · rw [if_neg he]
    exact (h.roles r').of_find_eq (hothers r' he)

theorem forceRelease (h : k.Models d c s) (r : Role) :
    k.Models { d with table := d.table.forceRelease r } c (s.set r .absent) :=
  h.change (h.table.remove r) ⟨rfl, rfl⟩
    (fun _ hr => (RoleTable.find?_remove h.table.nodup).trans (if_neg hr))
    ((RoleTable.find?_remove h.table.nodup).trans (if_pos rfl))

theorem release (h : k.Models d c s) {r : Role} (hr : r.isReconstructible = false) :
    k.Models { d with table := d.table.release r } c (s.set r .unknown) := by
  refine h.change (h.table.release r) (RoleTable.samePools_release _ _)
    (fun _ hne => h.table.find?_release hne) fun b _ => ?_
  cases r
  case stateBase => cases hr
  case poolBase => cases hr
  case vecZero => cases hr
  all_goals trivial

/-- A role whose value nobody makes again is known as before when it is
unlocked. -/
theorem unlock (h : k.Models d c s) {r : Role} (hr : r.isReconstructible = false) :
    k.Models { d with table := d.table.unlock r } c s := by
  refine h.setTable (h.table.unlock r) ⟨rfl, rfl⟩ fun r' => ?_
  by_cases he : r' = r
  · subst he
    exact (h.roles r').of_map (RoleTable.find?_unlock.trans (if_pos rfl)) (fun _ => rfl)
      fun h => by rw [hr] at h; cases h
  · exact (h.roles r').of_find_eq (RoleTable.find?_unlock.trans (if_neg he))

/-- A role whose value can be made again may lose its register once it is
unlocked. -/
theorem unlockCanonical (h : k.Models d c s) {r : Role}
    (hr : ∀ b, d.table.find? r = some b → k.Canonical c r b.reg) :
    k.Models { d with table := d.table.unlock r } c (s.set r .unknown) := by
  refine h.change (h.table.unlock r) ⟨rfl, rfl⟩
    (fun r' hne => RoleTable.find?_unlock.trans (if_neg hne)) fun b hb => ?_
  rw [RoleTable.find?_unlock, if_pos rfl] at hb
  obtain ⟨b₁, hb₁, rfl⟩ := Option.map_eq_some_iff.mp hb
  exact hr b₁ hb₁

theorem retain (h : k.Models d c s) (r : Role) :
    k.Models { d with table := d.table.retain r } c s := by
  refine h.setTable (h.table.retain r) ⟨rfl, rfl⟩ fun r' => ?_
  by_cases he : r' = r
  · subst he
    exact (h.roles r').of_map (RoleTable.find?_retain.trans (if_pos rfl)) (fun _ => rfl)
      fun _ _ h => h
  · exact (h.roles r').of_find_eq (RoleTable.find?_retain.trans (if_neg he))

/-- A register goes from one role to another. -/
theorem rename (h : k.Models d c s) {old new : Role} {t : RoleTable}
    (ht : d.table.rename old new = .ok t) {g : Reg} {v : BitVec 64}
    (hold : s.roles old = .word g v) (hnew : new.isReconstructible = false) :
    k.Models { d with table := t } c ((s.set old .absent).set new (.word g v)) := by
  obtain ⟨hwf, hp, b, hb, hnone, hfile, hfind⟩ := h.table.rename ht
  have hd := h.roles old
  rw [hold] at hd
  obtain ⟨b₁, hb₁, hf, hg, hv, -⟩ := hd
  cases hb.symm.trans hb₁
  have hne : old ≠ new := fun e => by rw [e, hnone] at hb; cases hb
  refine h.setTable hwf hp fun r' => ?_
  by_cases h₁ : r' = new
  · subst h₁
    rw [if_pos rfl]
    exact ⟨_, (hfind r').trans (if_pos rfl), hfile ▸ hf, hg, hv, fun h => by rw [hnew] at h; cases h⟩
  · rw [if_neg h₁]
    show k.Describes t c r' (if r' = old then _ else _)
    by_cases h₂ : r' = old
    · subst h₂
      rw [if_pos rfl]
      exact (hfind r').trans (by rw [if_neg h₁, if_pos rfl])
    · rw [if_neg h₂]
      exact (h.roles r').of_find_eq ((hfind r').trans (by rw [if_neg h₁, if_neg h₂]))

end Setting.Models

end PixelPipeline
