/-
# Proofs.Memory — what stores change

Memory remembers its stores, so one memory can come later than another
(`Memory.Later`): the same contents at the start, and more stores, all of them
at addresses of some kind.  Bytes elsewhere read as before.  Words are read
back from the bytes that memory holds (`Memory.Holds`), and a word that was
stored is held.
-/
import PixelPipeline.X86.Memory

namespace PixelPipeline

namespace X86

/-! ## Stores add up -/

namespace Memory

/-- `m'` is `m` after stores to addresses that satisfy `P`. -/
def Later (P : Address → Prop) (m m' : Memory) : Prop :=
  m'.initial = m.initial ∧ ∃ new, m'.stores = new ++ m.stores ∧ ∀ p ∈ new, P p.1

/-- `m'` is `m` after some stores. -/
abbrev Extends (m m' : Memory) : Prop := Later (fun _ => True) m m'

theorem Later.refl (P : Address → Prop) (m : Memory) : Later P m m :=
  ⟨rfl, [], rfl, fun _ h => absurd h List.not_mem_nil⟩

theorem Later.trans {P : Address → Prop} {m m' m'' : Memory} (h : Later P m m')
    (h' : Later P m' m'') : Later P m m'' := by
  obtain ⟨hi, new, hs, hp⟩ := h
  obtain ⟨hi', new', hs', hp'⟩ := h'
  refine ⟨hi'.trans hi, new' ++ new, by rw [hs', hs, List.append_assoc], ?_⟩
  intro p hmem
  rcases List.mem_append.mp hmem with h | h
  · exact hp' p h
  · exact hp p h

/-- What was stored halfway was stored. -/
theorem Later.of_extends {P : Address → Prop} {m m' m'' : Memory} (h : Later P m m'')
    (h₁ : Extends m m') (h₂ : Extends m' m'') : Later P m m' ∧ Later P m' m'' := by
  obtain ⟨_, new, hs, hp⟩ := h
  obtain ⟨hi₁, new₁, hs₁, -⟩ := h₁
  obtain ⟨hi₂, new₂, hs₂, -⟩ := h₂
  have split : new = new₂ ++ new₁ := by
    refine (List.append_left_inj m.stores).mp ?_
    rw [← hs, hs₂, hs₁, List.append_assoc]
  subst split
  exact ⟨⟨hi₁, new₁, hs₁, fun p h => hp p (List.mem_append_right _ h)⟩,
    hi₂, new₂, hs₂, fun p h => hp p (List.mem_append_left _ h)⟩

/-- Bytes where nothing was stored are as they were. -/
theorem Later.read_eq {P : Address → Prop} {m m' : Memory} (h : Later P m m') {a : Address}
    (ha : ¬P a) : m'.read a = m.read a := by
  obtain ⟨hi, new, hs, hp⟩ := h
  unfold read
  rw [hs, hi]
  clear hs
  induction new with
  | nil => rfl
  | cons p rest ih =>
    rw [List.cons_append, List.lookup_cons]
    have hne : a ≠ p.1 := fun e => ha (e ▸ hp p List.mem_cons_self)
    rw [beq_eq_false_iff_ne.mpr hne]
    exact ih fun q hq => hp q (List.mem_cons_of_mem p hq)

theorem later_write {P : Address → Prop} {a : Address} (h : P a) (m : Memory) (v : Byte) :
    Later P m (m.write a v) :=
  ⟨rfl, [(a, v)], rfl, fun p hp => by rw [List.mem_singleton.mp hp]; exact h⟩

/-- Bytes are stored at ascending addresses. -/
theorem later_writeAll {P : Address → Prop} (m : Memory) (a : Address) (vs : List Byte)
    (h : ∀ i, i < vs.length → P (a + BitVec.ofNat 64 i)) : Later P m (m.writeAll a vs) := by
  induction vs generalizing m a with
  | nil => exact .refl P m
  | cons v rest ih =>
    refine (later_write (by simpa using h 0 (by simp)) m v).trans (ih _ _ fun i hi => ?_)
    have := h (i + 1) (Nat.succ_lt_succ hi)
    rwa [show a + 1 + BitVec.ofNat 64 i = a + BitVec.ofNat 64 (i + 1) by
      rw [BitVec.ofNat_add, BitVec.add_assoc, BitVec.add_comm 1]; rfl]

/-! ## Words -/

/-- Memory holds the bytes from an address on. -/
def Holds (m : Memory) (a : Address) (bs : List Byte) : Prop :=
  ∀ i b, bs[i]? = some b → m.read (a + BitVec.ofNat 64 i) = b

variable {m : Memory} {a : Address}

theorem Holds.left {bs cs : List Byte} (h : m.Holds a (bs ++ cs)) : m.Holds a bs := by
  intro i b hb
  have hi : i < bs.length := (List.getElem?_eq_some_iff.mp hb).1
  exact h i b (by rw [List.getElem?_append_left hi, hb])

theorem Holds.right {bs cs : List Byte} (h : m.Holds a (bs ++ cs)) :
    m.Holds (a + BitVec.ofNat 64 bs.length) cs := by
  intro i b hb
  have := h (bs.length + i) b (by
    rw [List.getElem?_append_right (Nat.le_add_right _ _), Nat.add_sub_cancel_left, hb])
  rwa [BitVec.ofNat_add, ← BitVec.add_assoc] at this

theorem Holds.head {b : Byte} {bs : List Byte} (h : m.Holds a (b :: bs)) : m.read a = b := by
  have := h 0 b rfl
  rwa [show a + BitVec.ofNat 64 0 = a from BitVec.add_zero a] at this

theorem Holds.tail {b : Byte} {bs : List Byte} (h : m.Holds a (b :: bs)) : m.Holds (a + 1) bs := by
  have h : m.Holds a ([b] ++ bs) := h
  exact h.right

theorem Holds.read16 {v : BitVec 16} (h : m.Holds a (le16 v)) : m.read16 a = v := by
  unfold Memory.read16
  rw [h.head, h.tail.head]
  exact word16_le16 v

/-- Addresses counted one by one. -/
theorem add_one_add (k : Nat) : a + BitVec.ofNat 64 k + 1 = a + BitVec.ofNat 64 (k + 1) := by
  rw [BitVec.ofNat_add, BitVec.add_assoc]
  rfl

theorem Holds.read32 {v : BitVec 32} (h : m.Holds a (le32 v)) : m.read32 a = v := by
  have h₂ : m.read (a + 2) = v.extractLsb' 16 8 := h 2 _ rfl
  have h₃ : m.read (a + 3) = v.extractLsb' 24 8 := h 3 _ rfl
  unfold Memory.read32
  rw [h.head, h.tail.head, h₂, h₃]
  exact word32_le32 v

theorem Holds.read64 {v : BitVec 64} (h : m.Holds a (le64 v)) : m.read64 a = v := by
  have h₂ : m.read (a + 2) = v.extractLsb' 16 8 := h 2 _ rfl
  have h₃ : m.read (a + 3) = v.extractLsb' 24 8 := h 3 _ rfl
  have h₄ : m.read (a + 4) = v.extractLsb' 32 8 := h 4 _ rfl
  have h₅ : m.read (a + 5) = v.extractLsb' 40 8 := h 5 _ rfl
  have h₆ : m.read (a + 6) = v.extractLsb' 48 8 := h 6 _ rfl
  have h₇ : m.read (a + 7) = v.extractLsb' 56 8 := h 7 _ rfl
  unfold Memory.read64
  rw [h.head, h.tail.head, h₂, h₃, h₄, h₅, h₆, h₇]
  exact word64_le64 v

end Memory

end X86

end PixelPipeline
