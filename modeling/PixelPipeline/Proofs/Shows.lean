/-
# Proofs.Shows — what the code of an action shows

An action shows a row of lines if that is what is seen of its code, from whatever
draft it starts (`Emit.Shows`).  A few facts about the draft are needed for that and
handed on from action to action (`RoleTable.Tied`): the registers of the working
color, the stored color and the stencil value, which no other value may be put into
for as long as they are recognised.

A row is found by instance search, which walks through an action as it is written.
-/
import PixelPipeline.Proofs.Sights

namespace PixelPipeline

open X86 Compile

/-! ## What is known of a table -/

namespace RoleTable

variable {t t' : RoleTable} {r : Role} {n : Nat}

/-- The roles in `gone` may lose their registers, those in `new` may get one, and
nothing else changes but for what can be made again. -/
structure Moves (t t' : RoleTable) (gone new : List Role) : Prop where
  wellFormed : t'.WellFormed
  pools : t.SamePools t'
  kept : ∀ {r b}, t.find? r = some b → r.isReconstructible = false → r ∉ gone →
    ∃ b', t'.find? r = some b' ∧ b'.reg = b.reg
  old : ∀ {r}, t'.has r = true → r ∉ new → t.has r = true

theorem Moves.has {gone new : List Role} (m : t.Moves t' gone new) (hr : r.isReconstructible = false)
    (hn : r ∉ gone) (h : t.has r = true) : t'.has r = true := by
  obtain ⟨b, hb⟩ := Option.isSome_iff_exists.mp (has_eq ▸ h)
  obtain ⟨b', hb', -⟩ := m.kept hb hr hn
  rw [has_eq, hb']
  rfl

theorem moves_of_same (hwf : t'.WellFormed) (hp : t.SamePools t')
    (hsame : ∀ r', ∃ change : Binding → Binding, (∀ b, (change b).reg = b.reg) ∧
      t'.find? r' = (t.find? r').map change) : t.Moves t' [] [] where
  wellFormed := hwf
  pools := hp
  kept {r' b} hb _ _ := by
    obtain ⟨change, hreg, hfind⟩ := hsame r'
    exact ⟨change b, by rw [hfind, hb]; rfl, hreg b⟩
  old {r'} hr' _ := by
    obtain ⟨change, -, hfind⟩ := hsame r'
    rwa [has_eq, hfind, Option.isSome_map] at hr'

section

variable (h : t.WellFormed)

include h

theorem moves_find (ht : t.find r = .ok (n, t')) : t.Moves t' [] [] := by
  obtain ⟨hp, hwf, b, hb, -, hfind⟩ := find_spec ht
  refine moves_of_same (hwf h) hp fun r' => ?_
  by_cases he : r' = r
  · subst he
    exact ⟨fun b => { b with locks := b.locks + 1, lastUse := t.clock + 1 }, fun _ => rfl,
      by rw [hfind, if_pos rfl, hb]; rfl⟩
  · exact ⟨id, fun _ => rfl, by rw [hfind, if_neg he, Option.map_id]; rfl⟩

theorem moves_unlock (r : Role) : t.Moves (t.unlock r) [] [] := by
  refine moves_of_same (h.unlock r) ⟨rfl, rfl⟩ fun r' => ?_
  by_cases he : r' = r
  · exact ⟨fun b => { b with locks := b.locks - 1 }, fun _ => rfl,
      by rw [find?_unlock, if_pos he, he]⟩
  · exact ⟨id, fun _ => rfl, by rw [find?_unlock, if_neg he, Option.map_id]; rfl⟩

theorem moves_retain (r : Role) : t.Moves (t.retain r) [] [] := by
  refine moves_of_same (h.retain r) ⟨rfl, rfl⟩ fun r' => ?_
  by_cases he : r' = r
  · exact ⟨fun b => { b with retained := true }, fun _ => rfl,
      by rw [find?_retain, if_pos he, he]⟩
  · exact ⟨id, fun _ => rfl, by rw [find?_retain, if_neg he, Option.map_id]; rfl⟩

theorem moves_remove (r : Role) : t.Moves (t.remove r) [r] [] where
  wellFormed := h.remove r
  pools := ⟨rfl, rfl⟩
  kept {r' b} hb _ hn := by
    rw [find?_remove h.nodup, if_neg fun he => hn (List.mem_singleton.mpr he)]
    exact ⟨b, hb, rfl⟩
  old {r'} hr' _ := by
    rw [has_eq, find?_remove h.nodup] at hr'
    split at hr'
    · cases hr'
    · exact hr'

theorem has_remove_self (r : Role) : (t.remove r).has r = false := by
  rw [has_eq, find?_remove h.nodup, if_pos rfl]
  rfl

theorem moves_release (r : Role) : t.Moves (t.release r) [r] [] := by
  obtain ⟨hwf, hp, hk, ho⟩ := moves_unlock h r
  unfold RoleTable.release
  split
  · split
    · exact ⟨hwf, hp, fun hb hr _ => hk hb hr (List.not_mem_nil), ho⟩
    · exact moves_remove h r
  · exact ⟨h, ⟨rfl, rfl⟩, fun hb _ _ => ⟨_, hb, rfl⟩, fun hr _ => hr⟩

theorem moves_alloc (ht : t.alloc r = .ok (n, t')) : t.Moves t' [] [r] where
  wellFormed := (h.alloc_spec ht).2.1
  pools := (h.alloc_spec ht).1
  kept {r' b} hb hrec _ := by
    obtain ⟨-, -, -, hother⟩ := h.alloc_spec ht
    by_cases he : r' = r
    · subst he
      unfold RoleTable.alloc at ht
      rw [if_pos (by rw [has_eq, hb]; rfl)] at ht
      exact (moves_find h ht).kept hb hrec (List.not_mem_nil)
    · rcases hother r' he with hsame | ⟨-, hrec', -⟩
      · exact ⟨b, hsame.trans hb, rfl⟩
      · rw [hrec'] at hrec
        cases hrec
  old {r'} hr' hn := by
    obtain ⟨-, -, -, hother⟩ := h.alloc_spec ht
    rcases hother r' fun he => hn (List.mem_singleton.mpr he) with hsame | ⟨hnone, -⟩
    · rwa [has_eq, ← hsame, ← has_eq]
    · rw [has_eq, hnone] at hr'
      cases hr'

end

end RoleTable

/-- Roles whose registers a request for another role does not give. -/
def Role.watched : List Role := [.colorAddr, .depthAddr, .stencil]

theorem Role.subset_watched : [Role.colorAddr, .depthAddr] ⊆ watched := by decide

/-- What is known of the way to an address. -/
inductive Way where
  /-- It is behind if the address is in a register. -/
  | settled
  /-- The address has a register, and the way is still to come. -/
  | owed
  | behind

/-- What is known of the addresses. -/
structure Ways where
  /-- The fast way gives both addresses, and neither has been parted from the other. -/
  paired : Bool
  /-- The depth address is in a register. -/
  deep : Bool
  color : Way
  depth : Way

/-- What is known of the way to one of them. -/
def Ways.way (w : Ways) : Role → Way
  | .colorAddr => w.color
  | .depthAddr => w.depth
  | _ => .settled

/-- What is known: registers that hold something, and the addresses. -/
structure Ties where
  color : Option Xmm
  stored : Option Xmm
  stencil : Option Reg
  ways : Ways

/-- The roles have the registers, and a table whose pipeline takes the fast way has
both addresses or neither. -/
structure RoleTable.Tied (f : Features) (t : RoleTable) (w : Ties) : Prop where
  wellFormed : t.WellFormed
  pools : t.SamePools .fresh
  color : ∀ {x}, w.color = some x → ∃ b, t.find? .vecColor = some b ∧ Xmm.ofNat b.reg = x
  stored : ∀ {x}, w.stored = some x → ∃ b, t.find? .vec0 = some b ∧ Xmm.ofNat b.reg = x
  stencil : ∀ {g}, w.stencil = some g → ∃ b, t.find? .stencil = some b ∧ Reg.ofNat b.reg = g
  /-- There is no stencil value that is not known. -/
  bare : w.stencil = none → t.has .stencil = false
  deep : w.ways.deep = true → t.has .depthAddr = true
  paired : w.ways.paired = true → fastAddress f = true → needsDepthAddr f = true →
    t.has .colorAddr = true → t.has .depthAddr = true

namespace RoleTable.Tied

variable {f : Features} {t t' : RoleTable} {w w' : Ties} {gone new : List Role}

theorem held {α : Type} (m : t.Moves t' gone new) {r : Role} {x : α} {of : Nat → α}
    (hr : r.isReconstructible = false) (hn : r ∉ gone)
    (h : ∃ b, t.find? r = some b ∧ of b.reg = x) : ∃ b, t'.find? r = some b ∧ of b.reg = x := by
  obtain ⟨b, hb, hreg⟩ := h
  obtain ⟨b', hb', hsame⟩ := m.kept hb hr hn
  exact ⟨b', hb', hsame ▸ hreg⟩

theorem of_moves (h : t.Tied f w) (m : t.Moves t' gone new)
    (hcolor : ∀ {x}, w'.color = some x → w.color = some x ∧ .vecColor ∉ gone ∨
      ∃ b, t'.find? .vecColor = some b ∧ Xmm.ofNat b.reg = x)
    (hstored : ∀ {x}, w'.stored = some x → w.stored = some x ∧ .vec0 ∉ gone ∨
      ∃ b, t'.find? .vec0 = some b ∧ Xmm.ofNat b.reg = x)
    (hstencil : ∀ {g}, w'.stencil = some g → w.stencil = some g ∧ .stencil ∉ gone ∨
      ∃ b, t'.find? .stencil = some b ∧ Reg.ofNat b.reg = g)
    (hbare : w'.stencil = none → w.stencil = none ∧ .stencil ∉ new ∨ t'.has .stencil = false)
    (hdeep : w'.ways.deep = true → w.ways.deep = true ∧ .depthAddr ∉ gone ∨ t'.has .depthAddr = true)
    (hpaired : w'.ways.paired = true → fastAddress f = true → needsDepthAddr f = true →
      w.ways.paired = true ∧ .depthAddr ∉ gone ∧ .colorAddr ∉ new ∨ t'.has .depthAddr = true) :
    t'.Tied f w' where
  wellFormed := m.wellFormed
  pools := ⟨h.pools.1.trans m.pools.1.symm, h.pools.2.trans m.pools.2.symm⟩
  color hx := (hcolor hx).elim (fun hw => held m rfl hw.2 (h.color hw.1)) id
  stored hx := (hstored hx).elim (fun hw => held m rfl hw.2 (h.stored hw.1)) id
  stencil hx := (hstencil hx).elim (fun hw => held m rfl hw.2 (h.stencil hw.1)) id
  bare hw := (hbare hw).elim (fun hold => Bool.eq_false_iff.mpr fun hhas =>
    Bool.eq_false_iff.mp (h.bare hold.1) (m.old hhas hold.2)) id
  deep hw := (hdeep hw).elim (fun hold => m.has rfl hold.2 (h.deep hold.1)) id
  paired hp hfast hneeds hcolor := (hpaired hp hfast hneeds).elim (fun hold =>
    m.has rfl hold.2.1 (h.paired hold.1 hfast hneeds (m.old hcolor hold.2.2))) id

/-- A request that parts nobody known from a register. -/
theorem moves (h : t.Tied f w) (m : t.Moves t' gone new)
    (hgone : ∀ r ∈ [Role.vecColor, .vec0, .stencil, .depthAddr], r ∉ gone)
    (hnew : ∀ r ∈ Role.watched, r ∉ new) : t'.Tied f w :=
  h.of_moves m (fun hx => .inl ⟨hx, hgone _ (by decide)⟩) (fun hx => .inl ⟨hx, hgone _ (by decide)⟩)
    (fun hx => .inl ⟨hx, hgone _ (by decide)⟩) (fun hx => .inl ⟨hx, hnew _ (by decide)⟩)
    (fun hd => .inl ⟨hd, hgone _ (by decide)⟩)
    (fun hp _ _ => .inl ⟨hp, hgone _ (by decide), hnew _ (by decide)⟩)

/-- Two registers of one file for two roles. -/
theorem ofNat_ne (h : t.Tied f w) {r r' : Role} {b b' : Binding} (hb : t.find? r = some b)
    (hb' : t.find? r' = some b') (hf : r.file = r'.file) (hne : r ≠ r') :
    BitVec.ofNat 4 b.reg ≠ BitVec.ofNat 4 b'.reg := fun he =>
  hne (h.wellFormed.apart hb hb' hf (ofNat_inj (lt_of_allowed h.pools (h.wellFormed.within hb))
    (lt_of_allowed h.pools (h.wellFormed.within hb')) he))

theorem alloc (h : t.Tied f w) {r : Role} {n : Nat} (hr : ∀ q ∈ Role.watched, q ≠ r)
    (ht : t.alloc r = .ok (n, t')) :
    t.Moves t' [] [r] ∧ t'.Tied f w ∧ ∃ b, t'.find? r = some b ∧ b.reg = n := by
  have hm := moves_alloc h.wellFormed ht
  obtain ⟨-, -, ⟨b, hb, hreg, -⟩, -⟩ := h.wellFormed.alloc_spec ht
  exact ⟨hm, h.moves hm (fun _ _ => List.not_mem_nil) fun q hq hmem => hr q hq (List.mem_singleton.mp hmem),
    b, hb, hreg⟩

theorem find (h : t.Tied f w) {r : Role} {n : Nat} (ht : t.find r = .ok (n, t')) :
    t.Moves t' [] [] ∧ t'.Tied f w ∧ ∃ b, t.find? r = some b ∧ b.reg = n := by
  have hm := moves_find h.wellFormed ht
  obtain ⟨-, -, b, hb, hreg, -⟩ := find_spec ht
  exact ⟨hm, h.moves hm (fun _ _ => List.not_mem_nil) (fun _ _ => List.not_mem_nil), b, hb, hreg⟩

/-- A register that code may use is not the stack pointer. -/
theorem ofNat_ne_rsp (h : t.Tied f w) {r : Role} {b : Binding} (hb : t.find? r = some b)
    (hf : r.file = .general) : Reg.ofNat b.reg ≠ .rsp := fun he =>
  Setting.Leads.rsp_not_scratch (he ▸ scratch_of_allowed h.pools (hf ▸ h.wellFormed.within hb))

end RoleTable.Tied

/-! ## What code shows -/

/-- A line that reads a stride. -/
def X86.Instr.StrideAt (at_ : Nat) (i : Instr) : Prop :=
  ∃ r b, i = .loadExt .zeroWord r (.based b (BitVec.ofNat 32 at_))

/-- A line that scales an index to 32-bit pixels. -/
def X86.Instr.ScalesWide (i : Instr) : Prop := ∃ r, i = .shift .shl true r 2

/-- A line behind which nothing has to be read: the return, or the line that finds
out which of the raster operations is meant. -/
def X86.Instr.stops : Instr → Bool
  | .ret => true
  | .loadExt ext _ (.based _ d) => ext = .zeroByte && d = BitVec.ofNat 32 DrawState.rasterOpAt
  | _ => false

/-- Strides are read only on the general way, an index is scaled as the format asks,
and reading goes on. -/
structure X86.Instr.Apt (f : Features) (i : Instr) : Prop where
  stride : i.StrideAt DrawState.fbStrideAt ∨ i.StrideAt DrawState.depthStrideAt →
    fastAddress f = false
  scale : i.ScalesWide → f.format.bytesPerPixel = 4
  goes : i.stops = false

/-- A line that ways to addresses are not made of, and behind which reading goes on. -/
def X86.Instr.plain : Instr → Bool
  | .loadExt ext r m => !Eye.isStride ext m && !(Instr.loadExt ext r m).stops
  | .shift .shl true _ _ | .ret => false
  | _ => true

theorem X86.Instr.apt_of_plain {f : Features} {i : Instr} (h : i.plain = true) : i.Apt f where
  stride := by rintro (⟨r, b, rfl⟩ | ⟨r, b, rfl⟩) <;> cases h
  scale := by
    rintro ⟨r, rfl⟩
    cases h
  goes := by
    unfold plain at h
    split at h
    · exact Bool.not_eq_true' _ ▸ (Bool.and_eq_true_iff.mp h).2
    · cases h
    · cases h
    · rename_i hload _ hret
      unfold stops
      split
      · exact absurd rfl hret
      · exact absurd rfl (hload _ _ _)
      · rfl

/-- The way to an address is among the lines. -/
def Found (f : Features) : Role → List Instr → Prop
  | .colorAddr, ls => fastAddress f = false → ∃ i ∈ ls, i.StrideAt DrawState.fbStrideAt
  | .depthAddr, ls =>
      (fastAddress f = false → ∃ i ∈ ls, i.StrideAt DrawState.depthStrideAt) ∧
        (fastAddress f = true → f.format.bytesPerPixel = 4 → ∃ i ∈ ls, i.ScalesWide)
  | _, _ => True

theorem Found.mono {f : Features} {r : Role} {ls ls' : List Instr} (h : Found f r ls)
    (hsub : ls ⊆ ls') : Found f r ls' := by
  have hmem {P : Instr → Prop} : (∃ i ∈ ls, P i) → ∃ i ∈ ls', P i :=
    Exists.imp fun _ hi => ⟨hsub hi.1, hi.2⟩
  unfold Found at *
  split
  · exact fun hfast => hmem (h hfast)
  · exact ⟨fun hfast => hmem (h.1 hfast), fun hfast hwide => hmem (h.2 hfast hwide)⟩
  · trivial

/-- The way to an address is said to be behind. -/
def RoleTable.Reached (t : RoleTable) (w : Ways) (r : Role) : Prop :=
  match w.way r with
  | .settled => t.has r = true
  | .owed => False
  | .behind => True

theorem RoleTable.Reached.mono {t t' : RoleTable} {w : Ways} {r : Role}
    (h : t'.has r = true → t.has r = true) (hr : t'.Reached w r) : t.Reached w r := by
  unfold Reached at *
  split at hr
  · exact h hr
  · exact hr
  · trivial

/-- What a reader finds in code that is put down between two states of the table:
a row, and the ways to the addresses that were not there before. -/
structure Code.Told (f : Features) (e : Eye) (t : RoleTable) (w : Ways) (c : Code)
    (row : List Instr) (e' : Eye) (t' : RoleTable) (w' : Ways) : Prop where
  encodable : c.Encodable
  /-- There is no selection. -/
  whole : ∀ ls, c.lines ls = c.lines [] ++ ls
  sees : e.scan (c.lines []) = row
  after : e.after (c.lines []) = e'
  apt : ∀ i ∈ c.lines [], i.Apt f
  found : ∀ r, t'.Reached w' r → t.Reached w r ∨ Found f r (c.lines [])

namespace Code.Told

variable {f : Features} {e e₁ e₂ : Eye} {t t₁ t₂ : RoleTable} {w w₁ w₂ : Ways} {a b : Code}
  {row row' : List Instr}

theorem append (ha : a.Told f e t w row e₁ t₁ w₁) (hb : b.Told f e₁ t₁ w₁ row' e₂ t₂ w₂) :
    (a ++ b).Told f e t w (row ++ row') e₂ t₂ w₂ := by
  have hlines (ls : List Instr) : (a ++ b).lines ls = a.lines [] ++ b.lines ls := by
    rw [lines_append, ha.whole]
  refine ⟨ha.encodable.append hb.encodable, fun ls => ?_, ?_, ?_, fun i hi => ?_, fun r h => ?_⟩
  · rw [hlines, hlines, hb.whole, List.append_assoc]
  · rw [hlines, Eye.scan_append, ha.sees, ha.after, hb.sees]
  · rw [hlines, Eye.after_append, ha.after, hb.after]
  · rw [hlines, List.mem_append] at hi
    exact hi.elim (ha.apt i) (hb.apt i)
  · rw [hlines]
    rcases hb.found r h with h | h
    · exact (ha.found r h).imp_right (·.mono (List.subset_append_left _ _))
    · exact .inr (h.mono (List.subset_append_right _ _))

/-- Nothing is put down. -/
theorem done (h : ∀ r ∈ [Role.colorAddr, .depthAddr], t₁.Reached w₁ r → t.Reached w r ∨ Found f r []) :
    Code.done.Told f e t w [] e t₁ w₁ where
  encodable := trivial
  whole _ := rfl
  sees := rfl
  after := rfl
  apt _ hi := absurd hi List.not_mem_nil
  found r hr := by
    by_cases hmem : r ∈ [Role.colorAddr, .depthAddr]
    · exact h r hmem hr
    · refine .inr ?_
      unfold Found
      split
      · exact absurd (List.mem_cons_self) hmem
      · exact absurd (by decide) hmem
      · trivial

/-- Nothing is put down, and no address gets a register. -/
theorem done_of_has (h : ∀ r ∈ [Role.colorAddr, .depthAddr], t₁.has r = true → t.has r = true)
    (hways : ∀ r, w₁.way r = w.way r) : Code.done.Told f e t w [] e t₁ w₁ :=
  done fun r hr hreached => by
    unfold RoleTable.Reached at *
    rw [hways] at hreached
    exact .inl (RoleTable.Reached.mono (w := w) (h r hr) hreached)

/-- One line in front. -/
theorem cons {l : Instr} {c : Code} (ha : a.Told f e t w row e₁ t₁ w₁) (hencodable : c.Encodable)
    (hlines : ∀ ls, c.lines ls = l :: a.lines ls) (hnext : e.next l = e) (hapt : l.Apt f) :
    c.Told f e t w ((e.sees l).toList ++ row) e₁ t₁ w₁ := by
  refine ⟨hencodable, fun ls => ?_, ?_, ?_, fun i hi => ?_, fun r h => ?_⟩
  · rw [hlines, hlines, ha.whole, List.cons_append]
  · rw [hlines, Eye.scan, hnext, ha.sees]
  · rw [hlines, Eye.after, hnext, ha.after]
  · rw [hlines] at hi
    rcases List.mem_cons.mp hi with rfl | hi
    · exact hapt
    · exact ha.apt i hi
  · rw [hlines]
    exact (ha.found r h).imp_right (·.mono (List.subset_cons_self _ _))

end Code.Told

/-- The action shows a row to a reader with an eye, and `Q` holds of its value and of
what is known behind it. -/
def Emit.Tells {α : Type} (f : Features) (e : Eye) (w : Ties) (m : Emit α) (row : List Instr)
    (Q : α → Eye → Ties → Prop) : Prop :=
  ∀ d r, d.table.Tied f w → m d = .ok r → ∃ e' w',
    r.code.Told f e d.table w.ways row e' r.draft.table w'.ways ∧ r.draft.table.Tied f w' ∧
      Q r.value e' w'

/-- The value of the action, if it succeeds. -/
class Emit.Returns {α : Type} (m : Emit α) (a : outParam α) : Prop where
  value : ∀ d r, m d = .ok r → r.value = a

/-- The action shows a row. -/
class Emit.Shows {α : Type} (f : Features) (e : Eye) (w : Ties) (m : Emit α)
    (row : outParam (List Instr)) (e' : outParam Eye) (w' : outParam Ties) : Prop where
  tells : m.Tells f e w row fun _ e₁ w₁ => e₁ = e' ∧ w₁ = w'

/-- What is seen of one instruction, whatever its registers. -/
class X86.Instr.Seen (e : Eye) (i : Instr) (row : outParam (List Instr)) (e' : outParam Eye) :
    Prop where
  sees : (e.sees i.line).toList = row
  next : e.next i.line = e'
  encodable : i.encodable = true
  plain : i.line.plain = true

namespace Emit.Returns

variable {α β : Type}

instance pure (a : α) : Returns (Pure.pure a) a := ⟨fun _ _ hr => by cases hr; rfl⟩

instance bind {m : Emit α} {k : α → Emit β} {b : β} [hk : ∀ a, Returns (k a) b] :
    Returns (m >>= k) b where
  value d r hr := by
    obtain ⟨r₁, r₂, -, hr₂, rfl⟩ := bind_ok hr
    exact (hk _).value _ r₂ hr₂

end Emit.Returns

namespace Emit.Tells

variable {α β : Type} {f : Features} {e : Eye} {w w' : Ties} {row row' : List Instr}

theorem pure (a : α) : Tells f e w (pure a) [] fun a' e' w' => a' = a ∧ e' = e ∧ w' = w := by
  intro d r hd hr
  cases hr
  exact ⟨e, w, .done fun _ _ => .inl, hd, rfl, rfl, rfl⟩

theorem bind {m : Emit α} {k : α → Emit β} {Q : α → Eye → Ties → Prop}
    {Q' : β → Eye → Ties → Prop} (hm : m.Tells f e w row Q)
    (hk : ∀ a e' w', Q a e' w' → (k a).Tells f e' w' row' Q') :
    (m >>= k).Tells f e w (row ++ row') Q' := by
  intro d r hd hr
  obtain ⟨r₁, r₂, hr₁, hr₂, rfl⟩ := bind_ok hr
  obtain ⟨e₁, w₁, htold₁, htied₁, hq⟩ := hm d r₁ hd hr₁
  obtain ⟨e₂, w₂, htold₂, htied₂, hq'⟩ := hk _ e₁ w₁ hq _ r₂ htied₁ hr₂
  exact ⟨e₂, w₂, htold₁.append htold₂, htied₂, hq'⟩

/-- The first of two actions shows nothing. -/
theorem bind_nothing {m : Emit α} {k : α → Emit β} {Q : α → Eye → Ties → Prop}
    {Q' : β → Eye → Ties → Prop} (hm : m.Tells f e w [] Q)
    (hk : ∀ a e' w', Q a e' w' → (k a).Tells f e' w' row Q') : (m >>= k).Tells f e w row Q' :=
  hm.bind hk

theorem mono {m : Emit α} {Q Q' : α → Eye → Ties → Prop} (hm : m.Tells f e w row Q)
    (h : ∀ a e' w', Q a e' w' → Q' a e' w') : m.Tells f e w row Q' := fun d r hd hr =>
  (hm d r hd hr).imp fun _ => Exists.imp fun _ h' => ⟨h'.1, h'.2.1, h _ _ _ h'.2.2⟩

/-- By instance search, for an action whose value is found by it as well. -/
theorem of_shows {m : Emit α} {a : α} {e₁ : Eye} {w₁ : Ties} {Q : α → Eye → Ties → Prop}
    [hm : Shows f e w m row e₁ w₁] [ha : m.Returns a] (hrow : row = row') (hq : Q a e₁ w₁) :
    m.Tells f e w row' Q := fun d r hd hr => by
  obtain ⟨_, _, htold, htied, rfl, rfl⟩ := hm.tells d r hd hr
  exact ⟨_, _, hrow ▸ htold, htied, (ha.value d r hr).symm ▸ hq⟩

theorem of_eq {m : Emit α} {Q : α → Eye → Ties → Prop} (hm : m.Tells f e w row Q)
    (h : row = row') : m.Tells f e w row' Q := h ▸ hm

/-- Code without a selection, put down as it is, with a way in it perhaps. -/
theorem putWay {c : Code} {e' : Eye} (hencodable : c.Encodable)
    (hwhole : ∀ ls, c.lines ls = c.lines [] ++ ls) (hsees : e.scan (c.lines []) = row)
    (hafter : e.after (c.lines []) = e') (hapt : ∀ i ∈ c.lines [], i.Apt f)
    (htied : ∀ t : RoleTable, t.Tied f w → t.Tied f w')
    (hfound : ∀ (t : RoleTable) r, t.Reached w'.ways r → t.Reached w.ways r ∨ Found f r (c.lines [])) :
    (Emit.put c).Tells f e w row fun _ e₁ w₁ => e₁ = e' ∧ w₁ = w' := by
  intro d r hd hr
  cases hr
  exact ⟨e', w', ⟨hencodable, hwhole, hsees, hafter, hapt, hfound d.table⟩, htied _ hd, rfl, rfl⟩

/-- The same without a way. -/
theorem put {c : Code} {e' : Eye} (hencodable : c.Encodable)
    (hwhole : ∀ ls, c.lines ls = c.lines [] ++ ls) (hsees : e.scan (c.lines []) = row)
    (hafter : e.after (c.lines []) = e') (hapt : ∀ i ∈ c.lines [], i.Apt f) :
    (Emit.put c).Tells f e w row fun _ e₁ w₁ => e₁ = e' ∧ w₁ = w :=
  putWay hencodable hwhole hsees hafter hapt (fun _ => id) fun _ _ => .inl

/-- A request to the table. -/
theorem onTable {action : RoleTable → Except Failure (α × RoleTable)} (w' : Ties)
    (gone new : List Role) {Q : α → Eye → Ties → Prop}
    (h : ∀ t a t', t.Tied f w → action t = .ok (a, t') →
      t.Moves t' gone new ∧ t'.Tied f w' ∧ Q a e w')
    (hnew : ∀ r ∈ Role.watched, r ∉ new) (hways : ∀ r, w'.ways.way r = w.ways.way r) :
    (Emit.onTable action).Tells f e w [] Q := by
  intro d r hd hr
  obtain ⟨a, t', ht, rfl⟩ := onTable_ok hr
  obtain ⟨hm, htied, hq⟩ := h _ a t' hd ht
  exact ⟨e, w', .done_of_has (fun r hr has => hm.old has (hnew r (Role.subset_watched hr))) hways, htied, hq⟩

/-- A change to the table. -/
theorem adjust {change : RoleTable → RoleTable} {gone : List Role}
    (h : ∀ t : RoleTable, t.Tied f w → t.Moves (change t) gone [] ∧ (change t).Tied f w')
    (hways : ∀ r, w'.ways.way r = w.ways.way r) :
    (Emit.adjust change).Tells f e w [] fun _ e₁ w₁ => e₁ = e ∧ w₁ = w' := by
  intro d r hd hr
  cases hr
  obtain ⟨hm, htied⟩ := h _ hd
  exact ⟨e, w', .done_of_has (fun _ _ has => hm.old has List.not_mem_nil) hways, htied, rfl, rfl⟩

/-! ### Registers -/

section

variable {r : Role}

/-- A general register is none that is known, nor the stack pointer. -/
theorem allocGen (hr : ∀ q ∈ Role.watched, q ≠ r) :
    (Emit.allocGen r).Tells f e w [] fun g e₁ w₁ =>
      e₁ = e ∧ w₁ = w ∧ g ≠ .rsp ∧ (r ≠ .stencil → w.stencil ≠ some g) := by
  refine onTable w [] [r] (fun t g t' htied ht => ?_)
    (fun q hq hmem => hr q hq (List.mem_singleton.mp hmem)) (fun _ => rfl)
  obtain ⟨hf, ⟨n, t₁⟩, hal, he⟩ := RoleTable.inFile_ok ht
  cases he
  obtain ⟨hm, htied', b, hb, rfl⟩ := htied.alloc hr hal
  refine ⟨hm, htied', rfl, rfl, htied'.ofNat_ne_rsp hb hf, fun hne hw => ?_⟩
  obtain ⟨b', hb', hreg⟩ := htied'.stencil hw
  exact htied'.ofNat_ne hb hb' hf hne (congrArg Reg.num hreg.symm)

/-- The register of the stencil value is known from here on. -/
theorem allocStencil : (Emit.allocGen .stencil).Tells f e w [] fun g e₁ w₁ =>
    e₁ = e ∧ w₁ = { w with stencil := some g } := by
  intro d r hd hr
  obtain ⟨g, t', ht, rfl⟩ := onTable_ok hr
  obtain ⟨hf, ⟨n, t₁⟩, hal, he⟩ := RoleTable.inFile_ok ht
  cases he
  have hm := RoleTable.moves_alloc hd.wellFormed hal
  obtain ⟨-, -, ⟨b, hb, rfl, -⟩, -⟩ := hd.wellFormed.alloc_spec hal
  have hne : ∀ q ∈ [Role.colorAddr, .depthAddr], q ∉ [Role.stencil] := by decide
  exact ⟨e, { w with stencil := some (.ofNat b.reg) },
    .done_of_has (fun q hq has => hm.old has (hne q hq)) (fun _ => rfl),
    hd.of_moves hm (fun hx => .inl ⟨hx, List.not_mem_nil⟩) (fun hx => .inl ⟨hx, List.not_mem_nil⟩)
      (fun hx => .inr ⟨b, hb, Option.some.inj hx⟩) nofun
      (fun hd => .inl ⟨hd, List.not_mem_nil⟩) (fun hp _ _ => .inl ⟨hp, List.not_mem_nil, by decide⟩),
    rfl, rfl⟩

theorem allocVec (hr : ∀ q ∈ Role.watched, q ≠ r) :
    (Emit.allocVec r).Tells f e w [] fun x e₁ w₁ => e₁ = e ∧ w₁ = w ∧
      (r ≠ .vecColor → w.color ≠ some x) ∧ (r ≠ .vec0 → w.stored ≠ some x) := by
  refine onTable w [] [r] (fun t g t' htied ht => ?_)
    (fun q hq hmem => hr q hq (List.mem_singleton.mp hmem)) (fun _ => rfl)
  obtain ⟨hf, ⟨n, t₁⟩, hal, he⟩ := RoleTable.inFile_ok ht
  cases he
  obtain ⟨hm, htied', b, hb, rfl⟩ := htied.alloc hr hal
  refine ⟨hm, htied', rfl, rfl, fun hne hw => ?_, fun hne hw => ?_⟩
  · obtain ⟨b', hb', hreg⟩ := htied'.color hw
    exact htied'.ofNat_ne hb hb' hf hne (congrArg Xmm.num hreg.symm)
  · obtain ⟨b', hb', hreg⟩ := htied'.stored hw
    exact htied'.ofNat_ne hb hb' hf hne (congrArg Xmm.num hreg.symm)

/-- The register of the working color is known from here on. -/
theorem allocColor : (Emit.allocVec .vecColor).Tells f e w [] fun x e₁ w₁ =>
    e₁ = e ∧ w₁ = { w with color := some x } := by
  intro d r hd hr
  obtain ⟨g, t', ht, rfl⟩ := onTable_ok hr
  obtain ⟨hf, ⟨n, t₁⟩, hal, he⟩ := RoleTable.inFile_ok ht
  cases he
  obtain ⟨hm, htied', b, hb, rfl⟩ := hd.alloc (by decide) hal
  have hne : ∀ q ∈ [Role.colorAddr, .depthAddr], q ∉ [Role.vecColor] := by decide
  exact ⟨e, { w with color := some (.ofNat b.reg) },
    .done_of_has (fun q hq has => hm.old has (hne q hq)) (fun _ => rfl),
    { htied' with color := fun he => ⟨b, hb, Option.some.inj he⟩ }, rfl, rfl⟩

/-- The register of the stored color is known from here on, and it is not that of the
working color. -/
theorem allocStored : (Emit.allocVec .vec0).Tells f e w [] fun x e₁ w₁ =>
    e₁ = e ∧ w₁ = { w with stored := some x } ∧ w.color ≠ some x := by
  intro d r hd hr
  obtain ⟨e₁, w₁, htold, htied, rfl, rfl, hne, -⟩ :=
    allocVec (e := e) (r := .vec0) (by decide) d r hd hr
  refine ⟨e₁, { w₁ with stored := some r.value }, htold, ?_, rfl, rfl, hne (by decide)⟩
  obtain ⟨g, t', ht, rfl⟩ := onTable_ok hr
  obtain ⟨hf, ⟨n, t₁⟩, hal, he⟩ := RoleTable.inFile_ok ht
  cases he
  obtain ⟨-, -, b, hb, rfl⟩ := hd.alloc (by decide) hal
  exact { htied with stored := fun he => ⟨b, hb, Option.some.inj he⟩ }

theorem findGen : (Emit.findGen r).Tells f e w [] fun g e₁ w₁ =>
    e₁ = e ∧ w₁ = w ∧ g ≠ .rsp ∧ (r = .stencil → ∀ st, w.stencil = some st → g = st) := by
  refine onTable w [] [] (fun t g t' htied ht => ?_) (fun _ _ => List.not_mem_nil)
    (fun _ => rfl)
  obtain ⟨hf, ⟨n, t₁⟩, hfind, he⟩ := RoleTable.inFile_ok ht
  cases he
  obtain ⟨hm, htied', b, hb, rfl⟩ := htied.find hfind
  refine ⟨hm, htied', rfl, rfl, htied.ofNat_ne_rsp hb hf, ?_⟩
  rintro rfl st hw
  obtain ⟨b', hb', rfl⟩ := htied.stencil hw
  cases hb.symm.trans hb'
  rfl

theorem findVec : (Emit.findVec r).Tells f e w [] fun x e₁ w₁ =>
    e₁ = e ∧ w₁ = w ∧ (r = .vecColor → ∀ c, w.color = some c → x = c) := by
  refine onTable w [] [] (fun t g t' htied ht => ?_) (fun _ _ => List.not_mem_nil)
    (fun _ => rfl)
  obtain ⟨hf, ⟨n, t₁⟩, hfind, he⟩ := RoleTable.inFile_ok ht
  cases he
  obtain ⟨hm, htied', b, hb, rfl⟩ := htied.find hfind
  refine ⟨hm, htied', rfl, rfl, ?_⟩
  rintro rfl c hw
  obtain ⟨b', hb', rfl⟩ := htied.color hw
  cases hb.symm.trans hb'
  rfl

end

end Emit.Tells

/-! ## Rows by instance search -/

/-- A role that is not watched. -/
class Role.Local (r : Role) : Prop where
  ne : ∀ q ∈ Role.watched, q ≠ r

/-- A role that nothing has to be known of. -/
class Role.Untied (r : Role) : Prop where
  untied : ∀ q ∈ [Role.vecColor, .vec0, .stencil, .depthAddr], q ≠ r

/-- A register that an operand can be indexed by. -/
class X86.Reg.Indexes (g : Reg) : Prop where
  ne : g ≠ .rsp

section

open Role

instance : Local stateBase := ⟨by decide⟩
instance : Local poolBase := ⟨by decide⟩
instance : Local srcAlpha := ⟨by decide⟩
instance : Local gen0 := ⟨by decide⟩
instance : Local gen1 := ⟨by decide⟩
instance : Local gen2 := ⟨by decide⟩
instance : Local gen3 := ⟨by decide⟩
instance : Local gen4 := ⟨by decide⟩
instance : Local gen5 := ⟨by decide⟩
instance : Local helper := ⟨by decide⟩
instance : Local vec0 := ⟨by decide⟩
instance : Local vec1 := ⟨by decide⟩
instance : Local vec2 := ⟨by decide⟩
instance : Local vec3 := ⟨by decide⟩

instance : Untied argX := ⟨by decide⟩
instance : Untied argY := ⟨by decide⟩
instance : Untied argZ := ⟨by decide⟩
instance : Untied argFog := ⟨by decide⟩
instance : Untied argColor := ⟨by decide⟩
instance : Untied argKey := ⟨by decide⟩
instance : Untied colorAddr := ⟨by decide⟩
instance : Untied srcAlpha := ⟨by decide⟩
instance : Untied gen0 := ⟨by decide⟩
instance : Untied gen1 := ⟨by decide⟩
instance : Untied gen2 := ⟨by decide⟩
instance : Untied gen3 := ⟨by decide⟩
instance : Untied gen5 := ⟨by decide⟩
instance : Untied helper := ⟨by decide⟩
instance : Untied vec1 := ⟨by decide⟩
instance : Untied vec2 := ⟨by decide⟩
instance : Untied vec3 := ⟨by decide⟩

end

namespace Emit.Shows

variable {α β : Type} {f : Features} {e e₁ e₂ : Eye} {w w₁ w₂ : Ties} {row row' : List Instr}

instance pure (a : α) : Shows f e w (Pure.pure a) [] e w :=
  ⟨(Tells.pure a).mono fun _ _ _ h => h.2⟩

instance bind {m : Emit α} {k : α → Emit β} [hm : Shows f e w m row e₁ w₁]
    [hk : ∀ a, Shows f e₁ w₁ (k a) row' e₂ w₂] : Shows f e w (m >>= k) (row ++ row') e₂ w₂ :=
  ⟨hm.tells.bind fun a _ _ h => h.1 ▸ h.2 ▸ (hk a).tells⟩

/-- The same for an action whose value is not asked for. -/
instance behind {m : Emit α} {k : Emit β} [hm : Shows f e w m row e₁ w₁]
    [hk : Shows f e₁ w₁ k row' e₂ w₂] : Shows f e w (m >>= fun _ => k) (row ++ row') e₂ w₂ := bind

/-- The same, for what instance search does not see through. -/
theorem seq {m : Emit α} {k : α → Emit β} (hm : Shows f e w m row e₁ w₁)
    (hk : ∀ a, Shows f e₁ w₁ (k a) row' e₂ w₂) : Shows f e w (m >>= k) (row ++ row') e₂ w₂ :=
  inferInstance

/-- The first of two actions shows nothing. -/
theorem seq_nil {m : Emit α} {k : α → Emit β} (hm : Shows f e w m [] e₁ w₁)
    (hk : ∀ a, Shows f e₁ w₁ (k a) row e₂ w₂) : Shows f e w (m >>= k) row e₂ w₂ := hm.seq hk

theorem of_eq {m : Emit α} (h : Shows f e w m row e₁ w₁) (hrow : row = row') :
    Shows f e w m row' e₁ w₁ := hrow ▸ h

instance ite {c : Prop} [Decidable c] {m m' : Emit α} [hm : Shows f e w m row e₁ w₁]
    [hm' : Shows f e w m' row' e₁ w₁] :
    Shows f e w (if c then m else m') (if c then row else row') e₁ w₁ := by
  split
  · exact hm
  · exact hm'

/-- It does not matter which of two actions is taken that show the same. -/
theorem ite_same {c : Prop} [Decidable c] {m m' : Emit α}
    (hm : Shows f e w m row e₁ w₁) (hm' : Shows f e w m' row e₁ w₁) :
    Shows f e w (if c then m else m') row e₁ w₁ := by
  split
  · exact hm
  · exact hm'

/-! ### Code -/

instance op {i : Instr} [h : i.Seen e row e₁] : Shows f e w (Emit.op i) row e₁ w :=
  ⟨.put ⟨h.encodable, trivial⟩ (fun _ => rfl) (by
      show (e.sees i.line).toList ++ [] = row
      rw [h.sees, List.append_nil]) h.next fun j hj => by
      rw [List.mem_singleton.mp hj]
      exact Instr.apt_of_plain h.plain⟩

instance mark (s : Stage) : Shows f e w (Emit.mark s) [] e w :=
  ⟨.put trivial (fun _ => rfl) rfl rfl fun _ hi => absurd hi (List.not_mem_nil)⟩

instance leave : Shows f e w Emit.leave [.jump 0] e w :=
  ⟨.put trivial (fun _ => rfl) rfl rfl fun _ hi =>
    List.mem_singleton.mp hi ▸ Instr.apt_of_plain rfl⟩

instance leaveIf (c : Cond) : Shows f e w (Emit.leaveIf c) [.jumpIf c 0] e w :=
  ⟨.put trivial (fun _ => rfl) rfl rfl fun _ hi =>
    List.mem_singleton.mp hi ▸ Instr.apt_of_plain rfl⟩

instance skipIf {c : Cond} {body : Emit Unit} [h : Shows f e w body row e₁ w₁] :
    Shows f e w (Emit.skipIf c body) (.jumpIf c 0 :: row) e₁ w₁ where
  tells d r hd hr := by
    obtain ⟨r₁, hr₁, rfl⟩ := skipIf_ok hr
    obtain ⟨e', w', htold, htied, hq⟩ := h.tells d r₁ hd hr₁
    exact ⟨e', w', htold.cons (c := .skipIf c r₁.code .done) (l := .jumpIf c 0)
      ⟨htold.encodable, trivial⟩ (fun _ => rfl) rfl (Instr.apt_of_plain rfl), htied, hq⟩

instance choose {c : Cond} {no yes : Emit Unit} [hno : Shows f e w no row e w₁]
    [hyes : Shows f e w₁ yes row' e₂ w₂] :
    Shows f e w (Emit.choose c no yes) (.jumpIf c 0 :: (row ++ .jump 0 :: row')) e₂ w₂ where
  tells d r hd hr := by
    obtain ⟨r₁, r₂, hr₁, hr₂, rfl⟩ := choose_ok hr
    obtain ⟨_, _, htold₁, htied₁, rfl, rfl⟩ := hno.tells d r₁ hd hr₁
    obtain ⟨_, _, htold₂, htied₂, hq⟩ := hyes.tells _ r₂ htied₁ hr₂
    have hyes := htold₂.cons (c := .leave r₂.code) (l := .jump 0) htold₂.encodable (fun _ => rfl) rfl
      (Instr.apt_of_plain rfl)
    exact ⟨_, _, (htold₁.append hyes).cons (c := .choose c r₁.code r₂.code .done)
      (l := .jumpIf c 0) ⟨htold₁.encodable, htold₂.encodable, trivial⟩
      (fun ls => by rw [Code.lines_append]; rfl) rfl (Instr.apt_of_plain rfl), htied₂, hq⟩

/-- What a path that never comes back does to the table is forgotten. -/
instance diverging {path : Emit Unit} [h : Shows f e w path row e₁ w₁] :
    Shows f e w (Emit.diverging path) row e₁ w where
  tells d r hd hr := by
    obtain ⟨r₁, hr₁, rfl⟩ := diverging_ok hr
    obtain ⟨_, _, htold, htied, rfl, rfl⟩ := h.tells d r₁ hd hr₁
    have hp : d.table.SamePools r₁.draft.table :=
      ⟨htied.pools.1.symm.trans hd.pools.1, htied.pools.2.symm.trans hd.pools.2⟩
    refine ⟨_, w, ⟨htold.encodable, htold.whole, htold.sees, htold.after, htold.apt, fun _ => .inl⟩, ?_,
      rfl, rfl⟩
    exact ⟨⟨hd.wellFormed.nodup, hd.wellFormed.apart,
        fun hb => hp.allowed.mpr (hd.wellFormed.within hb)⟩,
      ⟨hd.pools.1.trans hp.1.symm, hd.pools.2.trans hp.2.symm⟩, hd.color, hd.stored, hd.stencil,
      hd.bare, hd.deep, hd.paired⟩

/-! ### Registers -/

instance has (r : Role) : Shows f e w (Emit.has r) [] e w where
  tells d r hd hr := by
    cases hr
    exact ⟨e, w, .done fun _ _ => .inl, hd, rfl, rfl⟩

instance isWide : Shows f e w Emit.isWide [] e w where
  tells d r hd hr := by
    cases hr
    exact ⟨e, w, .done fun _ _ => .inl, hd, rfl, rfl⟩

instance setWide (wide : Bool) : Shows f e w (Emit.setWide wide) [] e w where
  tells d r hd hr := by
    cases hr
    exact ⟨e, w, .done fun _ _ => .inl, hd, rfl, rfl⟩

instance unlock (r : Role) : Shows f e w (Emit.unlock r) [] e w :=
  ⟨.adjust (fun _ ht => have hm := RoleTable.moves_unlock ht.wellFormed r
    ⟨hm, ht.moves hm (fun _ _ => List.not_mem_nil) fun _ _ => List.not_mem_nil⟩) fun _ => rfl⟩

instance retain (r : Role) : Shows f e w (Emit.retain r) [] e w :=
  ⟨.adjust (fun _ ht => have hm := RoleTable.moves_retain ht.wellFormed r
    ⟨hm, ht.moves hm (fun _ _ => List.not_mem_nil) fun _ _ => List.not_mem_nil⟩) fun _ => rfl⟩

instance release {r : Role} [h : r.Untied] : Shows f e w (Emit.release r) [] e w :=
  ⟨.adjust (fun _ ht => have hm := RoleTable.moves_release ht.wellFormed r
    ⟨hm, ht.moves hm (fun q hq hn => h.untied q hq (List.mem_singleton.mp hn))
      fun _ _ => List.not_mem_nil⟩) fun _ => rfl⟩

instance forceRelease {r : Role} [h : r.Untied] : Shows f e w (Emit.forceRelease r) [] e w :=
  ⟨.adjust (fun _ ht => have hm := RoleTable.moves_remove ht.wellFormed r
    ⟨hm, ht.moves hm (fun q hq hn => h.untied q hq (List.mem_singleton.mp hn))
      fun _ _ => List.not_mem_nil⟩) fun _ => rfl⟩

instance findGen (r : Role) : Shows f e w (Emit.findGen r) [] e w :=
  ⟨Tells.findGen.mono fun _ _ _ h => ⟨h.1, h.2.1⟩⟩

instance findVec (r : Role) : Shows f e w (Emit.findVec r) [] e w :=
  ⟨Tells.findVec.mono fun _ _ _ h => ⟨h.1, h.2.1⟩⟩

instance allocGen {r : Role} [h : r.Local] : Shows f e w (Emit.allocGen r) [] e w :=
  ⟨(Tells.allocGen h.ne).mono fun _ _ _ h => ⟨h.1, h.2.1⟩⟩

instance allocVec {r : Role} [h : r.Local] : Shows f e w (Emit.allocVec r) [] e w :=
  ⟨(Tells.allocVec h.ne).mono fun _ _ _ h => ⟨h.1, h.2.1⟩⟩

/-! ### Registers that are known -/

/-- The working color is in the register that is known. -/
instance (priority := 3000) bind_color {c : Xmm} {stored : Option Xmm} {stencil : Option Reg}
    {ways : Ways} {k : Xmm → Emit α} [hk : Shows f e ⟨some c, stored, stencil, ways⟩ (k c) row e₁ w₁] :
    Shows f e ⟨some c, stored, stencil, ways⟩ (Emit.findVec .vecColor >>= k) row e₁ w₁ :=
  ⟨Tells.findVec.bind fun x _ _ ⟨he, hw, hx⟩ => by
    rw [he, hw, hx rfl c rfl]
    exact hk.tells⟩

/-- The stencil value is in the register that is known. -/
instance (priority := 3000) bind_stencil {g : Reg} {color stored : Option Xmm} {ways : Ways}
    {k : Reg → Emit α} [hk : Shows f e ⟨color, stored, some g, ways⟩ (k g) row e₁ w₁] :
    Shows f e ⟨color, stored, some g, ways⟩ (Emit.findGen .stencil >>= k) row e₁ w₁ :=
  ⟨Tells.findGen.bind fun x _ _ ⟨he, hw, _, hx⟩ => by
    rw [he, hw, hx rfl g rfl]
    exact hk.tells⟩

/-- There is a stencil value if its register is known. -/
instance (priority := 3000) bind_loaded {g : Reg} {color stored : Option Xmm} {ways : Ways}
    {k : Bool → Emit α} [hk : Shows f e ⟨color, stored, some g, ways⟩ (k true) row e₁ w₁] :
    Shows f e ⟨color, stored, some g, ways⟩ (Emit.has .stencil >>= k) row e₁ w₁ where
  tells d r hd hr := by
    obtain ⟨r₁, r₂, hr₁, hr₂, rfl⟩ := bind_ok hr
    cases hr₁
    obtain ⟨b, hb, -⟩ := hd.stencil rfl
    rw [RoleTable.has_eq, hb] at hr₂
    obtain ⟨e', w', htold, htied, hq⟩ := hk.tells d r₂ hd hr₂
    exact ⟨e', w', htold, htied, hq⟩

instance (priority := 3000) bind_bare {color stored : Option Xmm} {ways : Ways}
    {k : Bool → Emit α} [hk : Shows f e ⟨color, stored, none, ways⟩ (k false) row e₁ w₁] :
    Shows f e ⟨color, stored, none, ways⟩ (Emit.has .stencil >>= k) row e₁ w₁ where
  tells d r hd hr := by
    obtain ⟨r₁, r₂, hr₁, hr₂, rfl⟩ := bind_ok hr
    cases hr₁
    rw [hd.bare rfl] at hr₂
    obtain ⟨e', w', htold, htied, hq⟩ := hk.tells d r₂ hd hr₂
    exact ⟨e', w', htold, htied, hq⟩

/-- The registers are no longer known. -/
instance releaseStored {color stored : Option Xmm} {stencil : Option Reg} {ways : Ways} :
    Shows f e ⟨color, stored, stencil, ways⟩ (Emit.release .vec0) [] e
      ⟨color, none, stencil, ways⟩ :=
  ⟨.adjust (fun _ ht => have hm := RoleTable.moves_release ht.wellFormed .vec0
    ⟨hm, ht.of_moves hm (fun hx => .inl ⟨hx, by decide⟩) nofun (fun hx => .inl ⟨hx, by decide⟩)
      (fun hx => .inl ⟨hx, by decide⟩) (fun hd => .inl ⟨hd, by decide⟩)
      (fun hp _ _ => .inl ⟨hp, by decide, by decide⟩)⟩) fun _ => rfl⟩

instance releaseColor {color stored : Option Xmm} {stencil : Option Reg} {ways : Ways} :
    Shows f e ⟨color, stored, stencil, ways⟩ (Emit.forceRelease .vecColor) [] e
      ⟨none, stored, stencil, ways⟩ :=
  ⟨.adjust (fun _ ht => have hm := RoleTable.moves_remove ht.wellFormed .vecColor
    ⟨hm, ht.of_moves hm nofun (fun hx => .inl ⟨hx, by decide⟩) (fun hx => .inl ⟨hx, by decide⟩)
      (fun hx => .inl ⟨hx, by decide⟩) (fun hd => .inl ⟨hd, by decide⟩)
      (fun hp _ _ => .inl ⟨hp, by decide, by decide⟩)⟩) fun _ => rfl⟩

instance releaseStencil {color stored : Option Xmm} {stencil : Option Reg} {ways : Ways} :
    Shows f e ⟨color, stored, stencil, ways⟩ (Emit.forceRelease .stencil) [] e
      ⟨color, stored, none, ways⟩ :=
  ⟨.adjust (fun _ ht => have hm := RoleTable.moves_remove ht.wellFormed .stencil
    ⟨hm, ht.of_moves hm (fun hx => .inl ⟨hx, by decide⟩) (fun hx => .inl ⟨hx, by decide⟩) nofun
      (fun _ => .inr (RoleTable.has_remove_self ht.wellFormed .stencil))
      (fun hd => .inl ⟨hd, by decide⟩)
      (fun hp _ _ => .inl ⟨hp, by decide, by decide⟩)⟩) fun _ => rfl⟩

instance releaseDepth {color stored : Option Xmm} {stencil : Option Reg} {paired deep : Bool}
    {way depth : Way} : Shows f e ⟨color, stored, stencil, ⟨paired, deep, way, depth⟩⟩
      (Emit.forceRelease .depthAddr) [] e ⟨color, stored, stencil, ⟨false, false, way, depth⟩⟩ :=
  ⟨.adjust (fun _ ht => have hm := RoleTable.moves_remove ht.wellFormed .depthAddr
    ⟨hm, ht.of_moves hm (fun hx => .inl ⟨hx, by decide⟩) (fun hx => .inl ⟨hx, by decide⟩)
      (fun hx => .inl ⟨hx, by decide⟩) (fun hx => .inl ⟨hx, by decide⟩) nofun nofun⟩)
    fun r => by cases r <;> rfl⟩

end Emit.Shows

end PixelPipeline
