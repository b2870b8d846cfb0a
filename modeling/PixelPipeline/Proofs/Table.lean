/-
# Proofs.Table — the invariant of the role table

A table is well formed (`RoleTable.WellFormed`) if no role is bound twice, no
two roles of a file share a register, and every register is one that its file
may use.  All that is ever asked of a table is the binding of a role, so each
change is described by what it does to `find?`, and the invariant is carried
through on those descriptions alone.

Allocation is the one change with a case for each way to find a register; what
holds of all of them is `alloc_spec`: bindings of other roles stay, but for one
whose value can be made again and which nobody holds.
-/
import Mathlib.Data.List.Nodup
import Mathlib.Data.List.Perm.Basic
import PixelPipeline.Allocation.RoleTable

namespace PixelPipeline

open X86

/-! ## Sets of registers -/

namespace RegSet

theorem contains_lt {s : RegSet} {n : Nat} (h : s.contains n = true) : n < 64 := by
  by_contra hge
  rw [contains, BitVec.getLsbD_of_ge _ _ (Nat.le_of_not_lt hge)] at h
  cases h

theorem contains_insert (s : RegSet) (r n : Nat) (hn : n < 64) :
    (s.insert r).contains n = (s.contains n || n == r) := by
  have hbit : (BitVec.ofNat 64 (1 <<< r)).getLsbD n = (n == r) := by
    rw [BitVec.getLsbD_ofNat, Nat.one_shiftLeft, Nat.testBit_two_pow, decide_eq_true hn,
      Bool.true_and]
    exact decide_eq_decide.mpr eq_comm
  rw [← hbit]
  exact BitVec.getLsbD_or

theorem contains_ofList (rs : List Nat) (n : Nat) (hn : n < 64) :
    (ofList rs).contains n = decide (n ∈ rs) := by
  have go (rs : List Nat) (s : RegSet) :
      (rs.foldl insert s).contains n = (s.contains n || decide (n ∈ rs)) := by
    induction rs generalizing s with
    | nil => simp
    | cons r rest ih =>
      rw [List.foldl_cons, ih, contains_insert s r n hn]
      by_cases h : n = r
      · simp [h]
      · simp [h, beq_eq_false_iff_ne.mpr h]
  rw [ofList, go]
  simp [empty, contains]

end RegSet

/-! ## Removal -/

theorem swapRemove_perm {α : Type} {l : List α} {i : Nat} (h : i < l.length) :
    (swapRemove l i).Perm (l.eraseIdx i) := by
  rcases List.eq_nil_or_concat l with rfl | ⟨init, z, rfl⟩
  · cases h
  · rw [List.concat_eq_append] at h ⊢
    rw [List.length_append, List.length_singleton] at h
    have hz : swapRemove (init ++ [z]) i = ((init ++ [z]).set i z).dropLast := by
      rw [swapRemove, List.getLast?_append, List.getLast?_singleton]
      simp only [Option.some_or, List.length_append, List.length_singleton]
      rw [if_pos h]
    rw [hz]
    rcases Nat.lt_or_ge i init.length with hi | hi
    · rw [List.set_append_left _ _ hi, List.dropLast_concat,
        List.eraseIdx_append_of_lt_length hi]
      exact (List.set_perm_cons_eraseIdx hi z).trans (List.perm_append_singleton z _).symm
    · have hi : i = init.length := by omega
      subst hi
      rw [List.set_append_right _ _ (Nat.le_refl _),
        List.eraseIdx_append_of_length_le (Nat.le_refl _), Nat.sub_self, List.set_cons_zero,
        List.dropLast_concat, List.eraseIdx_zero, List.tail_cons, List.append_nil]

/-! ## Answers -/

theorem map_ok {ε α β : Type} {answer : Except ε α} {g : α → β} {b : β}
    (h : answer.map g = .ok b) : ∃ a, answer = .ok a ∧ g a = b := by
  cases answer with
  | error e => cases h
  | ok a => cases h; exact ⟨a, rfl, rfl⟩

namespace RoleTable

variable {t : RoleTable} {r r' : Role} {b b' : Binding}

/-! ## Bindings -/

/-- The register may hold roles of the file: it is in the pool, or arguments
arrive in it. -/
def Allowed (t : RoleTable) (f : RegFile) (n : Nat) : Prop :=
  (t.pool f).contains n = true ∨ f = .general ∧ n ∈ argumentRegs.map fun g => g.num.toNat

/-- What holds of every table. -/
structure WellFormed (t : RoleTable) : Prop where
  /-- No role is bound twice. -/
  nodup : (t.bindings.map (·.role)).Nodup
  /-- Roles of a file do not share registers. -/
  apart : ∀ {r r' : Role} {b b' : Binding}, t.find? r = some b → t.find? r' = some b' →
    r.file = r'.file → b.reg = b'.reg → r = r'
  /-- Registers are ones that the file may use. -/
  within : ∀ {r : Role} {b : Binding}, t.find? r = some b → t.Allowed r.file b.reg

theorem role_of_find? (h : t.find? r = some b) : b.role = r := by
  have := List.find?_some h
  exact beq_iff_eq.mp this

theorem mem_of_find? (h : t.find? r = some b) : b ∈ t.bindings := List.mem_of_find?_eq_some h

/-- A binding is the binding of its role. -/
theorem find?_iff (hn : (t.bindings.map (·.role)).Nodup) :
    t.find? r = some b ↔ b ∈ t.bindings ∧ b.role = r := by
  refine ⟨fun h => ⟨mem_of_find? h, role_of_find? h⟩, fun ⟨hb, hr⟩ => ?_⟩
  cases hfind : t.find? r with
  | none =>
    have := List.find?_eq_none.mp hfind b hb
    exact absurd (beq_iff_eq.mpr hr) this
  | some b' =>
    have hrole : b'.role = b.role := (role_of_find? hfind).trans hr.symm
    rw [List.inj_on_of_nodup_map hn (mem_of_find? hfind) hb hrole]

theorem find?_eq_none_iff : t.find? r = none ↔ ∀ b ∈ t.bindings, b.role ≠ r := by
  unfold find?
  rw [List.find?_eq_none]
  simp only [beq_iff_eq, ne_eq]

theorem has_eq : t.has r = (t.find? r).isSome := rfl

/-! ## What changes do to bindings -/

theorem find?_update {f : Binding → Binding} (hc : ∀ b, (f b).role = b.role) :
    (t.update r f).find? r' =
      if r' = r then (t.find? r).map f else t.find? r' := by
  unfold update find?
  simp only [List.find?_map]
  have hp : (fun b : Binding => b.role == r') ∘
      (fun b => if b.role == r then f b else b) = fun b => b.role == r' := by
    funext b
    simp only [Function.comp]
    split <;> simp only [hc]
  rw [hp]
  split
  · rename_i h
    subst h
    refine Option.map_congr fun b hb => ?_
    rw [if_pos (List.find?_some hb)]
  · rename_i h
    cases hfind : t.bindings.find? (fun b => b.role == r') with
    | none => rfl
    | some b =>
      have : b.role = r' := role_of_find? (t := t) hfind
      rw [Option.map_some, if_neg (by rw [this, beq_iff_eq]; exact h)]

theorem nodup_update {change : Binding → Binding} (hc : ∀ b, (change b).role = b.role)
    (hn : (t.bindings.map (·.role)).Nodup) :
    ((t.update r change).bindings.map (·.role)).Nodup := by
  have : (t.update r change).bindings.map (·.role) = t.bindings.map (·.role) := by
    unfold update
    rw [List.map_map]
    refine List.map_congr_left fun b _ => ?_
    simp only [Function.comp]
    split <;> simp only [hc]
  rwa [this]

/-- What is left after a removal, in some order. -/
theorem remove_perm (t : RoleTable) (r : Role) :
    (t.remove r).bindings.Perm (t.bindings.eraseP (·.role == r)) := by
  unfold remove
  rcases Nat.lt_or_ge (t.bindings.findIdx (·.role == r)) t.bindings.length with h | h
  · refine (swapRemove_perm h).trans ?_
    rw [List.eraseP_eq_eraseIdx, List.findIdx?_eq_some_of_exists
      (List.findIdx_lt_length.mp h)]
  · have hnone : ∀ b ∈ t.bindings, ¬(b.role == r) = true := by
      intro b hb he
      exact absurd (List.findIdx_lt_length_of_exists ⟨b, hb, he⟩) (Nat.not_lt_of_ge h)
    rw [List.eraseP_of_forall_not hnone]
    unfold swapRemove
    split
    · rename_i hl
      rw [List.getLast?_eq_none_iff.mp hl]
    · rw [if_neg (Nat.not_lt_of_ge h)]

theorem nodup_remove (hn : (t.bindings.map (·.role)).Nodup) :
    ((t.remove r).bindings.map (·.role)).Nodup :=
  (((remove_perm t r).map _).nodup_iff).mpr (hn.sublist ((List.eraseP_sublist).map _))

theorem find?_remove (hn : (t.bindings.map (·.role)).Nodup) :
    (t.remove r).find? r' = if r' = r then none else t.find? r' := by
  have hmem (b : Binding) : b ∈ (t.remove r).bindings ↔ b ∈ t.bindings ∧ b.role ≠ r := by
    rw [(remove_perm t r).mem_iff]
    constructor
    · intro h
      refine ⟨List.mem_of_mem_eraseP h, fun hr => ?_⟩
      obtain ⟨b', l₁, l₂, hl₁, hb', hsplit, herase⟩ :=
        List.exists_of_eraseP (p := (·.role == r)) (List.mem_of_mem_eraseP h) (beq_iff_eq.mpr hr)
      rw [hsplit, List.map_append, List.map_cons] at hn
      have hnot := (List.nodup_append.mp hn)
      rw [herase] at h
      rcases List.mem_append.mp h with h | h
      · exact hl₁ b h (beq_iff_eq.mpr hr)
      · have := (List.nodup_cons.mp hnot.2.1).1
        exact this (List.mem_map.mpr ⟨b, h, hr.trans (beq_iff_eq.mp hb').symm⟩)
    · rintro ⟨h, hr⟩
      exact (List.mem_eraseP_of_neg (by rwa [beq_iff_eq])).mpr h
  refine Option.ext fun b => ?_
  rw [find?_iff (nodup_remove hn), hmem]
  split
  · rename_i h
    subst h
    exact ⟨fun h => absurd h.2 h.1.2, fun h => by cases h⟩
  · rename_i h
    rw [find?_iff hn]
    exact ⟨fun ⟨⟨hb, _⟩, hr⟩ => ⟨hb, hr⟩, fun ⟨hb, hr⟩ => ⟨⟨hb, hr ▸ h⟩, hr⟩⟩

theorem find?_bind (hr : t.find? r = none) (reg locks : Nat) :
    (t.bind r reg locks).find? r' =
      if r' = r then some ⟨r, reg, locks, false, t.clock + 1⟩ else t.find? r' := by
  unfold bind find?
  rw [List.find?_append]
  split
  · rename_i h
    subst h
    rw [show t.bindings.find? (fun b => b.role == r') = none from hr]
    simp
  · rename_i h
    have : (r == r') = false := beq_eq_false_iff_ne.mpr (Ne.symm h)
    simp [this]

theorem nodup_bind (hn : (t.bindings.map (·.role)).Nodup) (hr : t.find? r = none)
    (reg locks : Nat) : ((t.bind r reg locks).bindings.map (·.role)).Nodup := by
  unfold bind
  rw [List.map_append, List.map_cons, List.map_nil, List.nodup_append]
  refine ⟨hn, by simp, fun a ha b hb => ?_⟩
  obtain ⟨c, hc, rfl⟩ := List.mem_map.mp ha
  rw [List.mem_singleton.mp hb]
  exact find?_eq_none_iff.mp hr c hc

theorem nodup_rename (hn : (t.bindings.map (·.role)).Nodup) {old new : Role} {n : Nat}
    (hnew : t.find? new = none) :
    ((t.update old (fun b => { b with role := new, lastUse := n })).bindings.map
      (·.role)).Nodup := by
  have hroles : (t.update old (fun b => { b with role := new, lastUse := n })).bindings.map
      (·.role) = (t.bindings.map (·.role)).map fun r => if r = old then new else r := by
    unfold update
    rw [List.map_map, List.map_map]
    refine List.map_congr_left fun b _ => ?_
    simp only [Function.comp, beq_iff_eq]
    split <;> rfl
  rw [hroles]
  refine hn.map_on fun r₁ h₁ r₂ h₂ he => ?_
  have hfree : ∀ r ∈ t.bindings.map (·.role), r ≠ new := by
    rintro r hr rfl
    obtain ⟨b, hb, e⟩ := List.mem_map.mp hr
    exact find?_eq_none_iff.mp hnew b hb e
  have := hfree r₁ h₁
  have := hfree r₂ h₂
  split at he <;> split at he <;> simp_all

theorem find?_rename (hn : (t.bindings.map (·.role)).Nodup) {old new : Role} {n : Nat}
    (hnew : t.find? new = none) (b : Binding) (hb : t.find? old = some b) (r' : Role) :
    { t.update old (fun b => { b with role := new, lastUse := t.clock + 1 }) with
      clock := n }.find? r' =
      if r' = new then some { b with role := new, lastUse := t.clock + 1 }
      else if r' = old then none else t.find? r' := by
  have hne : old ≠ new := fun h => by rw [h, hnew] at hb; cases hb
  have hmem (c : Binding) : c ∈ (t.update old
      (fun b => { b with role := new, lastUse := t.clock + 1 })).bindings ↔
      c = { b with role := new, lastUse := t.clock + 1 } ∨ c ∈ t.bindings ∧ c.role ≠ old := by
    unfold update
    rw [List.mem_map]
    constructor
    · rintro ⟨a, ha, rfl⟩
      by_cases h : a.role = old
      · have : a = b := List.inj_on_of_nodup_map hn ha (mem_of_find? hb)
          (h.trans (role_of_find? hb).symm)
        subst this
        exact .inl (by rw [if_pos (beq_iff_eq.mpr h)])
      · rw [if_neg (by rwa [beq_iff_eq])]
        exact .inr ⟨ha, h⟩
    · rintro (rfl | ⟨hc, h⟩)
      · exact ⟨b, mem_of_find? hb, by rw [if_pos (beq_iff_eq.mpr (role_of_find? hb))]⟩
      · exact ⟨c, hc, by rw [if_neg (by rwa [beq_iff_eq])]⟩
  have hnodup : ((t.update old (fun b => { b with role := new, lastUse := t.clock + 1 })).bindings.map
      (·.role)).Nodup := nodup_rename hn hnew
  refine Option.ext fun c => ?_
  refine Iff.trans (find?_iff hnodup) ?_
  rw [hmem]
  by_cases h₁ : r' = new
  · subst h₁
    rw [if_pos rfl]
    constructor
    · rintro ⟨rfl | ⟨hc, -⟩, hr⟩
      · rfl
      · exact absurd hr (find?_eq_none_iff.mp hnew c hc)
    · intro h
      cases h
      exact ⟨.inl rfl, rfl⟩
  · rw [if_neg h₁]
    by_cases h₂ : r' = old
    · subst h₂
      rw [if_pos rfl]
      refine ⟨?_, fun h => by cases h⟩
      rintro ⟨rfl | ⟨-, h⟩, hr⟩
      · exact absurd hr (Ne.symm h₁)
      · exact absurd hr h
    · rw [if_neg h₂, find?_iff hn]
      constructor
      · rintro ⟨rfl | ⟨hc, -⟩, hr⟩
        · exact absurd hr.symm h₁
        · exact ⟨hc, hr⟩
      · rintro ⟨hc, rfl⟩
        exact ⟨.inr ⟨hc, h₂⟩, rfl⟩

/-! ## The invariant -/

/-- The registers there are do not change. -/
def SamePools (t t' : RoleTable) : Prop := t'.general = t.general ∧ t'.vector = t.vector

theorem SamePools.allowed {t' : RoleTable} (h : SamePools t t') {f : RegFile} {n : Nat} :
    t'.Allowed f n ↔ t.Allowed f n := by
  unfold Allowed
  cases f <;> simp only [pool, h.1, h.2]

/-- Bindings that keep their registers, and perhaps fewer of them. -/
theorem WellFormed.of_sub {t' : RoleTable} (h : t.WellFormed)
    (hn : (t'.bindings.map (·.role)).Nodup) (hp : SamePools t t')
    (hsub : ∀ {r b'}, t'.find? r = some b' → ∃ b, t.find? r = some b ∧ b'.reg = b.reg) :
    t'.WellFormed where
  nodup := hn
  apart h₁ h₂ hf hreg := by
    obtain ⟨b₁, hb₁, e₁⟩ := hsub h₁
    obtain ⟨b₂, hb₂, e₂⟩ := hsub h₂
    exact h.apart hb₁ hb₂ hf (by rw [← e₁, ← e₂, hreg])
  within h₁ := by
    obtain ⟨b₁, hb₁, e₁⟩ := hsub h₁
    rw [hp.allowed, e₁]
    exact h.within hb₁

theorem wellFormed_of_no_bindings (h : t.bindings = []) : t.WellFormed := by
  have hnone {r : Role} {b : Binding} (hb : t.find? r = some b) : False := by
    have := mem_of_find? hb
    rw [h] at this
    cases this
  exact ⟨by rw [h]; exact List.nodup_nil, fun hb => (hnone hb).elim, fun hb => (hnone hb).elim⟩

/-- The arguments are bound unlocked, each to its own register. -/
theorem mem_setupArguments (hb : b ∈ t.setupArguments.bindings) :
    b.locks = 0 ∧ b.role.file = .general ∧ b.reg ∈ argumentRegs.map fun g => g.num.toNat := by
  have hall : ∀ b ∈ fresh.setupArguments.bindings, b.locks = 0 ∧ b.role.file = .general ∧
      b.reg ∈ argumentRegs.map fun g => g.num.toNat := by decide
  exact hall b hb

/-- With nothing but the arguments bound, whatever registers there are. -/
theorem wellFormed_setupArguments (t : RoleTable) : t.setupArguments.WellFormed where
  nodup := by
    show (fresh.setupArguments.bindings.map (·.role)).Nodup
    decide
  apart h h' _ hreg := by
    have hall : ∀ b ∈ fresh.setupArguments.bindings, ∀ b' ∈ fresh.setupArguments.bindings,
        b.reg = b'.reg → b.role = b'.role := by decide
    rw [← role_of_find? h, ← role_of_find? h']
    exact hall _ (mem_of_find? h) _ (mem_of_find? h') hreg
  within h := by
    rw [← role_of_find? h]
    exact .inr (mem_setupArguments (mem_of_find? h)).2

theorem WellFormed.update {f : Binding → Binding} (h : t.WellFormed) (r : Role)
    (hc : ∀ b, (f b).role = b.role) (hreg : ∀ b, (f b).reg = b.reg) :
    (t.update r f).WellFormed := by
  refine h.of_sub (nodup_update hc h.nodup) ⟨rfl, rfl⟩ fun {r' b'} hb => ?_
  rw [find?_update hc] at hb
  split at hb
  · rename_i e
    subst e
    obtain ⟨b, hold, rfl⟩ := Option.map_eq_some_iff.mp hb
    exact ⟨b, hold, hreg b⟩
  · exact ⟨b', hb, rfl⟩

theorem WellFormed.remove (h : t.WellFormed) (r : Role) : (t.remove r).WellFormed := by
  refine h.of_sub (nodup_remove h.nodup) ⟨rfl, rfl⟩ fun {r' b'} hb => ?_
  rw [find?_remove h.nodup] at hb
  split at hb
  · cases hb
  · exact ⟨b', hb, rfl⟩

theorem WellFormed.bind (h : t.WellFormed) {reg : Nat} (hr : t.find? r = none)
    (hin : t.Allowed r.file reg)
    (hfree : ∀ r' b, t.find? r' = some b → r'.file = r.file → b.reg ≠ reg) (locks : Nat) :
    (t.bind r reg locks).WellFormed where
  nodup := nodup_bind h.nodup hr reg locks
  apart {r₁ r₂ b₁ b₂} h₁ h₂ hf hreg := by
    rw [find?_bind hr] at h₁ h₂
    split at h₁ <;> split at h₂
    · rename_i e₁ e₂; exact e₁.trans e₂.symm
    · rename_i e₁ e₂
      cases h₁
      exact absurd hreg.symm (hfree _ _ h₂ (e₁ ▸ hf.symm))
    · rename_i e₁ e₂
      cases h₂
      exact absurd hreg (hfree _ _ h₁ (e₂ ▸ hf))
    · exact h.apart h₁ h₂ hf hreg
  within {r₁ b₁} h₁ := by
    rw [find?_bind hr] at h₁
    have hp : SamePools t (t.bind r reg locks) := ⟨rfl, rfl⟩
    rw [hp.allowed]
    split at h₁
    · rename_i e
      cases h₁
      rwa [e]
    · exact h.within h₁

theorem WellFormed.rename (h : t.WellFormed) {old new : Role} {t' : RoleTable}
    (ht : t.rename old new = .ok t') : t'.WellFormed ∧ SamePools t t' ∧
      ∃ b, t.find? old = some b ∧ t.find? new = none ∧ old.file = new.file ∧
        ∀ r', t'.find? r' =
          if r' = new then some { b with role := new, lastUse := t.clock + 1 }
          else if r' = old then none else t.find? r' := by
  unfold RoleTable.rename at ht
  split at ht
  · cases ht
  · rename_i hok
    obtain ⟨hfile, hnew⟩ := not_or.mp hok
    have hfile : old.file = new.file := Classical.not_not.mp hfile
    have hnew : t.find? new = none := by
      rwa [has_eq, Option.not_isSome_iff_eq_none] at hnew
    split at ht
    · rename_i hold
      cases ht
      obtain ⟨b, hb⟩ := Option.isSome_iff_exists.mp (has_eq ▸ hold)
      have hfind := find?_rename h.nodup (n := t.clock + 1) hnew b hb
      refine ⟨⟨nodup_rename h.nodup hnew, ?_, ?_⟩, ⟨rfl, rfl⟩, b, hb, hnew, hfile, hfind⟩
      · intro r₁ r₂ b₁ b₂ h₁ h₂ hf hreg
        rw [hfind] at h₁ h₂
        split at h₁ <;> split at h₂
        · rename_i e₁ e₂; exact e₁.trans e₂.symm
        · rename_i e₁ e₂
          split at h₂
          · cases h₂
          · rename_i hne
            cases h₁
            exact absurd (h.apart hb h₂ (hfile.trans (e₁ ▸ hf)) hreg).symm hne
        · rename_i e₁ e₂
          split at h₁
          · cases h₁
          · rename_i hne
            cases h₂
            exact absurd (h.apart h₁ hb (hf.trans (e₂ ▸ hfile.symm)) hreg) hne
        · split at h₁
          · cases h₁
          · split at h₂
            · cases h₂
            · exact h.apart h₁ h₂ hf hreg
      · intro r₁ b₁ h₁
        rw [hfind] at h₁
        show t.Allowed _ _
        split at h₁
        · rename_i e
          cases h₁
          rw [e, ← hfile]
          exact (h.within hb : t.Allowed old.file b.reg)
        · split at h₁
          · cases h₁
          · exact h.within h₁
    · cases ht

/-! ## Finding and allocating -/

theorem inFile_ok {r : Role} {f : RegFile} {answer : Except Failure (Nat × RoleTable)}
    {β : Type} {g : Nat × RoleTable → β} {b : β} (h : (inFile r f answer).map g = .ok b) :
    r.file = f ∧ ∃ a, answer = .ok a ∧ g a = b := by
  unfold inFile at h
  split at h
  · rename_i hf
    exact ⟨hf, map_ok h⟩
  · cases h

/-- Finding locks a binding and nothing else. -/
theorem find_spec {n : Nat} {t' : RoleTable} (ht : t.find r = .ok (n, t')) :
    SamePools t t' ∧ (t.WellFormed → t'.WellFormed) ∧ ∃ b, t.find? r = some b ∧ b.reg = n ∧
      ∀ r', t'.find? r' =
        if r' = r then some { b with locks := b.locks + 1, lastUse := t.clock + 1 }
        else t.find? r' := by
  unfold find at ht
  split at ht
  · cases ht
  · rename_i b hb
    cases ht
    refine ⟨⟨rfl, rfl⟩, fun h => ?_, b, hb, rfl, fun r' => ?_⟩
    · have := h.update (f := fun b => { b with locks := b.locks + 1, lastUse := t.clock + 1 })
        r (fun _ => rfl) (fun _ => rfl)
      exact ⟨this.nodup, this.apart, this.within⟩
    · refine (find?_update (f := fun b =>
        { b with locks := b.locks + 1, lastUse := t.clock + 1 }) (fun _ => rfl)).trans ?_
      rw [hb]
      rfl

theorem mem_earliest {bs : List Binding} (h : earliest bs = some b) : b ∈ bs := by
  induction bs generalizing b with
  | nil => cases h
  | cons c rest ih =>
    simp only [earliest] at h
    split at h
    · cases h; exact List.mem_cons_self
    · rename_i d hd
      split at h
      · cases h; exact List.mem_cons_of_mem c (ih hd)
      · cases h; exact List.mem_cons_self

/-- What gives up its register is unlocked and can be made again. -/
theorem WellFormed.victim?_spec (h : t.WellFormed) {f : RegFile} (hv : t.victim? f = some b) :
    t.find? b.role = some b ∧ b.role.file = f ∧ b.locks = 0 ∧ b.role.isReconstructible = true := by
  have hmem := List.mem_filter.mp (mem_earliest hv)
  have hev := hmem.2
  simp only [evictable, Bool.and_eq_true, beq_iff_eq, Bool.not_eq_true'] at hev
  exact ⟨(find?_iff h.nodup).mpr ⟨hmem.1, rfl⟩, hev.1.1.1, hev.1.1.2, hev.2⟩

/-- A register that is free is one of the file's and bound to none of its roles. -/
theorem first?_free {f : RegFile} {n : Nat}
    (hn : ((t.pool f).subtract (t.used f)).first? = some n) :
    t.Allowed f n ∧ ∀ r' b, t.find? r' = some b → r'.file = f → b.reg ≠ n := by
  have hc := RegSet.contains_of_first? hn
  have hlt := RegSet.contains_lt hc
  rw [RegSet.contains_subtract _ _ _ hlt, Bool.and_eq_true, Bool.not_eq_true'] at hc
  refine ⟨.inl hc.1, fun r' b hb hf he => ?_⟩
  have hnot := hc.2
  rw [used, RegSet.contains_ofList _ _ hlt, decide_eq_false_iff_not] at hnot
  refine hnot (List.mem_map.mpr ⟨b, List.mem_filter.mpr ⟨mem_of_find? hb, ?_⟩, he⟩)
  rw [beq_iff_eq, role_of_find? hb]
  exact hf

/-- Allocation locks a register for the role.  Other bindings stay, but for one
that nobody holds and whose value can be made again. -/
theorem WellFormed.alloc_spec (h : t.WellFormed) {n : Nat} {t' : RoleTable}
    (ht : t.alloc r = .ok (n, t')) :
    SamePools t t' ∧ t'.WellFormed ∧ (∃ b, t'.find? r = some b ∧ b.reg = n ∧ 0 < b.locks) ∧
      ∀ r', r' ≠ r → t'.find? r' = t.find? r' ∨
        t'.find? r' = none ∧ r'.isReconstructible = true ∧ ∃ b, t.find? r' = some b ∧ b.locks = 0 := by
  unfold alloc at ht
  split at ht
  · obtain ⟨hp, hwf, b, hb, hreg, hfind⟩ := find_spec ht
    refine ⟨hp, hwf h, ⟨_, (hfind r).trans (if_pos rfl), hreg, Nat.succ_pos _⟩, fun r' hne => ?_⟩
    exact .inl ((hfind r').trans (if_neg hne))
  · rename_i hhas
    have hr : t.find? r = none := by rwa [has_eq, Option.not_isSome_iff_eq_none] at hhas
    split at ht
    · rename_i reg hreg
      cases ht
      obtain ⟨hin, hfree⟩ := first?_free hreg
      refine ⟨⟨rfl, rfl⟩, h.bind hr hin hfree 1,
        ⟨_, (find?_bind hr _ _).trans (if_pos rfl), rfl, Nat.one_pos⟩, fun r' hne => ?_⟩
      exact .inl ((find?_bind hr _ _).trans (if_neg hne))
    · split at ht
      · rename_i v hv
        cases ht
        obtain ⟨hfind, hfile, hlocks, hrec⟩ := h.victim?_spec hv
        have hgone : (t.remove v.role).find? r = none := by
          rw [find?_remove h.nodup, hr, ite_self]
        have hin : (t.remove v.role).Allowed r.file v.reg := by
          show t.Allowed r.file v.reg
          rw [← hfile]
          exact h.within hfind
        have hfree : ∀ r' b, (t.remove v.role).find? r' = some b → r'.file = r.file →
            b.reg ≠ v.reg := by
          intro r' b hb hf he
          rw [find?_remove h.nodup] at hb
          split at hb
          · cases hb
          · rename_i hne
            exact hne (h.apart hb hfind (hf.trans hfile.symm) he)
        refine ⟨⟨rfl, rfl⟩, (h.remove v.role).bind hgone hin hfree 1,
          ⟨_, (find?_bind hgone _ _).trans (if_pos rfl), rfl, Nat.one_pos⟩, fun r' hne => ?_⟩
        rw [find?_bind hgone, if_neg hne, find?_remove h.nodup]
        split
        · rename_i e
          subst e
          exact .inr ⟨rfl, hrec, v, hfind, hlocks⟩
        · exact .inl rfl
      · cases ht

/-! ## Unlocking, releasing, retaining -/

theorem find?_unlock : (t.unlock r).find? r' =
    if r' = r then (t.find? r).map fun b => { b with locks := b.locks - 1 } else t.find? r' :=
  find?_update fun _ => rfl

theorem find?_retain : (t.retain r).find? r' =
    if r' = r then (t.find? r).map fun b => { b with retained := true } else t.find? r' :=
  find?_update fun _ => rfl

theorem WellFormed.unlock (h : t.WellFormed) (r : Role) : (t.unlock r).WellFormed :=
  h.update r (fun _ => rfl) (fun _ => rfl)

theorem WellFormed.retain (h : t.WellFormed) (r : Role) : (t.retain r).WellFormed :=
  h.update r (fun _ => rfl) (fun _ => rfl)

theorem WellFormed.release (h : t.WellFormed) (r : Role) : (t.release r).WellFormed := by
  unfold RoleTable.release
  split
  · split
    · exact h.unlock r
    · exact h.remove r
  · exact h

theorem WellFormed.find?_release (h : t.WellFormed) (hne : r' ≠ r) :
    (t.release r).find? r' = t.find? r' := by
  unfold RoleTable.release
  split
  · split
    · exact find?_unlock.trans (if_neg hne)
    · exact (find?_remove h.nodup).trans (if_neg hne)
  · rfl

theorem samePools_alloc {n : Nat} {t' : RoleTable} (ht : t.alloc r = .ok (n, t')) :
    SamePools t t' := by
  unfold alloc at ht
  split at ht
  · exact (find_spec ht).1
  · split at ht
    · cases ht; exact ⟨rfl, rfl⟩
    · split at ht
      · cases ht; exact ⟨rfl, rfl⟩
      · cases ht

theorem samePools_rename {old new : Role} {t' : RoleTable} (ht : t.rename old new = .ok t') :
    SamePools t t' := by
  unfold RoleTable.rename at ht
  split at ht
  · cases ht
  · split at ht
    · cases ht; exact ⟨rfl, rfl⟩
    · cases ht

theorem samePools_release (t : RoleTable) (r : Role) : SamePools t (t.release r) := by
  unfold RoleTable.release
  split
  · split <;> exact ⟨rfl, rfl⟩
  · exact ⟨rfl, rfl⟩

end RoleTable

end PixelPipeline
