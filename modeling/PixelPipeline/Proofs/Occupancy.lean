/-
# Proofs.Occupancy — registers do not run out

A request for a register fails only when every register of the file is with a
role that does not give it up (`RoleTable.exists_alloc`).  So it is enough to
know which roles may hold one.  `RoleTable.Fits` says so: `S` has the lasting
roles that are bound, exactly, and `T` has what else holds a general register
for now.  Each action either fits a table to other sets or is never asked for.
-/
import Mathlib.Data.Finset.Card
import Mathlib.Data.Finset.Image
import PixelPipeline.Proofs.Shared

namespace PixelPipeline

open X86 Compile

namespace RoleTable

variable {t t' : RoleTable} {r : Role} {f : RegFile}

/-! ## Requests that are met -/

theorem earliest_eq_none {bs : List Binding} : earliest bs = none ↔ bs = [] := by
  cases bs with
  | nil => exact ⟨fun _ => rfl, fun _ => rfl⟩
  | cons b rest =>
    refine ⟨fun h => ?_, fun h => by cases h⟩
    simp only [earliest] at h
    split at h
    · cases h
    · split at h <;> cases h

/-- A file without a free register has each of them with a role. -/
theorem exists_binding_of_full (hfull : ((t.pool f).subtract (t.used f)).first? = none) {n : Nat}
    (hn : n ∈ (t.pool f).toList) : ∃ b ∈ t.bindings, b.role.file = f ∧ b.reg = n := by
  obtain ⟨hlt, hin⟩ := List.mem_filter.mp hn
  have hlt := List.mem_range.mp hlt
  have hnot : ((t.pool f).subtract (t.used f)).contains n = false := by
    have := List.find?_eq_none.mp hfull n (List.mem_range.mpr hlt)
    simpa using this
  rw [RegSet.contains_subtract _ _ _ hlt, hin, Bool.true_and, Bool.not_eq_false', used,
    RegSet.contains_ofList _ _ hlt, decide_eq_true_iff] at hnot
  obtain ⟨b, hb, hreg⟩ := List.mem_map.mp hnot
  obtain ⟨hb, hf⟩ := List.mem_filter.mp hb
  exact ⟨b, hb, beq_iff_eq.mp hf, hreg⟩

/-- A register is found as long as fewer roles than there are registers hold on
to theirs. -/
theorem exists_alloc (hn : (t.bindings.map (·.role)).Nodup) {R : Finset Role}
    (hR : ∀ {r' b}, t.find? r' = some b → r'.file = r.file → evictable r.file b = false → r' ∈ R)
    (hroom : R.card < (t.pool r.file).toList.length) : ∃ n t', t.alloc r = .ok (n, t') := by
  unfold alloc
  split
  · rename_i hhas
    obtain ⟨b, hb⟩ := Option.isSome_iff_exists.mp (has_eq ▸ hhas)
    unfold find
    rw [hb]
    exact ⟨_, _, rfl⟩
  · split
    · exact ⟨_, _, rfl⟩
    · rename_i hfull
      split
      · exact ⟨_, _, rfl⟩
      · rename_i hnone
        exfalso
        have hstuck : ∀ b ∈ t.bindings, evictable r.file b = false := by
          have := earliest_eq_none.mp hnone
          intro b hb
          have := List.filter_eq_nil_iff.mp this b hb
          simpa using this
        have hcover : (t.pool r.file).toList.toFinset ⊆
            R.image fun r' => ((t.find? r').map (·.reg)).getD 0 := by
          intro n hn'
          obtain ⟨b, hb, hf, hreg⟩ := exists_binding_of_full hfull (List.mem_toFinset.mp hn')
          have hfind : t.find? b.role = some b := (find?_iff hn).mpr ⟨hb, rfl⟩
          refine Finset.mem_image.mpr ⟨b.role, hR hfind hf (hstuck b hb), ?_⟩
          rw [hfind]
          exact hreg
        have hle := (Finset.card_le_card hcover).trans Finset.card_image_le
        have hnodup : (t.pool r.file).toList.Nodup := List.nodup_range.filter _
        rw [List.toFinset_card_of_nodup hnodup] at hle
        exact absurd hle (Nat.not_le_of_lt hroom)

/-! ## What holds registers -/

/-- Roles that are kept until they are released by force. -/
def keepers : List Role := [.colorAddr, .depthAddr, .stencil]

theorem lasting_of_keeper (h : r ∈ keepers) : r ∈ Role.lasting := by
  revert h
  cases r <;> simp [keepers, Role.lasting]

/-- Roles of a set that have general registers. -/
def generals (S : Finset Role) : Finset Role := S.filter (·.file = .general)

theorem mem_filter_ne {r' : Role} {T : List Role} (hne : r' ≠ r) (hm : r' ∈ T) :
    r' ∈ T.filter (· ≠ r) := List.mem_filter.mpr ⟨hm, decide_eq_true hne⟩

/-- A table in which the lasting roles of `S` are bound and no other lasting
role is, and in which a general register is with another role only if that is in
`T` or can give it up. -/
structure Fits (t : RoleTable) (S : Finset Role) (T : List Role) : Prop where
  wellFormed : t.WellFormed
  pools : t.SamePools .fresh
  lasting : ∀ r ∈ Role.lasting, (t.find? r).isSome = true ↔ r ∈ S
  others : ∀ {r b}, t.find? r = some b → r ∉ Role.lasting → r.file = .general → r ∉ T →
    r.isReconstructible = true ∧ b.locks = 0
  locks : ∀ {r b}, t.find? r = some b → r.isReconstructible = true → r.file = .general →
    b.locks ≤ 1
  retained : ∀ {r b}, t.find? r = some b → b.retained = true → r ∈ keepers

/-- There is a register for one more role. -/
def Spare (S : Finset Role) (T : List Role) : Prop := (generals S).card + T.length < 9

theorem spare_of_subset {S U : Finset Role} {T : List Role} (h : S ⊆ U)
    (hroom : (generals U).card + T.length < 9) :
    Spare S T :=
  Nat.lt_of_le_of_lt (Nat.add_le_add_right (Finset.card_le_card (Finset.filter_subset_filter _ h)) _)
    hroom

namespace Fits

variable {S S' : Finset Role} {T T' : List Role} (h : t.Fits S T)

include h

theorem mono (hT : T ⊆ T') : t.Fits S T' :=
  ⟨h.wellFormed, h.pools, h.lasting, fun hb hl hg hn => h.others hb hl hg fun hm => hn (hT hm),
    h.locks, h.retained⟩

/-- Roles that hold on to a general register are known. -/
theorem mem_of_held {b : Binding} (hb : t.find? r = some b) (hf : r.file = .general)
    (he : evictable .general b = false) : r ∈ generals S ∪ T.toFinset := by
  rw [Finset.mem_union, List.mem_toFinset]
  by_cases hl : r ∈ Role.lasting
  · exact .inl (Finset.mem_filter.mpr ⟨(h.lasting r hl).mp (hb ▸ rfl), hf⟩)
  · by_contra hn
    rw [not_or] at hn
    obtain ⟨hr, hlocks⟩ := h.others hb hl hf hn.2
    have hrole := role_of_find? hb
    have hret : b.retained = false := by
      by_contra hret
      have hk := h.retained hb (by simpa using hret)
      exact hl (lasting_of_keeper hk)
    rw [evictable, hrole, hf, hlocks, hret, hr] at he
    cases he

/-- A register is found for one more role. -/
theorem exists_alloc (hroom : r.file = .general → Spare S T) : ∃ n t', t.alloc r = .ok (n, t') := by
  cases hf : r.file with
  | general =>
    refine RoleTable.exists_alloc h.wellFormed.nodup (R := generals S ∪ T.toFinset) (fun hb hr he => ?_) ?_
    · rw [hf] at hr he
      exact h.mem_of_held hb hr he
    · have hpool : t.pool r.file = allocatableGeneral := by
        rw [hf]
        exact h.pools.1.symm
      rw [hpool]
      refine Nat.lt_of_le_of_lt (Finset.card_union_le _ _) (Nat.lt_of_le_of_lt ?_ (hroom hf))
      exact Nat.add_le_add_left (List.toFinset_card_le T) _
  | vector =>
    refine RoleTable.exists_alloc h.wellFormed.nodup
      (R := {.vecColor, .vecZero, .vec0, .vec1, .vec2, .vec3}) (fun {r' b} hb hr he => ?_) ?_
    · rw [hf] at hr
      revert hr
      cases r' <;> simp [Role.file]
    · have hpool : t.pool r.file = allocatableVector := by
        rw [hf]
        exact h.pools.2.symm
      rw [hpool]
      decide

end Fits

/-! ## Changes -/

theorem not_lasting_of_reconstructible (h : r.isReconstructible = true) : r ∉ Role.lasting := by
  revert h
  cases r <;> simp [Role.isReconstructible, Role.lasting]

/-- What a request leaves at its role. -/
theorem alloc_binding {n : Nat} (hwf : t.WellFormed) (ht : t.alloc r = .ok (n, t')) :
    ∃ b', t'.find? r = some b' ∧ (t.find? r = none ∧ b'.locks = 1 ∧ b'.retained = false ∨
      ∃ b, t.find? r = some b ∧ b'.locks = b.locks + 1 ∧ b'.retained = b.retained) := by
  unfold alloc at ht
  split at ht
  · obtain ⟨-, -, b, hb, -, hfind⟩ := find_spec ht
    exact ⟨_, (hfind r).trans (if_pos rfl), .inr ⟨b, hb, rfl, rfl⟩⟩
  · rename_i hhas
    have hr : t.find? r = none := by rwa [has_eq, Option.not_isSome_iff_eq_none] at hhas
    split at ht
    · cases ht
      exact ⟨_, (find?_bind hr _ _).trans (if_pos rfl), .inl ⟨hr, rfl, rfl⟩⟩
    · split at ht
      · rename_i v hv
        cases ht
        have hgone : (t.remove v.role).find? r = none := by
          rw [find?_remove hwf.nodup, hr, ite_self]
        exact ⟨_, (find?_bind hgone _ _).trans (if_pos rfl), .inl ⟨hr, rfl, rfl⟩⟩
      · cases ht

namespace Fits

variable {S S' : Finset Role} {T T' : List Role} (h : t.Fits S T)

include h

theorem pools_of (hp : t.SamePools t') : t'.SamePools .fresh :=
  ⟨h.pools.1.trans hp.1.symm, h.pools.2.trans hp.2.symm⟩

/-- A role was bound, and nothing else changed but for what could be made again. -/
theorem of_bound (hwf : t'.WellFormed) (hp : t.SamePools t') {b : Binding}
    (hb : t'.find? r = some b) (hret : b.retained = true → r ∈ keepers)
    (hlocks : r.isReconstructible = true → r.file = .general → b.locks ≤ 1)
    (hother : ∀ r', r' ≠ r → t'.find? r' = t.find? r' ∨
      t'.find? r' = none ∧ r'.isReconstructible = true)
    (hS : ∀ r' ∈ Role.lasting, r' ∈ S' ↔ r' = r ∨ r' ∈ S) (hT : T ⊆ T')
    (hr : r ∉ Role.lasting → r.file = .general → r ∈ T') : t'.Fits S' T' where
  wellFormed := hwf
  pools := h.pools_of hp
  lasting r' hl := by
    rw [hS r' hl]
    by_cases he : r' = r
    · subst he
      simp [hb]
    · rcases hother r' he with hsame | ⟨-, hrec⟩
      · rw [hsame, h.lasting r' hl]
        simp [he]
      · exact absurd hl (not_lasting_of_reconstructible hrec)
  others {r' b'} hb' hl hg hn := by
    have hne : r' ≠ r := fun he => hn (he ▸ hr (he ▸ hl) (he ▸ hg))
    rcases hother r' hne with hsame | ⟨hnone, -⟩
    · exact h.others (hsame ▸ hb') hl hg fun hm => hn (hT hm)
    · cases hnone.symm.trans hb'
  locks {r' b'} hb' hrec hg := by
    by_cases he : r' = r
    · subst he
      cases hb.symm.trans hb'
      exact hlocks hrec hg
    · rcases hother r' he with hsame | ⟨hnone, -⟩
      · exact h.locks (hsame ▸ hb') hrec hg
      · cases hnone.symm.trans hb'
  retained {r' b'} hb' hret' := by
    by_cases he : r' = r
    · subst he
      cases hb.symm.trans hb'
      exact hret hret'
    · rcases hother r' he with hsame | ⟨hnone, -⟩
      · exact h.retained (hsame ▸ hb') hret'
      · cases hnone.symm.trans hb'

/-- A role is given a register. -/
theorem alloc (hroom : r.file = .general → Spare S T)
    (hnew : r.isReconstructible = true → r.file = .general → r ∉ T)
    (hS : ∀ r' ∈ Role.lasting, r' ∈ S' ↔ r' = r ∨ r' ∈ S) (hT : T ⊆ T')
    (hr : r ∉ Role.lasting → r.file = .general → r ∈ T') :
    ∃ n t', t.alloc r = .ok (n, t') ∧ t'.Fits S' T' := by
  obtain ⟨n, t', ht⟩ := h.exists_alloc hroom
  obtain ⟨hp, hwf, -, hother⟩ := h.wellFormed.alloc_spec ht
  obtain ⟨b', hb', hhow⟩ := alloc_binding h.wellFormed ht
  refine ⟨n, t', ht, h.of_bound hwf hp hb' (fun hret => ?_) (fun hrec hg => ?_)
    (fun r' hne => (hother r' hne).imp id fun h => ⟨h.1, h.2.1⟩) hS hT hr⟩
  · rcases hhow with ⟨-, -, hno⟩ | ⟨b, hb, -, hsame⟩
    · cases hno.symm.trans hret
    · exact h.retained hb (hsame ▸ hret)
  · rcases hhow with ⟨-, hone, -⟩ | ⟨b, hb, hsucc, -⟩
    · exact Nat.le_of_eq hone
    · rw [hsucc, (h.others hb (not_lasting_of_reconstructible hrec) hg (hnew hrec hg)).2]

/-- A role that is bound is found. -/
theorem find (hbound : (t.find? r).isSome = true)
    (hnew : r.isReconstructible = true → r.file = .general → r ∉ T)
    (hT : T ⊆ T') (hr : r ∉ Role.lasting → r.file = .general → r ∈ T') :
    ∃ n t', t.find r = .ok (n, t') ∧ t'.Fits S T' := by
  obtain ⟨b, hb⟩ := Option.isSome_iff_exists.mp hbound
  obtain ⟨n, t', ht⟩ : ∃ n t', t.find r = .ok (n, t') := by
    unfold RoleTable.find
    rw [hb]
    exact ⟨_, _, rfl⟩
  obtain ⟨hp, hwf, b₁, hb₁, -, hfind⟩ := find_spec ht
  cases hb.symm.trans hb₁
  refine ⟨n, t', ht, h.of_bound (hwf h.wellFormed) hp ((hfind r).trans (if_pos rfl))
    (fun hret => h.retained hb hret) (fun hrec hg => ?_)
    (fun r' hne => .inl ((hfind r').trans (if_neg hne))) (fun r' hl => ?_) hT hr⟩
  · exact Nat.le_of_eq (congrArg (· + 1)
      (h.others hb (not_lasting_of_reconstructible hrec) hg (hnew hrec hg)).2)
  · refine ⟨.inr, ?_⟩
    rintro (rfl | hm)
    · exact (h.lasting _ hl).mp hbound
    · exact hm

/-- A role gives up its register. -/
theorem remove (r : Role) : (t.remove r).Fits (S.erase r) (T.filter (· ≠ r)) where
  wellFormed := h.wellFormed.remove r
  pools := h.pools_of ⟨rfl, rfl⟩
  lasting r' hl := by
    rw [find?_remove h.wellFormed.nodup, Finset.mem_erase]
    split
    · rename_i he
      simp [he]
    · rename_i hne
      rw [h.lasting r' hl]
      simp [hne]
  others {r' b'} hb hl hg hn := by
    rw [find?_remove h.wellFormed.nodup] at hb
    split at hb
    · cases hb
    · rename_i hne
      exact h.others hb hl hg fun hm => hn (mem_filter_ne hne hm)
  locks {r' b'} hb hrec hg := by
    rw [find?_remove h.wellFormed.nodup] at hb
    split at hb
    · cases hb
    · exact h.locks hb hrec hg
  retained {r' b'} hb hret := by
    rw [find?_remove h.wellFormed.nodup] at hb
    split at hb
    · cases hb
    · exact h.retained hb hret

/-- A role that is not lasting is given back. -/
theorem release (hl : r ∉ Role.lasting) : (t.release r).Fits S (T.filter (· ≠ r)) := by
  unfold RoleTable.release
  split
  · rename_i b hb
    rw [if_neg fun hret => hl (lasting_of_keeper (h.retained hb hret))]
    obtain ⟨hwf, hp, hlasting, hothers, hlocks, hret⟩ := h.remove r
    refine ⟨hwf, hp, fun r' hl' => ?_, hothers, hlocks, hret⟩
    rw [hlasting r' hl', Finset.mem_erase]
    exact ⟨And.right, fun hm => ⟨fun he => hl (he ▸ hl'), hm⟩⟩
  · rename_i hnone
    refine ⟨h.wellFormed, h.pools, h.lasting, fun {r' b'} hb hl' hg hn => h.others hb hl' hg fun hm => ?_,
      h.locks, h.retained⟩
    refine hn (mem_filter_ne (fun he => ?_) hm)
    subst he
    cases hnone.symm.trans hb

/-- A binding is changed in place. -/
theorem update {change : Binding → Binding} (hc : ∀ b, (change b).role = b.role)
    (hreg : ∀ b, (change b).reg = b.reg)
    (hret : ∀ b, t.find? r = some b → (change b).retained = true → r ∈ keepers)
    (hlocks : ∀ b, (change b).locks ≤ b.locks)
    (hr : ∀ b, t.find? r = some b → r ∈ T → r ∉ T' → r.file = .general →
      r.isReconstructible = true ∧ (change b).locks = 0)
    (hT : ∀ r', r' ≠ r → r' ∈ T → r' ∈ T') : (t.update r change).Fits S T' := by
  have hfind {r' : Role} {b' : Binding} (hb' : (t.update r change).find? r' = some b') :
      (r' ≠ r ∧ t.find? r' = some b') ∨ (r' = r ∧ ∃ b, t.find? r = some b ∧ b' = change b) := by
    rw [find?_update hc] at hb'
    split at hb'
    · rename_i he
      obtain ⟨b, hb, rfl⟩ := Option.map_eq_some_iff.mp hb'
      exact .inr ⟨he, b, hb, rfl⟩
    · rename_i hne
      exact .inl ⟨hne, hb'⟩
  refine ⟨h.wellFormed.update r hc hreg, h.pools_of ⟨rfl, rfl⟩, fun r' hl => ?_,
    fun {r' b'} hb' hl hg hn => ?_, fun {r' b'} hb' hrec hg => ?_, fun {r' b'} hb' hret' => ?_⟩
  · rw [← h.lasting r' hl, find?_update hc]
    split
    · rename_i he
      rw [he, Option.isSome_map]
    · rfl
  · rcases hfind hb' with ⟨hne, hb⟩ | ⟨rfl, b, hb, rfl⟩
    · exact h.others hb hl hg fun hm => hn (hT r' hne hm)
    · by_cases hm : r' ∈ T
      · exact hr b hb hm hn hg
      · obtain ⟨hrec, hzero⟩ := h.others hb hl hg hm
        exact ⟨hrec, Nat.le_zero.mp (hzero ▸ hlocks b)⟩
  · rcases hfind hb' with ⟨-, hb⟩ | ⟨rfl, b, hb, rfl⟩
    · exact h.locks hb hrec hg
    · exact Nat.le_trans (hlocks b) (h.locks hb hrec hg)
  · rcases hfind hb' with ⟨-, hb⟩ | ⟨rfl, b, hb, rfl⟩
    · exact h.retained hb hret'
    · exact hret b hb hret'

theorem unlock (r : Role) : (t.unlock r).Fits S T :=
  h.update (fun _ => rfl) (fun _ => rfl) (fun _ hb hret => h.retained hb hret)
    (fun _ => Nat.sub_le _ _) (fun _ _ hm hn => absurd hm hn) fun _ _ hm => hm

/-- What can be made again is given up. -/
theorem unlock_made (hrec : r.isReconstructible = true) : (t.unlock r).Fits S (T.filter (· ≠ r)) :=
  h.update (fun _ => rfl) (fun _ => rfl) (fun _ hb hret => h.retained hb hret)
    (fun _ => Nat.sub_le _ _)
    (fun _ hb _ _ hg => ⟨hrec, Nat.sub_eq_zero_of_le (h.locks hb hrec hg)⟩)
    fun _ hne hm => mem_filter_ne hne hm

theorem retain (hr : r ∈ keepers) : (t.retain r).Fits S T :=
  h.update (fun _ => rfl) (fun _ => rfl) (fun _ _ _ => hr) (fun _ => Nat.le_refl _)
    (fun _ _ hm hn => absurd hm hn) fun _ _ hm => hm

/-- A role takes the register of another. -/
theorem rename {old new : Role} (hold : old ∈ S) (hlold : old ∈ Role.lasting) (hnew : new ∉ S)
    (hlnew : new ∈ Role.lasting) (hf : old.file = new.file) (hkeep : new ∈ keepers) :
    ∃ t', t.rename old new = .ok t' ∧ t'.Fits (insert new (S.erase old)) T := by
  have hbound := (h.lasting old hlold).mpr hold
  have hfree : t.has new = false := by
    rw [has_eq, Bool.eq_false_iff]
    exact fun hb => hnew ((h.lasting new hlnew).mp hb)
  obtain ⟨t', ht⟩ : ∃ t', t.rename old new = .ok t' := by
    unfold RoleTable.rename
    rw [if_neg (by simp [hf, hfree]), if_pos (has_eq ▸ hbound)]
    exact ⟨_, rfl⟩
  obtain ⟨hwf, hp, b, hb, -, -, hfind⟩ := h.wellFormed.rename ht
  have hother {r' : Role} {b' : Binding} (hne : r' ≠ new) (hb' : t'.find? r' = some b') :
      t.find? r' = some b' := by
    rw [hfind, if_neg hne] at hb'
    split at hb'
    · cases hb'
    · exact hb'
  refine ⟨t', ht, hwf, h.pools_of hp, fun r' hl => ?_, fun {r' b'} hb' hl hg hn => ?_,
    fun {r' b'} hb' hrec hg => ?_, fun {r' b'} hb' hret => ?_⟩
  · rw [hfind, Finset.mem_insert, Finset.mem_erase]
    split
    · rename_i he
      simp [he]
    · rename_i hne
      split
      · rename_i he
        have hne : old ≠ new := fun h => hne (he.trans h)
        simp [he, hne]
      · rename_i hne'
        rw [h.lasting r' hl]
        simp [hne, hne']
  · exact h.others (hother (fun he => hl (he ▸ hlnew)) hb') hl hg hn
  · have hne : r' ≠ new := by
      rintro rfl
      exact not_lasting_of_reconstructible hrec hlnew
    exact h.locks (hother hne hb') hrec hg
  · by_cases he : r' = new
    · exact he ▸ hkeep
    · exact h.retained (hother he hb') hret

/-- Bindings are as they were, whatever else was done. -/
theorem restore (hp : t.SamePools t') : (t'.restore t.bindings).Fits S T :=
  ⟨⟨h.wellFormed.nodup, h.wellFormed.apart, fun hb => hp.allowed.mpr (h.wellFormed.within hb)⟩,
    h.pools_of hp, h.lasting, h.others, h.locks, h.retained⟩

end Fits

end RoleTable

end PixelPipeline
