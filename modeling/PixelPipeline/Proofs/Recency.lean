/-
# Proofs.Recency — which register is given away

A role that asks for a register when none is free gets that of the binding used longest
ago.  Ages are not kept by the table: it has stamps of a clock, and restoring bindings
brings back old stamps while the clock runs on.  `History` says what has been used, as
far as nothing was undone, without any stamps; `RoleTable.Recalls` says that stamps
tell the same story, and every request keeps it that way (`Recorded.step`), unless
bindings come back from before the table was started anew, with stamps of another
clock.

From there on allocation is a matter of cases, each with its own answer
(`allocates_exactly`).  Locks and the clock are numbers without a bound here; by
`bindings_sound` none of them reaches 2 ^ 32 in as many requests as a counter of 32 bits
can count.
-/
import PixelPipeline.Proofs.InPlace
import PixelPipeline.Proofs.Sessions

namespace PixelPipeline

open X86

/-! ## The lowest register of a set -/

namespace RegSet

theorem first?_eq_some_iff {s : RegSet} {n : Nat} :
    s.first? = some n ↔ s.contains n = true ∧ ∀ m, s.contains m = true → n ≤ m := by
  rw [first?, List.find?_range_eq_some]
  constructor
  · rintro ⟨hn, -, hlow⟩
    refine ⟨hn, fun m hm => Nat.le_of_not_lt fun hlt => ?_⟩
    have hnot := hlow m hlt
    rw [hm] at hnot
    cases hnot
  · rintro ⟨hn, hlow⟩
    refine ⟨hn, List.mem_range.mpr (contains_lt hn), fun m hm => ?_⟩
    rw [Bool.not_eq_true', Bool.eq_false_iff]
    exact fun hin => Nat.not_le_of_lt hm (hlow m hin)

theorem first?_eq_none_iff {s : RegSet} : s.first? = none ↔ ∀ n, ¬s.contains n = true := by
  rw [first?, List.find?_eq_none]
  exact ⟨fun h n hn => h n (List.mem_range.mpr (contains_lt hn)) hn, fun h n _ => h n⟩

end RegSet

namespace RoleTable

variable {t t' : RoleTable} {uses : List Role} {r : Role}

/-- The register is one of the file's, and none of its roles is bound to it. -/
def Free (t : RoleTable) (f : RegFile) (n : Nat) : Prop :=
  (t.pool f).contains n = true ∧ ∀ b ∈ t.bindings, b.role.file = f → b.reg ≠ n

theorem free_iff {f : RegFile} {n : Nat} :
    ((t.pool f).subtract (t.used f)).contains n = true ↔ t.Free f n := by
  rcases Nat.lt_or_ge n 64 with hn | hn
  · rw [RegSet.contains_subtract _ _ _ hn, used, RegSet.contains_ofList _ _ hn, Bool.and_eq_true,
      Bool.not_eq_true', decide_eq_false_iff_not, List.mem_map, Free]
    simp only [List.mem_filter, beq_iff_eq, not_exists, not_and, and_imp]
  · have hout (s : RegSet) : ¬s.contains n = true := fun h => Nat.not_lt_of_ge hn (RegSet.contains_lt h)
    exact ⟨fun h => absurd h (hout _), fun h => absurd h.1 (hout _)⟩

/-- A binding that may give up its register to a role of the file. -/
structure Candidate (f : RegFile) (b : Binding) : Prop where
  file : b.role.file = f
  unlocked : b.locks = 0
  released : b.retained = false
  reconstructible : b.role.isReconstructible = true

theorem candidate_iff {f : RegFile} {b : Binding} : evictable f b = true ↔ Candidate f b := by
  simp only [evictable, Bool.and_eq_true, beq_iff_eq, Bool.not_eq_true']
  constructor
  · rintro ⟨⟨⟨hfile, hlocks⟩, hretained⟩, hrole⟩
    exact ⟨hfile, hlocks, hretained, hrole⟩
  · intro h
    exact ⟨⟨⟨h.file, h.unlocked⟩, h.released⟩, h.reconstructible⟩

/-! ## Stamps that tell the uses -/

/-- Uses with their stamps: later ones have later stamps, the clock is not behind them,
and a binding has the stamp of the latest use of its role. -/
structure Traced (t : RoleTable) (trace : List (Role × Nat)) : Prop where
  increasing : trace.Pairwise fun u u' => u.2 < u'.2
  le_clock : ∀ u ∈ trace, u.2 ≤ t.clock
  latest : ∀ b ∈ t.bindings, ∃ before after, trace = before ++ (b.role, b.lastUse) :: after ∧
    b.role ∉ after.map (·.1)

/-- The stamps of a table are those of some uses. -/
def Recalls (t : RoleTable) (uses : List Role) : Prop :=
  ∃ trace, trace.map (·.1) = uses ∧ t.Traced trace

namespace Recalls

theorem of_no_bindings (h : t.bindings = []) : t.Recalls [] :=
  ⟨[], rfl, .nil, nofun, by rw [h]; nofun⟩

theorem lastUse_le (h : t.Recalls uses) {b : Binding} (hb : b ∈ t.bindings) :
    b.lastUse ≤ t.clock := by
  obtain ⟨trace, -, htraced⟩ := h
  obtain ⟨before, after, rfl, -⟩ := htraced.latest b hb
  exact htraced.le_clock (b.role, b.lastUse) (List.mem_append_right _ List.mem_cons_self)

/-- Bindings may be forgotten and changed in other ways, and time may pass. -/
theorem mono (h : t.Recalls uses) (hclock : t.clock ≤ t'.clock)
    (hsub : ∀ b' ∈ t'.bindings, ∃ b ∈ t.bindings, b'.role = b.role ∧ b'.lastUse = b.lastUse) :
    t'.Recalls uses := by
  obtain ⟨trace, huses, htraced⟩ := h
  refine ⟨trace, huses, htraced.increasing,
    fun u hu => Nat.le_trans (htraced.le_clock u hu) hclock, fun b' hb' => ?_⟩
  obtain ⟨b, hb, hrole, hstamp⟩ := hsub b' hb'
  rw [hrole, hstamp]
  exact htraced.latest b hb

/-- A use: the role has the new stamp, and other bindings keep theirs. -/
theorem use (h : t.Recalls uses) (hclock : t'.clock = t.clock + 1)
    (hb : ∀ b' ∈ t'.bindings, b'.role = r ∧ b'.lastUse = t.clock + 1 ∨
      b'.role ≠ r ∧ ∃ b ∈ t.bindings, b'.role = b.role ∧ b'.lastUse = b.lastUse) :
    t'.Recalls (uses ++ [r]) := by
  obtain ⟨trace, rfl, htraced⟩ := h
  refine ⟨trace ++ [(r, t.clock + 1)], List.map_append, ?_, fun u hu => ?_, fun b' hb' => ?_⟩
  · refine List.pairwise_append.mpr ⟨htraced.increasing, List.pairwise_singleton _ _, ?_⟩
    intro u hu u' hu'
    rw [List.mem_singleton.mp hu']
    exact Nat.lt_succ_of_le (htraced.le_clock u hu)
  · rw [hclock]
    rcases List.mem_append.mp hu with hu | hu
    · exact Nat.le_succ_of_le (htraced.le_clock u hu)
    · exact Nat.le_of_eq (congrArg Prod.snd (List.mem_singleton.mp hu))
  · rcases hb b' hb' with ⟨hrole, hstamp⟩ | ⟨hne, b, hold, hrole, hstamp⟩
    · exact ⟨trace, [], by rw [hrole, hstamp], nofun⟩
    · obtain ⟨before, after, hsplit, hlast⟩ := htraced.latest b hold
      refine ⟨before, after ++ [(r, t.clock + 1)], ?_, ?_⟩
      · rw [hsplit, hrole, hstamp, List.append_assoc, List.cons_append]
      · rw [List.map_append, List.mem_append, not_or]
        exact ⟨hrole ▸ hlast, fun hmem => hne (List.mem_singleton.mp hmem)⟩

theorem bind (h : t.Recalls uses) (hr : t.find? r = none) (reg locks : Nat) :
    (t.bind r reg locks).Recalls (uses ++ [r]) := by
  refine h.use rfl fun b' hb' => ?_
  rcases List.mem_append.mp hb' with hb' | hb'
  · exact .inr ⟨find?_eq_none_iff.mp hr b' hb', b', hb', rfl, rfl⟩
  · rw [List.mem_singleton.mp hb']
    exact .inl ⟨rfl, rfl⟩

theorem update (h : t.Recalls uses) (r : Role) {f : Binding → Binding}
    (hrole : ∀ b, (f b).role = b.role) (hstamp : ∀ b, (f b).lastUse = b.lastUse) :
    (t.update r f).Recalls uses := by
  refine h.mono (Nat.le_refl _) fun b' hb' => ?_
  obtain ⟨b, hb, rfl⟩ := List.mem_map.mp hb'
  refine ⟨b, hb, ?_⟩
  split
  · exact ⟨hrole b, hstamp b⟩
  · exact ⟨rfl, rfl⟩

theorem remove (h : t.Recalls uses) (r : Role) : (t.remove r).Recalls uses :=
  h.mono (Nat.le_refl _) fun b hb =>
    ⟨b, List.mem_of_mem_eraseP ((remove_perm t r).mem_iff.mp hb), rfl, rfl⟩

theorem release (h : t.Recalls uses) (r : Role) : (t.release r).Recalls uses := by
  unfold RoleTable.release
  split
  · split
    · exact h.update r (fun _ => rfl) (fun _ => rfl)
    · exact h.remove r
  · exact h

theorem setupArguments (t : RoleTable) : t.setupArguments.Recalls Role.arguments := by
  have h₀ : t.reset.Recalls [] := .of_no_bindings rfl
  have h₁ := h₀.bind (r := .argX) rfl 7 0
  have h₂ := h₁.bind (r := .argY) rfl 6 0
  have h₃ := h₂.bind (r := .argZ) rfl 2 0
  have h₄ := h₃.bind (r := .argFog) rfl 1 0
  have h₅ := h₄.bind (r := .argColor) rfl 8 0
  exact h₅.bind (r := .argKey) rfl 9 0

theorem find (h : t.Recalls uses) {n : Nat} (ht : t.find r = .ok (n, t')) :
    t'.Recalls (uses ++ [r]) := by
  unfold RoleTable.find at ht
  split at ht
  · cases ht
  · cases ht
    refine h.use rfl fun b' hb' => ?_
    obtain ⟨b, hb, rfl⟩ := List.mem_map.mp hb'
    by_cases hr : b.role = r
    · rw [if_pos (beq_iff_eq.mpr hr)]
      exact .inl ⟨hr, rfl⟩
    · rw [if_neg (by rwa [beq_iff_eq])]
      exact .inr ⟨hr, b, hb, rfl, rfl⟩

theorem alloc (h : t.Recalls uses) (hn : (t.bindings.map (·.role)).Nodup) {n : Nat}
    (ht : t.alloc r = .ok (n, t')) : t'.Recalls (uses ++ [r]) := by
  unfold RoleTable.alloc at ht
  split at ht
  · exact h.find ht
  · rename_i hhas
    have hr : t.find? r = none := by rwa [has_eq, Option.not_isSome_iff_eq_none] at hhas
    split at ht
    · cases ht
      exact h.bind hr _ _
    · split at ht
      · rename_i v hv
        cases ht
        exact (h.remove v.role).bind (by rw [find?_remove hn, hr, ite_self]) _ _
      · cases ht

theorem rename (h : t.Recalls uses) {old new : Role} (ht : t.rename old new = .ok t') :
    t'.Recalls (uses ++ [new]) := by
  unfold RoleTable.rename at ht
  split at ht
  · cases ht
  · rename_i hok
    have hnew : t.find? new = none := by
      have := (not_or.mp hok).2
      rwa [has_eq, Option.not_isSome_iff_eq_none] at this
    split at ht
    · cases ht
      refine h.use rfl fun b' hb' => ?_
      obtain ⟨b, hb, rfl⟩ := List.mem_map.mp hb'
      by_cases hr : b.role = old
      · rw [if_pos (beq_iff_eq.mpr hr)]
        exact .inl ⟨rfl, rfl⟩
      · rw [if_neg (by rwa [beq_iff_eq])]
        exact .inr ⟨find?_eq_none_iff.mp hnew b hb, b, hb, rfl, rfl⟩
    · cases ht

end Recalls

/-! ## Ticks -/

theorem clock_find {n : Nat} (ht : t.find r = .ok (n, t')) : t'.clock = t.clock + 1 := by
  unfold RoleTable.find at ht
  split at ht
  · cases ht
  · cases ht
    rfl

theorem clock_alloc {n : Nat} (ht : t.alloc r = .ok (n, t')) : t'.clock = t.clock + 1 := by
  unfold RoleTable.alloc at ht
  split at ht
  · exact clock_find ht
  · split at ht
    · cases ht
      rfl
    · split at ht
      · cases ht
        rfl
      · cases ht

theorem clock_rename {old new : Role} (ht : t.rename old new = .ok t') :
    t'.clock = t.clock + 1 := by
  unfold RoleTable.rename at ht
  split at ht
  · cases ht
  · split at ht
    · cases ht
      rfl
    · cases ht

theorem clock_release (t : RoleTable) (r : Role) : (t.release r).clock = t.clock := by
  unfold RoleTable.release
  split
  · split <;> rfl
  · rfl

/-! ## The binding used longest ago -/

theorem earliest_le {bs : List Binding} {v b : Binding} (hv : earliest bs = some v) (hb : b ∈ bs) :
    v.lastUse ≤ b.lastUse := by
  induction bs generalizing v with
  | nil => cases hb
  | cons c rest ih =>
    simp only [earliest] at hv
    split at hv
    · rename_i hnone
      cases hv
      cases rest with
      | nil => exact Nat.le_of_eq (congrArg Binding.lastUse (List.mem_singleton.mp hb).symm)
      | cons d ds =>
        simp only [earliest] at hnone
        split at hnone
        · cases hnone
        · split at hnone <;> cases hnone
    · rename_i w hw
      split at hv
      · rename_i hlt
        cases hv
        rcases List.mem_cons.mp hb with rfl | hb
        · exact Nat.le_of_lt hlt
        · exact ih hw hb
      · rename_i hge
        cases hv
        rcases List.mem_cons.mp hb with rfl | hb
        · exact Nat.le_refl _
        · exact Nat.le_trans (Nat.le_of_not_lt hge) (ih hw hb)

/-- Among the candidates of the file, the one whose latest use is the earliest. -/
structure Oldest (t : RoleTable) (uses : List Role) (f : RegFile) (v : Binding) : Prop where
  mem : v ∈ t.bindings
  candidate : Candidate f v
  earliest : ∃ before after, uses = before ++ v.role :: after ∧ v.role ∉ after ∧
    ∀ b ∈ t.bindings, Candidate f b → b ≠ v → b.role ∈ after

theorem Recalls.oldest (h : t.Recalls uses) (hn : (t.bindings.map (·.role)).Nodup)
    {f : RegFile} {v : Binding} (hv : t.victim? f = some v) : t.Oldest uses f v := by
  obtain ⟨hmem, hevictable⟩ := List.mem_filter.mp (mem_earliest hv)
  obtain ⟨trace, rfl, htraced⟩ := h
  obtain ⟨before, after, rfl, hlast⟩ := htraced.latest v hmem
  refine ⟨hmem, candidate_iff.mp hevictable, before.map (·.1), after.map (·.1),
    by rw [List.map_append, List.map_cons], hlast, fun b hb hcandidate hne => ?_⟩
  have hle : v.lastUse ≤ b.lastUse :=
    earliest_le hv (List.mem_filter.mpr ⟨hb, candidate_iff.mpr hcandidate⟩)
  obtain ⟨before', after', hsplit, -⟩ := htraced.latest b hb
  have huse : (b.role, b.lastUse) ∈ before ++ (v.role, v.lastUse) :: after := by
    rw [hsplit]
    exact List.mem_append_right _ List.mem_cons_self
  rcases List.mem_append.mp huse with huse | huse
  · -- an earlier use has an earlier stamp
    have hlt : b.lastUse < v.lastUse :=
      (List.pairwise_append.mp htraced.increasing).2.2 _ huse _ List.mem_cons_self
    exact absurd hle (Nat.not_le_of_lt hlt)
  · rcases List.mem_cons.mp huse with heq | huse
    · exact absurd (List.inj_on_of_nodup_map hn hb hmem (Prod.mk.inj heq).1) hne
    · exact List.mem_map.mpr ⟨_, huse, rfl⟩

theorem exists_victim {f : RegFile} (h : ∃ b ∈ t.bindings, Candidate f b) :
    ∃ v, t.victim? f = some v := by
  obtain ⟨b, hb, hcandidate⟩ := h
  have hmem : b ∈ t.bindings.filter (evictable f) :=
    List.mem_filter.mpr ⟨hb, candidate_iff.mpr hcandidate⟩
  unfold victim?
  cases hbs : t.bindings.filter (evictable f) with
  | nil => rw [hbs] at hmem; cases hmem
  | cons c cs =>
    rw [earliest]
    split
    · exact ⟨_, rfl⟩
    · split <;> exact ⟨_, rfl⟩

theorem victim?_eq_none {f : RegFile} (h : ∀ b ∈ t.bindings, ¬Candidate f b) :
    t.victim? f = none := by
  have hbs : t.bindings.filter (evictable f) = [] :=
    List.filter_eq_nil_iff.mpr fun b hb => mt candidate_iff.mp (h b hb)
  rw [victim?, hbs, earliest]

/-! ## The ways to answer -/

theorem alloc_of_bound {b : Binding} (hb : t.find? r = some b) :
    ∃ t', t.alloc r = .ok (b.reg, t') ∧
      t'.find? r = some { b with locks := b.locks + 1, lastUse := t.clock + 1 } ∧
      ∀ q, q ≠ r → t'.find? q = t.find? q := by
  have hhas : t.has r = true := by rw [has_eq, hb]; rfl
  have hfind : ∃ t', t.find r = .ok (b.reg, t') := by
    unfold RoleTable.find
    rw [hb]
    exact ⟨_, rfl⟩
  obtain ⟨t', ht⟩ := hfind
  obtain ⟨-, -, b', hb', -, hbindings⟩ := find_spec ht
  cases hb.symm.trans hb'
  refine ⟨t', by rw [RoleTable.alloc, if_pos hhas, ht], (hbindings r).trans (if_pos rfl), ?_⟩
  exact fun q hq => (hbindings q).trans (if_neg hq)

theorem alloc_of_unbound (hr : t.find? r = none) :
    t.alloc r = match ((t.pool r.file).subtract (t.used r.file)).first? with
      | some reg => .ok (reg, t.bind r reg 1)
      | none =>
          match t.victim? r.file with
          | some v => .ok (v.reg, (t.remove v.role).bind r v.reg 1)
          | none => .error (.error (.outOfRegisters r)) := by
  have hhas : ¬t.has r = true := by rw [has_eq, hr]; exact Bool.false_ne_true
  exact if_neg hhas

theorem alloc_of_free (hr : t.find? r = none) (hfree : ∃ n, t.Free r.file n) :
    ∃ n t', t.Free r.file n ∧ (∀ m, t.Free r.file m → n ≤ m) ∧ t.alloc r = .ok (n, t') ∧
      t'.find? r = some ⟨r, n, 1, false, t.clock + 1⟩ ∧ ∀ q, q ≠ r → t'.find? q = t.find? q := by
  cases hfirst : ((t.pool r.file).subtract (t.used r.file)).first? with
  | none =>
    obtain ⟨n, hn⟩ := hfree
    exact absurd (free_iff.mpr hn) (RegSet.first?_eq_none_iff.mp hfirst n)
  | some n =>
    obtain ⟨hin, hlow⟩ := RegSet.first?_eq_some_iff.mp hfirst
    refine ⟨n, t.bind r n 1, free_iff.mp hin, fun m hm => hlow m (free_iff.mpr hm),
      by rw [alloc_of_unbound hr, hfirst], (find?_bind hr n 1).trans (if_pos rfl), ?_⟩
    exact fun q hq => (find?_bind hr n 1).trans (if_neg hq)

theorem first?_of_full {f : RegFile} (hfull : ∀ n, ¬t.Free f n) :
    ((t.pool f).subtract (t.used f)).first? = none :=
  RegSet.first?_eq_none_iff.mpr fun n hn => hfull n (free_iff.mp hn)

theorem alloc_of_victim (hn : (t.bindings.map (·.role)).Nodup) (hr : t.find? r = none)
    (hfull : ∀ n, ¬t.Free r.file n) {v : Binding} (hv : t.victim? r.file = some v) :
    ∃ t', t.alloc r = .ok (v.reg, t') ∧ t'.find? r = some ⟨r, v.reg, 1, false, t.clock + 1⟩ ∧
      t'.find? v.role = none ∧ ∀ q, q ≠ r → q ≠ v.role → t'.find? q = t.find? q := by
  have hbound : t.find? v.role = some v :=
    (find?_iff hn).mpr ⟨(List.mem_filter.mp (mem_earliest hv)).1, rfl⟩
  have hgone : (t.remove v.role).find? r = none := by rw [find?_remove hn, hr, ite_self]
  have hne : v.role ≠ r := fun h => by rw [h, hr] at hbound; cases hbound
  refine ⟨(t.remove v.role).bind r v.reg 1, by rw [alloc_of_unbound hr, first?_of_full hfull, hv],
    (find?_bind hgone _ _).trans (if_pos rfl), ?_, fun q hq hqv => ?_⟩
  · rw [find?_bind hgone, if_neg hne, find?_remove hn, if_pos rfl]
  · rw [find?_bind hgone, if_neg hq, find?_remove hn, if_neg hqv]

theorem alloc_of_full (hr : t.find? r = none) (hfull : ∀ n, ¬t.Free r.file n)
    (hnone : ∀ b ∈ t.bindings, ¬Candidate r.file b) :
    t.alloc r = .error (.error (.outOfRegisters r)) := by
  rw [alloc_of_unbound hr, first?_of_full hfull, victim?_eq_none hnone]

theorem rename_of_unbound {old new : Role} (hold : t.find? old = none)
    (hnew : t.find? new = none) (hfile : old.file = new.file) :
    t.rename old new = .error (.error (.unbound old)) := by
  have hfits : ¬(old.file ≠ new.file ∨ t.has new = true) := by
    rw [has_eq, hnew]
    exact not_or.mpr ⟨fun h => h hfile, Bool.false_ne_true⟩
  rw [RoleTable.rename, if_neg hfits, has_eq, hold]
  rfl

end RoleTable

/-! ## What has been used -/

namespace Allocation

/-- The request forgets all bindings and sets the clock back. -/
def Request.startsAnew : Request → Bool
  | .setupArguments | .reset => true
  | _ => false

/-- What has been used since a table was last started anew, but for what a restore has
undone. -/
structure History where
  /-- Roles, one for each use, the latest last. -/
  uses : List Role := []
  /-- What had been used when bindings were saved. -/
  saved : List (List Role) := []
  /-- How many bindings had been saved when the table was started anew. -/
  era : Nat := 0

/-- Note a request that was granted. -/
def History.note (h : History) : Request → History
  | .setupArguments => { h with uses := Role.arguments, era := h.saved.length }
  | .reset => { h with uses := [], era := h.saved.length }
  | .allocGen r | .allocVec r | .findGen r | .findVec r | .rename _ r =>
      { h with uses := h.uses ++ [r] }
  | .checkpoint => { h with saved := h.saved ++ [h.uses] }
  | .restore i => { h with uses := h.saved.getD i [] }
  | .unlock _ | .release _ | .retain _ | .forceRelease _ => h

/-- The history after a request of a session. -/
def History.after (h : History) (s : Session) (r : Request) : History :=
  match s.answer r with
  | .ok _ => h.note r
  | .error _ => h

namespace Session

open RoleTable

/-- Sessions over the given registers, with their histories, in which no bindings are
restored that were saved before the table was last started anew. -/
inductive Reached (general vector : RegSet) : Session → History → Prop where
  | start : Reached general vector ⟨.withRegisters general vector, []⟩ {}
  | step {s : Session} {h : History} (hs : Reached general vector s h) (r : Request)
      (hr : ∀ i, r = .restore i → h.era ≤ i) : Reached general vector (s.step r) (h.after s r)

/-- The stamps of the table tell its history, and so would those of bindings saved since
it was started anew. -/
structure Recorded (s : Session) (h : History) : Prop where
  table : s.table.Recalls h.uses
  length : h.saved.length = s.saved.length
  saved : ∀ i bs us, h.era ≤ i → s.saved[i]? = some bs → h.saved[i]? = some us →
    (s.table.restore bs).Recalls us

variable {s : Session} {h : History}

/-- A change that lets time pass. -/
theorem Recorded.withTable {t : RoleTable} {uses : List Role} (hrec : s.Recorded h)
    (ht : t.Recalls uses) (hclock : s.table.clock ≤ t.clock) :
    (s.withTable t).Recorded { h with uses } where
  table := ht
  length := hrec.length
  saved i bs us hi hbs hus := (hrec.saved i bs us hi hbs hus).mono hclock fun b hb => ⟨b, hb, rfl, rfl⟩

theorem Recorded.anew {t : RoleTable} {uses : List Role} (hrec : s.Recorded h)
    (ht : t.Recalls uses) :
    (s.withTable t).Recorded { h with uses, era := h.saved.length } where
  table := ht
  length := hrec.length
  saved _ _ _ hi _ hus := absurd (List.getElem?_eq_some_iff.mp hus).1 (Nat.not_lt_of_ge hi)

theorem Recorded.checkpoint (hrec : s.Recorded h) :
    { s with saved := s.saved ++ [s.table.bindings] }.Recorded
      { h with saved := h.saved ++ [h.uses] } where
  table := hrec.table
  length := by rw [List.length_append, List.length_append, hrec.length]; rfl
  saved i bs us hi hbs hus := by
    rcases Nat.lt_or_ge i s.saved.length with hlt | hge
    · rw [List.getElem?_append_left hlt] at hbs
      rw [List.getElem?_append_left (hrec.length ▸ hlt)] at hus
      exact hrec.saved i bs us hi hbs hus
    · rw [List.getElem?_append_right hge, List.getElem?_singleton] at hbs
      rw [List.getElem?_append_right (hrec.length ▸ hge), List.getElem?_singleton] at hus
      split at hbs
      · split at hus
        · cases hbs
          cases hus
          exact hrec.table
        · cases hus
      · cases hbs

theorem Recorded.restore {i : Nat} {bs : List Binding} (hrec : s.Recorded h) (hi : h.era ≤ i)
    (hbs : s.saved[i]? = some bs) :
    (s.withTable (s.table.restore bs)).Recorded { h with uses := h.saved.getD i [] } := by
  have hlt : i < h.saved.length := hrec.length ▸ (List.getElem?_eq_some_iff.mp hbs).1
  have hus := List.getElem?_eq_getElem hlt
  rw [List.getD_eq_getElem?_getD, hus]
  exact hrec.withTable (hrec.saved i bs _ hi hbs hus) (Nat.le_refl _)

/-- Every request is noted. -/
theorem Recorded.step (hrec : s.Recorded h) (hn : (s.table.bindings.map (·.role)).Nodup)
    (r : Request) (hr : ∀ i, r = .restore i → h.era ≤ i) : (s.step r).Recorded (h.after s r) := by
  unfold Session.step History.after
  cases hanswer : s.answer r with
  | error e => exact hrec
  | ok granted =>
    obtain ⟨a, s'⟩ := granted
    show s'.Recorded (h.note r)
    cases grants_of_answer hanswer with
    | setupArguments => exact hrec.anew (Recalls.setupArguments s.table)
    | reset => exact hrec.anew (.of_no_bindings rfl)
    | allocGen halloc | allocVec halloc =>
      exact hrec.withTable (hrec.table.alloc hn halloc) (clock_alloc halloc ▸ Nat.le_succ _)
    | findGen hfind | findVec hfind =>
      exact hrec.withTable (hrec.table.find hfind) (clock_find hfind ▸ Nat.le_succ _)
    | unlock r | retain r =>
      exact hrec.withTable (hrec.table.update r (fun _ => rfl) fun _ => rfl) (Nat.le_refl _)
    | release r =>
      exact hrec.withTable (hrec.table.release r) (Nat.le_of_eq (clock_release _ r).symm)
    | forceRelease r => exact hrec.withTable (hrec.table.remove r) (Nat.le_refl _)
    | rename hrename =>
      exact hrec.withTable (hrec.table.rename hrename) (clock_rename hrename ▸ Nat.le_succ _)
    | checkpoint => exact hrec.checkpoint
    | restore hbs => exact hrec.restore (hr _ rfl) hbs

variable {general vector : RegSet}

theorem Reached.kept (hs : Reached general vector s h) :
    ∃ n, s.Kept (.withRegisters general vector) n := by
  induction hs with
  | start => exact ⟨0, ⟨rfl, rfl⟩, wellFormed_of_no_bindings rfl, ⟨nofun, Nat.zero_le _⟩, nofun⟩
  | step _ r _ ih =>
    obtain ⟨n, hkept⟩ := ih
    exact ⟨n + 1, hkept.step r⟩

theorem Reached.wellFormed (hs : Reached general vector s h) : s.table.WellFormed :=
  hs.kept.elim fun _ hkept => hkept.wellFormed

theorem Reached.recorded (hs : Reached general vector s h) : s.Recorded h := by
  induction hs with
  | start => exact ⟨.of_no_bindings rfl, rfl, nofun⟩
  | step hs r hr ih => exact ih.step hs.wellFormed.nodup r hr

/-- In a session over any registers, after any requests that restore no bindings from
before the table was last started anew, a role that asks for a register
* gets its own, locked once more, if it has one;
* else the lowest one that no role of its file holds, locked once;
* else that of the binding which was used longest ago, of those that nobody locks or
  retains and whose values can be made again; uses that a restore has undone do not count;
* else none, and the answer says so.

Other bindings stay as they are.  A role without a register cannot be found or renamed,
and no failure changes anything: not the table in place, and not the session. -/
theorem allocates_exactly (hs : Reached general vector s h) (p : Role) :
    let t := s.table
    (∀ b, t.find? p = some b → ∃ t', t.alloc p = .ok (b.reg, t') ∧
      t'.find? p = some { b with locks := b.locks + 1, lastUse := t.clock + 1 } ∧
      ∀ q, q ≠ p → t'.find? q = t.find? q) ∧
    (t.find? p = none → (∃ n, t.Free p.file n) → ∃ n t', t.Free p.file n ∧
      (∀ m, t.Free p.file m → n ≤ m) ∧ t.alloc p = .ok (n, t') ∧
      t'.find? p = some ⟨p, n, 1, false, t.clock + 1⟩ ∧ ∀ q, q ≠ p → t'.find? q = t.find? q) ∧
    (t.find? p = none → (∀ n, ¬t.Free p.file n) → (∃ b ∈ t.bindings, Candidate p.file b) →
      ∃ v t', t.Oldest h.uses p.file v ∧ t.alloc p = .ok (v.reg, t') ∧
      t'.find? p = some ⟨p, v.reg, 1, false, t.clock + 1⟩ ∧ t'.find? v.role = none ∧
      ∀ q, q ≠ p → q ≠ v.role → t'.find? q = t.find? q) ∧
    (t.find? p = none → (∀ n, ¬t.Free p.file n) → (∀ b ∈ t.bindings, ¬Candidate p.file b) →
      t.alloc p = .error (.error (.outOfRegisters p))) ∧
    (t.find? p = none → t.find p = .error (.error (.unbound p))) ∧
    (∀ q, t.find? p = none → t.find? q = none → p.file = q.file →
      t.rename p q = .error (.error (.unbound p))) ∧
    (InPlace.alloc p).run t = t.settle (t.alloc p) ∧
    (InPlace.find p).run t = t.settle (t.find p) ∧
    (∀ q, (InPlace.rename p q).run t = t.settle ((t.rename p q).map fun t' => ((), t'))) ∧
    ∀ r e, s.answer r = .error e → s.step r = s := by
  intro t
  have hn := hs.wellFormed.nodup
  refine ⟨fun b hb => alloc_of_bound hb, alloc_of_free, fun hp hfull hcandidate => ?_,
    alloc_of_full, fun hp => ?_, fun q hp hq hfile => rename_of_unbound hp hq hfile,
    run_alloc t p, run_find t p, run_rename t p, fun r e he => ?_⟩
  · obtain ⟨v, hv⟩ := exists_victim hcandidate
    obtain ⟨t', halloc, hbound, hgone, hother⟩ := alloc_of_victim hn hp hfull hv
    exact ⟨v, t', hs.recorded.table.oldest hn hv, halloc, hbound, hgone, hother⟩
  · rw [RoleTable.find, hp]
  · rw [step, he]

/-- Two registers, given to two roles whose values can be made again.  The first is used
once more, which a restore undoes: it is the one that loses its register. -/
theorem allocates_exactly_undone :
    let s := (Session.mk (.withRegisters ⟨3⟩ ⟨0⟩) []).run
      [.allocGen .stateBase, .unlock .stateBase, .allocGen .poolBase, .unlock .poolBase,
        .checkpoint, .findGen .stateBase, .restore 0]
    ∃ v t', s.table.Oldest [.stateBase, .poolBase] .general v ∧ v.role = .stateBase ∧
      s.table.alloc .gen0 = .ok (v.reg, t') ∧ t'.find? v.role = none := by
  intro s
  have hs : Reached ⟨3⟩ ⟨0⟩ s
      { uses := [.stateBase, .poolBase], saved := [[.stateBase, .poolBase]] } := Reached.start
    |>.step (.allocGen .stateBase) nofun |>.step (.unlock .stateBase) nofun
    |>.step (.allocGen .poolBase) nofun |>.step (.unlock .poolBase) nofun
    |>.step .checkpoint nofun |>.step (.findGen .stateBase) nofun
    |>.step (.restore 0) fun _ _ => Nat.zero_le _
  have hbindings : s.table.bindings = [⟨.stateBase, 0, 0, false, 1⟩, ⟨.poolBase, 1, 0, false, 2⟩] := by
    decide
  have hfirst : ((s.table.pool .general).subtract (s.table.used .general)).first? = none := by decide
  have hfull (n : Nat) : ¬s.table.Free .general n := fun hn =>
    RegSet.first?_eq_none_iff.mp hfirst n (free_iff.mpr hn)
  have hcandidate : ∃ b ∈ s.table.bindings, Candidate .general b :=
    ⟨⟨.poolBase, 1, 0, false, 2⟩, by rw [hbindings]; decide, candidate_iff.mp (by decide)⟩
  obtain ⟨v, t', holdest, halloc, -, hgone, -⟩ :=
    (allocates_exactly hs .gen0).2.2.1 (by decide) hfull hcandidate
  refine ⟨v, t', holdest, ?_, halloc, hgone⟩
  rcases List.mem_pair.mp (hbindings ▸ holdest.mem) with rfl | rfl
  · rfl
  · have hreg : (s.table.alloc .gen0).toOption.map (·.1) = some 0 := by decide
    rw [halloc] at hreg
    cases hreg

end Session

end Allocation

end PixelPipeline
