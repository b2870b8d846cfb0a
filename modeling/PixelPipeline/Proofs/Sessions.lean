/-
# Proofs.Sessions — tables under any requests

Every request either leaves a session as it is, changes the table in one of the
ways of `RoleTable.Turns`, saves the bindings, or returns to bindings saved
before.  So the invariant of a session speaks of the table and of every list
that could be put in its place: saved bindings are as sound as those they were
copied from, over registers that no request changes.

Locks and ticks are counted as well: neither outgrows the number of requests by
more than the six arguments, so counters of 32 and of 64 bits do not wrap in
fewer than 2 ^ 32 requests.
-/
import PixelPipeline.Allocation.Session
import PixelPipeline.Proofs.Table

namespace PixelPipeline

open X86

/-! ## One change of a table -/

namespace RoleTable

variable {t t' : RoleTable}

/-- What a request can turn a table into. -/
inductive Turns (t : RoleTable) : RoleTable → Prop where
  | setupArguments : t.Turns t.setupArguments
  | reset : t.Turns t.reset
  | alloc {r : Role} {n : Nat} {t' : RoleTable} (h : t.alloc r = .ok (n, t')) : t.Turns t'
  | find {r : Role} {n : Nat} {t' : RoleTable} (h : t.find r = .ok (n, t')) : t.Turns t'
  | unlock (r : Role) : t.Turns (t.unlock r)
  | release (r : Role) : t.Turns (t.release r)
  | retain (r : Role) : t.Turns (t.retain r)
  | forceRelease (r : Role) : t.Turns (t.forceRelease r)
  | rename {old new : Role} {t' : RoleTable} (h : t.rename old new = .ok t') : t.Turns t'

theorem Turns.samePools (h : t.Turns t') : SamePools t t' := by
  cases h with
  | setupArguments | reset | unlock | retain | forceRelease => exact ⟨rfl, rfl⟩
  | alloc h => exact samePools_alloc h
  | find h => exact (find_spec h).1
  | release r => exact samePools_release t r
  | rename h => exact samePools_rename h

theorem Turns.wellFormed (h : t.Turns t') (hwf : t.WellFormed) : t'.WellFormed := by
  cases h with
  | setupArguments => exact wellFormed_setupArguments t
  | reset => exact wellFormed_of_no_bindings rfl
  | alloc h => exact (hwf.alloc_spec h).2.1
  | find h => exact (find_spec h).2.1 hwf
  | unlock r => exact hwf.unlock r
  | release r => exact hwf.release r
  | retain r => exact hwf.retain r
  | forceRelease r => exact hwf.remove r
  | rename h => exact (hwf.rename h).1

/-! ## Locks and ticks -/

/-- No role is locked more than `n` times, and the clock has gone no further
than `n` ticks after the arguments were bound. -/
structure Counted (t : RoleTable) (n : Nat) : Prop where
  locks : ∀ b ∈ t.bindings, b.locks ≤ n
  clock : t.clock ≤ n + argumentRegs.length

theorem Counted.mono {n m : Nat} (h : t.Counted n) (hle : n ≤ m) : t.Counted m :=
  ⟨fun b hb => Nat.le_trans (h.locks b hb) hle, Nat.le_trans h.clock (Nat.add_le_add_right hle _)⟩

theorem Counted.remove {n : Nat} (h : t.Counted n) (r : Role) : (t.remove r).Counted n :=
  ⟨fun b hb => h.locks b (List.mem_of_mem_eraseP ((remove_perm t r).mem_iff.mp hb)), h.clock⟩

theorem Counted.update {n m : Nat} {r : Role} {f : Binding → Binding} (h : t.Counted n)
    (hle : n ≤ m) (hf : ∀ b, b.locks ≤ n → (f b).locks ≤ m) : (t.update r f).Counted m where
  locks b hb := by
    obtain ⟨c, hc, rfl⟩ := List.mem_map.mp hb
    have hlocks := h.locks c hc
    split
    · exact hf c hlocks
    · exact Nat.le_trans hlocks hle
  clock := (h.mono hle).clock

theorem Counted.bind {n : Nat} (h : t.Counted n) (r : Role) (reg : Nat) :
    (t.bind r reg 1).Counted (n + 1) where
  locks b hb := by
    rcases List.mem_append.mp hb with hb | hb
    · exact Nat.le_succ_of_le (h.locks b hb)
    · rw [List.mem_singleton.mp hb]
      exact Nat.le_add_left 1 n
  clock := by
    have hclock := h.clock
    simp only [RoleTable.bind]
    omega

theorem Counted.tick {n : Nat} (h : t.Counted (n + 1)) (hclock : t.clock ≤ n + argumentRegs.length) :
    { t with clock := t.clock + 1 }.Counted (n + 1) :=
  ⟨h.locks, by simp only; omega⟩

theorem Counted.find {n reg : Nat} {r : Role} (h : t.Counted n) (ht : t.find r = .ok (reg, t')) :
    t'.Counted (n + 1) := by
  unfold RoleTable.find at ht
  split at ht
  · cases ht
  · cases ht
    exact (h.update (Nat.le_succ n) fun b hb => Nat.succ_le_succ hb).tick h.clock

theorem Counted.alloc {n reg : Nat} {r : Role} (h : t.Counted n)
    (ht : t.alloc r = .ok (reg, t')) : t'.Counted (n + 1) := by
  unfold RoleTable.alloc at ht
  split at ht
  · exact h.find ht
  · split at ht
    · cases ht
      exact h.bind r _
    · split at ht
      · cases ht
        exact (h.remove _).bind r _
      · cases ht

theorem Counted.rename {n : Nat} {old new : Role} (h : t.Counted n)
    (ht : t.rename old new = .ok t') : t'.Counted (n + 1) := by
  unfold RoleTable.rename at ht
  split at ht
  · cases ht
  · split at ht
    · cases ht
      have hnamed := h.update (m := n + 1) (r := old)
        (f := fun b => { b with role := new, lastUse := t.clock + 1 }) (Nat.le_succ n)
        fun b hb => Nat.le_succ_of_le hb
      exact hnamed.tick h.clock
    · cases ht

/-- A request locks a role at most once more, and lets the clock tick at most once
more unless it starts anew. -/
theorem Turns.counted {n : Nat} (h : t.Turns t') (hn : t.Counted n) : t'.Counted (n + 1) := by
  have hunlock (r : Role) : (t.unlock r).Counted n :=
    hn.update (Nat.le_refl n) fun b hb => Nat.le_trans (Nat.sub_le _ _) hb
  cases h with
  | setupArguments =>
    refine ⟨fun b hb => ?_, Nat.le_add_left _ _⟩
    rw [(mem_setupArguments hb).1]
    exact Nat.zero_le _
  | reset => exact ⟨nofun, Nat.zero_le _⟩
  | alloc h => exact hn.alloc h
  | find h => exact hn.find h
  | unlock r => exact (hunlock r).mono (Nat.le_succ n)
  | release r =>
    refine Counted.mono ?_ (Nat.le_succ n)
    unfold RoleTable.release
    split
    · split
      · exact hunlock r
      · exact hn.remove r
    · exact hn
  | retain r => exact hn.update (Nat.le_succ n) fun b hb => Nat.le_succ_of_le hb
  | forceRelease r => exact (hn.remove r).mono (Nat.le_succ n)
  | rename h => exact hn.rename h

end RoleTable

/-! ## Sessions -/

namespace Allocation.Session

open RoleTable

variable {s : Session}

/-- Requests that are granted, and the session there is then. -/
inductive Grants (s : Session) : Request → Session → Prop where
  | setupArguments : s.Grants .setupArguments (s.withTable s.table.setupArguments)
  | reset : s.Grants .reset (s.withTable s.table.reset)
  | allocGen {r : Role} {n : Nat} {t : RoleTable} (h : s.table.alloc r = .ok (n, t)) :
      s.Grants (.allocGen r) (s.withTable t)
  | allocVec {r : Role} {n : Nat} {t : RoleTable} (h : s.table.alloc r = .ok (n, t)) :
      s.Grants (.allocVec r) (s.withTable t)
  | findGen {r : Role} {n : Nat} {t : RoleTable} (h : s.table.find r = .ok (n, t)) :
      s.Grants (.findGen r) (s.withTable t)
  | findVec {r : Role} {n : Nat} {t : RoleTable} (h : s.table.find r = .ok (n, t)) :
      s.Grants (.findVec r) (s.withTable t)
  | unlock (r : Role) : s.Grants (.unlock r) (s.withTable (s.table.unlock r))
  | release (r : Role) : s.Grants (.release r) (s.withTable (s.table.release r))
  | retain (r : Role) : s.Grants (.retain r) (s.withTable (s.table.retain r))
  | forceRelease (r : Role) : s.Grants (.forceRelease r) (s.withTable (s.table.forceRelease r))
  | rename {old new : Role} {t : RoleTable} (h : s.table.rename old new = .ok t) :
      s.Grants (.rename old new) (s.withTable t)
  | checkpoint : s.Grants .checkpoint { s with saved := s.saved ++ [s.table.bindings] }
  | restore {i : Nat} {bindings : List Binding} (h : s.saved[i]? = some bindings) :
      s.Grants (.restore i) (s.withTable (s.table.restore bindings))

/-- The answer to a request for a register of one of the files. -/
theorem given_ok {r : Role} {f : RegFile} {given : Except Failure (Nat × RoleTable)} {β : Type}
    {reg : Nat → β} {g : β → Answer} {a : Answer} {s' : Session}
    (h : ((inFile r f given).map fun (n, t) => (reg n, t)).map (fun (x, t) => (g x, s.withTable t)) =
      .ok (a, s')) : ∃ n t, given = .ok (n, t) ∧ s' = s.withTable t := by
  obtain ⟨⟨_, t⟩, hgiven, he⟩ := map_ok h
  obtain ⟨-, ⟨n, t'⟩, hok, ht⟩ := inFile_ok hgiven
  cases ht
  cases he
  exact ⟨n, _, hok, rfl⟩

theorem grants_of_answer {r : Request} {a : Answer} {s' : Session} (h : s.answer r = .ok (a, s')) :
    s.Grants r s' := by
  cases r with
  | setupArguments => cases h; exact .setupArguments
  | reset => cases h; exact .reset
  | allocGen r => obtain ⟨n, t, halloc, rfl⟩ := given_ok h; exact .allocGen halloc
  | allocVec r => obtain ⟨n, t, halloc, rfl⟩ := given_ok h; exact .allocVec halloc
  | findGen r => obtain ⟨n, t, hfind, rfl⟩ := given_ok h; exact .findGen hfind
  | findVec r => obtain ⟨n, t, hfind, rfl⟩ := given_ok h; exact .findVec hfind
  | unlock r => cases h; exact .unlock r
  | release r => cases h; exact .release r
  | retain r => cases h; exact .retain r
  | forceRelease r => cases h; exact .forceRelease r
  | rename old new =>
    obtain ⟨t, hrename, he⟩ := map_ok h
    cases he
    exact .rename hrename
  | checkpoint => cases h; exact .checkpoint
  | restore i =>
    simp only [answer] at h
    split at h
    · rename_i hi
      cases h
      exact .restore hi
    · cases h

/-- A request that is not granted leaves the session as it is. -/
theorem step_eq_or_grants (s : Session) (r : Request) : s.step r = s ∨ s.Grants r (s.step r) := by
  unfold step
  split
  · rename_i h
    exact .inr (grants_of_answer h)
  · exact .inl rfl

/-- What one request does to a session. -/
theorem step_cases (s : Session) (r : Request) :
    s.step r = s ∨
    (∃ t, s.table.Turns t ∧ s.step r = s.withTable t) ∨
    s.step r = { s with saved := s.saved ++ [s.table.bindings] } ∨
    ∃ bindings ∈ s.saved, s.step r = s.withTable (s.table.restore bindings) := by
  rcases step_eq_or_grants s r with he | hgrants
  · exact .inl he
  · generalize s.step r = s' at hgrants
    cases hgrants with
    | setupArguments => exact .inr (.inl ⟨_, .setupArguments, rfl⟩)
    | reset => exact .inr (.inl ⟨_, .reset, rfl⟩)
    | allocGen h | allocVec h => exact .inr (.inl ⟨_, .alloc h, rfl⟩)
    | findGen h | findVec h => exact .inr (.inl ⟨_, .find h, rfl⟩)
    | unlock r => exact .inr (.inl ⟨_, .unlock r, rfl⟩)
    | release r => exact .inr (.inl ⟨_, .release r, rfl⟩)
    | retain r => exact .inr (.inl ⟨_, .retain r, rfl⟩)
    | forceRelease r => exact .inr (.inl ⟨_, .forceRelease r, rfl⟩)
    | rename h => exact .inr (.inl ⟨_, .rename h, rfl⟩)
    | checkpoint => exact .inr (.inr (.inl rfl))
    | restore h => exact .inr (.inr (.inr ⟨_, List.mem_of_getElem? h, rfl⟩))

/-- What holds of a session that began with the table `start`, after `n` requests. -/
structure Kept (s : Session) (start : RoleTable) (n : Nat) : Prop where
  pools : SamePools start s.table
  wellFormed : s.table.WellFormed
  counted : s.table.Counted n
  /-- Restoring any saved bindings gives such a table. -/
  saved : ∀ bindings ∈ s.saved,
    (s.table.restore bindings).WellFormed ∧ (s.table.restore bindings).Counted n

/-- Requests that come later count on what was kept. -/
theorem Kept.step {start : RoleTable} {n : Nat} (h : s.Kept start n) (r : Request) :
    (s.step r).Kept start (n + 1) := by
  have hcounted := h.counted.mono (Nat.le_succ n)
  have hsaved (bindings) (hb : bindings ∈ s.saved) :
      (s.table.restore bindings).WellFormed ∧ (s.table.restore bindings).Counted (n + 1) :=
    ⟨(h.saved bindings hb).1, (h.saved bindings hb).2.mono (Nat.le_succ n)⟩
  rcases step_cases s r with he | ⟨t, ht, he⟩ | he | ⟨bindings, hb, he⟩
  · rw [he]
    exact ⟨h.pools, h.wellFormed, hcounted, hsaved⟩
  · rw [he]
    have hpools := ht.samePools
    have hticks := ht.counted h.counted
    refine ⟨⟨hpools.1.trans h.pools.1, hpools.2.trans h.pools.2⟩, ht.wellFormed h.wellFormed, hticks,
      fun bindings hb => ?_⟩
    -- the saved bindings are put into a table with the same registers and another clock
    have hold := hsaved bindings hb
    exact ⟨hold.1.of_sub hold.1.nodup hpools fun hfind => ⟨_, hfind, rfl⟩, hold.2.locks, hticks.clock⟩
  · rw [he]
    refine ⟨h.pools, h.wellFormed, hcounted, fun bindings hb => ?_⟩
    rcases List.mem_append.mp hb with hb | hb
    · exact hsaved bindings hb
    · rw [List.mem_singleton.mp hb]
      exact ⟨h.wellFormed, hcounted⟩
  · rw [he]
    exact ⟨h.pools, (hsaved bindings hb).1, (hsaved bindings hb).2, hsaved⟩

/-- A whole run, by one request at a time. -/
theorem Kept.run {start : RoleTable} {n : Nat} (h : s.Kept start n) (rs : List Request) :
    (s.run rs).Kept start (n + rs.length) := by
  induction rs generalizing s n with
  | nil => exact h
  | cons r rs ih =>
    have hlast := ih (h.step r)
    rw [List.length_cons, Nat.add_comm rs.length 1, ← Nat.add_assoc]
    exact hlast

/-- Whatever a table over any registers is asked for, in whatever order, and
however often saved bindings are restored: no role is bound twice, no two roles of
a file share a register, and every register is one of its file's or one that
arguments arrive in, held by a general role.  Roles are locked no more often than
requests were made, and the clock runs at most six ticks ahead of them. -/
theorem bindings_sound (general vector : RegSet) (rs : List Request) :
    let s := (Session.mk (.withRegisters general vector) []).run rs
    (s.table.bindings.map (·.role)).Nodup ∧
    (∀ b ∈ s.table.bindings, ∀ b' ∈ s.table.bindings,
      b.role.file = b'.role.file → b.reg = b'.reg → b = b') ∧
    (∀ b ∈ s.table.bindings,
      ((RoleTable.withRegisters general vector).pool b.role.file).contains b.reg = true ∨
      b.role.file = .general ∧ b.reg ∈ argumentRegs.map fun g => g.num.toNat) ∧
    (∀ b ∈ s.table.bindings, b.locks ≤ rs.length) ∧ s.table.clock ≤ rs.length + 6 := by
  intro s
  have hstart : (Session.mk (.withRegisters general vector) []).Kept (.withRegisters general vector)
      0 := ⟨⟨rfl, rfl⟩, wellFormed_of_no_bindings rfl, ⟨nofun, Nat.zero_le _⟩, nofun⟩
  have h : s.Kept (.withRegisters general vector) rs.length := by
    have hrun := hstart.run rs
    rwa [Nat.zero_add] at hrun
  have hfind {b : Binding} (hb : b ∈ s.table.bindings) : s.table.find? b.role = some b :=
    (find?_iff h.wellFormed.nodup).mpr ⟨hb, rfl⟩
  refine ⟨h.wellFormed.nodup, fun b hb b' hb' hfile hreg => ?_, fun b hb => ?_, h.counted.locks,
    h.counted.clock⟩
  · have hrole := h.wellFormed.apart (hfind hb) (hfind hb') hfile hreg
    exact List.inj_on_of_nodup_map h.wellFormed.nodup hb hb' hrole
  · exact h.pools.allowed.mp (h.wellFormed.within (hfind hb))

end Allocation.Session

end PixelPipeline
