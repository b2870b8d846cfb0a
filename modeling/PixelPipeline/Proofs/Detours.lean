/-
# Proofs.Detours — paths that leave no trace

Code for a path that does not come back is generated with a copy of the bindings, and
afterwards the bindings are restored.  The clock is not: it has run on, so that from
here on every stamp differs from what it would have been.  Only the order of stamps is
ever looked at, though.  Tables that differ by a renaming of stamps which keeps their
order (`RoleTable.Alike`) give the same answers, and stay alike whatever they are asked;
so are two sessions, one of which has saved more bindings than the other
(`Session.Follows`).

Bindings saved before the table was started anew have stamps of another clock, and are
left out throughout.
-/
import PixelPipeline.Proofs.Recency

namespace PixelPipeline

open X86

theorem swapRemove_map {α β : Type} (f : α → β) (l : List α) (i : Nat) :
    swapRemove (l.map f) i = (swapRemove l i).map f := by
  unfold swapRemove
  rw [List.getLast?_map, List.length_map]
  cases l.getLast? with
  | none => rfl
  | some z =>
    simp only [Option.map_some]
    split
    · rw [List.map_dropLast, List.map_set]
    · rfl

theorem mem_swapRemove {α : Type} {l : List α} {i : Nat} {a : α} (h : a ∈ swapRemove l i) :
    a ∈ l := by
  unfold swapRemove at h
  split at h
  · cases h
  · rename_i z hz
    split at h
    · rcases List.mem_or_eq_of_mem_set (List.dropLast_subset _ h) with h | rfl
      · exact h
      · exact List.mem_of_getLast? hz
    · exact h

/-! ## Other stamps in the same order -/

/-- The binding with another stamp. -/
def Binding.restamp (f : Nat → Nat) (b : Binding) : Binding := { b with lastUse := f b.lastUse }

namespace RoleTable

variable {f : Nat → Nat} {t t' : RoleTable} {r : Role}

/-- The second table has the same registers, and its clock is not behind. -/
structure Later (t t' : RoleTable) : Prop where
  clock : t.clock ≤ t'.clock
  pools : SamePools t t'

namespace Later

theorem of_clock_eq (hclock : t'.clock = t.clock) (hpools : SamePools t t') : t.Later t' :=
  ⟨Nat.le_of_eq hclock.symm, hpools⟩

theorem trans {u : RoleTable} (h : t.Later t') (h' : t'.Later u) : t.Later u :=
  ⟨Nat.le_trans h.clock h'.clock, h'.pools.1.trans h.pools.1, h'.pools.2.trans h.pools.2⟩

theorem alloc {n : Nat} (ht : t.alloc r = .ok (n, t')) : t.Later t' :=
  ⟨clock_alloc ht ▸ Nat.le_succ _, samePools_alloc ht⟩

theorem find {n : Nat} (ht : t.find r = .ok (n, t')) : t.Later t' :=
  ⟨clock_find ht ▸ Nat.le_succ _, (find_spec ht).1⟩

theorem rename {old new : Role} (ht : t.rename old new = .ok t') : t.Later t' :=
  ⟨clock_rename ht ▸ Nat.le_succ _, samePools_rename ht⟩

theorem update (t : RoleTable) (r : Role) (change : Binding → Binding) : t.Later (t.update r change) :=
  .of_clock_eq rfl ⟨rfl, rfl⟩

theorem remove (t : RoleTable) (r : Role) : t.Later (t.remove r) := .of_clock_eq rfl ⟨rfl, rfl⟩

theorem release (t : RoleTable) (r : Role) : t.Later (t.release r) :=
  .of_clock_eq (clock_release t r) (samePools_release t r)

theorem restore (t : RoleTable) (bindings : List Binding) : t.Later (t.restore bindings) :=
  .of_clock_eq rfl ⟨rfl, rfl⟩

end Later

/-- The second table has the bindings of the first, with other stamps in the same order. -/
structure Restamped (f : Nat → Nat) (t t' : RoleTable) : Prop where
  bindings : t'.bindings = t.bindings.map (·.restamp f)
  increasing : ∀ b ∈ t.bindings, ∀ c ∈ t.bindings, b.lastUse < c.lastUse → f b.lastUse < f c.lastUse
  /-- Neither clock is behind the stamps. -/
  le_clock : ∀ b ∈ t.bindings, b.lastUse ≤ t.clock ∧ f b.lastUse ≤ t'.clock
  general : t'.general = t.general
  vector : t'.vector = t.vector

/-- The tables differ in their stamps, but not in the order of these. -/
def Alike (t t' : RoleTable) : Prop := ∃ f, Restamped f t t'

namespace Restamped

theorem lt_iff (h : Restamped f t t') {b c : Binding} (hb : b ∈ t.bindings) (hc : c ∈ t.bindings) :
    f b.lastUse < f c.lastUse ↔ b.lastUse < c.lastUse := by
  refine ⟨fun hlt => Nat.lt_of_not_le fun hle => ?_, h.increasing b hb c hc⟩
  rcases Nat.lt_or_eq_of_le hle with hgt | heq
  · exact Nat.lt_asymm hlt (h.increasing c hc b hb hgt)
  · rw [heq] at hlt
    exact Nat.lt_irrefl _ hlt

/-! ### What is looked at -/

theorem find? (h : Restamped f t t') (r : Role) :
    t'.find? r = (t.find? r).map (·.restamp f) := by
  unfold RoleTable.find?
  rw [h.bindings, List.find?_map]
  rfl

theorem has (h : Restamped f t t') (r : Role) : t'.has r = t.has r := by
  rw [RoleTable.has, h.find?, Option.isSome_map]
  rfl

theorem pool (h : Restamped f t t') (file : RegFile) : t'.pool file = t.pool file := by
  cases file
  · exact h.general
  · exact h.vector

theorem used (h : Restamped f t t') (file : RegFile) : t'.used file = t.used file := by
  unfold RoleTable.used
  rw [h.bindings, List.filter_map, List.map_map]
  rfl

theorem earliest (h : Restamped f t t') {bs : List Binding} (hbs : ∀ b ∈ bs, b ∈ t.bindings) :
    RoleTable.earliest (bs.map (·.restamp f)) = (RoleTable.earliest bs).map (·.restamp f) := by
  induction bs with
  | nil => rfl
  | cons b rest ih =>
    have hrest := ih fun c hc => hbs c (List.mem_cons_of_mem b hc)
    rw [List.map_cons, RoleTable.earliest, RoleTable.earliest, hrest]
    cases hc : RoleTable.earliest rest with
    | none => rfl
    | some c =>
      have hlt : f c.lastUse < f b.lastUse ↔ c.lastUse < b.lastUse :=
        h.lt_iff (hbs c (List.mem_cons_of_mem b (mem_earliest hc))) (hbs b List.mem_cons_self)
      simp only [Option.map_some, Binding.restamp, hlt]
      split <;> rfl

theorem victim? (h : Restamped f t t') (file : RegFile) :
    t'.victim? file = (t.victim? file).map (·.restamp f) := by
  unfold RoleTable.victim?
  rw [h.bindings, List.filter_map]
  exact h.earliest fun b hb => (List.mem_filter.mp hb).1

/-! ### What is changed -/

/-- Bindings may be forgotten and changed, but for their stamps, and time may pass. -/
theorem mono (h : Restamped f t t') {u u' : RoleTable}
    (hbindings : u'.bindings = u.bindings.map (·.restamp f))
    (hold : ∀ b ∈ u.bindings, ∃ c ∈ t.bindings, b.lastUse = c.lastUse)
    (hu : t.Later u) (hu' : t'.Later u') : Restamped f u u' where
  bindings := hbindings
  increasing b hb c hc := by
    obtain ⟨b', hb', heb⟩ := hold b hb
    obtain ⟨c', hc', hec⟩ := hold c hc
    rw [heb, hec]
    exact h.increasing b' hb' c' hc'
  le_clock b hb := by
    obtain ⟨b', hb', heb⟩ := hold b hb
    rw [heb]
    exact ⟨Nat.le_trans (h.le_clock b' hb').1 hu.clock, Nat.le_trans (h.le_clock b' hb').2 hu'.clock⟩
  general := by rw [hu'.pools.1, hu.pools.1, h.general]
  vector := by rw [hu'.pools.2, hu.pools.2, h.vector]

theorem update (h : Restamped f t t') (r : Role) {change : Binding → Binding}
    (hstamp : ∀ b, (change b).lastUse = b.lastUse)
    (hchange : ∀ b, change (b.restamp f) = (change b).restamp f) :
    Restamped f (t.update r change) (t'.update r change) := by
  refine h.mono ?_ (fun b hb => ?_) (.update t r change) (.update t' r change)
  · simp only [RoleTable.update, h.bindings, List.map_map]
    refine List.map_congr_left fun b _ => ?_
    simp only [Function.comp]
    rw [apply_ite (Binding.restamp f), ← hchange]
    rfl
  · obtain ⟨c, hc, rfl⟩ := List.mem_map.mp hb
    refine ⟨c, hc, ?_⟩
    split
    · exact hstamp c
    · rfl

theorem remove (h : Restamped f t t') (r : Role) : Restamped f (t.remove r) (t'.remove r) := by
  refine h.mono ?_ (fun b hb => ⟨b, mem_swapRemove hb, rfl⟩) (.remove t r) (.remove t' r)
  have hindex : t'.bindings.findIdx (·.role == r) = t.bindings.findIdx (·.role == r) := by
    rw [h.bindings, List.findIdx_map]
    rfl
  simp only [RoleTable.remove, hindex]
  rw [h.bindings, swapRemove_map]

theorem release (h : Restamped f t t') (r : Role) : Restamped f (t.release r) (t'.release r) := by
  unfold RoleTable.release
  rw [h.find?]
  cases t.find? r with
  | none => exact h
  | some b =>
    simp only [Option.map_some]
    have hretained : (b.restamp f).retained = b.retained := rfl
    rw [hretained]
    split
    · exact h.update r (fun _ => rfl) fun _ => rfl
    · exact h.remove r

/-- A new stamp is none of the old ones. -/
theorem update_old (h : Restamped f t t') {b : Binding} (hb : b ∈ t.bindings) (n : Nat) :
    Function.update f (t.clock + 1) n b.lastUse = f b.lastUse :=
  Function.update_of_ne (Nat.ne_of_lt (Nat.lt_succ_of_le (h.le_clock b hb).1)) _ _

theorem restamp_update (h : Restamped f t t') {b : Binding} (hb : b ∈ t.bindings) (n : Nat) :
    b.restamp (Function.update f (t.clock + 1) n) = b.restamp f := by
  rw [Binding.restamp, h.update_old hb]
  rfl

/-- A tick of both clocks, and bindings with the new stamps. -/
theorem tick (h : Restamped f t t') {u u' : RoleTable}
    (hbindings : u'.bindings =
      u.bindings.map (·.restamp (Function.update f (t.clock + 1) (t'.clock + 1))))
    (hold : ∀ b ∈ u.bindings, b.lastUse = t.clock + 1 ∨ ∃ c ∈ t.bindings, b.lastUse = c.lastUse)
    (hclock : u.clock = t.clock + 1) (hclock' : u'.clock = t'.clock + 1)
    (hpools : SamePools t u) (hpools' : SamePools t' u') : Alike u u' := by
  have hsame {b : Binding} (hb : b ∈ t.bindings) := h.update_old hb (t'.clock + 1)
  refine ⟨_, hbindings, fun b hb c hc hlt => ?_, fun b hb => ?_, ?_, ?_⟩
  · rcases hold b hb with heb | ⟨b', hb', heb⟩ <;> rcases hold c hc with hec | ⟨c', hc', hec⟩
    · omega
    · have := (h.le_clock c' hc').1
      omega
    · rw [heb, hec, hsame hb', Function.update_self]
      exact Nat.lt_succ_of_le (h.le_clock b' hb').2
    · rw [heb, hec, hsame hb', hsame hc']
      exact h.increasing b' hb' c' hc' (heb ▸ hec ▸ hlt)
  · rw [hclock, hclock']
    rcases hold b hb with heb | ⟨b', hb', heb⟩
    · rw [heb, Function.update_self]
      exact ⟨Nat.le_refl _, Nat.le_refl _⟩
    · rw [heb, hsame hb']
      exact ⟨Nat.le_succ_of_le (h.le_clock b' hb').1, Nat.le_succ_of_le (h.le_clock b' hb').2⟩
  · rw [hpools'.1, hpools.1, h.general]
  · rw [hpools'.2, hpools.2, h.vector]

/-- The binding of a role is changed, and has the new stamp. -/
theorem touch (h : Restamped f t t') (r : Role) (change : Nat → Binding → Binding)
    (hstamp : ∀ n b, (change n b).lastUse = n)
    (hchange : ∀ f g n b, (change n b).restamp f = change (f n) (b.restamp g)) :
    Alike { t.update r (change (t.clock + 1)) with clock := t.clock + 1 }
      { t'.update r (change (t'.clock + 1)) with clock := t'.clock + 1 } := by
  refine h.tick ?_ (fun b hb => ?_) rfl rfl ⟨rfl, rfl⟩ ⟨rfl, rfl⟩
  · simp only [RoleTable.update, h.bindings, List.map_map]
    refine List.map_congr_left fun b hb => ?_
    simp only [Function.comp]
    have hrole : (b.restamp f).role = b.role := rfl
    rw [hrole]
    split
    · rw [hchange _ f, Function.update_self]
    · rw [h.restamp_update hb]
  · obtain ⟨c, hc, rfl⟩ := List.mem_map.mp hb
    split
    · exact .inl (hstamp _ c)
    · exact .inr ⟨c, hc, rfl⟩

theorem bind (h : Restamped f t t') (r : Role) (reg locks : Nat) :
    Alike (t.bind r reg locks) (t'.bind r reg locks) := by
  refine h.tick ?_ (fun b hb => ?_) rfl rfl ⟨rfl, rfl⟩ ⟨rfl, rfl⟩
  · simp only [RoleTable.bind, h.bindings, List.map_append, List.map_cons, List.map_nil]
    rw [List.map_congr_left fun b hb => h.restamp_update hb (t'.clock + 1), Binding.restamp]
    simp only [Function.update_self]
  · rcases List.mem_append.mp hb with hb | hb
    · exact .inr ⟨b, hb, rfl⟩
    · exact .inl (congrArg Binding.lastUse (List.mem_singleton.mp hb))

end Restamped

/-- A table whose stamps tell the uses is like itself at a later time. -/
theorem Recalls.alike {uses : List Role} (h : t.Recalls uses) (hlater : t.Later t')
    (hbindings : t'.bindings = t.bindings) : Alike t t' := by
  refine ⟨id, hbindings.trans (List.map_id _).symm, fun _ _ _ _ hlt => hlt, fun b hb => ?_,
    hlater.pools.1, hlater.pools.2⟩
  exact ⟨h.lastUse_le hb, Nat.le_trans (h.lastUse_le hb) hlater.clock⟩

/-! ### What is answered -/

/-- The same failure, or the same register and tables that are alike. -/
inductive Agree {α : Type} : Except Failure (α × RoleTable) → Except Failure (α × RoleTable) → Prop where
  | ok (a : α) {t t' : RoleTable} (h : Alike t t') : Agree (.ok (a, t)) (.ok (a, t'))
  | error (e : Failure) : Agree (.error e) (.error e)

theorem Restamped.find (h : Restamped f t t') (r : Role) : Agree (t.find r) (t'.find r) := by
  unfold RoleTable.find
  rw [h.find?]
  cases t.find? r with
  | none => exact .error _
  | some b =>
    exact .ok b.reg (h.touch r (fun n b => { b with locks := b.locks + 1, lastUse := n })
      (fun _ _ => rfl) fun _ _ _ _ => rfl)

theorem Restamped.alloc (h : Restamped f t t') (r : Role) : Agree (t.alloc r) (t'.alloc r) := by
  unfold RoleTable.alloc
  rw [h.has, h.pool, h.used, h.victim?]
  split
  · exact h.find r
  · split
    · exact .ok _ (h.bind r _ 1)
    · cases t.victim? r.file with
      | none => exact .error _
      | some v => exact .ok v.reg ((h.remove v.role).bind r v.reg 1)

theorem Restamped.rename (h : Restamped f t t') (old new : Role) :
    (∃ e, t.rename old new = .error e ∧ t'.rename old new = .error e) ∨
    ∃ u u', t.rename old new = .ok u ∧ t'.rename old new = .ok u' ∧ Alike u u' := by
  unfold RoleTable.rename
  rw [h.has, h.has]
  split
  · exact .inl ⟨_, rfl, rfl⟩
  · split
    · exact .inr ⟨_, _, rfl, rfl, h.touch old (fun n b => { b with role := new, lastUse := n })
        (fun _ _ => rfl) fun _ _ _ _ => rfl⟩
    · exact .inl ⟨_, rfl, rfl⟩

end RoleTable

namespace Allocation

/-! ## Numbers of saved bindings -/

/-- The number of saved bindings where `d` more have been saved after the first `k`. -/
def shifted (k d i : Nat) : Nat := if i < k then i else i + d

/-- The request with the number of the same bindings. -/
def Request.shift (k d : Nat) : Request → Request
  | .restore i => .restore (shifted k d i)
  | r => r

/-- The answer with the number of the same bindings. -/
def Answer.shift (k d : Nat) : Answer → Answer
  | .saved i => .saved (shifted k d i)
  | a => a

namespace Session

open RoleTable

variable {k d era : Nat} {s s' : Session}

/-! ## Sessions that go on alike -/

/-- The tables are alike, and so they are with the saved bindings that have numbers from
`era` on; the second session has saved `d` more after the first `k`. -/
structure Follows (k d era : Nat) (s s' : Session) : Prop where
  table : Alike s.table s'.table
  length : s'.saved.length = s.saved.length + d
  le_length : k ≤ s.saved.length
  saved : ∀ i bs, era ≤ i → s.saved[i]? = some bs → ∃ bs', s'.saved[shifted k d i]? = some bs' ∧
    Alike (s.table.restore bs) (s'.table.restore bs')

/-- The same failure, or answers that tell the same of sessions that go on alike. -/
inductive Agree (k d era : Nat) :
    Except Failure (Answer × Session) → Except Failure (Answer × Session) → Prop where
  | ok (a : Answer) {u u' : Session} (h : u.Follows k d era u') :
      Agree k d era (.ok (a, u)) (.ok (a.shift k d, u'))
  | error (e : Failure) : Agree k d era (.error e) (.error e)

namespace Follows

theorem withTable {t t' : RoleTable} (hf : s.Follows k d era s') (ht : Alike t t')
    (hlater : s.table.Later t) (hlater' : s'.table.Later t') :
    (s.withTable t).Follows k d era (s'.withTable t') where
  table := ht
  length := hf.length
  le_length := hf.le_length
  saved i bs hi hbs := by
    obtain ⟨bs', hbs', f, hsame⟩ := hf.saved i bs hi hbs
    refine ⟨bs', hbs', f, hsame.mono hsame.bindings (fun b hb => ⟨b, hb, rfl⟩) ?_ ?_⟩
    · exact ⟨hlater.clock, hlater.pools⟩
    · exact ⟨hlater'.clock, hlater'.pools⟩

theorem checkpoint (hf : s.Follows k d era s') :
    ({ s with saved := s.saved ++ [s.table.bindings] } : Session).Follows k d era
      { s' with saved := s'.saved ++ [s'.table.bindings] } where
  table := hf.table
  length := by
    have hlength := hf.length
    simp only [List.length_append, List.length_singleton]
    omega
  le_length := by
    rw [List.length_append]
    exact Nat.le_add_right_of_le hf.le_length
  saved i bs hi hbs := by
    rcases Nat.lt_or_ge i s.saved.length with hlt | hge
    · rw [List.getElem?_append_left hlt] at hbs
      obtain ⟨bs', hbs', hsame⟩ := hf.saved i bs hi hbs
      refine ⟨bs', ?_, hsame⟩
      rw [List.getElem?_append_left (List.getElem?_eq_some_iff.mp hbs').1, hbs']
    · -- the bindings saved last, in both sessions
      have hlt := (List.getElem?_eq_some_iff.mp hbs).1
      rw [List.length_append, List.length_singleton] at hlt
      have hi : i = s.saved.length := by omega
      rw [hi, List.getElem?_concat_length] at hbs
      cases hbs
      refine ⟨s'.table.bindings, ?_, hf.table⟩
      rw [shifted, if_neg (by have := hf.le_length; omega), hi, ← hf.length,
        List.getElem?_concat_length]

/-- A request for a register of one of the files. -/
theorem given {r : Role} {file : RegFile} {given given' : Except Failure (Nat × RoleTable)}
    {β : Type} {reg : Nat → β} {g : β → Answer} (hf : s.Follows k d era s')
    (hagree : RoleTable.Agree given given') (hg : ∀ x, (g x).shift k d = g x)
    (hlater : ∀ {n t}, given = .ok (n, t) → s.table.Later t)
    (hlater' : ∀ {n t}, given' = .ok (n, t) → s'.table.Later t) :
    Agree k d era
      (((inFile r file given).map fun (n, t) => (reg n, t)).map fun (x, t) => (g x, s.withTable t))
      (((inFile r file given').map fun (n, t) => (reg n, t)).map fun (x, t) => (g x, s'.withTable t)) := by
  unfold inFile
  split
  · cases hagree with
    | ok n ht =>
      have hgranted := Agree.ok (g (reg n)) (hf.withTable ht (hlater rfl) (hlater' rfl))
      rw [hg] at hgranted
      exact hgranted
    | error e => exact .error e
  · exact .error _

/-- What is asked of both sessions gets the same answer. -/
theorem answer (hf : s.Follows k d era s') {r : Request} (hr : r.startsAnew = false)
    (hera : ∀ i, r = .restore i → era ≤ i) :
    Agree k d era (s.answer r) (s'.answer (r.shift k d)) := by
  obtain ⟨f, ht⟩ := hf.table
  cases r with
  | setupArguments | reset => cases hr
  | allocGen r | allocVec r => exact hf.given (ht.alloc r) (fun _ => rfl) .alloc .alloc
  | findGen r | findVec r => exact hf.given (ht.find r) (fun _ => rfl) .find .find
  | unlock r =>
    exact .ok .done (hf.withTable ⟨f, ht.update r (fun _ => rfl) fun _ => rfl⟩ (.update _ r _)
      (.update _ r _))
  | release r => exact .ok .done (hf.withTable ⟨f, ht.release r⟩ (.release _ r) (.release _ r))
  | retain r =>
    exact .ok .done (hf.withTable ⟨f, ht.update r (fun _ => rfl) fun _ => rfl⟩ (.update _ r _)
      (.update _ r _))
  | forceRelease r => exact .ok .done (hf.withTable ⟨f, ht.remove r⟩ (.remove _ r) (.remove _ r))
  | rename old new =>
    simp only [Request.shift, Session.answer]
    rcases ht.rename old new with ⟨e, hrename, hrename'⟩ | ⟨u, u', hrename, hrename', hu⟩
    · rw [hrename, hrename']
      exact .error e
    · rw [hrename, hrename']
      exact .ok .renamed (hf.withTable hu (.rename hrename) (.rename hrename'))
  | checkpoint =>
    have hnumber : (Answer.saved s.saved.length).shift k d = .saved s'.saved.length := by
      rw [Answer.shift, shifted, if_neg (Nat.not_lt_of_ge hf.le_length), hf.length]
    have hgranted := Agree.ok (.saved s.saved.length) hf.checkpoint
    rw [hnumber] at hgranted
    exact hgranted
  | restore i =>
    simp only [Request.shift, Session.answer]
    cases hbs : s.saved[i]? with
    | some bs =>
      obtain ⟨bs', hbs', hsame⟩ := hf.saved i bs (hera i rfl) hbs
      simp only [hbs']
      exact .ok .done (hf.withTable hsame (.restore _ bs) (.restore _ bs'))
    | none =>
      have hout : s'.saved[shifted k d i]? = none := by
        rw [List.getElem?_eq_none_iff] at hbs ⊢
        rw [shifted, if_neg (Nat.not_lt_of_ge (Nat.le_trans hf.le_length hbs)), hf.length]
        exact Nat.add_le_add_right hbs d
      simp only [hout]
      exact .error _

theorem step (hf : s.Follows k d era s') {r : Request} (hr : r.startsAnew = false)
    (hera : ∀ i, r = .restore i → era ≤ i) :
    (s.step r).Follows k d era (s'.step (r.shift k d)) ∧
      (s'.answer (r.shift k d)).map (·.1) = ((s.answer r).map (·.1)).map (·.shift k d) := by
  have hagree := hf.answer hr hera
  unfold Session.step
  generalize s.answer r = granted at hagree
  generalize s'.answer (r.shift k d) = granted' at hagree
  cases hagree with
  | ok a h => exact ⟨h, rfl⟩
  | error e => exact ⟨hf, rfl⟩

end Follows

/-! ## What can be seen -/

end Session

end Allocation

/-- What can be seen of a table: roles with their registers and locks, and whether they
are retained. -/
def RoleTable.shown (t : RoleTable) : List (Role × Nat × Nat × Bool) :=
  t.bindings.map fun b => (b.role, b.reg, b.locks, b.retained)

theorem RoleTable.Alike.shown {t t' : RoleTable} (h : Alike t t') : t'.shown = t.shown := by
  obtain ⟨f, hf⟩ := h
  rw [RoleTable.shown, hf.bindings, List.map_map]
  rfl

namespace Allocation.Session

open RoleTable

variable {k d era : Nat} {s s' : Session}

/-- The answers to requests made one after the other, each with what can be seen of the
table after it. -/
def observe (s : Session) :
    List Request → List (Except Failure Answer × List (Role × Nat × Nat × Bool))
  | [] => []
  | r :: rs => ((s.answer r).map (·.1), (s.step r).table.shown) :: (s.step r).observe rs

theorem Follows.observe (hf : s.Follows k d era s') {rs : List Request}
    (hrs : ∀ r ∈ rs, r.startsAnew = false ∧ ∀ i, r = .restore i → era ≤ i) :
    s'.observe (rs.map (·.shift k d)) =
      (s.observe rs).map fun (answer, table) => (answer.map (·.shift k d), table) := by
  induction rs generalizing s s' with
  | nil => rfl
  | cons r rs ih =>
    obtain ⟨hr, hera⟩ := hrs r List.mem_cons_self
    obtain ⟨hstep, hanswer⟩ := hf.step hr hera
    have hrest := ih hstep fun r' hr' => hrs r' (List.mem_cons_of_mem r hr')
    rw [List.map_cons, Session.observe, Session.observe, List.map_cons, hrest, hanswer,
      hstep.table.shown]

/-! ## A detour -/

/-- The second session comes later: nothing that was saved is lost, and the table has not
been started anew. -/
structure Later (s s' : Session) : Prop where
  table : s.table.Later s'.table
  saved : s.saved <+: s'.saved

theorem Later.step (h : s.Later s') {r : Request} (hr : r.startsAnew = false) :
    s.Later (s'.step r) := by
  have withTable {t : RoleTable} (ht : s'.table.Later t) : s.Later (s'.withTable t) :=
    ⟨h.table.trans ht, h.saved⟩
  rcases step_eq_or_grants s' r with he | hgrants
  · rwa [he]
  · generalize s'.step r = u at hgrants
    cases hgrants with
    | setupArguments | reset => cases hr
    | allocGen halloc | allocVec halloc => exact withTable (.alloc halloc)
    | findGen hfind | findVec hfind => exact withTable (.find hfind)
    | unlock r | retain r => exact withTable (.update _ r _)
    | release r => exact withTable (.release _ r)
    | forceRelease r => exact withTable (.remove _ r)
    | rename hrename => exact withTable (.rename hrename)
    | checkpoint => exact ⟨h.table, h.saved.trans (List.prefix_append _ _)⟩
    | restore hbs => exact withTable (.restore _ _)

theorem Later.run (h : s.Later s') {rs : List Request} (hrs : ∀ r ∈ rs, r.startsAnew = false) :
    s.Later (s'.run rs) := by
  induction rs generalizing s' with
  | nil => exact h
  | cons r rs ih =>
    exact ih (h.step (hrs r List.mem_cons_self)) fun r' hr' => hrs r' (List.mem_cons_of_mem r hr')

theorem step_restore {i : Nat} {bs : List Binding} (hbs : s.saved[i]? = some bs) :
    s.step (.restore i) = s.withTable (s.table.restore bs) := by
  simp only [Session.step, Session.answer, hbs]

/-- A session in which bindings are restored later on goes on as it would have gone on at
once. -/
theorem Recorded.follows {h : History} (hrec : s.Recorded h) (hlater : s.Later s')
    (hbindings : s'.table.bindings = s.table.bindings) :
    s.Follows s.saved.length (s'.saved.length - s.saved.length) h.era s' where
  table := hrec.table.alike hlater.table hbindings
  length := by
    have := hlater.saved.length_le
    omega
  le_length := Nat.le_refl _
  saved i bs hi hbs := by
    have hlt := (List.getElem?_eq_some_iff.mp hbs).1
    obtain ⟨more, hmore⟩ := hlater.saved
    refine ⟨bs, ?_, ?_⟩
    · rw [shifted, if_pos hlt, ← hmore, List.getElem?_append_left hlt, hbs]
    · have hus := List.getElem?_eq_getElem (hrec.length ▸ hlt)
      exact (hrec.saved i bs _ hi hbs hus).alike ⟨hlater.table.clock, hlater.table.pools⟩ rfl

/-- Bindings are saved, any requests are made that do not start the table anew, and the
bindings are restored: from there on requests get the answers that they would have got
without the detour, one by one, failures and registers included, and the same can be seen
of the table after each.  What was saved in between only moves the numbers of what is
saved afterwards.  The requests may restore what they save themselves, what was saved
before the detour, if the table has not been started anew since, and what was saved for
the detour, if it was saved without it as well. -/
theorem detour_leaves_no_trace {general vector : RegSet} {h : History}
    (hs : Reached general vector s h) {detour rest : List Request}
    (hdetour : ∀ r ∈ detour, r.startsAnew = false)
    (hrest : ∀ r ∈ rest, r.startsAnew = false ∧ ∀ i, r = .restore i → h.era ≤ i) :
    let back := ((s.step .checkpoint).run detour).step (.restore s.saved.length)
    back.table.shown = s.table.shown ∧ ∀ start, start = s ∨ start = s.step .checkpoint →
      let k := start.saved.length
      let d := back.saved.length - k
      back.observe (rest.map (·.shift k d)) =
        (start.observe rest).map fun (answer, table) => (answer.map (·.shift k d), table) := by
  intro back
  have hsaved : (s.step .checkpoint).Later ((s.step .checkpoint).run detour) :=
    Later.run ⟨.of_clock_eq rfl ⟨rfl, rfl⟩, List.prefix_rfl⟩ hdetour
  have hback : back = ((s.step .checkpoint).run detour).withTable
      (((s.step .checkpoint).run detour).table.restore s.table.bindings) := by
    obtain ⟨more, hmore⟩ := hsaved.saved
    have hlast : (s.step .checkpoint).saved[s.saved.length]? = some s.table.bindings :=
      List.getElem?_concat_length
    refine step_restore ?_
    rw [← hmore, List.getElem?_append_left (List.getElem?_eq_some_iff.mp hlast).1, hlast]
  have hlater : (s.step .checkpoint).Later back := by
    rw [hback]
    exact ⟨hsaved.table.trans (.restore _ _), hsaved.saved⟩
  have hbindings : back.table.bindings = s.table.bindings := by
    rw [hback]
    rfl
  refine ⟨?_, fun start hstart => ?_⟩
  · rw [shown, hbindings]
    rfl
  · rcases hstart with rfl | rfl
    · refine (hs.recorded.follows ⟨hlater.table, ?_⟩ hbindings).observe hrest
      exact (List.prefix_append _ _).trans hlater.saved
    · exact (hs.recorded.checkpoint.follows hlater hbindings).observe hrest

/-- Two registers, both held by roles whose values can be made again.  A detour uses the
older one again, takes away the register of the other, renames and fails; afterwards it
is the older one that gives up its register, as if nothing had happened. -/
theorem detour_leaves_no_trace_evicting :
    let s := (Session.mk (.withRegisters ⟨3⟩ ⟨0⟩) []).run
      [.allocGen .stateBase, .unlock .stateBase, .allocGen .poolBase, .unlock .poolBase]
    let back := ((s.step .checkpoint).run [.findGen .stateBase, .unlock .stateBase, .checkpoint,
      .allocGen .gen0, .rename .gen0 .gen1, .findGen .gen0, .restore 1]).step
        (.restore s.saved.length)
    let rest := [.allocGen .gen2, .checkpoint, .findGen .stateBase, .restore 0]
    let k := s.saved.length
    let d := back.saved.length - k
    k = 0 ∧ d = 2 ∧ back.observe (rest.map (·.shift k d)) =
      (s.observe rest).map fun (answer, table) => (answer.map (·.shift k d), table) := by
  intro s back rest
  have hs : Reached ⟨3⟩ ⟨0⟩ s { uses := [.stateBase, .poolBase] } := Reached.start
    |>.step (.allocGen .stateBase) nofun |>.step (.unlock .stateBase) nofun
    |>.step (.allocGen .poolBase) nofun |>.step (.unlock .poolBase) nofun
  have hrest : ∀ r ∈ rest, r.startsAnew = false := by decide
  exact ⟨rfl, by decide, (detour_leaves_no_trace hs (by decide)
    fun r hr => ⟨hrest r hr, fun _ _ => Nat.zero_le _⟩).2 s (.inl rfl)⟩

end Allocation.Session

end PixelPipeline
