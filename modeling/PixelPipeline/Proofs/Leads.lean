/-
# Proofs.Leads — reasoning about actions that generate code

`k.Leads m s Q L` says of an action `m` of the compiler: if it succeeds, then
its code runs, from any machine that the view `s` models, either through to its
end, in a state and with a value that satisfy `Q`, or out to the return, with
memory that satisfies `L`.  The views on both sides speak of the role table as
well, so one statement follows the compiler and the machine together.

The rules are those of a weakest precondition: each primitive action has one,
`Leads.bind` puts them in sequence, and a stage is proved by reading its text
from the top.  Nothing is said of actions that fail.
-/
import PixelPipeline.Proofs.Running
import PixelPipeline.Proofs.View

namespace PixelPipeline

open X86 Compile

/-! ## Actions that succeed -/

namespace Emit

variable {α β : Type} {d : Draft}

theorem bind_ok {m : Emit α} {f : α → Emit β} {r : Emission β} (h : (m >>= f) d = .ok r) :
    ∃ r₁ r₂, m d = .ok r₁ ∧ f r₁.value r₁.draft = .ok r₂ ∧
      r = ⟨r₂.value, r₂.draft, r₁.code ++ r₂.code⟩ := by
  cases h₁ : m d with
  | error e =>
    simp only [Bind.bind, h₁] at h
    cases h
  | ok r₁ =>
    cases h₂ : f r₁.value r₁.draft with
    | error e =>
      simp only [Bind.bind, h₁, h₂] at h
      cases h
    | ok r₂ =>
      simp only [Bind.bind, h₁, h₂] at h
      cases h
      exact ⟨r₁, r₂, rfl, h₂, rfl⟩

theorem captured_ok {opening : Code} {m : Emit Unit} {r : Emission Code}
    (h : captured opening m d = .ok r) :
    ∃ r₁, m d = .ok r₁ ∧ r = ⟨r₁.code, r₁.draft, .done⟩ := by
  unfold captured at h
  split at h
  · cases h
  · rename_i r₁ h₁
    cases h
    exact ⟨r₁, h₁, rfl⟩

theorem skipIf_ok {cond : Cond} {body : Emit Unit} {r : Emission Unit}
    (h : skipIf cond body d = .ok r) :
    ∃ r₁, body d = .ok r₁ ∧ r = ⟨(), r₁.draft, .skipIf cond r₁.code .done⟩ := by
  obtain ⟨rc, rp, hc, hp, rfl⟩ := bind_ok h
  obtain ⟨r₁, h₁, rfl⟩ := captured_ok hc
  cases hp
  exact ⟨r₁, h₁, rfl⟩

theorem choose_ok {cond : Cond} {no yes : Emit Unit} {r : Emission Unit}
    (h : choose cond no yes d = .ok r) :
    ∃ r₁ r₂, no d = .ok r₁ ∧ yes r₁.draft = .ok r₂ ∧
      r = ⟨(), r₂.draft, .choose cond r₁.code r₂.code .done⟩ := by
  obtain ⟨rn, r', hn, h', rfl⟩ := bind_ok h
  obtain ⟨r₁, h₁, rfl⟩ := captured_ok hn
  obtain ⟨ry, rp, hy, hp, rfl⟩ := bind_ok h'
  obtain ⟨r₂, h₂, rfl⟩ := captured_ok hy
  cases hp
  exact ⟨r₁, r₂, h₁, h₂, rfl⟩

theorem diverging_ok {path : Emit Unit} {r : Emission Unit} (h : diverging path d = .ok r) :
    ∃ r₁, path d = .ok r₁ ∧ r = { r₁ with
      draft := { r₁.draft with table := r₁.draft.table.restore d.table.bindings } } := by
  unfold diverging at h
  split at h
  · cases h
  · rename_i r₁ h₁
    cases h
    exact ⟨r₁, h₁, rfl⟩

theorem onTable_ok {action : RoleTable → Except Failure (α × RoleTable)} {r : Emission α}
    (h : onTable action d = .ok r) :
    ∃ a t, action d.table = .ok (a, t) ∧ r = ⟨a, { d with table := t }, .done⟩ := by
  unfold onTable at h
  split at h
  · cases h
  · rename_i a t ht
    cases h
    exact ⟨a, t, ht, rfl⟩

end Emit

namespace Setting

/-- Where a run may end. -/
def Ends (k : Setting) (d : Draft) (Q : View → Prop) (L : Memory → Prop) : Code.Exit → Prop
  | .fell c => ∃ s, k.Models d c s ∧ Q s
  | .left c => k.Later c.mem ∧ k.Kept c ∧ L c.mem

/-- Where the code of an action leads. -/
def Leads (k : Setting) {α : Type} (m : Emit α) (s : View) (Q : α → View → Prop)
    (L : Memory → Prop) : Prop :=
  ∀ d r, m d = .ok r → ∀ c, k.Models d c s → ∀ base pos,
    ∃ e, r.code.run base pos c = some e ∧ k.Ends r.draft (Q r.value) L e

namespace Leads

variable {k : Setting} {α β : Type} {s : View} {L : Memory → Prop}

/-! ## Sequence -/

theorem pure {a : α} {Q : α → View → Prop} (h : Q a s) : k.Leads (pure a) s Q L := by
  intro d r hr c hc base pos
  cases hr
  exact ⟨.fell c, rfl, s, hc, h⟩

theorem bind {m : Emit α} {f : α → Emit β} {Q : β → View → Prop}
    (h : k.Leads m s (fun a s' => k.Leads (f a) s' Q L) L) : k.Leads (m >>= f) s Q L := by
  intro d r hr c hc base pos
  obtain ⟨r₁, r₂, hr₁, hr₂, rfl⟩ := Emit.bind_ok hr
  obtain ⟨e₁, hrun₁, hends₁⟩ := h d r₁ hr₁ c hc base pos
  rw [Code.run_append, hrun₁]
  cases e₁ with
  | left c₁ => exact ⟨.left c₁, rfl, hends₁⟩
  | fell c₁ =>
    obtain ⟨s₁, hc₁, hf⟩ := hends₁
    exact hf r₁.draft r₂ hr₂ c₁ hc₁ base _

/-- What went before shows where stores may have gone. -/
theorem of_later {m : Emit α} {Q : α → View → Prop} (h : k.Later s.mem → k.Leads m s Q L) :
    k.Leads m s Q L :=
  fun d r hr c hc base pos => h hc.later d r hr c hc base pos

/-- Registers of roles are scratch registers. -/
theorem of_word {m : Emit α} {r : Role} {g : Reg} {v : BitVec 64} {Q : α → View → Prop}
    (hr : s.roles r = .word g v) (h : g ∈ scratchRegs → k.Leads m s Q L) : k.Leads m s Q L := by
  intro d e he c hc base pos
  obtain ⟨-, -, -, -, -, -, hg⟩ := hc.word_spec hr
  exact h hg d e he c hc base pos

/-! ## Code -/

theorem put {code : Code} {Q : Unit → View → Prop}
    (h : ∀ d c, k.Models d c s → ∀ base pos, ∃ e, code.run base pos c = some e ∧
      k.Ends d (Q ()) L e) : k.Leads (Emit.put code) s Q L := by
  intro d r hr c hc base pos
  cases hr
  exact h d c hc base pos

/-- One instruction. -/
theorem op {i : Instr} {Q : Unit → View → Prop} (hi : i.encodable = true)
    (h : ∀ d c, k.Models d c s → ∀ next, ∃ c' s', c.exec next i = some c' ∧ k.Models d c' s' ∧
      Q () s') : k.Leads (Emit.op i) s Q L := by
  refine put fun d c hc base pos => ?_
  obtain ⟨c', s', hexec, hc', hq⟩ := h d c hc (base + BitVec.ofNat 64 (pos + i.size))
  refine ⟨.fell c', ?_, s', hc', hq⟩
  simp only [Code.run, Code.perform, hi, if_true, hexec, Option.bind_some]

theorem mark {t : Stage} {Q : Unit → View → Prop} (h : Q () s) : k.Leads (Emit.mark t) s Q L :=
  put fun _ c hc _ _ => ⟨.fell c, rfl, s, hc, h⟩

theorem leave {Q : Unit → View → Prop} (h : L s.mem) : k.Leads Emit.leave s Q L :=
  put fun _ c hc _ _ => ⟨.left c, rfl, hc.mem ▸ hc.later, hc.kept, hc.mem ▸ h⟩

theorem leaveIf {cond : Cond} {Q : Unit → View → Prop}
    (hleave : cond.holds s.flags = true → L s.mem)
    (hgo : cond.holds s.flags = false → Q () s) : k.Leads (Emit.leaveIf cond) s Q L := by
  refine put fun d c hc base pos => ?_
  simp only [Code.run]
  rw [hc.flags]
  cases hcond : cond.holds s.flags with
  | true => exact ⟨.left c, rfl, hc.mem ▸ hc.later, hc.kept, hc.mem ▸ hleave hcond⟩
  | false => exact ⟨.fell c, rfl, s, hc, hgo hcond⟩

end Leads

end Setting

/-! ## Branches

Both sides of a branch go on with the same table, so neither may change what
the compiler knows. -/

/-- The action leaves what the compiler knows as it was, but for the clock. -/
def Emit.Steady {α : Type} (m : Emit α) : Prop :=
  ∀ d r, m d = .ok r → r.draft.table.bindings = d.table.bindings ∧
    d.table.SamePools r.draft.table ∧ r.draft.wideColor = d.wideColor

namespace Emit.Steady

theorem put (code : Code) : Steady (Emit.put code) := by
  intro d r hr
  cases hr
  exact ⟨rfl, ⟨rfl, rfl⟩, rfl⟩

theorem bind {α β : Type} {m : Emit α} {f : α → Emit β} (hm : Steady m) (hf : ∀ a, Steady (f a)) :
    Steady (m >>= f) := by
  intro d r hr
  obtain ⟨r₁, r₂, hr₁, hr₂, rfl⟩ := bind_ok hr
  obtain ⟨hb₁, hp₁, hw₁⟩ := hm d r₁ hr₁
  obtain ⟨hb₂, hp₂, hw₂⟩ := hf _ _ r₂ hr₂
  exact ⟨hb₂.trans hb₁, ⟨hp₂.1.trans hp₁.1, hp₂.2.trans hp₁.2⟩, hw₂.trans hw₁⟩

theorem captured {opening : Code} {m : Emit Unit} (hm : Steady m) :
    Steady (Emit.captured opening m) := by
  intro d r hr
  obtain ⟨r₁, hr₁, rfl⟩ := captured_ok hr
  exact hm d r₁ hr₁

theorem choose {cond : Cond} {no yes : Emit Unit} (hno : Steady no) (hyes : Steady yes) :
    Steady (Emit.choose cond no yes) :=
  bind (captured hno) fun _ => bind (captured hyes) fun _ => put _

end Emit.Steady

namespace Setting.Leads

variable {k : Setting} {α β : Type} {s : View} {L : Memory → Prop}

theorem skipIf {cond : Cond} {body : Emit Unit} {Q : Unit → View → Prop} (hsteady : body.Steady)
    (hskip : cond.holds s.flags = true → Q () s)
    (hbody : cond.holds s.flags = false → k.Leads body s Q L) :
    k.Leads (Emit.skipIf cond body) s Q L := by
  intro d r hr c hc base pos
  obtain ⟨r₁, hr₁, rfl⟩ := Emit.skipIf_ok hr
  obtain ⟨hb, hp, hw⟩ := hsteady d r₁ hr₁
  simp only [Code.run]
  rw [hc.flags]
  cases hcond : cond.holds s.flags with
  | true => exact ⟨.fell c, rfl, s, hc.of_bindings hb hp hw, hskip hcond⟩
  | false =>
    obtain ⟨e, hrun, hends⟩ := hbody hcond d r₁ hr₁ c hc base (pos + Code.jumpIfSize)
    refine ⟨e, ?_, hends⟩
    rw [if_neg Bool.false_ne_true, hrun]
    cases e <;> rfl

theorem choose {cond : Cond} {no yes : Emit Unit} {Q : Unit → View → Prop} (hno : no.Steady)
    (hyes : yes.Steady) (hthen : cond.holds s.flags = true → k.Leads yes s Q L)
    (helse : cond.holds s.flags = false → k.Leads no s Q L) :
    k.Leads (Emit.choose cond no yes) s Q L := by
  intro d r hr c hc base pos
  obtain ⟨rn, ry, hrn, hry, rfl⟩ := Emit.choose_ok hr
  obtain ⟨hbn, hpn, hwn⟩ := hno d rn hrn
  obtain ⟨hby, hpy, hwy⟩ := hyes rn.draft ry hry
  simp only [Code.run]
  rw [hc.flags]
  cases hcond : cond.holds s.flags with
  | true =>
    obtain ⟨e, hrun, hends⟩ := hthen hcond rn.draft ry hry c (hc.of_bindings hbn hpn hwn)
      base (rn.code.stop (pos + Code.jumpIfSize) + Code.jumpSize)
    refine ⟨e, ?_, hends⟩
    rw [if_pos rfl, hrun]
    cases e <;> rfl
  | false =>
    obtain ⟨e, hrun, hends⟩ := helse hcond d rn hrn c hc base (pos + Code.jumpIfSize)
    refine ⟨e, ?_, ?_⟩
    · rw [if_neg Bool.false_ne_true, hrun]
      cases e <;> rfl
    · cases e with
      | left c' => exact hends
      | fell c' =>
        obtain ⟨s', hc', hq⟩ := hends
        exact ⟨s', hc'.of_bindings hby hpy hwy, hq⟩

/-- A path that never comes back. -/
theorem diverging {path : Emit Unit} {Q : Unit → View → Prop}
    (h : k.Leads path s (fun _ _ => False) L) : k.Leads (Emit.diverging path) s Q L := by
  intro d r hr c hc base pos
  obtain ⟨r₁, hr₁, rfl⟩ := Emit.diverging_ok hr
  obtain ⟨e, hrun, hends⟩ := h d r₁ hr₁ c hc base pos
  refine ⟨e, hrun, ?_⟩
  cases e with
  | left c' => exact hends
  | fell c' =>
    obtain ⟨_, _, hfalse⟩ := hends
    exact hfalse.elim

/-! ## Rows and selections -/

theorem ops_nil {Q : Unit → View → Prop} (h : Q () s) : k.Leads (Emit.ops []) s Q L :=
  put fun _ c hc _ _ => ⟨.fell c, rfl, s, hc, h⟩

theorem ops_cons {i : Instr} {is : List Instr} {Q : Unit → View → Prop}
    (h : k.Leads (Emit.op i) s (fun _ s' => k.Leads (Emit.ops is) s' Q L) L) :
    k.Leads (Emit.ops (i :: is)) s Q L :=
  bind (m := Emit.op i) (f := fun _ => Emit.ops is) h

theorem run_ofInstrs (is : List Instr) (base : Address) (pos : Nat) (c : Cpu) :
    (Code.ofInstrs is).run base pos c = (Code.performRow base pos is c).map .fell := by
  induction is generalizing pos c with
  | nil => rfl
  | cons i rest ih =>
    simp only [Code.ofInstrs, List.foldr_cons, Code.run, Code.performRow, Option.map_bind]
    exact congrArg _ (funext fun c => ih _ c)

/-- A row of instructions is carried out in the middle of other code. -/
theorem row {is : List Instr} {Q : Unit → View → Prop} (h : k.Leads (Emit.ops is) s Q L) {d : Draft}
    {c : Cpu} (hc : k.Models d c s) (base : Address) (pos : Nat) :
    ∃ c' s', Code.performRow base pos is c = some c' ∧ k.Models d c' s' ∧ Q () s' := by
  obtain ⟨e, hrun, hends⟩ := h d ⟨(), d, .ofInstrs is⟩ rfl c hc base pos
  rw [run_ofInstrs] at hrun
  obtain ⟨c', hrow, rfl⟩ := Option.map_eq_some_iff.mp hrun
  obtain ⟨s', hc', hq⟩ := hends
  exact ⟨c', s', hrow, hc', hq⟩

theorem rsp_not_scratch : Reg.rsp ∉ scratchRegs := by decide

/-- A selection runs the body that the index names, with anything in the table
register. -/
theorem select {q r : Role} {table index : Reg} {v w : BitVec 64}
    {bodies : List (Option (List Instr))} {Q : Unit → View → Prop}
    (ht : s.roles q = .word table v) (hi : s.roles r = .word index w) (hne : r ≠ q)
    {body : Option (List Instr)} (hb : bodies[w.toNat]? = some body)
    (hleave : body = none → L s.mem)
    (hbody : ∀ is, body = some is → ∀ a, k.Leads (Emit.ops is) (s.set q (.word table a)) Q L) :
    k.Leads (Emit.put (.select table index bodies .done)) s Q L := by
  refine put fun d c hc base pos => ?_
  obtain ⟨-, -, -, -, -, -, hscratch⟩ := hc.word_spec hi
  have hindex : index ≠ .rsp := fun e => rsp_not_scratch (e ▸ hscratch)
  have hc' := (hc.setWord ht (base + BitVec.ofNat 64 (Code.tableStart pos bodies)) s.flags)
  have hw : (c.setReg table (base + BitVec.ofNat 64 (Code.tableStart pos bodies))).reg index = w :=
    hc'.fits.word (r := r) (by
      rw [View.roles_setFlags, View.roles_set, if_neg hne, hi])
  have hsame : (c.setReg table (base + BitVec.ofNat 64 (Code.tableStart pos bodies))).setFlags
      s.flags = c.setReg table (base + BitVec.ofNat 64 (Code.tableStart pos bodies)) := by
    rw [← hc.flags]
    rfl
  rw [hsame] at hc'
  simp only [Code.run]
  rw [if_neg hindex, hw, hb]
  cases body with
  | none =>
    exact ⟨.left _, rfl, hc'.mem ▸ hc'.later, hc'.kept, hc'.mem ▸ hleave rfl⟩
  | some is =>
    obtain ⟨c₁, s₁, hrow, hc₁, hq⟩ := (hbody is rfl _).row hc' base
      ((Code.bodyStarts (pos + Code.jumpSize) bodies).getD w.toNat 0)
    refine ⟨.fell c₁, ?_, s₁, hc₁, hq⟩
    simp only [hrow, Option.bind_some]

/-! ## Requests to the table -/

theorem has_word {r : Role} {g : Reg} {v : BitVec 64} {Q : Bool → View → Prop}
    (hr : s.roles r = .word g v) (h : Q true s) : k.Leads (Emit.has r) s Q L := by
  intro d r hr' c hc base pos
  cases hr'
  obtain ⟨b, hb, -⟩ := hc.word_spec hr
  refine ⟨.fell c, rfl, s, hc, ?_⟩
  rwa [RoleTable.has_eq, hb]

theorem has_absent {r : Role} {Q : Bool → View → Prop} (hr : s.roles r = .absent)
    (h : Q false s) : k.Leads (Emit.has r) s Q L := by
  intro d r hr' c hc base pos
  cases hr'
  have hd := hc.roles r
  rw [hr] at hd
  refine ⟨.fell c, rfl, s, hc, ?_⟩
  rwa [RoleTable.has_eq, show d.table.find? r = none from hd]

theorem has_any {r : Role} {Q : Bool → View → Prop} (h : ∀ b, Q b s) :
    k.Leads (Emit.has r) s Q L := by
  intro d r hr' c hc base pos
  cases hr'
  exact ⟨.fell c, rfl, s, hc, h _⟩

/-- A request that does not touch the machine. -/
theorem onTable {action : RoleTable → Except Failure (α × RoleTable)} {Q : α → View → Prop}
    (h : ∀ d c, k.Models d c s → ∀ a t, action d.table = .ok (a, t) →
      ∃ s', k.Models { d with table := t } c s' ∧ Q a s') : k.Leads (Emit.onTable action) s Q L := by
  intro d r hr c hc base pos
  obtain ⟨a, t, ht, rfl⟩ := Emit.onTable_ok hr
  obtain ⟨s', hc', hq⟩ := h d c hc a t ht
  exact ⟨.fell c, rfl, s', hc', hq⟩

theorem adjust {change : RoleTable → RoleTable} {Q : Unit → View → Prop}
    (h : ∀ d c, k.Models d c s →
      ∃ s', k.Models { d with table := change d.table } c s' ∧ Q () s') :
    k.Leads (Emit.adjust change) s Q L := by
  intro d r hr c hc base pos
  cases hr
  obtain ⟨s', hc', hq⟩ := h d c hc
  exact ⟨.fell c, rfl, s', hc', hq⟩

theorem findGen {r : Role} {g : Reg} {v : BitVec 64} {Q : Reg → View → Prop}
    (hr : s.roles r = .word g v) (h : Q g s) : k.Leads (Emit.findGen r) s Q L := by
  refine onTable fun d c hc a t ht => ⟨s, ?_⟩
  obtain ⟨-, ⟨n, t'⟩, hfind, he⟩ := RoleTable.inFile_ok ht
  cases he
  obtain ⟨-, -, b, hb, rfl, -⟩ := RoleTable.find_spec hfind
  obtain ⟨b', hb', -, hg, -⟩ := hc.word_spec hr
  cases hb.symm.trans hb'
  exact ⟨hc.find hfind, hg ▸ h⟩

theorem findVec {r : Role} {x : Xmm} {v : Lanes} {Q : Xmm → View → Prop}
    (hr : s.roles r = .lanes x v) (h : Q x s) : k.Leads (Emit.findVec r) s Q L := by
  refine onTable fun d c hc a t ht => ⟨s, ?_⟩
  obtain ⟨-, ⟨n, t'⟩, hfind, he⟩ := RoleTable.inFile_ok ht
  cases he
  obtain ⟨-, -, b, hb, rfl, -⟩ := RoleTable.find_spec hfind
  obtain ⟨b', hb', -, hx, -⟩ := hc.lanes_spec hr
  cases hb.symm.trans hb'
  exact ⟨hc.find hfind, hx ▸ h⟩

theorem allocGen {r : Role} {Q : Reg → View → Prop} (h : ∀ g v, Q g (s.set r (.word g v))) :
    k.Leads (Emit.allocGen r) s Q L := by
  refine onTable fun d c hc a t ht => ⟨_, ?_, h a (c.reg a)⟩
  obtain ⟨hfile, ⟨n, t'⟩, halloc, he⟩ := RoleTable.inFile_ok ht
  cases he
  exact hc.alloc halloc fun b hb hn hl => ⟨b, hb, hfile, by rw [hn], rfl, fun _ => hl⟩

theorem allocVec {r : Role} {Q : Xmm → View → Prop} (h : ∀ x v, Q x (s.set r (.lanes x v))) :
    k.Leads (Emit.allocVec r) s Q L := by
  refine onTable fun d c hc a t ht => ⟨_, ?_, h a (c.vec a)⟩
  obtain ⟨hfile, ⟨n, t'⟩, halloc, he⟩ := RoleTable.inFile_ok ht
  cases he
  exact hc.alloc halloc fun b hb hn hl => ⟨b, hb, hfile, by rw [hn], rfl, fun _ => hl⟩

theorem unlock {r : Role} {Q : Unit → View → Prop} (hr : r.isReconstructible = false)
    (h : Q () s) : k.Leads (Emit.unlock r) s Q L :=
  adjust fun _ _ hc => ⟨s, hc.unlock hr, h⟩

theorem release {r : Role} {Q : Unit → View → Prop} (hr : r.isReconstructible = false)
    (h : Q () (s.set r .unknown)) : k.Leads (Emit.release r) s Q L :=
  adjust fun _ _ hc => ⟨_, hc.release hr, h⟩

theorem forceRelease {r : Role} {Q : Unit → View → Prop} (h : Q () (s.set r .absent)) :
    k.Leads (Emit.forceRelease r) s Q L :=
  adjust fun _ _ hc => ⟨_, hc.forceRelease r, h⟩

theorem retain {r : Role} {Q : Unit → View → Prop} (h : Q () s) : k.Leads (Emit.retain r) s Q L :=
  adjust fun _ _ hc => ⟨s, hc.retain r, h⟩

theorem rename {r q : Role} {g : Reg} {v : BitVec 64} {Q : Unit → View → Prop}
    (hold : s.roles r = .word g v) (hnew : q.isReconstructible = false)
    (h : Q () ((s.set r .absent).set q (.word g v))) : k.Leads (Emit.rename r q) s Q L := by
  refine onTable fun d c hc a t ht => ⟨_, ?_, h⟩
  cases hrename : d.table.rename r q with
  | error e => rw [hrename] at ht; cases ht
  | ok t' =>
    rw [hrename] at ht
    cases ht
    exact hc.rename hrename hold hnew

theorem isWide {Q : Bool → View → Prop} (h : Q s.wide s) : k.Leads Emit.isWide s Q L := by
  intro d r hr c hc base pos
  cases hr
  exact ⟨.fell c, rfl, s, hc, hc.wide ▸ h⟩

theorem setWide {w : Bool} {Q : Unit → View → Prop} (h : Q () (s.setWide w)) :
    k.Leads (Emit.setWide w) s Q L := by
  intro d r hr c hc base pos
  cases hr
  exact ⟨.fell c, rfl, s.setWide w, ⟨rfl, hc.flags, hc.mem, hc.later, hc.kept, hc.table, hc.pools,
    hc.roles⟩, h⟩

/-! ### Values that can be made again -/

/-- The address that is made for a role. -/
def addressOf (k : Setting) : Role → Option (BitVec 64)
  | .stateBase => some k.env.addresses.state
  | .poolBase => some k.env.addresses.pool
  | _ => none

theorem canonical_iff {r : Role} {a : BitVec 64} (ha : addressOf k r = some a) (c : Cpu) (n : Nat) :
    k.Canonical c r n ↔ c.reg (.ofNat n) = a := by
  cases r <;> cases ha <;> rfl

/-- A register that was made before has the value that would be made. -/
theorem findGen_made {r : Role} {a : BitVec 64} {Q : Reg → View → Prop}
    (ha : addressOf k r = some a) (hr : s.roles r = .unknown)
    (h : ∀ g, Q g (s.set r (.word g a))) : k.Leads (Emit.findGen r) s Q L := by
  refine onTable fun d c hc g t ht => ⟨_, ?_, h g⟩
  obtain ⟨hfile, ⟨n, t'⟩, hfind, he⟩ := RoleTable.inFile_ok ht
  cases he
  have hc' := hc.find hfind
  obtain ⟨-, -, b, hb, rfl, hfinds⟩ := RoleTable.find_spec hfind
  have hd := hc.roles r
  rw [hr] at hd
  exact hc'.change hc'.table ⟨rfl, rfl⟩ (fun _ _ => rfl)
    ⟨_, (hfinds r).trans (if_pos rfl), hfile, rfl, (canonical_iff ha c b.reg).mp (hd b hb),
      fun _ => Nat.succ_pos _⟩

theorem unlock_made {r : Role} {g : Reg} {a : BitVec 64} {Q : Unit → View → Prop}
    (ha : addressOf k r = some a) (hr : s.roles r = .word g a) (h : Q () (s.set r .unknown)) :
    k.Leads (Emit.unlock r) s Q L := by
  refine adjust fun d c hc => ⟨_, hc.unlockCanonical fun b hb => ?_, h⟩
  obtain ⟨b', hb', -, hg, hv, -⟩ := hc.word_spec hr
  cases hb.symm.trans hb'
  rw [canonical_iff ha, hg, hv]

theorem findVec_zero {Q : Xmm → View → Prop} (hr : s.roles .vecZero = .unknown)
    (h : ∀ x, Q x (s.set .vecZero (.lanes x .zero))) : k.Leads (Emit.findVec .vecZero) s Q L := by
  refine onTable fun d c hc g t ht => ⟨_, ?_, h g⟩
  obtain ⟨hfile, ⟨n, t'⟩, hfind, he⟩ := RoleTable.inFile_ok ht
  cases he
  have hc' := hc.find hfind
  obtain ⟨-, -, b, hb, rfl, hfinds⟩ := RoleTable.find_spec hfind
  have hd := hc.roles .vecZero
  rw [hr] at hd
  exact hc'.change hc'.table ⟨rfl, rfl⟩ (fun _ _ => rfl)
    ⟨_, (hfinds .vecZero).trans (if_pos rfl), hfile, rfl, hd b hb, fun _ => Nat.succ_pos _⟩

theorem unlock_zero {x : Xmm} {Q : Unit → View → Prop} (hr : s.roles .vecZero = .lanes x .zero)
    (h : Q () (s.set .vecZero .unknown)) : k.Leads (Emit.unlock .vecZero) s Q L := by
  refine adjust fun d c hc => ⟨_, hc.unlockCanonical fun b hb => ?_, h⟩
  obtain ⟨b', hb', -, hx, hv, -⟩ := hc.lanes_spec hr
  cases hb.symm.trans hb'
  show c.vec (.ofNat b.reg) = Lanes.zero
  rw [hx, hv]

end Setting.Leads

end PixelPipeline
