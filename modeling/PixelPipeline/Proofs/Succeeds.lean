/-
# Proofs.Succeeds — actions that cannot fail

`m.Succeeds S T n Q` says of an action that it succeeds from any table that fits
`S` and `T`, and that its code has no return and leaves part of `n` bytes of
room: `Q` holds of its value, of sets that the new table fits, and of the room
that is left.  The rules
have the form of those for `Setting.Leads`, so a stage is walked through once
more for what the first walk took for granted.
-/
import PixelPipeline.Compile.Env
import PixelPipeline.Proofs.Leads
import PixelPipeline.Proofs.Occupancy
import PixelPipeline.Proofs.Room

namespace PixelPipeline

open X86 Compile RoleTable

namespace Emit

variable {α β : Type} {d : Draft}

theorem bind_of_ok {m : Emit α} {f : α → Emit β} {r : Emission α} {r' : Emission β}
    (h : m d = .ok r) (h' : f r.value r.draft = .ok r') :
    (m >>= f) d = .ok ⟨r'.value, r'.draft, r.code ++ r'.code⟩ := by
  simp only [Bind.bind, h, h']

theorem captured_of_ok (opening : Code) {m : Emit Unit} {r : Emission Unit} (h : m d = .ok r) :
    captured opening m d = .ok ⟨r.code, r.draft, .done⟩ := by
  simp only [captured, h]

theorem onTable_of_ok {action : RoleTable → Except Failure (α × RoleTable)} {a : α}
    {t : RoleTable} (h : action d.table = .ok (a, t)) :
    onTable action d = .ok ⟨a, { d with table := t }, .done⟩ := by
  unfold onTable
  rw [h]

end Emit

/-- The action succeeds, and what it leaves satisfies `Q`. -/
def Emit.Succeeds {α : Type} (m : Emit α) (S : Finset Role) (T : List Role) (n : Nat)
    (Q : α → Finset Role → List Role → Nat → Prop) : Prop :=
  ∀ d : Draft, d.table.Fits S T → ∃ r S' T' n', m d = .ok r ∧ r.draft.table.Fits S' T' ∧
    r.code.returns = false ∧ r.code.room + n' ≤ n ∧ Q r.value S' T' n'

namespace Emit.Succeeds

variable {α β : Type} {S : Finset Role} {T : List Role} {n : Nat}

/-! ## Sequence -/

theorem mono {m : Emit α} {Q : α → Finset Role → List Role → Nat → Prop} {n' : Nat}
    (h : m.Succeeds S T n Q) (hn : n ≤ n') : m.Succeeds S T n' Q := by
  intro d hd
  obtain ⟨r, S', T', k, hr, hfits, hret, hroom, hq⟩ := h d hd
  exact ⟨r, S', T', k, hr, hfits, hret, Nat.le_trans hroom hn, hq⟩

/-- More roles may be held than there are. -/
theorem widen {m : Emit α} {Q : α → Finset Role → List Role → Nat → Prop} {T' : List Role}
    (hT : T ⊆ T') (h : m.Succeeds S T' n Q) : m.Succeeds S T n Q :=
  fun d hd => h d (hd.mono hT)

theorem pure {a : α} {Q : α → Finset Role → List Role → Nat → Prop} (h : Q a S T n) :
    (pure a : Emit α).Succeeds S T n Q :=
  fun _ hd => ⟨_, S, T, n, rfl, hd, rfl, Nat.le_of_eq (Nat.zero_add n), h⟩

theorem bind {m : Emit α} {f : α → Emit β} {Q : β → Finset Role → List Role → Nat → Prop}
    (h : m.Succeeds S T n fun a S' T' n' => (f a).Succeeds S' T' n' Q) :
    (m >>= f).Succeeds S T n Q := by
  intro d hd
  obtain ⟨r, S₁, T₁, n₁, hr, hfits, hret, hroom, hf⟩ := h d hd
  obtain ⟨r', S₂, T₂, n₂, hr', hfits', hret', hroom', hq⟩ := hf r.draft hfits
  refine ⟨⟨r'.value, r'.draft, r.code ++ r'.code⟩, S₂, T₂, n₂, ?_, hfits', ?_, ?_, hq⟩
  · exact bind_of_ok hr hr'
  · rw [Code.returns_append, hret, hret', Bool.or_false]
  · rw [Code.room_append]
    omega

/-! ## Code -/

section

variable {Q : Unit → Finset Role → List Role → Nat → Prop}

theorem put {code : Code} (hret : code.returns = false) (h : Q () S T n) :
    (Emit.put code).Succeeds S T (n + code.room) Q :=
  fun _ hd => ⟨_, S, T, n, rfl, hd, hret, Nat.le_of_eq (Nat.add_comm _ _), h⟩

theorem op {i : Instr} (hret : i.isReturn = false) (h : Q () S T n) :
    (Emit.op i).Succeeds S T (n + 13) Q := by
  have hcode : (Code.instr i .done).returns = false := by
    rw [Code.returns, hret]
    rfl
  exact put hcode h

theorem ops {is : List Instr} (hret : is.any (·.isReturn) = false) (h : Q () S T n) :
    (Emit.ops is).Succeeds S T (n + 13 * is.length) Q := by
  rw [← Code.room_ofInstrs]
  exact put (Code.returns_ofInstrs is ▸ hret) h

theorem mark {s : Stage} (h : Q () S T n) : (Emit.mark s).Succeeds S T n Q := put rfl h

theorem leave (h : Q () S T n) : Emit.leave.Succeeds S T (n + 5) Q := put rfl h

theorem leaveIf {c : Cond} (h : Q () S T n) : (Emit.leaveIf c).Succeeds S T (n + 6) Q := put rfl h

theorem skipIf {c : Cond} {body : Emit Unit} (h : body.Succeeds S T n Q) :
    (Emit.skipIf c body).Succeeds S T (n + 6) Q := by
  intro d hd
  obtain ⟨r, S', T', n', hr, hfits, hret, hroom, hq⟩ := h d hd
  refine ⟨⟨(), r.draft, .skipIf c r.code .done⟩, S', T', n', ?_, hfits, ?_, ?_, hq⟩
  · exact bind_of_ok (f := fun code => Emit.put (.skipIf c code .done)) (captured_of_ok _ hr) rfl
  · rw [Code.returns, hret]
    rfl
  · simp only [Code.room, Code.jumpIfSize]
    omega

theorem choose {c : Cond} {no yes : Emit Unit}
    (h : no.Succeeds S T n fun _ S' T' n' => yes.Succeeds S' T' n' Q) :
    (Emit.choose c no yes).Succeeds S T (n + 11) Q := by
  intro d hd
  obtain ⟨r, S₁, T₁, n₁, hr, hfits, hret, hroom, hyes⟩ := h d hd
  obtain ⟨r', S₂, T₂, n₂, hr', hfits', hret', hroom', hq⟩ := hyes r.draft hfits
  refine ⟨⟨(), r'.draft, .choose c r.code r'.code .done⟩, S₂, T₂, n₂, ?_, hfits', ?_, ?_, hq⟩
  · let opening (noCode : Code) : Code := .skipIf c (noCode ++ .leave .done) .done
    have hinner := bind_of_ok (f := fun yesCode => Emit.put (.choose c r.code yesCode .done))
      (captured_of_ok (opening r.code) hr') rfl
    exact bind_of_ok (f := fun noCode => Emit.captured (opening noCode) yes >>= fun yesCode =>
      Emit.put (.choose c noCode yesCode .done)) (captured_of_ok _ hr) hinner
  · rw [Code.returns, hret, hret']
    rfl
  · simp only [Code.room, Code.jumpIfSize, Code.jumpSize]
    omega

/-- What a path that never comes back does to the table is forgotten. -/
theorem diverging {path : Emit Unit}
    (h : path.Succeeds S T n fun _ _ _ n' => Q () S T n') :
    (Emit.diverging path).Succeeds S T n Q := by
  intro d hd
  obtain ⟨r, S', T', n', hr, hfits, hret, hroom, hq⟩ := h d hd
  refine ⟨{ r with draft := { r.draft with table := r.draft.table.restore d.table.bindings } },
    S, T, n', ?_, hd.restore ⟨hfits.pools.1.symm.trans hd.pools.1,
      hfits.pools.2.symm.trans hd.pools.2⟩, hret, hroom, hq⟩
  unfold Emit.diverging
  rw [hr]

end

/-! ## Registers -/

section

variable {r : Role}

theorem has_mem {Q : Bool → Finset Role → List Role → Nat → Prop} (hl : r ∈ Role.lasting)
    (hr : r ∈ S) (h : Q true S T n) : (Emit.has r).Succeeds S T n Q := by
  intro d hd
  refine ⟨_, S, T, n, rfl, hd, rfl, Nat.le_of_eq (Nat.zero_add n), ?_⟩
  show Q (d.table.has r) S T n
  rw [has_eq, (hd.lasting r hl).mpr hr]
  exact h

theorem has_not_mem {Q : Bool → Finset Role → List Role → Nat → Prop} (hl : r ∈ Role.lasting)
    (hr : r ∉ S) (h : Q false S T n) : (Emit.has r).Succeeds S T n Q := by
  intro d hd
  refine ⟨_, S, T, n, rfl, hd, rfl, Nat.le_of_eq (Nat.zero_add n), ?_⟩
  show Q (d.table.has r) S T n
  rw [has_eq, Bool.eq_false_iff.mpr fun he => hr ((hd.lasting r hl).mp he)]
  exact h

theorem onTable {action : RoleTable → Except Failure (α × RoleTable)}
    {Q : α → Finset Role → List Role → Nat → Prop} {S' : Finset Role} {T' : List Role}
    (h : ∀ t : RoleTable, t.Fits S T → ∃ a t', action t = .ok (a, t') ∧ t'.Fits S' T')
    (hq : ∀ a, Q a S' T' n) : (Emit.onTable action).Succeeds S T n Q := by
  intro d hd
  obtain ⟨a, t', ht, hfits⟩ := h d.table hd
  exact ⟨_, S', T', n, onTable_of_ok ht, hfits, rfl, Nat.le_of_eq (Nat.zero_add n), hq a⟩

theorem adjust {change : RoleTable → RoleTable} {Q : Unit → Finset Role → List Role → Nat → Prop}
    {S' : Finset Role} {T' : List Role} (h : ∀ t : RoleTable, t.Fits S T → (change t).Fits S' T')
    (hq : Q () S' T' n) : (Emit.adjust change).Succeeds S T n Q :=
  fun d hd => ⟨_, S', T', n, rfl, h d.table hd, rfl, Nat.le_of_eq (Nat.zero_add n), hq⟩

theorem isWide {Q : Bool → Finset Role → List Role → Nat → Prop} (h : ∀ b, Q b S T n) :
    Emit.isWide.Succeeds S T n Q :=
  fun _ hd => ⟨_, S, T, n, rfl, hd, rfl, Nat.le_of_eq (Nat.zero_add n), h _⟩

theorem setWide {w : Bool} {Q : Unit → Finset Role → List Role → Nat → Prop} (h : Q () S T n) :
    (Emit.setWide w).Succeeds S T n Q :=
  fun _ hd => ⟨_, S, T, n, rfl, hd, rfl, Nat.le_of_eq (Nat.zero_add n), h⟩

theorem inFile_map {f : RegFile} {answer : Except Failure (Nat × RoleTable)} {m : Nat}
    {t : RoleTable} (hf : r.file = f) (h : answer = .ok (m, t)) (g : Nat × RoleTable → α) :
    (inFile r f answer).map g = .ok (g (m, t)) := by
  rw [inFile, if_pos hf, h]
  rfl

/-! ### Lasting roles -/

theorem findGen {Q : Reg → Finset Role → List Role → Nat → Prop} (hl : r ∈ Role.lasting)
    (hf : r.file = .general) (hr : r ∈ S) (h : ∀ g, Q g S T n) :
    (Emit.findGen r).Succeeds S T n Q :=
  onTable (fun t ht => by
    obtain ⟨m, t', hfind, hfits⟩ := ht.find ((ht.lasting r hl).mpr hr)
      (fun hrec => absurd hl (not_lasting_of_reconstructible hrec)) (List.Subset.refl T)
      (fun hn => absurd hl hn)
    exact ⟨_, t', inFile_map hf hfind _, hfits⟩) h

theorem findVec {Q : Xmm → Finset Role → List Role → Nat → Prop} (hr : .vecColor ∈ S)
    (h : ∀ x, Q x S T n) : (Emit.findVec .vecColor).Succeeds S T n Q :=
  onTable (fun t ht => by
    obtain ⟨m, t', hfind, hfits⟩ := ht.find ((ht.lasting .vecColor (by decide)).mpr hr) nofun
      (List.Subset.refl T) (fun hn => absurd (by decide) hn)
    exact ⟨_, t', inFile_map rfl hfind _, hfits⟩) h

theorem allocLasting {Q : Reg → Finset Role → List Role → Nat → Prop} (hl : r ∈ Role.lasting)
    (hf : r.file = .general) (hroom : Spare S T) (h : ∀ g, Q g (insert r S) T n) :
    (Emit.allocGen r).Succeeds S T n Q :=
  onTable (fun t ht => by
    obtain ⟨m, t', halloc, hfits⟩ := ht.alloc (fun _ => hroom)
      (fun hrec => absurd hl (not_lasting_of_reconstructible hrec)) (fun _ _ => Finset.mem_insert)
      (List.Subset.refl T) (fun hn => absurd hl hn)
    exact ⟨_, t', inFile_map hf halloc _, hfits⟩) h

theorem allocColor {Q : Xmm → Finset Role → List Role → Nat → Prop}
    (h : ∀ x, Q x (insert .vecColor S) T n) : (Emit.allocVec .vecColor).Succeeds S T n Q :=
  onTable (fun t ht => by
    obtain ⟨m, t', halloc, hfits⟩ := ht.alloc (r := .vecColor) nofun nofun
      (fun _ _ => Finset.mem_insert) (List.Subset.refl T) (fun hn => absurd (by decide) hn)
    exact ⟨_, t', inFile_map rfl halloc _, hfits⟩) h

theorem forceRelease {Q : Unit → Finset Role → List Role → Nat → Prop}
    (h : Q () (S.erase r) T n) : (Emit.forceRelease r).Succeeds S T n Q :=
  adjust (fun t (ht : t.Fits S T) => show (t.remove r).Fits (S.erase r) T from
    (ht.remove r).mono List.filter_sublist.subset) h

theorem retain {Q : Unit → Finset Role → List Role → Nat → Prop} (hr : r ∈ keepers)
    (h : Q () S T n) : (Emit.retain r).Succeeds S T n Q :=
  adjust (fun _ ht => ht.retain hr) h

theorem rename {old new : Role} {Q : Unit → Finset Role → List Role → Nat → Prop} (hold : old ∈ S)
    (hlold : old ∈ Role.lasting) (hnew : new ∉ S) (hlnew : new ∈ Role.lasting)
    (hf : old.file = new.file) (hkeep : new ∈ keepers) (h : Q () (insert new (S.erase old)) T n) :
    (Emit.rename old new).Succeeds S T n Q :=
  onTable (fun t ht => by
    obtain ⟨t', hrename, hfits⟩ := ht.rename hold hlold hnew hlnew hf hkeep
    refine ⟨(), t', ?_, hfits⟩
    show (t.rename old new).map _ = _
    rw [hrename]
    rfl) fun _ => h

/-! ### Roles that come and go -/

theorem mem_iff_of_not_lasting (hl : r ∉ Role.lasting) :
    ∀ r' ∈ Role.lasting, r' ∈ S ↔ r' = r ∨ r' ∈ S :=
  fun _ hl' => ⟨.inr, fun h => h.elim (fun he => absurd (he ▸ hl') hl) id⟩

theorem allocGen {Q : Reg → Finset Role → List Role → Nat → Prop} (hl : r ∉ Role.lasting)
    (hf : r.file = .general) (hrec : r.isReconstructible = false) (hroom : Spare S T)
    (h : ∀ g, Q g S (r :: T) n) : (Emit.allocGen r).Succeeds S T n Q :=
  onTable (fun t ht => by
    obtain ⟨m, t', halloc, hfits⟩ : ∃ m t', t.alloc r = .ok (m, t') ∧ t'.Fits S (r :: T) :=
      ht.alloc (fun _ => hroom) (fun h => by rw [hrec] at h; cases h) (mem_iff_of_not_lasting hl)
        (List.subset_cons_self r T) (fun _ _ => List.mem_cons_self)
    exact ⟨_, t', inFile_map hf halloc _, hfits⟩) h

theorem allocVec {Q : Xmm → Finset Role → List Role → Nat → Prop} (hl : r ∉ Role.lasting)
    (hf : r.file = .vector) (h : ∀ x, Q x S T n) : (Emit.allocVec r).Succeeds S T n Q :=
  onTable (fun t ht => by
    have hno : r.file ≠ .general := by rw [hf]; decide
    obtain ⟨m, t', halloc, hfits⟩ : ∃ m t', t.alloc r = .ok (m, t') ∧ t'.Fits S T :=
      ht.alloc (fun hg => absurd hg hno) (fun _ hg => absurd hg hno) (mem_iff_of_not_lasting hl)
        (List.Subset.refl T) (fun _ hg => absurd hg hno)
    exact ⟨_, t', inFile_map hf halloc _, hfits⟩) h

theorem unlock {Q : Unit → Finset Role → List Role → Nat → Prop} (h : Q () S T n) :
    (Emit.unlock r).Succeeds S T n Q :=
  adjust (fun _ ht => ht.unlock r) h

theorem unlock_made {Q : Unit → Finset Role → List Role → Nat → Prop}
    (hrec : r.isReconstructible = true) (h : Q () S (T.filter (· ≠ r)) n) :
    (Emit.unlock r).Succeeds S T n Q :=
  adjust (fun _ ht => ht.unlock_made hrec) h

theorem release {Q : Unit → Finset Role → List Role → Nat → Prop} (hl : r ∉ Role.lasting)
    (h : Q () S (T.filter (· ≠ r)) n) : (Emit.release r).Succeeds S T n Q :=
  adjust (fun _ ht => ht.release hl) h

/-! ### Values that can be made again -/

/-- What is asked of an action once it is known whether a role is bound. -/
theorem bind_has {f : Bool → Emit α} {Q : α → Finset Role → List Role → Nat → Prop}
    (h : ∀ d : Draft, d.table.Fits S T → ∃ e S' T' n', f (d.table.has r) d = .ok e ∧
      e.draft.table.Fits S' T' ∧ e.code.returns = false ∧ e.code.room + n' ≤ n ∧
        Q e.value S' T' n') :
    (Emit.has r >>= f).Succeeds S T n Q := by
  intro d hd
  obtain ⟨e, S', T', n', he, hfits, hret, hroom, hq⟩ := h d hd
  exact ⟨_, S', T', n', bind_of_ok (m := Emit.has r) rfl he, hfits, hret, hroom, hq⟩

/-- A register with a value that is made if it is not there. -/
theorem made {T' : List Role} {found fresh : Emit α} {value : Nat → α} {i : α → Instr}
    {Q : α → Finset Role → List Role → Nat → Prop} (hrec : r.isReconstructible = true)
    (hroom : r.file = .general → Spare S T) (hno : r.file = .general → r ∉ T) (hT : T ⊆ T')
    (hr : r.file = .general → r ∈ T') (hret : ∀ a, (i a).isReturn = false)
    (hfound : ∀ d m t', d.table.find r = .ok (m, t') →
      found d = .ok ⟨value m, { d with table := t' }, .done⟩)
    (hfresh : ∀ d m t', d.table.alloc r = .ok (m, t') →
      fresh d = .ok ⟨value m, { d with table := t' }, .done⟩)
    (h : ∀ a, Q a S T' n) : (do
      if ← Emit.has r then found
      else
        let a ← fresh
        Emit.op (i a)
        Pure.pure a).Succeeds S T (n + 13) Q := by
  have hl := not_lasting_of_reconstructible hrec
  refine bind_has fun d hd => ?_
  split
  · rename_i hbound
    obtain ⟨m, t', hfind, hfits⟩ := hd.find hbound (fun _ => hno) hT fun _ => hr
    refine ⟨_, S, T', n, hfound d m t' hfind, hfits, rfl, ?_, h _⟩
    simp [Code.room]
  · obtain ⟨m, t', halloc, hfits⟩ : ∃ m t', d.table.alloc r = .ok (m, t') ∧ t'.Fits S T' :=
      hd.alloc hroom (fun _ => hno) (mem_iff_of_not_lasting hl) hT fun _ => hr
    refine ⟨_, S, T', n, bind_of_ok (hfresh d m t' halloc) rfl, hfits, ?_,
      Nat.le_of_eq (Nat.add_comm _ _), h _⟩
    show ((i (value m)).isReturn || false) = false
    rw [hret, Bool.or_false]

end

end Emit.Succeeds

/-! ## Shared values -/

namespace Compile

open Emit

variable {env : Env} {S : Finset Role} {T : List Role} {n : Nat}

theorem isReturn_movConst (r : Reg) (v : BitVec 64) : (Instr.movConst true r v).isReturn = false := by
  unfold Instr.movConst
  split
  · rfl
  · split <;> rfl

theorem stateBase_succeeds {Q : Reg → Finset Role → List Role → Nat → Prop} (hroom : Spare S T)
    (hno : .stateBase ∉ T) (h : ∀ g, Q g S (.stateBase :: T) n) :
    (stateBase env).Succeeds S T (n + 13) Q :=
  .made rfl (fun _ => hroom) (fun _ => hno) (List.subset_cons_self _ T) (fun _ => List.mem_cons_self)
    (fun _ => isReturn_movConst _ _) (fun _ _ _ h => onTable_of_ok (Succeeds.inFile_map rfl h _))
    (fun _ _ _ h => onTable_of_ok (Succeeds.inFile_map rfl h _)) h

theorem poolBase_succeeds {Q : Reg → Finset Role → List Role → Nat → Prop} (hroom : Spare S T)
    (hno : .poolBase ∉ T) (h : ∀ g, Q g S (.poolBase :: T) n) :
    (poolBase env).Succeeds S T (n + 13) Q :=
  .made rfl (fun _ => hroom) (fun _ => hno) (List.subset_cons_self _ T) (fun _ => List.mem_cons_self)
    (fun _ => isReturn_movConst _ _) (fun _ _ _ h => onTable_of_ok (Succeeds.inFile_map rfl h _))
    (fun _ _ _ h => onTable_of_ok (Succeeds.inFile_map rfl h _)) h

theorem zeroVec_succeeds {Q : Xmm → Finset Role → List Role → Nat → Prop} (h : ∀ x, Q x S T n) :
    zeroVec.Succeeds S T (n + 13) Q :=
  .made rfl nofun nofun (List.Subset.refl T) nofun (fun _ => rfl)
    (fun _ _ _ h => onTable_of_ok (Succeeds.inFile_map rfl h _))
    (fun _ _ _ h => onTable_of_ok (Succeeds.inFile_map rfl h _)) h

theorem loadConst_succeeds {role : Role} {offset : Nat}
    {Q : Xmm → Finset Role → List Role → Nat → Prop} (hl : role ∉ Role.lasting)
    (hf : role.file = .vector) (hroom : Spare S T) (hno : .poolBase ∉ T)
    (h : ∀ x, Q x S ((.poolBase :: T).filter (· ≠ .poolBase)) n) :
    (loadConst env role offset).Succeeds S T (n + 26) Q :=
  .bind (.allocVec hl hf fun x => .bind (poolBase_succeeds hroom hno fun _ => .bind (.op rfl
    (.bind (.unlock_made rfl (.pure (h x)))))))

section

variable {Q : Unit → Finset Role → List Role → Nat → Prop}

theorem widenBytes_succeeds {x : Xmm} (h : Q () S T n) :
    (widenBytes x).Succeeds S T (n + 26) Q :=
  .bind (zeroVec_succeeds fun _ => .bind (.op rfl (.unlock h)))

theorem expandColor_succeeds {x : Xmm} (h : Q () S T n) :
    (expandColor x).Succeeds S T (n + 26) Q := by
  refine .bind (.isWide fun b => ?_)
  split
  · exact .bind (widenBytes_succeeds (.setWide h))
  · exact .mono (.pure h) (Nat.le_add_right n 26)

theorem packColor_succeeds {x : Xmm} (h : Q () S T n) :
    (Compile.packColor x).Succeeds S T (n + 13) Q := by
  refine .bind (.isWide fun b => ?_)
  split
  · exact .bind (.op rfl (.setWide h))
  · exact .mono (.pure h) (Nat.le_add_right n 13)

end

end Compile

end PixelPipeline
