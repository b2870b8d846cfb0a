/-
# Proofs.Listing — what a reader of bytes finds in a function

Bytes read from the front give instructions one after another, and each of them
as it comes back from its bytes.  How far a jump goes depends on what lies between,
so a reader leaves that out: what is left of an instruction is a line.  Code lists
its lines up to its first selection, behind which lie a table and bodies that are
not read in order (`Code.lines`).  Two readings of the same bytes agree as far as
both of them go (`Reads.agree`).
-/
import PixelPipeline.Code.Layout
import PixelPipeline.Proofs.Decoding

namespace PixelPipeline

open X86

/-- An instruction without the distance it jumps. -/
def X86.Instr.aimless : Instr → Instr
  | .jump _ => .jump 0
  | .jumpIf c _ => .jumpIf c 0
  | i => i

/-- What a reader finds of an instruction. -/
def X86.Instr.line (i : Instr) : Instr := i.decoded.aimless

/-- The lines that bytes begin with. -/
inductive Reads : List Byte → List Instr → Prop
  | nil (bs : List Byte) : Reads bs []
  | cons {bs rest : List Byte} {i : Instr} {ls : List Instr} (hi : decode bs = some (i, rest))
      (hrest : Reads rest ls) : Reads bs (i.aimless :: ls)

/-- Of two equal lists, the parts in front of the first element of a kind are the same, and
so are the parts behind it. -/
theorem eq_of_first {α : Type} {p : α → Bool} {xs xs' ys ys' : List α} {x x' : α}
    (h : xs ++ x :: ys = xs' ++ x' :: ys') (hxs : ∀ y ∈ xs, p y = false) (hxs' : ∀ y ∈ xs', p y = false)
    (hx : p x = true) (hx' : p x' = true) : xs = xs' ∧ x = x' ∧ ys = ys' := by
  induction xs generalizing xs' with
  | nil =>
    cases xs' with
    | nil => exact ⟨rfl, List.cons.inj h⟩
    | cons y zs =>
      obtain ⟨rfl, -⟩ := List.cons.inj h
      exact absurd ((hxs' x List.mem_cons_self).symm.trans hx) Bool.false_ne_true
  | cons y zs ih =>
    cases xs' with
    | nil =>
      obtain ⟨rfl, -⟩ := List.cons.inj h
      exact absurd ((hxs y List.mem_cons_self).symm.trans hx') Bool.false_ne_true
    | cons y' zs' =>
      obtain ⟨rfl, htail⟩ := List.cons.inj h
      obtain ⟨rfl, hrest⟩ := ih htail (fun z hz => hxs z (List.mem_cons_of_mem _ hz))
        fun z hz => hxs' z (List.mem_cons_of_mem _ hz)
      exact ⟨rfl, hrest⟩

namespace Reads

variable {bs : List Byte} {ls ls' : List Instr}

theorem instr {i : Instr} (hi : i.encodable = true) (h : Reads bs ls) :
    Reads (i.bytes ++ bs) (i.line :: ls) :=
  .cons (X86.decode_bytes hi bs) h

/-- Of two readings of the same bytes one goes on where the other stops. -/
theorem agree (h : Reads bs ls) (h' : Reads bs ls') : ls <+: ls' ∨ ls' <+: ls := by
  induction h generalizing ls' with
  | nil bs => exact .inl (List.nil_prefix)
  | cons hi _ ih =>
    cases h' with
    | nil => exact .inr (List.nil_prefix)
    | cons hi' hrest' =>
      cases hi.symm.trans hi'
      exact (ih hrest').imp (List.prefix_cons_inj _).mpr (List.prefix_cons_inj _).mpr

end Reads

namespace Code

/-- The lines of code and those behind it, up to the first selection. -/
def lines : Code → List Instr → List Instr
  | done, ls => ls
  | instr i next, ls => i.line :: next.lines ls
  | mark _ next, ls => next.lines ls
  | leave next, ls => .jump 0 :: next.lines ls
  | leaveIf c next, ls => .jumpIf c 0 :: next.lines ls
  | skipIf c body next, ls => .jumpIf c 0 :: body.lines (next.lines ls)
  | choose c no yes next, ls => .jumpIf c 0 :: no.lines (.jump 0 :: yes.lines (next.lines ls))
  | select .., _ => []

theorem lines_append (a b : Code) (ls : List Instr) : (a ++ b).lines ls = a.lines (b.lines ls) := by
  show (a.append b).lines ls = _
  induction a with
  | select => rfl
  | _ => simp_all only [append, lines]

theorem lines_ofInstrs (is : List Instr) (ls : List Instr) :
    (ofInstrs is).lines ls = is.map Instr.line ++ ls := by
  induction is with
  | nil => rfl
  | cons i rest ih => exact congrArg (i.line :: ·) ih

/-- Instructions that code puts down in front of its first selection can be written down. -/
def Encodable : Code → Prop
  | done => True
  | instr i next => i.encodable = true ∧ next.Encodable
  | mark _ next => next.Encodable
  | leave next => next.Encodable
  | leaveIf _ next => next.Encodable
  | skipIf _ body next => body.Encodable ∧ next.Encodable
  | choose _ no yes next => no.Encodable ∧ yes.Encodable ∧ next.Encodable
  | select .. => True

theorem Encodable.append {a b : Code} (ha : a.Encodable) (hb : b.Encodable) :
    (a ++ b).Encodable := by
  show (a.append b).Encodable
  induction a with
  | done => exact hb
  | instr i next ih => exact ⟨ha.1, ih ha.2⟩
  | mark s next ih => exact ih ha
  | leave next ih => exact ih ha
  | leaveIf c next ih => exact ih ha
  | skipIf c body next _ ih => exact ⟨ha.1, ih ha.2⟩
  | choose c no yes next _ _ ih => exact ⟨ha.1, ha.2.1, ih ha.2.2⟩
  | select => trivial

theorem encodable_ofInstrs {is : List Instr} (h : ∀ i ∈ is, i.encodable = true) :
    (ofInstrs is).Encodable := by
  induction is with
  | nil => trivial
  | cons i rest ih =>
    exact ⟨h i List.mem_cons_self, ih fun j hj => h j (List.mem_cons_of_mem i hj)⟩

/-- The bytes of code are read as its lines. -/
theorem reads_bytes {base : BitVec 64} {exit pos : Nat} {c : Code} (hc : c.Encodable)
    {bs : List Byte} {ls : List Instr} (h : Reads bs ls) :
    Reads (c.bytes base exit pos ++ bs) (c.lines ls) := by
  induction c generalizing pos bs ls with
  | done => exact h
  | instr i next ih =>
    rw [bytes, List.append_assoc]
    exact .instr hc.1 (ih hc.2 h)
  | mark s next ih => exact ih hc h
  | leave next ih =>
    rw [bytes, List.append_assoc]
    exact .instr rfl (ih hc h)
  | leaveIf c next ih =>
    rw [bytes, List.append_assoc]
    exact .instr rfl (ih hc h)
  | skipIf c body next ihBody ih =>
    simp only [bytes, List.append_assoc]
    exact .instr rfl (ihBody hc.1 (ih hc.2 h))
  | choose c no yes next ihNo ihYes ih =>
    simp only [bytes, List.append_assoc]
    exact .instr rfl (ihNo hc.1 (.instr rfl (ihYes hc.2.1 (ih hc.2.2 h))))
  | select t i bodies next ih => exact .nil _

end Code

end PixelPipeline
