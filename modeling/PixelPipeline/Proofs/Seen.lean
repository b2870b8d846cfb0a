/-
# Proofs.Seen — what is seen of an instruction

Of most instructions the same is seen whatever their registers (`X86.Instr.Seen`).
A few are looked at closely, for they change what is recognised, or are seen only of a
register that is.  The values that all stages share leave no trace in a row, as long as
what is recognised is held by its role (`Eye.HoldsStencil`, `Eye.HoldsColors`).
-/
import PixelPipeline.Proofs.Shows
import PixelPipeline.Proofs.Sketches

namespace PixelPipeline

open X86 Compile

/-! ## What is seen of an instruction -/

namespace X86.Instr.Seen

variable {e : Eye} {g h : Reg} {x y : Xmm} {n : Nat}

/-! ### Between registers -/

instance mov {wide : Bool} : Seen e (.mov wide g h) [] e := ⟨rfl, rfl, rfl, rfl⟩

instance not {wide : Bool} : Seen e (.not wide g) [] e := ⟨rfl, rfl, rfl, rfl⟩

instance imul {wide : Bool} : Seen e (.imul wide g h) [] e := ⟨rfl, rfl, rfl, rfl⟩

instance test {wide : Bool} : Seen e (.test wide g h) [.test wide .rax .rax] e :=
  ⟨rfl, rfl, rfl, rfl⟩

instance aluAdd {wide : Bool} : Seen e (.alu .add wide g h) [] e := ⟨rfl, rfl, rfl, rfl⟩
instance aluAnd {wide : Bool} : Seen e (.alu .and wide g h) [] e := ⟨rfl, rfl, rfl, rfl⟩
instance aluOr {wide : Bool} : Seen e (.alu .or wide g h) [] e := ⟨rfl, rfl, rfl, rfl⟩
instance aluCmp {wide : Bool} : Seen e (.alu .cmp wide g h) [] e := ⟨rfl, rfl, rfl, rfl⟩

instance immAnd {wide : Bool} {v : BitVec 32} : Seen e (.aluImm .and wide g v)
    (if v ∈ Eye.blues then [.aluImm .and wide .rax v] else []) e where
  sees := by
    show (if AluOp.and = .and ∧ v ∉ Eye.blues then none else some _ : Option Instr).toList = _
    by_cases h : v ∈ Eye.blues
    · rw [if_neg fun hn => hn.2 h, if_pos h]
      rfl
    · rw [if_pos ⟨rfl, h⟩, if_neg h]
      rfl
  next := rfl
  encodable := rfl
  plain := rfl

instance immCmp {wide : Bool} {v : BitVec 32} :
    Seen e (.aluImm .cmp wide g v) [.aluImm .cmp wide .rax v] e := ⟨rfl, rfl, rfl, rfl⟩

instance immXor {wide : Bool} {v : BitVec 32} :
    Seen e (.aluImm .xor wide g v) [.aluImm .xor wide .rax v] e := ⟨rfl, rfl, rfl, rfl⟩

instance immOr {wide : Bool} {v : BitVec 32} :
    Seen e (.aluImm .or wide g v) [.aluImm .or wide .rax v] e := ⟨rfl, rfl, rfl, rfl⟩

instance immAdd {wide : Bool} {v : BitVec 32} :
    Seen e (.aluImm .add wide g v) [.aluImm .add wide .rax v] e := ⟨rfl, rfl, rfl, rfl⟩

instance immSub {wide : Bool} {v : BitVec 32} :
    Seen e (.aluImm .sub wide g v) [.aluImm .sub wide .rax v] e := ⟨rfl, rfl, rfl, rfl⟩

instance shl {v : BitVec 8} : Seen e (.shift .shl false g v) [] e := ⟨rfl, rfl, rfl, rfl⟩

instance sar {wide : Bool} {v : BitVec 8} : Seen e (.shift .sar wide g v) [] e :=
  ⟨rfl, rfl, rfl, rfl⟩

instance shr {wide : Bool} {v : BitVec 8} :
    Seen e (.shift .shr wide g v) (if v = 16 then [.shift .shr wide .rax v] else []) e where
  sees := by
    show (if ShiftOp.shr = .shr ∧ v = 16 then some _ else none : Option Instr).toList = _
    simp only [true_and]
    split <;> rfl
  next := rfl
  encodable := rfl
  plain := rfl

/-! ### With memory -/

instance aluStore {op : AluOp} {size : OpSize} :
    Seen e (.aluStore op size (atOffset g n) h) [.aluStore op size (cell n) .rax] e :=
  ⟨rfl, rfl, rfl, rfl⟩

instance loadCmp {size : OpSize} :
    Seen e (.aluLoad .cmp size h (atOffset g n)) [.aluLoad .cmp size .rax (cell n)] e :=
  ⟨rfl, rfl, rfl, rfl⟩

instance loadAnd {size : OpSize} :
    Seen e (.aluLoad .and size h (atOffset g n)) [.aluLoad .and size .rax (cell n)] e :=
  ⟨rfl, rfl, rfl, rfl⟩

instance loadAdd {size : OpSize} : Seen e (.aluLoad .add size h (atOffset g n)) [] e :=
  ⟨rfl, rfl, rfl, rfl⟩

instance storeImm {op : AluOp} {size : OpSize} {v : BitVec 32} :
    Seen e (.aluStoreImm op size (atOffset g n) v) [(Instr.aluStoreImm op size (cell n) v).line] e := by
  cases size <;> exact ⟨rfl, rfl, rfl, rfl⟩

instance load : Seen e (.load false h (atOffset g n)) [.load false .rax (cell n)] e :=
  ⟨rfl, rfl, rfl, rfl⟩

instance loadWide : Seen e (.load true h (atOffset g n)) [] e := ⟨rfl, rfl, rfl, rfl⟩

instance store {size : OpSize} :
    Seen e (.store size h (atOffset g n)) [.store size .rax (cell n)] e := ⟨rfl, rfl, rfl, rfl⟩

instance lea {wide : Bool} [i : h.Indexes] {scale : BitVec 2} {d : BitVec 32} {r : Reg} :
    Seen e (.lea wide r (.indexed g h scale d)) [] e :=
  ⟨rfl, rfl, decide_eq_true i.ne, rfl⟩

instance loadIndexed {ext : Extension} [i : h.Indexes] {scale : BitVec 2} {d : BitVec 32} {r : Reg} :
    Seen e (.loadExt ext r (.indexed g h scale d)) [.loadExt ext .rax (.indexed .rax .rax scale d)] e where
  sees := by cases ext <;> rfl
  next := rfl
  encodable := decide_eq_true i.ne
  plain := by cases ext <;> rfl

/-! ### Of vectors -/

instance movdToReg : Seen e (.movdToReg g x) [.movdToReg .rax ⟨0⟩] e := ⟨rfl, rfl, rfl, rfl⟩

instance pextrw {lane : BitVec 8} : Seen e (.pextrw g x lane) [] e := ⟨rfl, rfl, rfl, rfl⟩

instance pinsrw {lane : BitVec 8} : Seen e (.pinsrw x g lane) [] e := ⟨rfl, rfl, rfl, rfl⟩

instance punpcklbw : Seen e (.packed .punpcklbw x y) [] e := ⟨rfl, rfl, rfl, rfl⟩
instance packuswb : Seen e (.packed .packuswb x y) [] e := ⟨rfl, rfl, rfl, rfl⟩
instance pmullw : Seen e (.packed .pmullw x y) [] e := ⟨rfl, rfl, rfl, rfl⟩
instance por : Seen e (.packed .por x y) [] e := ⟨rfl, rfl, rfl, rfl⟩
instance paddsw : Seen e (.packed .paddsw x y) [] e := ⟨rfl, rfl, rfl, rfl⟩

instance movdqa : Seen e (.packed .movdqa x y) [.packed .movdqa ⟨0⟩ ⟨0⟩] e := ⟨rfl, rfl, rfl, rfl⟩
instance psubusw : Seen e (.packed .psubusw x y) [.packed .psubusw ⟨0⟩ ⟨0⟩] e := ⟨rfl, rfl, rfl, rfl⟩
instance paddusw : Seen e (.packed .paddusw x y) [.packed .paddusw ⟨0⟩ ⟨0⟩] e := ⟨rfl, rfl, rfl, rfl⟩
instance psubusb : Seen e (.packed .psubusb x y) [.packed .psubusb ⟨0⟩ ⟨0⟩] e := ⟨rfl, rfl, rfl, rfl⟩
instance pminub : Seen e (.packed .pminub x y) [.packed .pminub ⟨0⟩ ⟨0⟩] e := ⟨rfl, rfl, rfl, rfl⟩
instance pmaxub : Seen e (.packed .pmaxub x y) [.packed .pmaxub ⟨0⟩ ⟨0⟩] e := ⟨rfl, rfl, rfl, rfl⟩

instance pmulhuw : Seen e (.packed .pmulhuw x y) [.packed .pmulhuw (e.shade x) ⟨0⟩] e :=
  ⟨rfl, rfl, rfl, rfl⟩

instance packedLoad {op : PackedOp} :
    Seen e (.packedLoad op x (atOffset g n)) [.packedLoad op ⟨0⟩ (cell n)] e := ⟨rfl, rfl, rfl, rfl⟩

instance laneShift {op : LaneShift} {v : BitVec 8} :
    Seen e (.laneShift op x v) (if v = 1 then [.laneShift op ⟨0⟩ v] else []) e where
  sees := by
    show (if v = 1 then some _ else none : Option Instr).toList = _
    split <;> rfl
  next := rfl
  encodable := rfl
  plain := rfl

instance repeatFirst : Seen e (.pshuflw x y 0x00) [] e := ⟨rfl, rfl, rfl, rfl⟩

instance spreadBias : Seen e (.pshuflw x y 0x40) [] e := ⟨rfl, rfl, rfl, rfl⟩

instance repeatAlpha : Seen e (.pshuflw x y 0xFF) [.pshuflw ⟨0⟩ (e.shade y) 0xFF] e :=
  ⟨rfl, rfl, rfl, rfl⟩

/-! ### Lines that are looked at closely -/

instance aluXor {color stored : Option Xmm} {pixel : Option Reg} {wide : Bool} :
    Seen ⟨color, pixel, stored, some g⟩ (.alu .xor wide g g) [.alu .xor wide .rax .rax]
      ⟨color, pixel, stored, some g⟩ where
  sees := by
    show (if AluOp.xor = .xor ∧ some g = some g then some _ else none : Option Instr).toList = _
    rw [if_pos ⟨rfl, rfl⟩]
    rfl
  next := rfl
  encodable := rfl
  plain := rfl

instance movImm32 {color stored : Option Xmm} {pixel : Option Reg} {v : BitVec 32} :
    Seen ⟨color, pixel, stored, some g⟩ (.movImm32 g v) [.movImm32 .rax v]
      ⟨color, pixel, stored, some g⟩ where
  sees := by
    show (if some g = some g then some _ else none : Option Instr).toList = _
    rw [if_pos rfl]
    rfl
  next := rfl
  encodable := rfl
  plain := rfl

/-- An address is no stencil value. -/
theorem movConst {v : BitVec 64} (h : e.stencil ≠ some g) : Seen e (.movConst true g v) [] e := by
  unfold Instr.movConst
  split
  · refine ⟨?_, rfl, rfl, rfl⟩
    show (if AluOp.xor = .xor ∧ e.stencil = some g then some _ else none : Option Instr).toList = _
    rw [if_neg fun hn => h hn.2]
    rfl
  · split
    · refine ⟨?_, rfl, rfl, rfl⟩
      show (if e.stencil = some g then some _ else none : Option Instr).toList = _
      rw [if_neg h]
      rfl
    · exact ⟨rfl, rfl, rfl, rfl⟩

/-- A vector of zeros is no color. -/
theorem zero (hcolor : e.color ≠ some x) (hstored : e.stored ≠ some x) :
    Seen e (.packed .pxor x x) [] e where
  sees := by
    show (if e.color = some x then some _ else if e.stored = some x then some _ else none :
      Option Instr).toList = _
    rw [if_neg hcolor, if_neg hstored]
    rfl
  next := rfl
  encodable := rfl
  plain := rfl

instance zeroColor {stored : Option Xmm} {pixel stencil : Option Reg} :
    Seen ⟨some x, pixel, stored, stencil⟩ (.packed .pxor x x) [.packed .pxor ⟨1⟩ ⟨1⟩]
      ⟨some x, pixel, stored, stencil⟩ where
  sees := by
    show (if some x = some x then some _ else if stored = some x then some _ else none :
      Option Instr).toList = _
    rw [if_pos rfl]
    rfl
  next := rfl
  encodable := rfl
  plain := rfl

theorem zeroStored {c : Xmm} {pixel stencil : Option Reg} (h : c ≠ x) :
    Seen ⟨some c, pixel, some x, stencil⟩ (.packed .pxor x x) [.packed .pxor ⟨0⟩ ⟨0⟩]
      ⟨some c, pixel, some x, stencil⟩ where
  sees := by
    show (if some c = some x then some _ else if some x = some x then some _ else none :
      Option Instr).toList = _
    rw [if_neg fun hn => h (Option.some.inj hn), if_pos rfl]
    rfl
  next := rfl
  encodable := rfl
  plain := rfl

end X86.Instr.Seen

/-- A field of the register block, told from what is loaded from buffers. -/
class DrawState.Field (n : Nat) : Prop where
  ne : BitVec.ofNat 32 n ∉ [0, 1, 3, BitVec.ofNat 32 rasterOpAt]

namespace DrawState

instance : Field fogColorAt := ⟨by decide⟩
instance : Field blendFixAAt := ⟨by decide⟩
instance : Field blendFixBAt := ⟨by decide⟩
instance : Field colorTestAt := ⟨by decide⟩
instance : Field stencilRefAt := ⟨by decide⟩
instance : Field stencilMaskAt := ⟨by decide⟩
instance : Field alphaWriteMaskAt := ⟨by decide⟩

end DrawState

namespace X86.Instr.Seen

variable {e : Eye} {g h : Reg} {x : Xmm} {n : Nat}

instance loadByte [hn : DrawState.Field n] :
    Seen e (.loadExt .zeroByte h (atOffset g n)) [.loadExt .zeroByte .rax (cell n)] e where
  sees := rfl
  next := by
    show (if Extension.zeroByte = .zeroWord ∧ BitVec.ofNat 32 n = 0 then { e with pixel := some h }
      else if BitVec.ofNat 32 n = 1 ∨ BitVec.ofNat 32 n = 3 then { e with stencil := some h }
      else e) = e
    have hne := hn.ne
    simp only [List.mem_cons, not_or] at hne
    rw [if_neg fun hw => Extension.noConfusion hw.1, if_neg (not_or.mpr ⟨hne.2.1, hne.2.2.1⟩)]
  encodable := rfl
  plain := by
    have hne := hn.ne
    simp only [List.mem_cons, not_or] at hne
    show (!(decide (Extension.zeroByte = .zeroByte) &&
      decide (BitVec.ofNat 32 n = BitVec.ofNat 32 DrawState.rasterOpAt))) = true
    rw [decide_eq_false hne.2.2.2.1]
    rfl

instance loadVec [hn : DrawState.Field n] :
    Seen e (.movdLoad x (atOffset g n)) [.movdLoad ⟨0⟩ (cell n)] e where
  sees := rfl
  next := by
    show (if BitVec.ofNat 32 n = 0 then { e with stored := some x } else e) = e
    rw [if_neg fun h0 : BitVec.ofNat 32 n = 0 => hn.ne (by rw [h0]; exact List.mem_cons_self)]
  encodable := rfl
  plain := rfl

/-- Another vector than a stored color is loaded. -/
instance movdToVec {c : Xmm} {stored : Option Xmm} {stencil : Option Reg} :
    Seen ⟨some c, none, stored, stencil⟩ (.movdToVec x g) [] ⟨some c, none, none, stencil⟩ :=
  ⟨rfl, rfl, rfl, rfl⟩

end X86.Instr.Seen

/-! ## Shared values -/

/-- The stencil value that is recognised is in the register of its role. -/
class Eye.HoldsStencil (e : Eye) (w : Ties) : Prop where
  eq : ∀ {g}, e.stencil = some g → w.stencil = some g

/-- The colors that are recognised are in the registers of their roles. -/
class Eye.HoldsColors (e : Eye) (w : Ties) : Prop where
  color : ∀ {x}, e.color = some x → w.color = some x
  stored : ∀ {x}, e.stored = some x → w.stored = some x

section

variable {c x : Xmm} {color stored : Option Xmm} {pixel : Option Reg} {ways : Ways}
  {stencil stencil' : Option Reg} {w : Ties}

instance : Eye.HoldsStencil ⟨color, pixel, stored, none⟩ w := ⟨nofun⟩

instance {color' stored' : Option Xmm} :
    Eye.HoldsStencil ⟨color, pixel, stored, stencil⟩ ⟨color', stored', stencil, ways⟩ := ⟨id⟩

instance : Eye.HoldsColors ⟨some c, pixel, none, stencil⟩ ⟨some c, stored, stencil', ways⟩ :=
  ⟨id, nofun⟩

instance : Eye.HoldsColors ⟨some c, pixel, some x, stencil⟩ ⟨some c, some x, stencil', ways⟩ :=
  ⟨id, id⟩

end

namespace Emit.Shows

variable {f : Features} {e : Eye} {w : Ties} (env : Env)

section

variable [he : e.HoldsStencil w]

/-- An address that is made if it is not there. -/
theorem base (r : Role) [hr : r.Local] (v : BitVec 64) : Shows f e w (do
    if ← Emit.has r then Emit.findGen r
    else
      let g ← Emit.allocGen r
      Emit.op (.movConst true g v)
      Pure.pure g) [] e w := by
  have hnew : Shows f e w (do
      let g ← Emit.allocGen r
      Emit.op (.movConst true g v)
      Pure.pure g) [] e w := by
    refine ⟨(Tells.allocGen hr.ne).bind fun g _ _ ⟨he', hw', _, hg⟩ => ?_⟩
    subst he' hw'
    have := Instr.Seen.movConst (g := g) (v := v) fun h => hg (hr.ne _ (by decide)).symm (he.eq h)
    exact (of_eq inferInstance rfl :
      Shows f _ _ (Emit.op (.movConst true g v) >>= fun _ => Pure.pure g) [] _ _).tells
  exact seq_nil inferInstance fun _ => ite_same inferInstance hnew

instance stateBase : Shows f e w (stateBase env) [] e w := base .stateBase _

instance poolBase : Shows f e w (poolBase env) [] e w := base .poolBase _

instance loadConst {role : Role} [role.Local] {offset : Nat} : Shows f e w (loadConst env role offset)
    [.packedLoad .movdqa ⟨0⟩ (cell offset)] e w := by
  dsimp only [Compile.loadConst]
  exact of_eq inferInstance rfl

end

section

variable [he : e.HoldsColors w]

instance zeroVec : Shows f e w zeroVec [] e w := by
  have hnew : Shows f e w (do
      let x ← Emit.allocVec .vecZero
      Emit.op (.packed .pxor x x)
      Pure.pure x) [] e w := by
    refine ⟨(Tells.allocVec (by decide)).bind fun x _ _ ⟨he', hw', hcolor, hstored⟩ => ?_⟩
    subst he' hw'
    have := Instr.Seen.zero (fun h => hcolor (by decide) (he.color h))
      (fun h => hstored (by decide) (he.stored h))
    exact (of_eq inferInstance rfl :
      Shows f _ _ (Emit.op (.packed .pxor x x) >>= fun _ => Pure.pure x) [] _ _).tells
  exact seq_nil inferInstance fun _ => ite_same inferInstance hnew

instance widenBytes {x : Xmm} : Shows f e w (widenBytes x) [] e w := by
  dsimp only [Compile.widenBytes]
  exact of_eq inferInstance rfl

instance expandColor {x : Xmm} : Shows f e w (expandColor x) [] e w := by
  exact seq_nil inferInstance fun _ => ite_same (of_eq inferInstance rfl) inferInstance

end

instance packColor {x : Xmm} : Shows f e w (Compile.packColor x) [] e w := by
  exact seq_nil inferInstance fun _ => ite_same (of_eq inferInstance rfl) inferInstance

end Emit.Shows

end PixelPipeline
