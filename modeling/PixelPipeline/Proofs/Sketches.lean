/-
# Proofs.Sketches — rows of lines that programs are told apart by

Every step of a program is drawn as a row of lines, and so is its last step
(`Step.sketch`, `Finish.sketch`).  The first line of a row says which stage the step
belongs to, no row that is followed by another goes on with such a line where it could
end, and so programs with the same rows are the same.  A check of the depth, and a
step up or down, are drawn by the format of the stencil value that has been loaded.
-/
import PixelPipeline.Proofs.Programs
import PixelPipeline.Proofs.Sights

namespace PixelPipeline

open X86 Compile

/-! ## Rows -/

/-- The condition under which a compared value passes. -/
def Comparing.pass (func : Comparing) : Cond := (passCond func).getD .o

/-- The condition under which a compared value passes that stands on the right. -/
def Comparing.mirrored (func : Comparing) : Cond := (mirroredPassCond func).getD .o

/-- An operand at an offset, whatever its register. -/
abbrev cell (offset : Nat) : MemOperand := atOffset .rax offset

namespace PixelFormat

/-- The bits of blue in the lowest bits of a stored pixel, or above them. -/
def blueMask : PixelFormat → BitVec 32
  | .rgb565 => 0xF800
  | .rgba5551 => 0x7C00
  | .rgba4444 => 0x0F00
  | .rgba8888 => 0xFF0000

/-- The size of a stored pixel as an operand. -/
def size (f : PixelFormat) : OpSize := if f.bytesPerPixel = 2 then .word else .dword

/-- A stored pixel is loaded. -/
def loads : PixelFormat → List Instr
  | .rgba8888 => [.movdLoad ⟨0⟩ (cell 0)]
  | f => [.loadExt .zeroWord .rax (cell 0), .aluImm .and false .rax f.blueMask]

/-- The stencil bits are loaded. -/
def loadsStencil (f : PixelFormat) : Instr :=
  .loadExt (if f = .rgba5551 then .signByte else .zeroByte) .rax (cell (stencilByte f).1)

/-- The color is narrowed. -/
def narrows (alpha : Bool) : PixelFormat → List Instr
  | .rgba8888 => []
  | f => (if alpha then [.shift .shr false .rax 16] else []) ++ [.aluImm .and false .rax f.blueMask]

/-- The stencil bits are stored. -/
def storesStencil (f : PixelFormat) (masked : Bool) : List Instr :=
  let (offset, colorBits) := stencilByte f
  if masked then
    .loadExt .zeroByte .rax (cell DrawState.alphaWriteMaskAt) ::
      ((if colorBits = 0 then [] else [.aluImm .or false .rax (colorBits.setWidth 32)]) ++
        [.aluStore .and .byte (cell offset) .rax, .aluStore .or .byte (cell offset) .rax])
  else if colorBits = 0 then [.store .byte .rax (cell offset)]
  else
    [(Instr.aluStoreImm .and .byte (cell offset) (colorBits.setWidth 32)).line,
      .aluStore .or .byte (cell offset) .rax]

/-- A pixel is stored, or all of it but for the stencil bits. -/
def stores (f : PixelFormat) (masked whole : Bool) : List Instr :=
  if masked then [.aluStore .and f.size (cell 0) .rax, .aluStore .or f.size (cell 0) .rax]
  else if whole ∨ f.hasStencil = false then [.store f.size .rax (cell 0)]
  else if f = .rgba8888 then
    [.store .word .rax (cell 0), .shift .shr false .rax 16, .store .byte .rax (cell 2)]
  else
    [(Instr.aluStoreImm .and f.size (cell 0) f.stencilBits).line, .aluStore .or f.size (cell 0) .rax]

end PixelFormat

/-- An update.  Stencil values of four bits are stepped by all their digits. -/
def Update.sketch (loaded : Option PixelFormat) : Update → List Instr
  | .zero => [.alu .xor false .rax .rax]
  | .set value => [.movImm32 .rax (value.setWidth 32)]
  | .reload => [.loadExt .zeroByte .rax (cell DrawState.stencilRefAt)]
  | .invert => [.aluImm .xor false .rax 0xFF]
  | .stepUp =>
      if loaded = some .rgba4444 then
        [.aluImm .cmp false .rax 0xF0, .jumpIf .ae 0, .aluImm .add false .rax 0x11]
      else [.aluImm .cmp false .rax 0xFF, .jumpIf .e 0, .aluImm .add false .rax 1]
  | .stepDown =>
      if loaded = some .rgba4444 then
        [.aluImm .cmp false .rax 0x11, .jumpIf .b 0, .aluImm .sub false .rax 0x11]
      else [.test false .rax .rax, .jumpIf .e 0, .aluImm .sub false .rax 1]

namespace BlendFactor

/-- The value of a factor. -/
def value (forDst : Bool) : BlendFactor → List Instr
  | .otherColor | .invOtherColor => [.packed .movdqa ⟨0⟩ ⟨0⟩]
  | .srcAlpha | .invSrcAlpha | .doubleSrcAlpha | .doubleInvSrcAlpha => [.pshuflw ⟨0⟩ ⟨1⟩ 0xFF]
  | .dstAlpha | .invDstAlpha | .doubleDstAlpha | .doubleInvDstAlpha => [.pshuflw ⟨0⟩ ⟨0⟩ 0xFF]
  | .fixed =>
      [.movdLoad ⟨0⟩ (cell (if forDst then DrawState.blendFixBAt else DrawState.blendFixAAt))]
  | .zero | .one => []

/-- What is left of one. -/
def inverted : List Instr :=
  [.packedLoad .movdqa ⟨0⟩ (cell VectorPool.invertAt), .packed .psubusw ⟨0⟩ ⟨0⟩]

/-- A factor. -/
def sketch (forDst : Bool) (f : BlendFactor) : List Instr :=
  f.value forDst ++ (if f.isDouble then [.laneShift .sll ⟨0⟩ 1] else []) ++
    (if f.isInverse then inverted else [])

end BlendFactor

/-- Colors are joined. -/
def BlendEquation.sketch (dstIsZero : Bool) : BlendEquation → List Instr
  | .add => if dstIsZero then [] else [.packed .paddusw ⟨0⟩ ⟨0⟩]
  | .subtract => if dstIsZero then [] else [.packed .psubusw ⟨0⟩ ⟨0⟩]
  | .reverseSubtract => [.packed .psubusw ⟨0⟩ ⟨0⟩, .packed .movdqa ⟨0⟩ ⟨0⟩]
  | .min => [.packed .pminub ⟨0⟩ ⟨0⟩]
  | .max => [.packed .pmaxub ⟨0⟩ ⟨0⟩]
  | .absDiff =>
      [.packed .movdqa ⟨0⟩ ⟨0⟩, .packed .psubusb ⟨0⟩ ⟨0⟩, .packed .psubusb ⟨0⟩ ⟨0⟩]

/-- A color is multiplied. -/
def times (x : Xmm) : List Instr := [.packed .pmulhuw x ⟨0⟩]

/-- Both colors are scaled. -/
def scaled (src dst : BlendFactor) : List Instr :=
  (if src.isTrivial then [] else src.sketch false) ++
    (if dst.isTrivial then [] else
      if BlendPlan.inversePair src dst then BlendFactor.inverted else dst.sketch true) ++
    (if src.isTrivial ∧ dst.isTrivial then [] else
      .packedLoad .movdqa ⟨0⟩ (cell VectorPool.halfAt) ::
        ((if src.isTrivial then [] else times ⟨1⟩) ++ (if dst.isTrivial then [] else times ⟨0⟩)))

/-- How a color is joined. -/
def Mix.sketch : Mix → List Instr
  | .bytes equation => equation.sketch false
  | .factors equation src dst =>
      scaled src dst ++ (if src = .zero then [.packed .pxor ⟨1⟩ ⟨1⟩] else []) ++
        (if dst = .zero ∧ equation = .reverseSubtract then [.packed .pxor ⟨0⟩ ⟨0⟩] else []) ++
        equation.sketch (dst == .zero)

/-- A step, behind a stencil value that has been loaded, or behind none. -/
def Step.sketch (loaded : Option PixelFormat) : Step → List Instr
  | .checkRange =>
      [.aluLoad .cmp .word .rax (cell DrawState.minZAt), .jumpIf .b 0,
        .aluLoad .cmp .word .rax (cell DrawState.maxZAt), .jumpIf .a 0]
  | .checkAlpha func reference masked =>
      .movdToReg .rax ⟨0⟩ ::
        ((if masked then [.aluLoad .and .byte .rax (cell DrawState.alphaTestMaskAt)] else []) ++
          [.aluImm .cmp false .rax (reference.setWidth 32), .jumpIf func.pass.invert 0])
  | .leave => [.jump 0]
  | .fog =>
      [.movdLoad ⟨0⟩ (cell DrawState.fogColorAt),
        .packedLoad .movdqa ⟨0⟩ (cell VectorPool.byteMaxAt), .packed .psubusw ⟨0⟩ ⟨0⟩,
        .packed .paddusw ⟨0⟩ ⟨0⟩, .packedLoad .pmulhuw ⟨0⟩ (cell VectorPool.by255At)]
  | .checkColor =>
      [.load false .rax (cell DrawState.colorTestMaskAt),
        .load false .rax (cell DrawState.colorTestRefAt), .movdToReg .rax ⟨0⟩,
        .loadExt .zeroByte .rax (cell DrawState.colorTestAt),
        .aluImm .cmp false .rax (ColorTest.always.code.setWidth 32), .jumpIf .b 0, .jumpIf .e 0,
        .aluImm .cmp false .rax (ColorTest.equal.code.setWidth 32), .jumpIf .e 0, .jumpIf .e 0,
        .jump 0, .jumpIf .ne 0]
  | .loadStencil format => [format.loadsStencil]
  | .checkStencil func reference masked =>
      (if masked then [.loadExt .zeroByte .rax (cell DrawState.stencilMaskAt)] else []) ++
        [.aluImm .cmp false .rax (reference.setWidth 32), .jumpIf func.mirrored 0]
  | .checkDepth func =>
      [.aluLoad .cmp .word .rax (cell 0),
        .jumpIf (if loaded.isSome then func.pass else func.pass.invert) 0]
  | .update u => u.sketch loaded
  | .storeStencil format masked => format.storesStencil masked
  | .storeDepth => [.store .word .rax (cell 0)]
  | .blend format mix => format.loads ++ mix.sketch
  | .dither => [.loadExt .signByte .rax (.indexed .rax .rax 0 (BitVec.ofNat 32 Key.ditherAt))]

/-- The last step, behind a stencil value or none, up to the return or to the lines that find out which of the
raster operations is meant. -/
def Finish.sketch (loaded : Bool) : Finish → List Instr
  | .write format masked alpha rasterOp =>
      .movdToReg .rax ⟨0⟩ :: (format.narrows alpha ++
        (if masked then [.load false .rax (cell Key.writeMaskAt)] else []) ++
        (if rasterOp then
          [if format = .rgba8888 then .load false .rax (cell 0) else .loadExt .zeroWord .rax (cell 0),
            .loadExt .zeroByte .rax (cell DrawState.rasterOpAt)]
        else format.stores masked (alpha || loaded) ++ [.ret]))
  | .clearStencil format masked => .movdToReg .rax ⟨0⟩ :: (format.storesStencil masked ++ [.ret])
  | .nothing => [.ret]

/-- The stencil value that has been loaded behind a step. -/
def Step.next (loaded : Option PixelFormat) : Step → Option PixelFormat
  | .loadStencil format => some format
  | _ => loaded

/-- The stencil value that has been loaded behind some steps. -/
def loadedBy (loaded : Option PixelFormat) (ss : List Step) : Option PixelFormat :=
  ss.foldl Step.next loaded

/-- Steps, one after another. -/
def rows (loaded : Option PixelFormat) : List Step → List Instr
  | [] => []
  | s :: ss => s.sketch loaded ++ rows (s.next loaded) ss

theorem rows_singleton (loaded : Option PixelFormat) (s : Step) : rows loaded [s] = s.sketch loaded :=
  List.append_nil _

theorem rows_append (loaded : Option PixelFormat) (ss ss' : List Step) :
    rows loaded (ss ++ ss') = rows loaded ss ++ rows (loadedBy loaded ss) ss' := by
  induction ss generalizing loaded with
  | nil => rfl
  | cons s rest ih => simp only [List.cons_append, rows, ih, List.append_assoc, loadedBy, List.foldl_cons]

/-- Steps and the last one. -/
def sketches (loaded : Option PixelFormat) (finish : Finish) (ss : List Step) : List Instr :=
  rows loaded ss ++ finish.sketch (loadedBy loaded ss).isSome

theorem sketches_cons (loaded : Option PixelFormat) (finish : Finish) (s : Step) (ss : List Step) :
    sketches loaded finish (s :: ss) = s.sketch loaded ++ sketches (s.next loaded) finish ss :=
  List.append_assoc _ _ _

/-! ## Finitely many rows

What has finitely many cases is told apart by going through them. -/

instance Named.decidableForall {α : Type} [Named α] (p : α → Prop) [DecidablePred p] :
    Decidable (∀ a, p a) :=
  decidable_of_iff (∀ a ∈ Named.members (α := α), p a)
    ⟨fun h a => h a (Named.mem_members a), fun h a _ => h a⟩

namespace PixelFormat

theorem eq_of_loads_prefix : ∀ {f f' : PixelFormat}, f.loads <+: f'.loads → f = f' := by
  decide +kernel

theorem eq_of_loadsStencil : ∀ {f f' : PixelFormat}, f.loadsStencil = f'.loadsStencil → f = f' := by
  decide +kernel

theorem eq_of_storesStencil_prefix : ∀ {f f' : PixelFormat} {masked masked' : Bool},
    f.storesStencil masked <+: f'.storesStencil masked' → f = f' ∧ masked = masked' := by
  decide +kernel

end PixelFormat

namespace Comparing

theorem pass_inj : ∀ {func func' : Comparing}, func.pass = func'.pass → func = func' := by
  have h : ∀ c c' : Comparison, c.compares = true → c'.compares = true →
      (passCond c).getD .o = (passCond c').getD .o → c = c' := by decide
  exact fun {func func'} he => Subtype.ext (h func func' func.2 func'.2 he)

theorem mirrored_inj : ∀ {func func' : Comparing}, func.mirrored = func'.mirrored → func = func' := by
  have h : ∀ c c' : Comparison, c.compares = true → c'.compares = true →
      (mirroredPassCond c).getD .o = (mirroredPassCond c').getD .o → c = c' := by decide
  exact fun {func func'} he => Subtype.ext (h func func' func.2 func'.2 he)

end Comparing

/-! ## Reading a blend

The factors are read from the front, the equation from the end. -/

namespace BlendFactor

/-- Twice the factor. -/
def doubled : BlendFactor → BlendFactor
  | .srcAlpha => .doubleSrcAlpha
  | .dstAlpha => .doubleDstAlpha
  | f => f

/-- What the factor leaves of one. -/
def inverse : BlendFactor → BlendFactor
  | .otherColor => .invOtherColor
  | .srcAlpha => .invSrcAlpha
  | .dstAlpha => .invDstAlpha
  | .doubleSrcAlpha => .doubleInvSrcAlpha
  | .doubleDstAlpha => .doubleInvDstAlpha
  | f => f

/-- The value that a row begins with, and the lines behind it. -/
def readValue : List Instr → BlendFactor × List Instr
  | .packed .movdqa _ _ :: ls => (.otherColor, ls)
  | .pshuflw _ x _ :: ls => (if x = ⟨1⟩ then .srcAlpha else .dstAlpha, ls)
  | .movdLoad _ _ :: ls => (.fixed, ls)
  | ls => (.one, ls)

/-- The factor that a row begins with, but for an inversion. -/
def readDouble (ls : List Instr) : BlendFactor × List Instr :=
  match readValue ls with
  | (f, .laneShift .. :: rest) => (f.doubled, rest)
  | p => p

/-- The factor that a row begins with. -/
def read (ls : List Instr) : BlendFactor × List Instr :=
  match readDouble ls with
  | (f, .packedLoad _ _ m :: .packed _ _ _ :: rest) =>
      if m = cell VectorPool.invertAt then (f.inverse, rest) else (f, rest)
  | p => p

/-- The two factors of a row in which both colors are scaled.  Of an inverse pair the
row shows one value. -/
def readBoth (ls : List Instr) : BlendFactor × BlendFactor :=
  match read ls with
  | (f, .packedLoad .. :: _) => ((readDouble ls).1, f)
  | (f, rest) => (f, (read rest).1)

end BlendFactor

/-- The equation by the last line of a row, if it joins anything. -/
def BlendEquation.read : List Instr → Option BlendEquation
  | [.packed .paddusw _ _] => some .add
  | [.packed .psubusw _ _] => some .subtract
  | [.packed .movdqa _ _] => some .reverseSubtract
  | _ :: ls => read ls
  | [] => none

namespace Mix

/-- The two factors of a row.  A factor that is not multiplied is one, or a color has
been cleared. -/
def readFactors (ls : List Instr) : BlendFactor × BlendFactor :=
  let src := if .packed .pxor ⟨1⟩ ⟨1⟩ ∈ ls then BlendFactor.zero else .one
  let dst :=
    if .packed .pxor ⟨0⟩ ⟨0⟩ ∈ ls ∨ BlendEquation.read ls = none then BlendFactor.zero else .one
  if times ⟨1⟩ ⊆ ls then
    if times ⟨0⟩ ⊆ ls then BlendFactor.readBoth ls else ((BlendFactor.read ls).1, dst)
  else if times ⟨0⟩ ⊆ ls then (src, (BlendFactor.read ls).1)
  else (src, dst)

/-- What a reader makes of a row. -/
def read (ls : List Instr) : Mix :=
  if .packed .pminub ⟨0⟩ ⟨0⟩ ∈ ls then .bytes .min
  else if .packed .pmaxub ⟨0⟩ ⟨0⟩ ∈ ls then .bytes .max
  else if .packed .psubusb ⟨0⟩ ⟨0⟩ ∈ ls then .bytes .absDiff
  else .factors ((BlendEquation.read ls).getD .add) (readFactors ls).1 (readFactors ls).2

/-- Factors stand beside equations that use them, and a color is not subtracted that
is nothing. -/
def proper : Mix → Bool
  | .bytes equation => !equation.usesFactors
  | .factors equation _ dst => equation.usesFactors && !(equation == .subtract && dst == .zero)

theorem read_sketch {m : Mix} (h : m.proper = true) : read m.sketch = m := by
  have hbytes : ∀ e : BlendEquation, (bytes e).proper = true → read (bytes e).sketch = bytes e := by
    decide +kernel
  have hfactors : ∀ (e : BlendEquation) (src dst : BlendFactor), (factors e src dst).proper = true →
      read (factors e src dst).sketch = factors e src dst := by decide +kernel
  cases m with
  | bytes e => exact hbytes e h
  | factors e src dst => exact hfactors e src dst h

theorem sketch_inj {m m' : Mix} (hm : m.proper = true) (hm' : m'.proper = true)
    (h : m.sketch = m'.sketch) : m = m' :=
  (read_sketch hm).symm.trans (h ▸ read_sketch hm')

end Mix

/-! ## Where rows begin -/

/-- The stage whose rows may begin with a line. -/
def X86.Instr.opens : Instr → Option Stage
  | .aluLoad _ _ _ m => some (if m = cell 0 then .depthTest else .depthRange)
  | .movdToReg .. => some .alphaTest
  | .movdLoad _ m =>
      if m = cell 0 then some .blend
      else if m = cell DrawState.fogColorAt then some .fog
      else none
  | .load .. => some .colorTest
  | .loadExt ext _ (.based _ d) =>
      if ext = .zeroWord then some .blend
      else if d = BitVec.ofNat 32 DrawState.alphaWriteMaskAt then some .writeStencil
      else some .stencilTest
  | .loadExt _ _ (.indexed ..) => some .dither
  | .aluImm op .. => if op = .cmp ∨ op = .xor then some .stencilTest else none
  | .alu .. | .movImm32 .. | .test .. => some .stencilTest
  | .store size .. => some (if size = .word then .writeDepth else .writeStencil)
  | .aluStoreImm .. => some .writeStencil
  | .jump _ | .ret => some .exit
  | _ => none

/-- The stage of a step.  A step that leaves is none of a test. -/
def Step.stage : Step → Stage
  | .checkRange => .depthRange
  | .checkAlpha .. => .alphaTest
  | .leave => .exit
  | .fog => .fog
  | .checkColor => .colorTest
  | .loadStencil _ | .checkStencil .. | .update _ => .stencilTest
  | .checkDepth _ => .depthTest
  | .storeStencil .. => .writeStencil
  | .storeDepth => .writeDepth
  | .blend .. => .blend
  | .dither => .dither

/-- Nothing, or rows: the first line is one that rows begin with. -/
def Led (ls : List Instr) : Prop := ∀ l, ls.head? = some l → l.opens.isSome = true

theorem PixelFormat.storesStencil_opens : ∀ (f : PixelFormat) (masked : Bool),
    (f.storesStencil masked).head?.bind Instr.opens = some .writeStencil := by decide +kernel

theorem Update.sketch_opens (loaded : Option PixelFormat) (u : Update) :
    (u.sketch loaded).head?.bind Instr.opens = some .stencilTest := by
  cases u with
  | stepUp => rw [sketch]; split <;> rfl
  | stepDown => rw [sketch]; split <;> rfl
  | _ => rfl

theorem Step.sketch_opens (loaded : Option PixelFormat) (s : Step) :
    (s.sketch loaded).head?.bind Instr.opens = some s.stage := by
  cases s with
  | loadStencil format => cases format <;> rfl
  | checkStencil func reference masked => cases masked <;> rfl
  | update u => exact u.sketch_opens loaded
  | storeStencil format masked => exact format.storesStencil_opens masked
  | blend format mix => cases format <;> rfl
  | _ => rfl

/-- No line of a blend is one that rows begin with. -/
theorem Mix.sketch_closed (m : Mix) : ∀ l ∈ m.sketch, l.opens = none := by
  have hbytes : ∀ e : BlendEquation, ∀ l ∈ (bytes e).sketch, l.opens = none := by decide +kernel
  have hfactors : ∀ (e : BlendEquation) (src dst : BlendFactor),
      ∀ l ∈ (factors e src dst).sketch, l.opens = none := by decide +kernel
  cases m with
  | bytes e => exact hbytes e
  | factors e src dst => exact hfactors e src dst

/-! ## Rows that go on

A row that goes on where another ends, and with a line that rows begin with, is that
other row. -/

theorem Led.eq_nil {t : List Instr} (ht : Led t) (hclosed : ∀ l ∈ t, l.opens = none) : t = [] := by
  cases t with
  | nil => rfl
  | cons l rest =>
    have := ht l rfl
    rw [hclosed l List.mem_cons_self] at this
    cases this

/-- What rows begin with can be followed by rows. -/
theorem Led.of_append {ls : List Instr} (t : List Instr) (h : Led (t ++ ls)) : Led t := by
  cases t with
  | nil => nofun
  | cons l rest => exact h

theorem Led.eq_nil_of_extends {a b t : List Instr} (ht : Led t) (ha : a ≠ [])
    (hclosed : ∀ l ∈ b.tail, l.opens = none) (h : b = a ++ t) : t = [] :=
  ht.eq_nil fun l hl => hclosed l (by
    rw [h, List.tail_append_of_ne_nil ha]
    exact List.mem_append_right _ hl)

theorem head?_extends {a b t : List Instr} (ha : a ≠ []) (h : b = a ++ t) : b.head? = a.head? := by
  rw [h, List.head?_append_of_ne_nil _ ha]

theorem word_inj {x y : BitVec 8} (h : x.setWidth 32 = y.setWidth 32) : x = y := by
  simpa using congrArg (BitVec.setWidth 8) h

theorem X86.Cond.invert_inj {c c' : Cond} (h : c.invert = c'.invert) : c = c' := by
  rw [← c.invert_invert, h, c'.invert_invert]

/-- A comparison with a constant, and a line in front of it if there is a mask. -/
theorem eq_of_check_extends {l : Instr} (hl : ∀ v, l ≠ .aluImm .cmp false .rax v)
    {masked masked' : Bool} {v v' : BitVec 32} {c c' : Cond} {t : List Instr}
    (h : (if masked' then [l] else []) ++ [.aluImm .cmp false .rax v', .jumpIf c' 0] =
      (if masked then [l] else []) ++ [.aluImm .cmp false .rax v, .jumpIf c 0] ++ t) :
    masked = masked' ∧ v = v' ∧ c = c' := by
  cases masked <;> cases masked'
  · simp only [Bool.false_eq_true, if_false, List.nil_append, List.cons_append, List.cons.injEq,
      Instr.aluImm.injEq, Instr.jumpIf.injEq] at h
    exact ⟨rfl, h.1.2.2.2.symm, h.2.1.1.symm⟩
  · exact absurd (List.cons.inj h).1 (hl v)
  · exact absurd (List.cons.inj h).1.symm (hl v')
  · simp only [if_true, List.cons_append, List.nil_append, List.cons.injEq, Instr.aluImm.injEq,
      Instr.jumpIf.injEq] at h
    exact ⟨rfl, h.2.1.2.2.2.symm, h.2.2.1.1.symm⟩

/-- An update is told by its first line. -/
theorem Update.eq_of_head {loaded : Option PixelFormat} {u u' : Update}
    (h : (u.sketch loaded).head? = (u'.sketch loaded).head?) : u = u' := by
  by_cases h4444 : loaded = some .rgba4444 <;> cases u <;> cases u' <;>
    simp [sketch, h4444] at h ⊢
  · exact word_inj h
  · exact word_inj h

namespace Update

variable (loaded : Option PixelFormat) (u : Update)

/-- Behind its first line an update has none that rows begin with. -/
theorem sketch_closed : ∀ l ∈ (u.sketch loaded).tail, l.opens = none := by
  cases u with
  | stepUp => rw [sketch]; split <;> decide
  | stepDown => rw [sketch]; split <;> decide
  | _ => exact fun _ hl => absurd hl List.not_mem_nil

theorem length_sketch : (u.sketch loaded).length ≠ 2 := by
  cases u with
  | stepUp => rw [sketch]; split <;> decide
  | stepDown => rw [sketch]; split <;> decide
  | _ => nofun

/-- An update reads no other byte of the register block than the reference. -/
theorem head_sketch_ne {offset : Nat} (h : cell offset ≠ cell DrawState.stencilRefAt)
    (ext : Extension) : (u.sketch loaded).head? ≠ some (.loadExt ext .rax (cell offset)) := by
  cases u with
  | stepUp => rw [sketch]; split <;> nofun
  | stepDown => rw [sketch]; split <;> nofun
  | reload => exact fun he => h (Instr.loadExt.inj (Option.some.inj he)).2.2.symm
  | _ => nofun

end Update

namespace Step

/-- The mix of a blend is proper. -/
def proper : Step → Bool
  | .blend _ mix => mix.proper
  | _ => true

variable {loaded : Option PixelFormat} {t : List Instr}

theorem sketch_ne_nil (s : Step) : s.sketch loaded ≠ [] := fun h => by
  have := s.sketch_opens loaded
  rw [h] at this
  cases this

/-- A check of the stencil and an update may begin alike, but not go on alike. -/
theorem check_ne_update {func : Comparing} {reference : BitVec 8} {masked : Bool} {u : Update}
    (ht : Led t) :
    u.sketch loaded ≠ (checkStencil func reference masked).sketch loaded ++ t ∧
      (checkStencil func reference masked).sketch loaded ≠ u.sketch loaded ++ t := by
  cases masked with
  | true =>
    have hmask : cell DrawState.stencilMaskAt ≠ cell DrawState.stencilRefAt := by decide
    have hhead := u.head_sketch_ne loaded hmask .zeroByte
    exact ⟨fun h => hhead (h ▸ rfl),
      fun h => hhead (head?_extends ((update u).sketch_ne_nil) h).symm⟩
  | false =>
    have hlength := u.length_sketch loaded
    refine ⟨fun h => ?_, fun h => ?_⟩
    · rw [ht.eq_nil_of_extends (List.cons_ne_nil _ _) (u.sketch_closed loaded) h] at h
      exact hlength (h ▸ rfl)
    · have hclosed : ∀ l ∈ ((checkStencil func reference false).sketch loaded).tail,
          l.opens = none := fun l hl => List.mem_singleton.mp hl ▸ rfl
      rw [ht.eq_nil_of_extends (update u).sketch_ne_nil hclosed h, List.append_nil] at h
      exact hlength (h ▸ rfl)

/-- Of the rows of the stencil test none goes on where another ends. -/
theorem eq_of_stencil_extends {s s' : Step} (hs : s.stage = .stencilTest)
    (hs' : s'.stage = .stencilTest) (ht : Led t) (h : s'.sketch loaded = s.sketch loaded ++ t) :
    s = s' := by
  have hhead := head?_extends s.sketch_ne_nil h
  have hload (format : PixelFormat) : ∀ offset ∈ [DrawState.stencilRefAt, DrawState.stencilMaskAt],
      cell (stencilByte format).1 ≠ cell offset := by cases format <;> decide
  cases s with
  | loadStencil format =>
    cases s' with
    | loadStencil format' =>
      exact congrArg loadStencil (PixelFormat.eq_of_loadsStencil (Option.some.inj hhead.symm))
    | checkStencil func' reference' masked' =>
      cases masked' with
      | true => exact absurd (Instr.loadExt.inj (Option.some.inj hhead)).2.2.symm (hload _ _ (by decide))
      | false => cases hhead
    | update u' => exact absurd hhead (u'.head_sketch_ne loaded (hload _ _ (by decide)) _)
    | _ => cases hs'
  | checkStencil func reference masked =>
    cases s' with
    | loadStencil format' =>
      cases masked with
      | true => exact absurd (Instr.loadExt.inj (Option.some.inj hhead)).2.2 (hload _ _ (by decide))
      | false => cases hhead
    | checkStencil func' reference' masked' =>
      obtain ⟨rfl, hv, hc⟩ := eq_of_check_extends (fun _ => Instr.noConfusion) h
      rw [word_inj hv, Comparing.mirrored_inj hc]
    | update u' => exact absurd h (check_ne_update ht).1
    | _ => cases hs'
  | update u =>
    cases s' with
    | loadStencil format' => exact absurd hhead.symm (u.head_sketch_ne loaded (hload _ _ (by decide)) _)
    | checkStencil func' reference' masked' => exact absurd h (check_ne_update ht).2
    | update u' => exact congrArg update (Update.eq_of_head hhead.symm)
    | _ => cases hs'
  | _ => cases hs

/-- A row that goes on where another ends is that other row. -/
theorem eq_of_extends {s s' : Step} (hs : s.proper = true) (hs' : s'.proper = true) (ht : Led t)
    (h : s'.sketch loaded = s.sketch loaded ++ t) : s = s' := by
  have hhead := head?_extends s.sketch_ne_nil h
  have hstage : s'.stage = s.stage := by
    have := congrArg (·.bind Instr.opens) hhead
    simp only [sketch_opens, Option.some.injEq] at this
    exact this
  cases s with
  | checkRange => cases s' <;> first | rfl | cases hstage
  | leave => cases s' <;> first | rfl | cases hstage
  | fog => cases s' <;> first | rfl | cases hstage
  | checkColor => cases s' <;> first | rfl | cases hstage
  | storeDepth => cases s' <;> first | rfl | cases hstage
  | dither => cases s' <;> first | rfl | cases hstage
  | loadStencil format => exact eq_of_stencil_extends rfl hstage ht h
  | checkStencil func reference masked => exact eq_of_stencil_extends rfl hstage ht h
  | update u => exact eq_of_stencil_extends rfl hstage ht h
  | checkAlpha func reference masked =>
    cases s' with
    | checkAlpha func' reference' masked' =>
      obtain ⟨rfl, hv, hc⟩ := eq_of_check_extends (fun _ => Instr.noConfusion) (List.cons.inj h).2
      rw [word_inj hv, Comparing.pass_inj (Cond.invert_inj hc)]
    | _ => cases hstage
  | checkDepth func =>
    cases s' with
    | checkDepth func' =>
      have hc := (Instr.jumpIf.inj (List.cons.inj (List.cons.inj h).2).1).1
      split at hc
      · rw [Comparing.pass_inj hc]
      · rw [Comparing.pass_inj (Cond.invert_inj hc)]
    | _ => cases hstage
  | storeStencil format masked =>
    cases s' with
    | storeStencil format' masked' =>
      obtain ⟨rfl, rfl⟩ := PixelFormat.eq_of_storesStencil_prefix ⟨t, h.symm⟩
      rfl
    | _ => cases hstage
  | blend format mix =>
    cases s' with
    | blend format' mix' =>
      have hpre : format.loads <+: format'.loads ++ mix'.sketch :=
        ⟨mix.sketch ++ t, (List.append_assoc _ _ _).symm.trans h.symm⟩
      obtain rfl : format = format' := by
        rcases List.prefix_or_prefix_of_prefix hpre (List.prefix_append _ _) with hp | hp
        · exact PixelFormat.eq_of_loads_prefix hp
        · exact (PixelFormat.eq_of_loads_prefix hp).symm
      have hmix : mix'.sketch = mix.sketch ++ t :=
        List.append_cancel_left (h.trans (List.append_assoc _ _ _))
      have hnil := ht.eq_nil fun l hl =>
        mix'.sketch_closed l (hmix ▸ List.mem_append_right _ hl)
      rw [hnil, List.append_nil] at hmix
      rw [Mix.sketch_inj hs hs' hmix.symm]
    | _ => cases hstage

/-- Rows that rows follow are told apart. -/
theorem eq_of_append_eq {s s' : Step} {ls ls' : List Instr} (hs : s.proper = true)
    (hs' : s'.proper = true) (hled : Led ls) (hled' : Led ls')
    (h : s.sketch loaded ++ ls = s'.sketch loaded ++ ls') : s = s' ∧ ls = ls' := by
  have hsame : s = s' := by
    rcases List.append_eq_append_iff.mp h with ⟨t, ht, rfl⟩ | ⟨t, ht, rfl⟩
    · exact eq_of_extends hs hs' (hled.of_append t) ht
    · exact (eq_of_extends hs' hs (hled'.of_append t) ht).symm
  subst hsame
  exact ⟨rfl, List.append_cancel_left h⟩

end Step

/-! ## Programs -/

namespace Finish

/-- All last steps. -/
def all : List Finish :=
  let flags := [false, true]
  .nothing :: (Named.members (α := PixelFormat)).flatMap fun format => flags.flatMap fun masked =>
    .clearStencil format masked ::
      flags.flatMap fun alpha => flags.map fun rasterOp => .write format masked alpha rasterOp

theorem mem_all (finish : Finish) : finish ∈ all := by
  cases finish with
  | write format masked alpha rasterOp =>
    cases format <;> cases masked <;> cases alpha <;> cases rasterOp <;> decide
  | clearStencil format masked => cases format <;> cases masked <;> decide
  | nothing => decide

/-- Alpha is written only by a clear, if the format has any, and it is not said of a
32-bit pixel under a mask. -/
def proper (loaded : Bool) : Finish → Bool
  | .write format masked alpha rasterOp =>
      !alpha || (!loaded && !rasterOp && format.hasStencil && !(format == .rgba8888 && masked))
  | _ => true

theorem sketch_inj {loaded : Bool} {finish finish' : Finish}
    (hf : finish.proper loaded = true) (hf' : finish'.proper loaded = true)
    (h : finish.sketch loaded = finish'.sketch loaded) : finish = finish' := by
  have hall : ∀ loaded : Bool, ∀ finish ∈ all, ∀ finish' ∈ all, finish.proper loaded = true →
      finish'.proper loaded = true → finish.sketch loaded = finish'.sketch loaded →
      finish = finish' := by decide +kernel
  exact hall loaded finish finish.mem_all finish' finish'.mem_all hf hf' h

theorem sketch_led (loaded : Bool) (finish : Finish) : Led (finish.sketch loaded) := by
  cases finish <;> exact fun l hl => Option.some.inj hl ▸ rfl

/-- Behind its first line the last step compares nothing. -/
theorem second_opens (loaded : Bool) (finish : Finish) {l : Instr}
    (hl : (finish.sketch loaded).tail.head? = some l) :
    l.opens ≠ some .stencilTest ∧ l.opens ≠ some .depthRange := by
  have hall : ∀ loaded : Bool, ∀ finish ∈ all, ∀ l ∈ (finish.sketch loaded).tail.head?,
      l.opens ≠ some .stencilTest ∧ l.opens ≠ some .depthRange := by decide +kernel
  exact hall loaded finish finish.mem_all l hl

/-- The last step begins with no row of another step. -/
theorem sketch_ne (loaded : Option PixelFormat) (finish : Finish) (s : Step) (ls : List Instr) :
    finish.sketch loaded.isSome ≠ s.sketch loaded ++ ls := by
  intro h
  have hhead := head?_extends s.sketch_ne_nil h
  have hstage := congrArg (·.bind Instr.opens) hhead
  simp only [Step.sketch_opens] at hstage
  cases s with
  | checkAlpha func reference masked =>
    cases masked with
    | true => exact (second_opens _ finish (congrArg (·.tail.head?) h)).2 rfl
    | false => exact (second_opens _ finish (congrArg (·.tail.head?) h)).1 rfl
  | leave => cases finish <;> cases hhead
  | _ => cases finish <;> cases hstage

end Finish

theorem sketches_led (loaded : Option PixelFormat) (finish : Finish) (ss : List Step) :
    Led (sketches loaded finish ss) := by
  cases ss with
  | nil => exact finish.sketch_led _
  | cons s rest =>
    intro l hl
    rw [sketches_cons, List.head?_append_of_ne_nil _ s.sketch_ne_nil] at hl
    have := s.sketch_opens loaded
    rw [hl] at this
    exact Option.isSome_iff_exists.mpr ⟨_, this⟩

/-- Programs with the same rows are the same. -/
theorem sketches_inj {finish finish' : Finish} {ss ss' : List Step} {loaded : Option PixelFormat}
    (hss : ∀ s ∈ ss, s.proper = true) (hss' : ∀ s ∈ ss', s.proper = true)
    (hf : finish.proper (loadedBy loaded ss).isSome = true)
    (hf' : finish'.proper (loadedBy loaded ss').isSome = true)
    (h : sketches loaded finish ss = sketches loaded finish' ss') : ss = ss' ∧ finish = finish' := by
  induction ss generalizing ss' loaded with
  | nil =>
    cases ss' with
    | nil => exact ⟨rfl, Finish.sketch_inj hf hf' h⟩
    | cons s' rest' => exact absurd (h.trans (sketches_cons ..)) (finish.sketch_ne _ _ _)
  | cons s rest ih =>
    cases ss' with
    | nil => exact absurd (h.symm.trans (sketches_cons ..)) (finish'.sketch_ne _ _ _)
    | cons s' rest' =>
      obtain ⟨rfl, hrest⟩ := Step.eq_of_append_eq (hss s List.mem_cons_self)
        (hss' s' List.mem_cons_self) (sketches_led _ _ _) (sketches_led _ _ _)
        ((sketches_cons ..).symm.trans (h.trans (sketches_cons ..)))
      obtain ⟨rfl, rfl⟩ := ih (fun s hs => hss s (List.mem_cons_of_mem _ hs))
        (fun s hs => hss' s (List.mem_cons_of_mem _ hs)) hf hf' hrest
      exact ⟨rfl, rfl⟩

end PixelPipeline
