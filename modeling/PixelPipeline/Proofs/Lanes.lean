/-
# Proofs.Lanes — what vectors show of a color

A working color is four integers (`Lanes.Shows`), in the four low lanes of a
vector or in its four low bytes.  The packed operations are described lane by
lane, and only their effect on those four lanes matters.
-/
import PixelPipeline.Proofs.Reference
import PixelPipeline.X86.Cpu

namespace PixelPipeline

open X86

namespace X86.Lanes

/-! ## Lane by lane -/

@[simp] theorem lane_ofFn (f : BitVec 3 → BitVec 16) (i : BitVec 3) : (ofFn f).lane i = f i := by
  unfold lane ofFn
  exact Vector.getElem_ofFn i.isLt

@[simp] theorem lane_zipWith (f : BitVec 16 → BitVec 16 → BitVec 16) (a b : Lanes) (i : BitVec 3) :
    lane (Vector.zipWith f a b) i = f (a.lane i) (b.lane i) :=
  Vector.getElem_zipWith i.isLt

@[simp] theorem lane_map (f : BitVec 16 → BitVec 16) (a : Lanes) (i : BitVec 3) :
    lane (Vector.map f a) i = f (a.lane i) :=
  Vector.getElem_map f i.isLt

@[simp] theorem lane_zero (i : BitVec 3) : zero.lane i = 0 :=
  Vector.getElem_replicate i.isLt

theorem ext_lane {a b : Lanes} (h : ∀ i, a.lane i = b.lane i) : a = b := by
  refine Vector.ext fun i hi => ?_
  have := h (BitVec.ofNat 3 i)
  unfold lane at this
  have hi' : (BitVec.ofNat 3 i).toFin = ⟨i, hi⟩ := by
    apply Fin.ext
    show (BitVec.ofNat 3 i).toNat = i
    rw [BitVec.toNat_ofNat]
    omega
  rwa [hi'] at this

@[simp] theorem packed_pxor_self (a : Lanes) : packed .pxor a a = zero :=
  ext_lane fun i => by rw [packed, lane_zipWith, lane_zero, BitVec.xor_self]; rfl

@[simp] theorem packed_movdqa (a b : Lanes) : packed .movdqa a b = b := rfl

@[simp] theorem byteAt_zero (i : BitVec 4) : zero.byteAt i = 0 := by
  unfold byteAt
  rw [lane_zero]
  split <;> rfl

/-! ## Colors -/

/-- A lane or a byte of a working color. -/
def channel (wide : Bool) (v : Lanes) (i : Fin 4) : Int :=
  if wide then (v.lane (.ofNat 3 i)).toInt else (v.byteAt (.ofNat 4 i)).toNat

/-- The vector shows four integers, in 16-bit lanes or in packed bytes. -/
def Shows (wide : Bool) (v : Lanes) (c : Fin 4 → Int) : Prop := ∀ i, channel wide v i = c i

theorem Shows.of_eq {wide : Bool} {v : Lanes} {c c' : Fin 4 → Int} (h : Shows wide v c)
    (hc : ∀ i, c i = c' i) : Shows wide v c' := fun i => (h i).trans (hc i)

/-- Four cases. -/
theorem four (i : Fin 4) : i = 0 ∨ i = 1 ∨ i = 2 ∨ i = 3 := by omega

/-- The bytes of a 32-bit value, and those of its two words. -/
theorem extractLsb'_of_words (v : BitVec 32) :
    v.extractLsb' 0 8 = low (v.extractLsb' 0 16) ∧ v.extractLsb' 8 8 = high (v.extractLsb' 0 16) ∧
      v.extractLsb' 16 8 = low (v.extractLsb' 16 16) ∧
      v.extractLsb' 24 8 = high (v.extractLsb' 16 16) := by
  refine ⟨?_, ?_, ?_, ?_⟩ <;>
    (apply BitVec.eq_of_getLsbD_eq
     intro j hj
     simp only [low, high, BitVec.getLsbD_extractLsb']
     grind)

/-- A color that is moved into a vector shows its channels. -/
theorem shows_ofWord32 (v : BitVec 32) : Shows false (ofWord32 v) fun i => channels v i := by
  obtain ⟨h₀, h₁, h₂, h₃⟩ := extractLsb'_of_words v
  intro i
  have hbyte : (ofWord32 v).byteAt (.ofNat 4 i) = v.extractLsb' (8 * i) 8 := by
    obtain rfl | rfl | rfl | rfl := four i
    · exact (congrArg low (lane_ofFn _ 0)).trans h₀.symm
    · exact (congrArg high (lane_ofFn _ 0)).trans h₁.symm
    · exact (congrArg low (lane_ofFn _ 1)).trans h₂.symm
    · exact (congrArg high (lane_ofFn _ 1)).trans h₃.symm
  rw [channel, if_neg Bool.false_ne_true, hbyte]
  rfl

/-- A packed color is the one its bytes make. -/
theorem Shows.toWord32 {v : Lanes} {c : Fin 4 → Int} (h : Shows false v c) :
    v.toWord32 = PixelPipeline.packColor (c 0) (c 1) (c 2) (c 3) := by
  have clamp (b : BitVec 8) : clampByte b.toNat = b.setWidth 32 := by
    have := b.isLt
    unfold clampByte
    rw [show max (0 : Int) (min b.toNat 255) = b.toNat by omega]
    apply BitVec.eq_of_toNat_eq
    rw [BitVec.toNat_setWidth, BitVec.ofInt_natCast, BitVec.toNat_ofNat]
  have h₀ : c 0 = (low (v.lane 0)).toNat := (h 0).symm
  have h₁ : c 1 = (high (v.lane 0)).toNat := (h 1).symm
  have h₂ : c 2 = (low (v.lane 1)).toNat := (h 2).symm
  have h₃ : c 3 = (high (v.lane 1)).toNat := (h 3).symm
  rw [PixelPipeline.packColor, h₀, h₁, h₂, h₃, clamp, clamp, clamp, clamp, Lanes.toWord32]
  generalize v.lane 0 = a
  generalize v.lane 1 = b
  apply BitVec.eq_of_getLsbD_eq
  intro j hj
  simp only [low, high, BitVec.getLsbD_append, BitVec.getLsbD_or, BitVec.getLsbD_shiftLeft,
    BitVec.getLsbD_setWidth, BitVec.getLsbD_extractLsb']
  grind

/-- An integer cut to a byte. -/
def clamp (x : Int) : Int := max 0 (min x 255)

theorem clamp_of_lt {n : Nat} (h : n < 256) : clamp n = n := by
  unfold clamp
  omega

theorem toNat_toByteSat (v : BitVec 16) : ((toByteSat v).toNat : Int) = clamp v.toInt := by
  unfold toByteSat clamp
  have hv := v.isLt
  rw [BitVec.toInt_eq_msb_cond]
  split
  · rename_i h
    have hz : ((0 : BitVec 8).toNat : Int) = 0 := rfl
    rw [hz]
    omega
  · split
    · rename_i h
      have : (0xFF : BitVec 16).toNat < v.toNat := by simpa [BitVec.ult] using h
      have h255 : ((0xFF : BitVec 8).toNat : Int) = 255 := rfl
      have h255' : (0xFF : BitVec 16).toNat = 255 := rfl
      rw [h255]
      omega
    · rename_i h
      have : ¬(0xFF : BitVec 16).toNat < v.toNat := by simpa [BitVec.ult] using h
      have h255' : (0xFF : BitVec 16).toNat = 255 := rfl
      rw [low, BitVec.extractLsb'_toNat, Nat.shiftRight_zero]
      omega

/-- Packing saturates. -/
theorem Shows.pack {v : Lanes} {c : Fin 4 → Int} (h : Shows true v c) :
    Shows false (packed .packuswb v v) fun i => clamp (c i) := by
  have byte (i : BitVec 3) : low (toByteSat (v.lane (i + 1)) ++ toByteSat (v.lane i)) =
      toByteSat (v.lane i) ∧ high (toByteSat (v.lane (i + 1)) ++ toByteSat (v.lane i)) =
        toByteSat (v.lane (i + 1)) := by
    constructor <;>
      (apply BitVec.eq_of_getLsbD_eq
       intro j hj
       simp only [low, high, BitVec.getLsbD_extractLsb', BitVec.getLsbD_append]
       grind)
  have word (i : BitVec 3) (hi : i.getLsbD 2 = false) : (packed .packuswb v v).lane i =
      toByteSat (v.lane ((i <<< 1 : BitVec 3) + 1)) ++ toByteSat (v.lane (i <<< 1 : BitVec 3)) := by
    rw [packed, lane_ofFn, hi]
    rfl
  have hbyte (i : Fin 4) : (packed .packuswb v v).byteAt (.ofNat 4 i) =
      toByteSat (v.lane (.ofNat 3 i)) := by
    obtain rfl | rfl | rfl | rfl := four i
    · exact (congrArg low (word 0 rfl)).trans (byte 0).1
    · exact (congrArg high (word 0 rfl)).trans (byte 0).2
    · exact (congrArg low (word 1 rfl)).trans (byte 2).1
    · exact (congrArg high (word 1 rfl)).trans (byte 2).2
  intro i
  rw [channel, if_neg Bool.false_ne_true, hbyte, toNat_toByteSat]
  exact congrArg clamp (h i)

/-- A byte as a word. -/
theorem toInt_zero_append (b : BitVec 8) : ((0 : BitVec 8) ++ b).toInt = b.toNat := by
  have := b.isLt
  rw [BitVec.toInt_eq_toNat_cond, BitVec.toNat_append]
  simp
  omega

/-- Widening by zeros. -/
theorem Shows.widen {v : Lanes} {c : Fin 4 → Int} (h : Shows false v c) :
    Shows true (packed .punpcklbw v zero) c := by
  intro i
  have hi : (BitVec.ofNat 3 i).setWidth 4 = BitVec.ofNat 4 i := by
    obtain rfl | rfl | rfl | rfl := four i <;> rfl
  rw [channel, if_pos rfl, packed, lane_ofFn, byteAt_zero, hi, toInt_zero_append, ← h i]
  rfl

/-- A lane is a signed word. -/
theorem Shows.range {v : Lanes} {c : Fin 4 → Int} (h : Shows true v c) (i : Fin 4) :
    -32768 ≤ c i ∧ c i < 32768 := by
  have hi : (v.lane (.ofNat 3 i)).toInt = c i := h i
  have hle := BitVec.le_toInt (v.lane (.ofNat 3 i))
  have hlt := BitVec.toInt_lt (x := v.lane (.ofNat 3 i))
  rw [hi] at hle hlt
  exact ⟨hle, hlt⟩

/-- A sum that fits is not cut. -/
theorem Shows.addSat {a b : Lanes} {c d : Fin 4 → Int} (ha : Shows true a c) (hb : Shows true b d)
    (i : Fin 4) (hle : -32768 ≤ c i + d i) (hlt : c i + d i < 32768) :
    channel true (packed .paddsw a b) i = c i + d i := by
  have ha : (a.lane (.ofNat 3 i)).toInt = c i := ha i
  have hb : (b.lane (.ofNat 3 i)).toInt = d i := hb i
  rw [channel, if_pos rfl, packed, lane_zipWith, addSignedSat, ha, hb, if_neg (by omega),
    if_neg (by omega), BitVec.toInt_add, ha, hb]
  exact Int.bmod_eq_of_le hle hlt

/-- A sign-extended byte in the first three lanes. -/
theorem shows_bias (b : BitVec 8) :
    Shows true ((ofWord32 (b.signExtend 32 &&& 0xFFFF)).shuffleLow 0x40)
      fun i => if i = 3 then 0 else b.toInt := by
  have hmask : (b.signExtend 32 &&& 0xFFFF).toNat = (b.signExtend 32).toNat % 65536 := by
    rw [BitVec.toNat_and]
    exact Nat.and_two_pow_sub_one_eq_mod _ 16
  have h₀ : (ofWord32 (b.signExtend 32 &&& 0xFFFF)).lane 0 = b.signExtend 16 := by
    refine (lane_ofFn _ 0).trans ?_
    have hlow : (b.signExtend 32).extractLsb' 0 16 = b.signExtend 16 := by
      apply BitVec.eq_of_getLsbD_eq
      intro i hi
      simp only [BitVec.getLsbD_extractLsb', BitVec.getLsbD_signExtend]
      grind
    rw [if_pos rfl, ← hlow]
    apply BitVec.eq_of_toNat_eq
    rw [BitVec.extractLsb'_toNat, BitVec.extractLsb'_toNat, hmask]
    omega
  have h₁ : (ofWord32 (b.signExtend 32 &&& 0xFFFF)).lane 1 = 0 := by
    refine (lane_ofFn _ 1).trans (BitVec.eq_of_toNat_eq ?_)
    rw [if_neg (by decide), if_pos rfl, BitVec.extractLsb'_toNat, hmask]
    rw [Nat.shiftRight_eq_div_pow, show BitVec.toNat (0 : BitVec 16) = 0 from rfl]
    omega
  have hb : (b.signExtend 16).toInt = b.toInt := BitVec.toInt_signExtend_of_le (by decide)
  have first : ((ofWord32 (b.signExtend 32 &&& 0xFFFF)).lane 0).toInt = b.toInt := by rw [h₀, hb]
  intro i
  show _ = if i = 3 then 0 else b.toInt
  rw [channel, if_pos rfl, shuffleLow, lane_ofFn]
  obtain rfl | rfl | rfl | rfl := four i
  · rw [if_neg (by decide), if_neg (by decide)]
    exact first
  · rw [if_neg (by decide), if_neg (by decide)]
    exact first
  · rw [if_neg (by decide), if_neg (by decide)]
    exact first
  · rw [if_neg (by decide), if_pos rfl]
    exact congrArg BitVec.toInt h₁

/-! ## Unsigned lanes -/

/-- The four low lanes as unsigned words. -/
def Has (v : Lanes) (c : Fin 4 → Nat) : Prop := ∀ i : Fin 4, (v.lane (.ofNat 3 i)).toNat = c i

theorem Has.of_eq {v : Lanes} {c c' : Fin 4 → Nat} (h : Has v c) (hc : ∀ i, c i = c' i) :
    Has v c' := fun i => (h i).trans (hc i)

theorem Has.lt {v : Lanes} {c : Fin 4 → Nat} (h : Has v c) (i : Fin 4) : c i < 65536 :=
  h i ▸ (v.lane _).isLt

/-- Lanes that are not negative may be taken as unsigned. -/
theorem Shows.has {v : Lanes} {c : Fin 4 → Nat} (h : Shows true v fun i => c i) : Has v c := by
  intro i
  have hi : channel true v i = (c i : Int) := h i
  rw [channel, if_pos rfl, BitVec.toInt_eq_toNat_cond] at hi
  have := (v.lane (.ofNat 3 i)).isLt
  split at hi <;> omega

theorem Has.shows {v : Lanes} {c : Fin 4 → Nat} (h : Has v c) (hc : ∀ i, c i < 32768) :
    Shows true v fun i => c i := by
  intro i
  have hi := h i
  have := hc i
  show channel true v i = (c i : Int)
  rw [channel, if_pos rfl, BitVec.toInt_eq_toNat_cond, hi]
  split <;> omega

variable {a b : Lanes} {c d : Fin 4 → Nat}

theorem Has.mul (ha : Has a c) (hb : Has b d) (hlt : ∀ i, c i * d i < 65536) :
    Has (packed .pmullw a b) fun i => c i * d i := by
  intro i
  rw [packed, lane_zipWith, BitVec.toNat_mul, ha i, hb i, Nat.mod_eq_of_lt (hlt i)]

theorem toNat_subSat {w : Nat} (x y : BitVec w) :
    (Lanes.subSat x y).toNat = x.toNat - y.toNat := by
  unfold Lanes.subSat
  split
  · rename_i h
    rw [BitVec.ult, decide_eq_true_eq] at h
    show 0 % 2 ^ w = _
    rw [Nat.zero_mod]
    omega
  · rename_i h
    rw [BitVec.ult, decide_eq_true_eq] at h
    rw [BitVec.toNat_sub_of_le (by rw [BitVec.le_def]; omega)]

theorem Has.subSat (ha : Has a c) (hb : Has b d) :
    Has (packed .psubusw a b) fun i => c i - d i := by
  intro i
  rw [packed, lane_zipWith, toNat_subSat, ha i, hb i]

theorem Has.addSat (ha : Has a c) (hb : Has b d) (hlt : ∀ i, c i + d i < 65536) :
    Has (packed .paddusw a b) fun i => c i + d i := by
  intro i
  have hi := hlt i
  have hsum : (a.lane (.ofNat 3 i) + b.lane (.ofNat 3 i)).toNat = c i + d i := by
    rw [BitVec.toNat_add, ha i, hb i, Nat.mod_eq_of_lt hi]
  rw [packed, lane_zipWith, Lanes.addSat, if_neg, hsum]
  rw [BitVec.ult, decide_eq_true_eq, hsum, ha i]
  omega

theorem Has.mulHigh (ha : Has a c) (hb : Has b d) :
    Has (packed .pmulhuw a b) fun i => c i * d i / 65536 := by
  intro i
  have hc := ha.lt i
  have hd := hb.lt i
  have hprod : c i * d i < 65536 * 65536 := Nat.mul_lt_mul'' hc hd
  show _ = c i * d i / 65536
  rw [packed, lane_zipWith, Lanes.mulHigh, BitVec.extractLsb'_toNat, BitVec.toNat_mul,
    BitVec.toNat_setWidth, BitVec.toNat_setWidth, ha i, hb i, Nat.mod_eq_of_lt (a := c i) (by omega),
    Nat.mod_eq_of_lt (a := d i) (by omega), Nat.mod_eq_of_lt (by omega), Nat.shiftRight_eq_div_pow,
    Nat.mod_eq_of_lt (by omega)]

theorem Has.or (ha : Has a c) (hb : Has b d) : Has (packed .por a b) fun i => c i ||| d i := by
  intro i
  rw [packed, lane_zipWith, BitVec.toNat_or, ha i, hb i]

theorem Has.shiftRight (ha : Has a c) (n : BitVec 8) :
    Has (shift .srl a n) fun i => c i >>> n.toNat := by
  intro i
  rw [shift, lane_map, BitVec.toNat_ushiftRight, ha i]

theorem Has.shiftLeft (ha : Has a c) {n : BitVec 8} (hlt : ∀ i, c i <<< n.toNat < 65536) :
    Has (shift .sll a n) fun i => c i <<< n.toNat := by
  intro i
  rw [shift, lane_map, BitVec.toNat_shiftLeft, ha i, Nat.mod_eq_of_lt (hlt i)]

/-- One lane in place of all four. -/
theorem Has.spread (ha : Has a c) : Has (a.shuffleLow 0xFF) fun _ => c 3 := by
  intro i
  obtain rfl | rfl | rfl | rfl := four i <;> exact (congrArg _ (lane_ofFn _ _)).trans (ha 3)

theorem has_spreadFirst (w : BitVec 32) :
    Has ((ofWord32 w).shuffleLow 0) fun _ => (w.extractLsb' 0 16).toNat := by
  have h : (ofWord32 w).lane 0 = w.extractLsb' 0 16 := lane_ofFn _ 0
  intro i
  show _ = (w.extractLsb' 0 16).toNat
  obtain rfl | rfl | rfl | rfl := four i <;> exact congrArg _ ((lane_ofFn _ _).trans h)

theorem has_zero : Has zero fun _ => 0 := fun i => by rw [lane_zero]; rfl

/-- Bytes widened by zeros. -/
theorem Shows.has_widen {v : Lanes} (h : Shows false v fun i => c i) :
    Has (packed .punpcklbw v zero) c := h.widen.has

/-- A lane replaced. -/
theorem Has.insertLast (ha : Has a c) {w : BitVec 16} {n : Nat} (hw : w.toNat = n) :
    Has (a.insertLane 3 w) fun i => if i = 3 then n else c i := by
  intro i
  rw [insertLane, lane_ofFn]
  obtain rfl | rfl | rfl | rfl := four i
  · exact ha 0
  · exact ha 1
  · exact ha 2
  · exact hw

/-! ## Packed bytes -/

theorem byteAt_bytewise (f : BitVec 8 → BitVec 8 → BitVec 8) (a b : Lanes) (i : BitVec 4) :
    byteAt (Vector.zipWith (bytewise f) a b) i = f (a.byteAt i) (b.byteAt i) := by
  have halves (x y : BitVec 8) : high (x ++ y) = x ∧ low (x ++ y) = y := by
    constructor <;>
      (apply BitVec.eq_of_getLsbD_eq
       intro j hj
       simp only [low, high, BitVec.getLsbD_extractLsb', BitVec.getLsbD_append]
       grind)
  unfold byteAt
  rw [lane_zipWith, bytewise]
  split
  · exact (halves _ _).1
  · exact (halves _ _).2

/-- An operation on bytes, where its effect on them is known. -/
theorem Shows.bytewise {f : BitVec 8 → BitVec 8 → BitVec 8} {g : Nat → Nat → Nat}
    (hf : ∀ x y, (f x y).toNat = g x.toNat y.toNat) (ha : Shows false a fun i => c i)
    (hb : Shows false b fun i => d i) :
    Shows false (Vector.zipWith (Lanes.bytewise f) a b) fun i => g (c i) (d i) := by
  intro i
  have hc : (a.byteAt (.ofNat 4 i)).toNat = c i := Int.ofNat_inj.mp (ha i)
  have hd : (b.byteAt (.ofNat 4 i)).toNat = d i := Int.ofNat_inj.mp (hb i)
  rw [channel, if_neg Bool.false_ne_true, byteAt_bytewise, hf, hc, hd]

theorem Shows.minBytes (ha : Shows false a fun i => c i) (hb : Shows false b fun i => d i) :
    Shows false (packed .pminub a b) fun i => (Nat.min (c i) (d i) : Nat) :=
  ha.bytewise (g := Nat.min) (fun x y => by
    show _ = min x.toNat y.toNat
    split <;> rename_i h <;> rw [BitVec.ult, decide_eq_true_eq] at h <;> omega) hb

theorem Shows.maxBytes (ha : Shows false a fun i => c i) (hb : Shows false b fun i => d i) :
    Shows false (packed .pmaxub a b) fun i => (Nat.max (c i) (d i) : Nat) :=
  ha.bytewise (g := Nat.max) (fun x y => by
    show _ = max x.toNat y.toNat
    split <;> rename_i h <;> rw [BitVec.ult, decide_eq_true_eq] at h <;> omega) hb

/-- Two differences cut at zero, of which one is zero, make the absolute one. -/
theorem Shows.absDiffBytes (ha : Shows false a fun i => c i) (hb : Shows false b fun i => d i) :
    Shows false (packed .por (packed .psubusb a b) (packed .psubusb b a))
      fun i => ((c i - d i) + (d i - c i) : Nat) := by
  have hsub := ha.bytewise toNat_subSat hb
  have hsub' := hb.bytewise toNat_subSat ha
  intro i
  have hi : (byteAt (packed .psubusb a b) (.ofNat 4 i)).toNat = c i - d i :=
    Int.ofNat_inj.mp (hsub i)
  have hi' : (byteAt (packed .psubusb b a) (.ofNat 4 i)).toNat = d i - c i :=
    Int.ofNat_inj.mp (hsub' i)
  have hor (x y : Lanes) : byteAt (packed .por x y) (.ofNat 4 i) =
      x.byteAt (.ofNat 4 i) ||| y.byteAt (.ofNat 4 i) := by
    unfold byteAt
    rw [packed, lane_zipWith]
    split
    · exact BitVec.extractLsb'_or
    · exact BitVec.extractLsb'_or
  show _ = ((c i - d i + (d i - c i) : Nat) : Int)
  rw [channel, if_neg Bool.false_ne_true, hor, BitVec.toNat_or, hi, hi']
  rcases Nat.le_total (c i) (d i) with h | h
  · rw [Nat.sub_eq_zero_of_le h, Nat.zero_or, Nat.zero_add]
  · rw [Nat.sub_eq_zero_of_le h, Nat.or_zero, Nat.add_zero]

end X86.Lanes

end PixelPipeline
