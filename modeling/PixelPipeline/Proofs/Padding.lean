/-
# Proofs.Padding — what padding is, and where it ends

A reader of padding finds instructions that do nothing, as few as there can be, and
then whatever follows (`decodes_bytes`).  Padding that fits is written like one piece
(`emit_eq`), so nothing else in the buffer changes.  Padding to a multiple of a power
of two ends at the first one there is (`distance_spec`).
-/
import Mathlib.Algebra.Group.Nat.Defs
import PixelPipeline.Code.Padding
import PixelPipeline.Proofs.Fixups
import PixelPipeline.X86.Decoding

namespace PixelPipeline

open X86

/-- Bytes give instructions one after another, and then others are left. -/
inductive X86.Decodes : List Byte → List Instr → List Byte → Prop
  | nil (bs : List Byte) : Decodes bs [] bs
  | cons {bs behind rest : List Byte} {i : Instr} {is : List Instr}
      (hi : decode bs = some (i, behind)) (h : Decodes behind is rest) : Decodes bs (i :: is) rest

/-! ## Bytes that a piece leaves alone -/

namespace CodeBuffer

variable {b : CodeBuffer}

/-- A piece changes the bytes that it takes and no others. -/
theorem byteAt_emit {b' : CodeBuffer} {piece : List Byte} (h : emit piece b = .ok () b') {i : Nat}
    (hi : i < b.offset ∨ b'.offset ≤ i) : b'.byteAt i = b.byteAt i := by
  by_cases hfits : b.offset + piece.length ≤ b.capacity
  · rw [emit_ok hfits] at h
    cases h
    rw [extended_offset] at hi
    rw [byteAt_extended, if_neg (by omega)]
  · rw [emit_full hfits] at h
    cases h

end CodeBuffer

namespace Padding

/-! ## Instructions that do nothing -/

/-- A unit of padding is one instruction that does nothing. -/
theorem decode_unit {n : Nat} (hn : n ≠ 0) (rest : List Byte) :
    decode ((unit n).flatten ++ rest) = some (.nop, rest) := by
  match n, hn with
  | 1, _ | 2, _ => rfl
  -- behind the escape the operand byte says how many bytes there are
  | 3, _ | 4, _ | 5, _ | 7, _ | _ + 8, _ =>
    show Decoding.secondMap {} 0x1F _ = _
    rfl
  | 6, _ =>
    show Decoding.vectorMap { data16 := true } 0x1F _ = _
    rfl

/-- Padding is read as instructions that do nothing, as few of them as there can be. -/
theorem decodes_bytes (n : Nat) (rest : List Byte) :
    Decodes (bytes n ++ rest) (List.replicate ((n + 7) / 8) .nop) rest := by
  induction n using bytes.induct with
  | case1 =>
    rw [bytes, if_pos rfl]
    exact .nil rest
  | case2 n hn ih =>
    have hcount : (n + 7) / 8 = (n - min n 8 + 7) / 8 + 1 := by omega
    rw [bytes, if_neg hn, List.append_assoc, hcount, List.replicate_succ]
    exact .cons (decode_unit hn _) ih

/-! ## Writing padding -/

/-- Padding that fits is written like one piece. -/
theorem emit_eq {n : Nat} {b : CodeBuffer} (h : b.offset + n ≤ b.capacity) :
    emit n b = CodeBuffer.emit (bytes n) b := by
  induction n using bytes.induct generalizing b with
  | case1 =>
    rw [emit, if_pos rfl, bytes, if_pos rfl]
    exact Eq.symm (CodeBuffer.emit_ok h)
  | case2 n hn ih =>
    have hall : ((unit n).flatten ++ bytes (n - min n 8)).length = n := by
      rw [List.length_append, length_unit, length_bytes]
      omega
    have hlen := length_unit n
    have hunit : b.offset + (unit n).flatten.length ≤ b.capacity := by omega
    rw [emit, if_neg hn, bytes, if_neg hn, ← CodeBuffer.emit_append (by rw [hall]; exact h)]
    show EStateM.bind (CodeBuffer.emitAll (unit n)) (fun _ => emit (n - min n 8)) b = _
    rw [EStateM.bind, EStateM.bind, CodeBuffer.emitAll_eq hunit, CodeBuffer.emit_ok hunit]
    exact ih (b := b.extended (unit n).flatten hunit) (by
      rw [CodeBuffer.extended_offset, CodeBuffer.extended_capacity]
      omega)

/-- The second buffer holds `n` bytes of padding more than the first, and is the first
but for them. -/
structure Padded (b : CodeBuffer) (n : Nat) (b' : CodeBuffer) : Prop where
  offset : b'.offset = b.offset + n
  capacity : b'.capacity = b.capacity
  elsewhere : ∀ i, i < b.offset ∨ b'.offset ≤ i → b'.byteAt i = b.byteAt i
  decodes : ∀ rest,
    Decodes (b'.bytesAt b.offset n ++ rest) (List.replicate ((n + 7) / 8) .nop) rest

/-- Padding that fits is written. -/
theorem exists_padded {n : Nat} {b : CodeBuffer} (h : b.offset + n ≤ b.capacity) :
    ∃ b', emit n b = .ok () b' ∧ Padded b n b' := by
  have hfits : b.offset + (bytes n).length ≤ b.capacity := by rwa [length_bytes]
  obtain ⟨b', hok, happ⟩ := CodeBuffer.emit_appends hfits
  have hbytes : b'.bytesAt b.offset n = bytes n := by
    have hat := CodeBuffer.bytesAt_of_byteAt happ.bytes
    rwa [length_bytes] at hat
  refine ⟨b', (emit_eq h).trans hok, ?_, happ.capacity, fun i => CodeBuffer.byteAt_emit hok, ?_⟩
  · rw [happ.offset, length_bytes]
  · intro rest
    rw [hbytes]
    exact decodes_bytes n rest

/-! ## Multiples -/

/-- What is missing to a multiple, below the divisor. -/
theorem sub_mod_eq {a q r : Nat} (hr : r < a * q) : (a * q - r) % a = (a - r % a) % a := by
  have hle : a * (r / a) + a ≤ a * q := Nat.mul_le_mul_left a (Nat.div_lt_of_lt_mul hr)
  have hdiv := Nat.div_add_mod r a
  have ha : 0 < a := Nat.pos_of_mul_pos_right (Nat.zero_lt_of_lt hr)
  have hmod : r % a ≤ a := Nat.le_of_lt (Nat.mod_lt r ha)
  have hsplit : a * q - r = a * (q - (r / a + 1)) + (a - r % a) := by
    rw [Nat.mul_sub, Nat.mul_add, Nat.mul_one]
    omega
  rw [hsplit, Nat.mul_add_mod]

/-- The bits below a power of two, of the offset's complement, are what is missing to the next
multiple. -/
theorem distance_eq {k align : Nat} (halign : align = 2 ^ k) (hk : k < 64) (n : Nat) :
    distance n align = (align - n % align) % align := by
  obtain ⟨q, hq⟩ : align ∣ 2 ^ 64 := halign ▸ Nat.pow_dvd_pow 2 (Nat.le_of_lt hk)
  have hlt : align < 2 ^ 64 := halign ▸ Nat.pow_lt_pow_right (by decide) hk
  have hmask : (BitVec.ofNat 64 align - 1).toNat = 2 ^ k - 1 := by
    have hpos : 0 < align := halign ▸ Nat.two_pow_pos k
    rw [BitVec.toNat_sub, BitVec.toNat_ofNat, Nat.mod_eq_of_lt hlt, ← halign]
    show (2 ^ 64 - 1 + align) % 2 ^ 64 = align - 1
    omega
  have hr : n % 2 ^ 64 < align * q := hq ▸ Nat.mod_lt n (Nat.two_pow_pos 64)
  rw [distance, BitVec.toNat_and, hmask, Nat.and_two_pow_sub_one_eq_mod, ← halign,
    BitVec.toNat_neg, BitVec.toNat_ofNat, Nat.mod_mod_of_dvd _ ⟨q, hq⟩]
  calc (2 ^ 64 - n % 2 ^ 64) % align
      = (align * q - n % 2 ^ 64) % align := by rw [← hq]
    _ = (align - n % 2 ^ 64 % align) % align := sub_mod_eq hr
    _ = (align - n % align) % align := by rw [Nat.mod_mod_of_dvd n ⟨q, hq⟩]

/-- Padding to a multiple of a power of two ends at the first one there is. -/
theorem distance_spec {k align : Nat} (halign : align = 2 ^ k) (hk : k < 64) (n : Nat) :
    distance n align < align ∧ align ∣ n + distance n align ∧
      ∀ m, n ≤ m → align ∣ m → n + distance n align ≤ m := by
  have hpos : 0 < align := halign ▸ Nat.two_pow_pos k
  have hlt : distance n align < align := distance_eq halign hk n ▸ Nat.mod_lt _ hpos
  have hdvd : align ∣ n + distance n align := by
    have hmod := Nat.le_of_lt (Nat.mod_lt n hpos)
    have hsum : n + (align - n % align) = align * (n / align) + align := by
      have := Nat.div_add_mod n align
      omega
    rw [distance_eq halign hk n, Nat.dvd_iff_mod_eq_zero, Nat.add_mod_mod, hsum,
      Nat.mul_add_mod, Nat.mod_self]
  refine ⟨hlt, hdvd, fun m hm hdvd' => Nat.le_of_not_lt fun hbefore => ?_⟩
  -- the multiple would lie less than one step in front of this one
  have hstep := Nat.le_of_dvd (by omega) (Nat.dvd_sub hdvd hdvd')
  omega

/-! ## The whole -/

/-- Where `n` bytes are left, `n` bytes of padding are appended and nothing else changes,
and they are read as ⌈n / 8⌉ instructions that do nothing, behind which the reader finds
what follows.  Padding to a multiple of a power of two, of those that a word holds, leads
to the first one at or behind the offset, if one is in the buffer, over fewer bytes than that
power, and they are padding too. -/
theorem pads_exactly (b : CodeBuffer) :
    (∀ n, n ≤ b.remaining → ∃ b', emit n b = .ok () b' ∧ Padded b n b') ∧
    ∀ k, k < 64 → (∃ m, b.offset ≤ m ∧ m ≤ b.capacity ∧ 2 ^ k ∣ m) →
      ∃ b', emitAlign (2 ^ k) b = .ok () b' ∧
        (2 ^ k ∣ b'.offset ∧ b.offset ≤ b'.offset ∧
          ∀ m, b.offset ≤ m → 2 ^ k ∣ m → b'.offset ≤ m) ∧
        b'.offset - b.offset < 2 ^ k ∧ Padded b (b'.offset - b.offset) b' := by
  have hle := b.offset_le
  refine ⟨fun n hn => exists_padded ?_, fun k hk hroom => ?_⟩
  · unfold CodeBuffer.remaining at hn
    omega
  · obtain ⟨m, hm, hcapacity, hdvd⟩ := hroom
    obtain ⟨hlt, hnext, hfirst⟩ := distance_spec rfl hk b.offset
    obtain ⟨b', hok, hpadded⟩ := exists_padded (Nat.le_trans (hfirst m hm hdvd) hcapacity)
    have hoffset := hpadded.offset
    have hdistance : b'.offset - b.offset = distance b.offset (2 ^ k) := by omega
    refine ⟨b', ?_, ⟨hoffset ▸ hnext, by omega, hoffset ▸ hfirst⟩, by omega, hdistance ▸ hpadded⟩
    show (if 2 ^ k = 0 then _ else _ : CodeBuffer.Action Unit) b = _
    rw [if_neg (Nat.pos_iff_ne_zero.mp (Nat.two_pow_pos k))]
    exact hok

/-- Behind five bytes of code: twenty bytes of padding, and eleven up to a multiple of
sixteen. -/
theorem pads_exactly_behind :
    let b : CodeBuffer := ⟨64, 5, #[0x90, 0x90, 0x90, 0x90, 0xC3], by decide, by decide⟩
    (20 ≤ b.remaining ∧ ∃ b', emit 20 b = .ok () b' ∧ Padded b 20 b') ∧
      (∃ m, b.offset ≤ m ∧ m ≤ b.capacity ∧ 2 ^ 4 ∣ m) ∧
      ∃ b', emitAlign (2 ^ 4) b = .ok () b' ∧ b'.offset = 16 ∧ Padded b 11 b' := by
  intro b
  obtain ⟨hpads, haligns⟩ := pads_exactly b
  have hroom : 20 ≤ b.remaining := by decide
  have hmultiple : ∃ m, b.offset ≤ m ∧ m ≤ b.capacity ∧ 2 ^ 4 ∣ m :=
    ⟨16, by decide, by decide, by decide⟩
  obtain ⟨b', hok, ⟨hdvd, hle, hfirst⟩, -, hpadded⟩ := haligns 4 (by decide) hmultiple
  have hoffset : b'.offset = 16 := by
    have hlower : 5 ≤ b'.offset := hle
    have hupper : b'.offset ≤ 16 := hfirst 16 (by decide) (by decide)
    change 16 ∣ b'.offset at hdvd
    omega
  rw [hoffset] at hpadded
  exact ⟨⟨hroom, hpads 20 hroom⟩, hmultiple, b', hok, hoffset, hpadded⟩

end Padding

end PixelPipeline
