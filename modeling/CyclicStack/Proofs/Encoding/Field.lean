import CyclicStack.Proofs.Encoding.Bits
import CyclicStack.Proofs.Outcome

/-!
# Fields as positions of bits

A field of a cell is a set of positions in the row of bits of the cell, one for each bit
of the value.  This file gives the position of each bit and shows what reading and
writing a field do to the row: reading takes the bits at the positions, and writing
replaces these bits and no others.
-/

namespace CyclicStack

namespace Encoding

/-! ## Registers -/

/-- Where bit `i` of a value lies within its field.  Registers in reverse order are
counted from the far end of the field. -/
def register (e : Encoding) (i : Nat) : Nat :=
  match e.registers with
  | .natural => i
  | .reversed16 => e.width - 16 - i / 16 * 16 + i % 16
  | .reversed32 => e.width - 32 - i / 32 * 32 + i % 32

theorem register_lt (e : Encoding) {i : Nat} (hi : i < e.width) :
    e.register i < e.width := by
  cases e <;> simp only [register, registers, width] at hi ⊢ <;> omega

/-- Reversing the registers twice puts every bit back. -/
theorem register_register (e : Encoding) {i : Nat} (hi : i < e.width) :
    e.register (e.register i) = i := by
  cases e <;> simp only [register, registers, width] at hi ⊢ <;> omega

theorem bit_mask (e : Encoding) (i : Nat) :
    e.mask.bit i = decide (i < e.width) := by
  have hwidth : e.width ≤ 64 := by cases e <;> decide
  exact Word.bit_ones hwidth i

theorem bit_truncate (e : Encoding) (w : Word) (i : Nat) :
    (e.truncate w).bit i = (decide (i < e.width) && w.bit i) := by
  rw [truncate, Word.bit_and, bit_mask, Bool.and_comm]

theorem bit_low_register (i : Nat) :
    Word.bit 0xffff i = decide (i < 16) :=
  Word.bit_ones (show 16 ≤ 64 by norm_num) i

theorem bit_second_register (i : Nat) :
    Word.bit 0xffff0000 i = (decide (16 ≤ i) && decide (i < 32)) := by
  have hshift := Word.bit_shiftLeft 0xffff (show 16 < 64 by norm_num) i
  rw [bit_low_register] at hshift
  refine hshift.trans ?_
  by_cases hlow : i < 16
  · simp [hlow]
  · have hiff : i - 16 < 16 ↔ i < 32 := by omega
    by_cases hhigh : i < 32
    · simp [hlow, hiff, hhigh, show i < 64 by omega, show 16 ≤ i by omega]
    · simp [hiff, hhigh]

/-- The two registers of 16 bits of a 32-bit field in reverse order. -/
theorem bit_swap16 (w : Word) (i : Nat) :
    Word.bit ((w &&& 0xffff) <<< (16 : Word) ||| w >>> (16 : Word) &&& 0xffff) i =
      (decide (i < 32) && w.bit (32 - 16 - i / 16 * 16 + i % 16)) := by
  have hleft : Word.bit ((w &&& 0xffff) <<< (16 : Word)) i = _ :=
    Word.bit_shiftLeft (w &&& 0xffff) (show 16 < 64 by norm_num) i
  have hright : Word.bit (w >>> (16 : Word)) i = _ :=
    Word.bit_shiftRight w (show 16 < 64 by norm_num) i
  rw [Word.bit_or, Word.bit_and, hleft, hright, Word.bit_and, bit_low_register,
    bit_low_register]
  by_cases hlow : i < 16
  · simp [hlow,
      show i < 32 by omega, show 32 - 16 - i / 16 * 16 + i % 16 = 16 + i by omega]
  by_cases hhigh : i < 32
  · simp [hlow, hhigh, show i < 64 by omega, show i - 16 < 16 by omega,
      show 32 - 16 - i / 16 * 16 + i % 16 = i - 16 by omega]
  · simp [hlow, hhigh, show ¬i - 16 < 16 by omega]

/-- The four registers of 16 bits of a 64-bit field in reverse order. -/
theorem bit_reverse16 (w : Word) {i : Nat} (hi : i < 64) :
    Word.bit ((w &&& 0xffff) <<< (48 : Word) ||| (w &&& 0xffff0000) <<< (16 : Word)
        ||| w >>> (16 : Word) &&& 0xffff0000 ||| w >>> (48 : Word)) i =
      w.bit (64 - 16 - i / 16 * 16 + i % 16) := by
  have hfirst : Word.bit ((w &&& 0xffff) <<< (48 : Word)) i = _ :=
    Word.bit_shiftLeft (w &&& 0xffff) (show 48 < 64 by norm_num) i
  have hsecond : Word.bit ((w &&& 0xffff0000) <<< (16 : Word)) i = _ :=
    Word.bit_shiftLeft (w &&& 0xffff0000) (show 16 < 64 by norm_num) i
  have hthird : Word.bit (w >>> (16 : Word)) i = _ :=
    Word.bit_shiftRight w (show 16 < 64 by norm_num) i
  have hfourth : Word.bit (w >>> (48 : Word)) i = _ :=
    Word.bit_shiftRight w (show 48 < 64 by norm_num) i
  simp only [Word.bit_or, Word.bit_and, hfirst, hsecond, hthird, hfourth,
    bit_low_register, bit_second_register]
  -- Each register of the result has one source; the other three terms are out of their
  -- range.
  have hcases : i < 16 ∨ (16 ≤ i ∧ i < 32) ∨ (32 ≤ i ∧ i < 48) ∨ 48 ≤ i := by omega
  rcases hcases with h | ⟨hl, hr⟩ | ⟨hl, hr⟩ | h
  · simp [h, show i < 48 by omega, show ¬16 ≤ i by omega,
      show 64 - 16 - i / 16 * 16 + i % 16 = 48 + i by omega]
  · simp [hl, hr, show i < 48 by omega, show ¬16 ≤ i - 16 by omega,
      Word.bit_of_ge w (show 64 ≤ 48 + i by omega),
      show 64 - 16 - i / 16 * 16 + i % 16 = 16 + i by omega]
  · simp [hi, hr,
      show ¬i < 16 by omega, show ¬i < 32 by omega, show 16 ≤ i - 16 by omega,
      show i - 16 < 32 by omega, Word.bit_of_ge w (show 64 ≤ 48 + i by omega),
      show 64 - 16 - i / 16 * 16 + i % 16 = i - 16 by omega]
  · simp [hi, show ¬i < 48 by omega, show ¬i < 32 by omega, show ¬i - 16 < 32 by omega,
      show i - 48 < 16 by omega, Word.bit_of_ge w (show 64 ≤ 48 + i by omega),
      show 64 - 16 - i / 16 * 16 + i % 16 = i - 48 by omega]

/-- The two registers of 32 bits of a 64-bit field in reverse order. -/
theorem bit_swap32 (w : Word) {i : Nat} (hi : i < 64) :
    Word.bit (w <<< (32 : Word) ||| w >>> (32 : Word)) i =
      w.bit (64 - 32 - i / 32 * 32 + i % 32) := by
  have hleft : Word.bit (w <<< (32 : Word)) i = _ :=
    Word.bit_shiftLeft w (show 32 < 64 by norm_num) i
  have hright : Word.bit (w >>> (32 : Word)) i = _ :=
    Word.bit_shiftRight w (show 32 < 64 by norm_num) i
  rw [Word.bit_or, hleft, hright]
  by_cases hlow : i < 32
  · simp [hlow, show 64 - 32 - i / 32 * 32 + i % 32 = 32 + i by omega]
  · simp [hi, hlow, Word.bit_of_ge w (show 64 ≤ 32 + i by omega),
      show 64 - 32 - i / 32 * 32 + i % 32 = i - 32 by omega]

/-- Reordering a value of the width of a field moves its bits by `register`. -/
theorem bit_reorder_truncate (e : Encoding) (w : Word) (i : Nat) :
    (e.reorder (e.truncate w)).bit i =
    (decide (i < e.width) && w.bit (e.register i)) := by
  have hswap := bit_swap16 (e.truncate w) i
  by_cases hi : i < e.width
  · have hregister : (e.truncate w).bit (e.register i) = w.bit (e.register i) := by
      simp [bit_truncate, e.register_lt hi]
    simp only [← hregister, hi, decide_true, Bool.true_and]
    cases e with
    | le32r | be32r =>
        rw [decide_eq_true (show i < 32 from hi), Bool.true_and] at hswap
        exact hswap
    | le64r | be64r => exact bit_reverse16 _ hi
    | le64r4 | be64r4 => exact bit_swap32 _ hi
    | _ => rfl
  · have htruncate : (e.truncate w).bit i = false := by
      simp [bit_truncate, hi]
    simp only [hi, decide_false, Bool.false_and]
    by_cases hword : i < 64
    · cases e with
      | le32r | be32r =>
          rw [decide_eq_false (show ¬i < 32 from hi), Bool.false_and] at hswap
          exact hswap
      | le64r | be64r | le64r4 | be64r4 => exact absurd hword hi
      | _ => exact htruncate
    · exact Word.bit_of_ge _ (not_lt.mp hword)

/-! ## Positions -/

/-- Where bit `i` of a value lies in the row of bits of a cell, for a field that is
picked by a sub-index. -/
def position (e : Encoding) (sub i : Nat) : Nat :=
  if e.isBit then sub + i
  else if e = .byte then 8 * sub + i
  else e.register i

/-- What a field keeps of a value: a bit keeps whether the value is zero, a wider field
the low bits. -/
def kept (e : Encoding) (value : Word) : Word :=
  if e.isBit then .ofBool value.isTrue else e.truncate value

end Encoding

namespace Cell

/-- An access that is granted: the cell is no longer than a word, and the field lies
within the cell. -/
structure Granted (size : Nat) (e : Encoding) (sub : Nat) : Prop where
  size_le : size ≤ 8
  position_lt : ∀ i < e.width, e.position sub i < 8 * size

/-- The access check grants only fields that lie within the cell. -/
theorem granted_of_checkAccess {size : Nat} {e : Encoding} {sub : Nat}
    (h : checkAccess size e sub = .ok ()) :
    Granted size e sub := by
  obtain ⟨_, hsize, h⟩ := bind_eq_ok_iff.mp h
  obtain ⟨limit, hlimit, h⟩ := bind_eq_ok_iff.mp h
  have hsub : sub < limit := by
    by_contra hsub
    simp [hsub] at h
  have hle : size ≤ 8 := by
    by_contra hle
    simp [checkSize, show ¬(size = 1 ∨ size = 2 ∨ size = 4 ∨
      size = 8) by omega] at hsize
  refine ⟨hle, ?_⟩
  intro i hi
  unfold subIndexLimit at hlimit
  unfold Encoding.position
  split_ifs at hlimit ⊢ with hbit hbyte hwidth
  · have hone : e.width = 1 := by cases e <;> simp_all [Encoding.isBit, Encoding.width]
    cases hlimit
    omega
  · have height : e.width = 8 := by simp [hbyte, Encoding.width]
    cases hlimit
    omega
  · have hregister := e.register_lt hi
    omega

@[simp] theorem length_setField (cell : Cell) (e : Encoding) (sub : Nat)
    (value : Word) :
    (cell.setField e sub value).length = cell.length := by
  unfold setField
  split_ifs <;> simp

/-! ## Reading a field -/

/-- Reading a field takes the bits at its positions. -/
theorem bit_field {cell : Cell} {e : Encoding} {sub : Nat}
    (h : Granted cell.length e sub) (i : Nat) :
    (cell.field e sub).bit i =
      (decide (i < e.width) && cell.bit e.order (e.position sub i)) := by
  have hsize := h.size_le
  have hposition := h.position_lt
  unfold field Encoding.position
  unfold Encoding.position at hposition
  split_ifs at hposition ⊢ with hbit hbyte
  · have hone : e.width = 1 := by cases e <;> simp_all [Encoding.isBit, Encoding.width]
    have hsub := hposition 0 (by omega)
    rw [Word.bit_and, Word.bit_shiftRight _ (show sub < 64 by omega),
      Word.bit_one, hone, Bool.and_comm]
    by_cases hi : i = 0
    · simp [hi, bit_toWord _ _ (show sub < 64 by omega)]
    · simp [hi]
  · have hsub := hposition 0 (by simp [hbyte, Encoding.width])
    have hdiv : i < 8 → (8 * sub + i) / 8 = sub := by omega
    have hmod : i < 8 → (8 * sub + i) % 8 = i := by omega
    by_cases hi : i < 8
    · simp [hbyte, Encoding.width, Encoding.order, bit, ascending, Word.bit,
        hi, hdiv, hmod, show i < 64 by omega]
    · have hhigh : (cell.getD sub 0).toBitVec.getLsbD i = false :=
        BitVec.getLsbD_of_ge _ _ (by omega)
      simp_all [Encoding.width, Word.bit]
  · rw [Encoding.bit_reorder_truncate]
    by_cases hi : i < e.width
    · have hregister := hposition i hi
      rw [bit_toWord _ _ (by omega)]
    · simp [hi]

/-! ## Writing a field -/

/-- Writing a bit replaces the bit at its position. -/
theorem bit_setField_bit {cell : Cell} {e : Encoding} {sub : Nat} (value : Word)
    (hbit : e.isBit = true) (hsize : cell.length ≤ 8) (hsub : sub < 8 * cell.length)
    {j : Nat} (hj : j < 8 * cell.length) :
    (cell.setField e sub value).bit e.order j =
      if j = sub then value.isTrue else cell.bit e.order j := by
  have hword : j < 64 := by omega
  simp only [setField, hbit, if_true]
  rw [bit_ofWord _ _ _ hj]
  split_ifs with hvalue hat hat
  · simp [hat, Word.bit_single (show sub < 64 by omega), hvalue]
  · simp [hat, Word.bit_single (show sub < 64 by omega), bit_toWord _ _ hword]
  · simp [hat, Word.bit_single (show sub < 64 by omega), hvalue,
      Word.bit_not _ (show sub < 64 by omega)]
  · simp [hat, Word.bit_single (show sub < 64 by omega), bit_toWord _ _ hword,
      Word.bit_not _ hword]

/-- Writing a byte replaces the eight bits of that byte. -/
theorem bit_setField_byte (cell : Cell) (sub : Nat) (value : Word) {j : Nat}
    (hj : j < 8 * cell.length) :
    (cell.setField .byte sub value).bit .little j =
      if j / 8 = sub then value.bit (j % 8) else cell.bit .little j := by
  have hbyte : j / 8 < cell.length := by omega
  have hmod : j % 8 < 8 := by omega
  simp only [setField, Encoding.isBit, bit, ascending, Bool.false_eq_true,
    if_false, if_true]
  split_ifs with hat
  · simp [← hat, hbyte, Word.bit, hmod]
  · simp [List.getElem?_set_ne (Ne.symm hat)]

/-- A wider field is written under its mask, also if it fills its cell: the mask then
keeps nothing of the cell. -/
theorem setField_of_wide (cell : Cell) {e : Encoding} (sub : Nat) (value : Word)
    (hbit : e.isBit = false) (hbyte : e ≠ .byte) :
    cell.setField e sub value =
      ofWord e.order cell.length
        ((cell.toWord e.order &&& ~~~e.mask) ||| e.reorder (e.truncate value)) := by
  simp only [setField, hbit, hbyte, Bool.false_eq_true, if_false]
  split_ifs with hfull
  · apply eq_of_bit_eq e.order (by simp)
    intro j hj
    rw [length_ofWord] at hj
    have hmask : (cell.toWord e.order &&& ~~~e.mask).bit j = false := by
      have hwidth : j < e.width := by omega
      by_cases hword : j < 64
      · simp [Word.bit_not _ hword, Encoding.bit_mask, hwidth]
      · exact Word.bit_of_ge _ (not_lt.mp hword)
    rw [bit_ofWord _ _ _ hj, bit_ofWord _ _ _ hj, Word.bit_or, hmask, Bool.false_or]
  · rfl

/-- Writing a wider field replaces the low bits of the cell. -/
theorem bit_setField_wide {cell : Cell} {e : Encoding} (sub : Nat) (value : Word)
    (hbit : e.isBit = false) (hbyte : e ≠ .byte) (hsize : cell.length ≤ 8)
    {j : Nat} (hj : j < 8 * cell.length) :
    (cell.setField e sub value).bit e.order j =
      if j < e.width then value.bit (e.register j) else cell.bit e.order j := by
  have hword : j < 64 := by omega
  rw [setField_of_wide cell sub value hbit hbyte, bit_ofWord _ _ _ hj, Word.bit_or,
    Word.bit_and, Word.bit_not _ hword, Encoding.bit_mask,
    Encoding.bit_reorder_truncate, bit_toWord _ _ hword]
  split_ifs with hlow
  · simp [hlow]
  · simp [hlow]

/-- The bits of a field are those of the value, as far as the field keeps it. -/
theorem bit_setField_position {cell : Cell} {e : Encoding} {sub : Nat} (value : Word)
    (h : Granted cell.length e sub) {i : Nat} (hi : i < e.width) :
    (cell.setField e sub value).bit e.order (e.position sub i) =
    (e.kept value).bit i := by
  have hsize := h.size_le
  have hposition := h.position_lt i hi
  unfold Encoding.position Encoding.kept at *
  split_ifs at hposition ⊢ with hbit hbyte
  · have hone : e.width = 1 := by cases e <;> simp_all [Encoding.isBit, Encoding.width]
    obtain rfl : i = 0 := by omega
    rw [Nat.add_zero] at hposition ⊢
    rw [bit_setField_bit value hbit hsize hposition hposition]
    cases hvalue : value.isTrue <;> simp [Word.ofBool, Word.bit_one]
  · subst hbyte
    have height : i < 8 := hi
    have hdiv : (8 * sub + i) / 8 = sub := by omega
    have hmod : (8 * sub + i) % 8 = i := by omega
    have hset := bit_setField_byte cell sub value hposition
    rw [hdiv, hmod, if_pos rfl] at hset
    simpa [Encoding.bit_truncate, Encoding.order, hi] using hset
  · rw [bit_setField_wide sub value (by simpa using hbit) hbyte hsize hposition,
      if_pos (e.register_lt hi), e.register_register hi]
    simp [Encoding.bit_truncate, hi]

/-- The bits outside a field stay. -/
theorem bit_setField_of_ne {cell : Cell} {e : Encoding} {sub : Nat} (value : Word)
    (h : Granted cell.length e sub) {j : Nat}
    (hj : ∀ i < e.width, e.position sub i ≠ j) :
    (cell.setField e sub value).bit e.order j = cell.bit e.order j := by
  by_cases hlt : j < 8 * cell.length
  · have hsize := h.size_le
    have hposition := h.position_lt
    unfold Encoding.position at *
    split_ifs at hj hposition with hbit hbyte
    · have hone : 0 < e.width := by cases e <;> decide
      have hsub : sub < 8 * cell.length := hposition 0 hone
      have hne : j ≠ sub := fun heq => hj 0 hone heq.symm
      rw [bit_setField_bit value hbit hsize hsub hlt, if_neg hne]
    · subst hbyte
      have hne : j / 8 ≠ sub := by
        intro heq
        exact hj (j % 8) (Nat.mod_lt _ (by norm_num)) (by omega)
      exact (bit_setField_byte cell sub value hlt).trans (if_neg hne)
    · have hge : ¬j < e.width := by
        intro hwidth
        exact hj (e.register j) (e.register_lt hwidth) (e.register_register hwidth)
      rw [bit_setField_wide sub value (by simpa using hbit) hbyte hsize hlt, if_neg hge]
  · rw [bit_of_ge _ _ (by simpa using hlt), bit_of_ge _ _ (by omega)]

end Cell

end CyclicStack
