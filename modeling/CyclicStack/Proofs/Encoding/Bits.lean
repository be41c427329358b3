import Mathlib
import CyclicStack.Encoding.Cell

/-!
# Bits of words and cells

This file reads words and cells bit by bit.  A cell read in a byte order is a row of
bits, the least significant one first, and the two conversions between words and cells
keep that row.  Later files describe the fields of a cell by the positions of their bits
in this row and need not look at shifts and masks again.
-/

namespace CyclicStack

namespace Word

/-- Bit `i` of a word, counted from the least significant one. -/
def bit (w : Word) (i : Nat) : Bool :=
  w.toBitVec.getLsbD i

theorem bit_of_ge (w : Word) {i : Nat} (hi : 64 ≤ i) :
    bit w i = false :=
  BitVec.getLsbD_of_ge _ _ hi

theorem eq_of_bit_eq {v w : Word}
    (h : ∀ i < 64, bit v i = bit w i) :
    v = w := by
  apply UInt64.toBitVec_inj.mp
  apply BitVec.eq_of_getLsbD_eq
  intro i hi
  exact h i hi

@[simp] theorem bit_zero (i : Nat) : bit 0 i = false := by
  simp [bit]

@[simp] theorem bit_and (v w : Word) (i : Nat) :
    bit (v &&& w) i = (bit v i && bit w i) := by
  simp [bit]

@[simp] theorem bit_or (v w : Word) (i : Nat) :
    bit (v ||| w) i = (bit v i || bit w i) := by
  simp [bit]

theorem bit_not (w : Word) {i : Nat} (hi : i < 64) :
    bit (~~~w) i = !bit w i := by
  simp [bit, hi]

/-- The shift amount of words is taken modulo their width. -/
theorem toNat_shiftAmount {n : Nat} (hn : n < 64) :
    ((UInt64.ofNat n).toBitVec % 64).toNat = n := by
  simp [BitVec.toNat_umod, Nat.mod_eq_of_lt hn]

theorem bit_shiftRight (w : Word) {n : Nat} (hn : n < 64) (i : Nat) :
    bit (w >>> UInt64.ofNat n) i = bit w (n + i) := by
  simp only [bit, UInt64.toBitVec_shiftRight, BitVec.ushiftRight_eq',
    BitVec.getLsbD_ushiftRight, toNat_shiftAmount hn]

theorem bit_shiftLeft (w : Word) {n : Nat} (hn : n < 64) (i : Nat) :
    bit (w <<< UInt64.ofNat n) i =
      (decide (i < 64) && !decide (i < n) && bit w (i - n)) := by
  simp only [bit, UInt64.toBitVec_shiftLeft, BitVec.shiftLeft_eq',
    BitVec.getLsbD_shiftLeft, toNat_shiftAmount hn]

/-- A word of ones up to bit `n`. -/
theorem bit_ones {n : Nat} (hn : n ≤ 64) (i : Nat) :
    bit (UInt64.ofNat (2 ^ n - 1)) i = decide (i < n) := by
  simp only [bit, UInt64.toBitVec_ofNat', BitVec.getLsbD_ofNat,
    Nat.testBit_two_pow_sub_one]
  by_cases hi : i < n
  · simp [hi, lt_of_lt_of_le hi hn]
  · simp [hi]

theorem bit_one (i : Nat) : bit 1 i = decide (i = 0) := by
  have h := bit_ones (show 1 ≤ 64 by norm_num) i
  simpa [Nat.lt_one_iff] using h

theorem bit_single {n : Nat} (hn : n < 64) (i : Nat) :
    bit (1 <<< UInt64.ofNat n) i = decide (i = n) := by
  rw [bit_shiftLeft _ hn, bit_one]
  by_cases hi : i = n
  · simp [hi, hn]
  · have hdiff : i < n ∨ i - n ≠ 0 := by omega
    rcases hdiff with hlt | hne
    · simp [hlt, hi]
    · simp [hne, hi]

end Word

namespace Cell

/-- The bytes of a cell, the least significant one first. -/
def ascending (order : ByteOrder) (cell : Cell) : Cell :=
  match order with
  | .little => cell
  | .big => cell.reverse

@[simp] theorem length_ascending (order : ByteOrder) (cell : Cell) :
    (ascending order cell).length = cell.length := by
  cases order <;> simp [ascending]

@[simp] theorem ascending_ascending (order : ByteOrder) (cell : Cell) :
    ascending order (ascending order cell) = cell := by
  cases order <;> simp [ascending]

theorem toWord_eq (order : ByteOrder) (cell : Cell) :
    toWord order cell = toWordLittle (ascending order cell) := by
  cases order <;> rfl

theorem ofWord_eq (order : ByteOrder) (size : Nat) (w : Word) :
    ofWord order size w = ascending order (ofWordLittle size w) := by
  cases order <;> rfl

/-- Bit `j` of a cell that is read in a byte order.  There is none beyond the end of the
cell. -/
def bit (order : ByteOrder) (cell : Cell) (j : Nat) : Bool :=
  ((ascending order cell).getD (j / 8) 0).toBitVec.getLsbD (j % 8)

theorem bit_of_ge (order : ByteOrder) (cell : Cell) {j : Nat}
    (hj : 8 * cell.length ≤ j) :
    bit order cell j = false := by
  have hbyte : (ascending order cell).length ≤ j / 8 := by
    rw [length_ascending]
    omega
  simp [bit, List.getElem?_eq_none hbyte]

/-- Cells of one length that read the same bit by bit are the same. -/
theorem eq_of_bit_eq (order : ByteOrder) {c d : Cell} (hlength : c.length = d.length)
    (h : ∀ j < 8 * c.length, bit order c j = bit order d j) :
    c = d := by
  have hascending : ascending order c = ascending order d := by
    apply List.ext_getElem (by simp [hlength])
    intro k hc hd
    apply UInt8.toBitVec_inj.mp
    apply BitVec.eq_of_getLsbD_eq
    intro i hi
    have hk : k < c.length := by simpa using hc
    have hbit := h (8 * k + i) (by omega)
    have hdiv : (8 * k + i) / 8 = k := by omega
    have hmod : (8 * k + i) % 8 = i := by omega
    simpa [bit, hdiv, hmod, List.getElem?_eq_getElem hc,
      List.getElem?_eq_getElem hd] using hbit
  rw [← ascending_ascending order c, hascending, ascending_ascending]

theorem bit_toWordLittle (cell : Cell) {j : Nat} (hj : j < 64) :
    (toWordLittle cell).bit j = (cell.getD (j / 8) 0).toBitVec.getLsbD (j % 8) := by
  induction cell generalizing j with
  | nil => simp [toWordLittle]
  | cons b rest ih =>
      have hbyte : Word.bit b.toUInt64 j = b.toBitVec.getLsbD j := by
        simp [Word.bit, hj]
      have hshift : (toWordLittle rest <<< 8).bit j =
          (decide (j < 64) && !decide (j < 8) && (toWordLittle rest).bit (j - 8)) :=
        Word.bit_shiftLeft (toWordLittle rest) (show 8 < 64 by norm_num) j
      rw [toWordLittle, Word.bit_or, hbyte, hshift]
      by_cases hlow : j < 8
      · have hdiv : j / 8 = 0 := by omega
        have hmod : j % 8 = j := by omega
        simp [hlow, hdiv, hmod]
      · have hdiv : j / 8 = (j - 8) / 8 + 1 := by omega
        have hmod : j % 8 = (j - 8) % 8 := by omega
        have hhigh : b.toBitVec.getLsbD j = false := BitVec.getLsbD_of_ge _ _ (by omega)
        rw [ih (show j - 8 < 64 by omega), hhigh, hdiv, hmod]
        simp [hlow, hj]

/-- Reading a cell as a word keeps its bits. -/
theorem bit_toWord (order : ByteOrder) (cell : Cell) {j : Nat} (hj : j < 64) :
    (toWord order cell).bit j = bit order cell j := by
  rw [toWord_eq, bit_toWordLittle _ hj, bit]

@[simp] theorem length_ofWordLittle (size : Nat) (w : Word) :
    (ofWordLittle size w).length = size := by
  induction size generalizing w with
  | zero => rfl
  | succ size ih => simp [ofWordLittle, ih]

@[simp] theorem length_ofWord (order : ByteOrder) (size : Nat) (w : Word) :
    (ofWord order size w).length = size := by
  simp [ofWord_eq]

theorem bit_ofWordLittle (size : Nat) (w : Word) {j : Nat} (hj : j < 8 * size) :
    ((ofWordLittle size w).getD (j / 8) 0).toBitVec.getLsbD (j % 8) = w.bit j := by
  induction size generalizing w j with
  | zero => omega
  | succ size ih =>
      by_cases hlow : j < 8
      · have hdiv : j / 8 = 0 := by omega
        have hmod : j % 8 = j := by omega
        simp [ofWordLittle, hdiv, hmod, Word.bit, hlow]
      · have hdiv : j / 8 = (j - 8) / 8 + 1 := by omega
        have hmod : j % 8 = (j - 8) % 8 := by omega
        have hrest := ih (w >>> 8) (show j - 8 < 8 * size by omega)
        have hshift : (w >>> 8).bit (j - 8) = w.bit j := by
          have := Word.bit_shiftRight w (show 8 < 64 by norm_num) (j - 8)
          simpa [show 8 + (j - 8) = j by omega] using this
        simpa [ofWordLittle, hdiv, hmod, hshift] using hrest

/-- Writing a word into a cell keeps as many bits as the cell has. -/
theorem bit_ofWord (order : ByteOrder) (size : Nat) (w : Word) {j : Nat}
    (hj : j < 8 * size) :
    bit order (ofWord order size w) j = w.bit j := by
  rw [bit, ofWord_eq, ascending_ascending, bit_ofWordLittle size w hj]

end Cell

end CyclicStack
