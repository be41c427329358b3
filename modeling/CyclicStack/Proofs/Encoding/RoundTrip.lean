import CyclicStack.Proofs.Encoding.Field

/-!
# Laws of the cell codec

Reading and writing a field obey the laws of a lens: what is written is read back, as
far as the field keeps it; writing back what was read changes nothing; and the last of
two writes wins.  All three follow from the description of reading and writing by the
positions of bits.
-/

namespace CyclicStack

namespace Cell

theorem decode_eq_field {cell : Cell} {e : Encoding} {sub : Nat}
    (h : checkAccess cell.length e sub = .ok ()) :
    cell.decode e sub = .ok (cell.field e sub) := by
  unfold decode
  rw [h]
  rfl

theorem encode_eq_setField {cell : Cell} {e : Encoding} {sub : Nat}
    (h : checkAccess cell.length e sub = .ok ()) (value : Word) :
    cell.encode e sub value = .ok (cell.setField e sub value) := by
  unfold encode
  rw [h]
  rfl

theorem decode_of_refused {cell : Cell} {e : Encoding} {sub : Nat}
    {error : EncodingError} (h : checkAccess cell.length e sub = .error error) :
    cell.decode e sub = .error error := by
  unfold decode
  rw [h]
  rfl

theorem encode_of_refused {cell : Cell} {e : Encoding} {sub : Nat}
    {error : EncodingError} (h : checkAccess cell.length e sub = .error error)
    (value : Word) :
    cell.encode e sub value = .error error := by
  unfold encode
  rw [h]
  rfl

/-- What is written is read back, as far as the field keeps it. -/
theorem field_setField {cell : Cell} {e : Encoding} {sub : Nat}
    (h : Granted cell.length e sub) (value : Word) :
    (cell.setField e sub value).field e sub = e.kept value := by
  have hwritten : Granted (cell.setField e sub value).length e sub := by
    rwa [length_setField]
  apply Word.eq_of_bit_eq
  intro i _
  rw [bit_field hwritten]
  by_cases hi : i < e.width
  · simp [hi, bit_setField_position value h hi]
  · have hkept : (e.kept value).bit i = false := by
      unfold Encoding.kept
      split_ifs with hbit
      · have hpos : 0 < e.width := by cases e <;> decide
        cases value.isTrue <;> simp [Word.ofBool, Word.bit_one, show i ≠ 0 by omega]
      · simp [Encoding.bit_truncate, hi]
    simp [hi, hkept]

/-- A value that was read has no bits beyond the width of the field. -/
theorem truncate_field {cell : Cell} {e : Encoding} {sub : Nat}
    (h : Granted cell.length e sub) :
    e.truncate (cell.field e sub) = cell.field e sub := by
  apply Word.eq_of_bit_eq
  intro i _
  rw [Encoding.bit_truncate, bit_field h]
  simp

theorem field_le_mask {cell : Cell} {e : Encoding} {sub : Nat}
    (h : Granted cell.length e sub) :
    cell.field e sub ≤ e.mask := by
  rw [← truncate_field h, UInt64.le_iff_toNat_le]
  simpa [Encoding.truncate] using Nat.and_le_right

/-- A field keeps a value that was read from it. -/
theorem kept_field {cell : Cell} {e : Encoding} {sub : Nat}
    (h : Granted cell.length e sub) :
    e.kept (cell.field e sub) = cell.field e sub := by
  unfold Encoding.kept
  split_ifs with hbit
  · have hmask : e.mask = 1 := by cases e <;> simp_all [Encoding.isBit] <;> decide
    have hle := field_le_mask h
    rw [hmask, UInt64.le_iff_toNat_le] at hle
    have hcases : cell.field e sub = 0 ∨ cell.field e sub = 1 := by
      have : (cell.field e sub).toNat = 0 ∨ (cell.field e sub).toNat = 1 := by
        have : (1 : UInt64).toNat = 1 := rfl
        omega
      rcases this with hzero | hone
      · exact Or.inl (UInt64.toNat_inj.mp hzero)
      · exact Or.inr (UInt64.toNat_inj.mp hone)
    rcases hcases with hzero | hone
    · rw [hzero]
      rfl
    · rw [hone]
      rfl
  · exact truncate_field h

/-- Writing back what was read changes nothing. -/
theorem setField_field {cell : Cell} {e : Encoding} {sub : Nat}
    (h : Granted cell.length e sub) :
    cell.setField e sub (cell.field e sub) = cell := by
  apply eq_of_bit_eq e.order (length_setField ..)
  intro j _
  by_cases hj : ∃ i < e.width, e.position sub i = j
  · obtain ⟨i, hi, rfl⟩ := hj
    rw [bit_setField_position _ h hi, kept_field h, bit_field h]
    simp [hi]
  · exact bit_setField_of_ne _ h fun i hi heq => hj ⟨i, hi, heq⟩

/-- The last of two writes wins. -/
theorem setField_setField {cell : Cell} {e : Encoding} {sub : Nat}
    (h : Granted cell.length e sub) (v w : Word) :
    (cell.setField e sub v).setField e sub w = cell.setField e sub w := by
  have hwritten : Granted (cell.setField e sub v).length e sub := by
    rwa [length_setField]
  apply eq_of_bit_eq e.order (by simp)
  intro j _
  by_cases hj : ∃ i < e.width, e.position sub i = j
  · obtain ⟨i, hi, rfl⟩ := hj
    rw [bit_setField_position w hwritten hi, bit_setField_position w h hi]
  · have hout : ∀ i < e.width, e.position sub i ≠ j := fun i hi heq => hj ⟨i, hi, heq⟩
    rw [bit_setField_of_ne w hwritten hout, bit_setField_of_ne v h hout,
      bit_setField_of_ne w h hout]

/-- Every granted access to a cell obeys the laws of the codec.  What is written is read
back cut to the width of the encoding, a bit as whether the value was zero; a second
write makes the first one irrelevant; what is read fits the encoding, and writing it
back leaves the cell as it is. -/
theorem codec_roundTrip {cell : Cell} {e : Encoding} {sub : Nat}
    (h : checkAccess cell.length e sub = .ok ()) (v w : Word) :
    (∃ written, cell.encode e sub v = .ok written ∧
      written.decode e sub =
        .ok (if e.isBit then if v = 0 then 0 else 1 else v &&& e.mask) ∧
      written.encode e sub w = cell.encode e sub w) ∧
    ∃ value, cell.decode e sub = .ok value ∧ value ≤ e.mask ∧
      cell.encode e sub value = .ok cell := by
  have hgranted := granted_of_checkAccess h
  have hwritten : checkAccess (cell.setField e sub v).length e sub = .ok () := by
    rwa [length_setField]
  refine ⟨⟨_, encode_eq_setField h v, ?_, ?_⟩,
    _, decode_eq_field h, field_le_mask hgranted, ?_⟩
  · rw [decode_eq_field hwritten, field_setField hgranted]
    unfold Encoding.kept Word.isTrue Word.ofBool
    by_cases hv : v = 0
    · simp [hv, Encoding.truncate]
    · simp [hv, Encoding.truncate]
  · rw [encode_eq_setField hwritten, encode_eq_setField h, setField_setField hgranted]
  · rw [encode_eq_setField h, setField_field hgranted]

/-- The laws at a big-endian field of two reversed registers that fills half of its
cell. -/
theorem codec_roundTrip_half_cell :
    checkAccess (List.length [0, 1, 2, 3, 4, 5, 6, 7]) .be32r 0 = .ok () ∧
    (∃ written, encode [0, 1, 2, 3, 4, 5, 6, 7] .be32r 0 0x1122334455667788 =
      .ok written ∧
      written.decode .be32r 0 = .ok (0x1122334455667788 &&& Encoding.mask .be32r) ∧
      written.encode .be32r 0 9 = encode [0, 1, 2, 3, 4, 5, 6, 7] .be32r 0 9) ∧
    ∃ value, decode [0, 1, 2, 3, 4, 5, 6, 7] .be32r 0 = .ok value ∧
      value ≤ Encoding.mask .be32r ∧
      encode [0, 1, 2, 3, 4, 5, 6, 7] .be32r 0 value = .ok [0, 1, 2, 3, 4, 5, 6, 7] :=
  ⟨rfl, codec_roundTrip rfl 0x1122334455667788 9⟩

end Cell

end CyclicStack
