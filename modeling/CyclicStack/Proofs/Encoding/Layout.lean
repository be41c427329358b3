import CyclicStack.Proofs.Memory.Footprint

/-!
# Byte layouts of encodings

The codec computes with words, while a device sees the bytes of a cell.  In bytes, a
big-endian cell is the little-endian cell read backwards, bit numbers included, and a
field with reversed registers is the plain field with the bytes of its registers in
reverse order.  The field lies at the low end of its cell, which is the far end of a
big-endian one, and the bytes beside it stay where they are.

The first of these is a matter of how words are read from cells.  The second one is
shown by the positions of bits: moving groups of bytes and moving registers within the
word move the same bits.
-/

namespace CyclicStack

namespace Encoding

/-- The encoding with the same field in a little-endian cell. -/
def littleEndian : Encoding → Encoding
  | .be1 => .le1
  | .be16 => .le16
  | .be32 => .le32
  | .be32r => .le32r
  | .be64 => .le64
  | .be64r => .le64r
  | .be64r4 => .le64r4
  | e => e

/-- The encoding with its registers in natural order. -/
def plain : Encoding → Encoding
  | .le32r => .le32
  | .be32r => .be32
  | .le64r | .le64r4 => .le64
  | .be64r | .be64r4 => .be64
  | e => e

@[simp] theorem width_littleEndian (e : Encoding) : e.littleEndian.width = e.width := by
  cases e <;> rfl

@[simp] theorem isBit_littleEndian (e : Encoding) : e.littleEndian.isBit = e.isBit := by
  cases e <;> rfl

@[simp] theorem order_littleEndian (e : Encoding) : e.littleEndian.order = .little := by
  cases e <;> rfl

@[simp] theorem registers_littleEndian (e : Encoding) :
    e.littleEndian.registers = e.registers := by
  cases e <;> rfl

@[simp] theorem littleEndian_eq_byte_iff (e : Encoding) :
    e.littleEndian = .byte ↔ e = .byte := by
  cases e <;> simp [littleEndian]

@[simp] theorem truncate_littleEndian (e : Encoding) (w : Word) :
    e.littleEndian.truncate w = e.truncate w := by
  simp only [truncate, mask, width_littleEndian]

@[simp] theorem width_plain (e : Encoding) : e.plain.width = e.width := by
  cases e <;> rfl

@[simp] theorem isBit_plain (e : Encoding) : e.plain.isBit = e.isBit := by
  cases e <;> rfl

@[simp] theorem order_plain (e : Encoding) : e.plain.order = e.order := by
  cases e <;> rfl

@[simp] theorem plain_eq_byte_iff (e : Encoding) : e.plain = .byte ↔ e = .byte := by
  cases e <;> simp [plain]

@[simp] theorem register_plain (e : Encoding) (i : Nat) : e.plain.register i = i := by
  cases e <;> rfl

/-- Number of bytes of a register, or of the whole field if its registers are in natural
order. -/
def registerSize (e : Encoding) : Nat :=
  match e.registers with
  | .natural => e.width / 8
  | .reversed16 => 2
  | .reversed32 => 4

theorem wide_of_registers {e : Encoding} (h : e.registers ≠ .natural) :
    e.isBit = false ∧ e ≠ .byte := by
  cases e <;> simp [registers, isBit] at h ⊢

theorem wide_plain_of_registers {e : Encoding} (h : e.registers ≠ .natural) :
    e.plain.isBit = false ∧ e.plain ≠ .byte := by
  simpa using wide_of_registers h

theorem eight_dvd_width_of_registers {e : Encoding} (h : e.registers ≠ .natural) :
    8 ∣ e.width := by
  cases e <;> simp [registers, width] at h ⊢

theorem position_of_wide {e : Encoding} (h : e.isBit = false ∧ e ≠ .byte)
    (sub i : Nat) :
    e.position sub i = e.register i := by
  simp [position, h.1, h.2]

/-- Where byte `k` of a field lies when its registers are put in reverse order. -/
def registerByte (e : Encoding) (k : Nat) : Nat :=
  e.width / 8 - e.registerSize - k / e.registerSize * e.registerSize +
    k % e.registerSize

theorem registerByte_lt (e : Encoding) {k : Nat} (hk : k < e.width / 8) :
    e.registerByte k < e.width / 8 := by
  cases e <;> simp only [registerByte, registerSize, registers, width] at hk ⊢ <;> omega

/-- Registers in reverse order look the same from either end of the field. -/
theorem registerByte_mirror (e : Encoding) {k : Nat} (hk : k < e.width / 8) :
    e.registerByte (e.width / 8 - 1 - k) = e.width / 8 - 1 - e.registerByte k := by
  cases e <;> simp only [registerByte, registerSize, registers, width] at hk ⊢ <;> omega

/-- Reversing the registers moves whole bytes. -/
theorem register_eq (e : Encoding) {i : Nat} (hi : i < e.width) :
    e.register i = 8 * e.registerByte (i / 8) + i % 8 := by
  cases e <;> simp only [register, registerByte, registerSize, registers,
    width] at hi ⊢ <;> omega

theorem registerCount_mul (e : Encoding) :
    e.width / 8 / e.registerSize * e.registerSize = e.width / 8 := by
  cases e <;> rfl

end Encoding

namespace Cell

/-- The first `count` groups of `size` bytes, the last group first. -/
def reverseGroups (size : Nat) : (count : Nat) → Cell → Cell
  | 0, _ => []
  | count + 1, bytes => reverseGroups size count (bytes.drop size) ++ bytes.take size

/-- The cell with the registers of the field in reverse order.  The field has the first
bytes of a little-endian cell and the last bytes of a big-endian cell; all other bytes
stay. -/
def regroup (e : Encoding) (cell : Cell) : Cell :=
  let count := e.width / 8
  let reversed := reverseGroups e.registerSize (count / e.registerSize)
  match e.order with
  | .little => reversed cell ++ cell.drop count
  | .big =>
    cell.take (cell.length - count) ++ reversed (cell.drop (cell.length - count))

/-! ## Codecs that agree -/

section

variable {c d : Cell} {e e' : Encoding} {sub : Nat}

theorem decode_congr (hcheck : checkAccess c.length e sub = checkAccess d.length e' sub)
    (hfield : checkAccess c.length e sub = .ok () → c.field e sub = d.field e' sub) :
    c.decode e sub = d.decode e' sub := by
  cases haccess : checkAccess c.length e sub with
  | error _ =>
      rw [decode_of_refused haccess, decode_of_refused (hcheck.symm.trans haccess)]
  | ok _ =>
      rw [decode_eq_field haccess, decode_eq_field (hcheck.symm.trans haccess),
        hfield haccess]

theorem encode_congr {f : Cell → Cell} {value : Word}
    (hcheck : checkAccess c.length e sub = checkAccess d.length e' sub)
    (hfield : checkAccess c.length e sub = .ok () →
      c.setField e sub value = f (d.setField e' sub value)) :
    c.encode e sub value = (d.encode e' sub value).map f := by
  cases haccess : checkAccess c.length e sub with
  | error _ =>
      rw [encode_of_refused haccess, encode_of_refused (hcheck.symm.trans haccess)]
      rfl
  | ok _ =>
      rw [encode_eq_setField haccess, encode_eq_setField (hcheck.symm.trans haccess),
        hfield haccess]
      rfl

end

/-! ## Byte order -/

variable {cell : Cell} {e : Encoding}

theorem checkAccess_littleEndian (size : Nat) (e : Encoding) (sub : Nat) :
    checkAccess size e.littleEndian sub = checkAccess size e sub := by
  simp only [checkAccess, subIndexLimit, Encoding.isBit_littleEndian,
    Encoding.littleEndian_eq_byte_iff, Encoding.width_littleEndian]

theorem field_of_big (h : e.order = .big) (cell : Cell) (sub : Nat) :
    cell.field e sub = field cell.reverse e.littleEndian sub := by
  have hbyte : e ≠ .byte := by
    rintro rfl
    cases h
  simp only [field, h, hbyte, toWord, if_false, Encoding.isBit_littleEndian,
    Encoding.littleEndian_eq_byte_iff, Encoding.order_littleEndian, Encoding.reorder,
    Encoding.registers_littleEndian, Encoding.width_littleEndian,
      Encoding.truncate_littleEndian]

theorem setField_of_big (h : e.order = .big) (cell : Cell) (sub : Nat) (value : Word) :
    cell.setField e sub value =
      (setField cell.reverse e.littleEndian sub value).reverse := by
  have hbyte : e ≠ .byte := by
    rintro rfl
    cases h
  simp only [setField, h, hbyte, toWord, if_false, Encoding.isBit_littleEndian,
    Encoding.littleEndian_eq_byte_iff, Encoding.order_littleEndian, Encoding.reorder,
    Encoding.mask,
    Encoding.registers_littleEndian, Encoding.width_littleEndian,
      Encoding.truncate_littleEndian, ofWord,
    List.length_reverse]
  split_ifs <;> rfl

/-! ## Registers -/

theorem length_reverseGroups {size count : Nat} {bytes : Cell}
    (h : count * size ≤ bytes.length) :
    (reverseGroups size count bytes).length = count * size := by
  induction count generalizing bytes with
  | zero => simp [reverseGroups]
  | succ count ih =>
      rw [Nat.succ_mul] at h ⊢
      have hrest : count * size ≤ (bytes.drop size).length := by
        rw [List.length_drop]
        omega
      rw [reverseGroups, List.length_append, ih hrest, List.length_take]
      omega

theorem getElem?_reverseGroups {size count i : Nat} {bytes : Cell}
    (h : count * size ≤ bytes.length) (hi : i < count * size) :
    (reverseGroups size count bytes)[i]? =
      bytes[count * size - size - i / size * size + i % size]? := by
  induction count generalizing bytes with
  | zero => omega
  | succ count ih =>
      rw [Nat.succ_mul] at h hi ⊢
      have hrest : count * size ≤ (bytes.drop size).length := by
        rw [List.length_drop]
        omega
      have hlength := length_reverseGroups hrest
      rw [reverseGroups]
      by_cases hlt : i < count * size
      · have hgroup : (i / size + 1) * size ≤ count * size :=
          Nat.mul_le_mul_right _ (Nat.div_lt_of_lt_mul (by rwa [Nat.mul_comm]))
        rw [Nat.succ_mul] at hgroup
        rw [List.getElem?_append_left (by omega), ih hrest hlt, List.getElem?_drop]
        congr 1
        omega
      · have hdiv : i / size = count :=
          Nat.div_eq_of_lt_le (by omega) (by rw [Nat.succ_mul]; exact hi)
        have hmod := Nat.div_add_mod' i size
        rw [hdiv] at hmod
        rw [List.getElem?_append_right (by omega), hdiv, hlength,
          List.getElem?_take_of_lt (by omega)]
        congr 1
        omega

theorem length_reverseRegisters {bytes : Cell} (h : e.width / 8 ≤ bytes.length) :
    (reverseGroups e.registerSize (e.width / 8 / e.registerSize) bytes).length =
      e.width / 8 := by
  have hcount := e.registerCount_mul
  rw [length_reverseGroups (by omega), hcount]

theorem getElem?_reverseRegisters {bytes : Cell} (h : e.width / 8 ≤ bytes.length)
    {k : Nat} (hk : k < e.width / 8) :
    (reverseGroups e.registerSize (e.width / 8 / e.registerSize) bytes)[k]? =
      bytes[e.registerByte k]? := by
  have hcount := e.registerCount_mul
  rw [getElem?_reverseGroups (by omega) (by omega), hcount, Encoding.registerByte]

theorem length_regroup (hwidth : e.width ≤ 8 * cell.length) :
    (regroup e cell).length = cell.length := by
  unfold regroup
  split
  · rw [List.length_append, length_reverseRegisters (by omega), List.length_drop]
    omega
  · rw [List.length_append, length_reverseRegisters (by rw [List.length_drop]; omega),
      List.length_take]
    omega

/-- Counted from the low end of the cell, the bytes of the field change their places and
the others stay. -/
theorem getElem?_regroup (hwidth : e.width ≤ 8 * cell.length) {k : Nat}
    (hk : k < cell.length) :
    (regroup e cell)[Window.byteAt e.order cell.length k]? =
      cell[Window.byteAt e.order cell.length
        (if k < e.width / 8 then e.registerByte k else k)]? := by
  have hlow : e.width / 8 ≤ cell.length := by omega
  have hhigh : e.width / 8 ≤ (cell.drop (cell.length - e.width / 8)).length := by
    rw [List.length_drop]
    omega
  have htake : (cell.take (cell.length - e.width / 8)).length =
      cell.length - e.width / 8 := by
    rw [List.length_take]
    omega
  have hlength := length_reverseRegisters hlow
  unfold regroup
  cases e.order with
  | little =>
      simp only [Window.byteAt]
      split_ifs with hfield
      · rw [List.getElem?_append_left (by omega), getElem?_reverseRegisters hlow hfield]
      · rw [List.getElem?_append_right (by omega), List.getElem?_drop, hlength,
          Nat.add_sub_cancel' (by omega)]
  | big =>
      simp only [Window.byteAt]
      split_ifs with hfield
      · have hlt := e.registerByte_lt hfield
        have hindex : cell.length - 1 - k - (cell.length - e.width / 8) =
            e.width / 8 - 1 - k := by
          omega
        rw [List.getElem?_append_right (by omega), htake, hindex,
          getElem?_reverseRegisters hhigh (by omega), e.registerByte_mirror hfield,
          List.getElem?_drop]
        congr 1
        omega
      · rw [List.getElem?_append_left (by omega), List.getElem?_take_of_lt (by omega)]

theorem bit_eq_getElem? (order : ByteOrder) {j : Nat} (hj : j < 8 * cell.length) :
    cell.bit order j =
      (cell[Window.byteAt order cell.length (j / 8)]?.getD 0).toBitVec.getLsbD
        (j % 8) := by
  rw [bit, Window.getD_ascending order cell (by omega), List.getD_eq_getElem?_getD]

/-- Moving groups of bytes moves the bits of the field by `register`. -/
theorem bit_regroup (h : e.registers ≠ .natural) (hwidth : e.width ≤ 8 * cell.length)
    {j : Nat} (hj : j < 8 * cell.length) :
    (regroup e cell).bit e.order j =
      cell.bit e.order (if j < e.width then e.register j else j) := by
  have hbytes := Encoding.eight_dvd_width_of_registers h
  have hlength := length_regroup hwidth
  rw [bit_eq_getElem? e.order (by omega), hlength, getElem?_regroup hwidth (by omega)]
  by_cases hfield : j < e.width
  · have hregister := e.register_eq hfield
    have hlt := e.register_lt hfield
    have hdiv : e.register j / 8 = e.registerByte (j / 8) := by omega
    have hmod : e.register j % 8 = j % 8 := by omega
    rw [if_pos (show j / 8 < e.width / 8 by omega), if_pos hfield,
      bit_eq_getElem? e.order (by omega), hdiv, hmod]
  · rw [if_neg (show ¬j / 8 < e.width / 8 by omega), if_neg hfield,
      bit_eq_getElem? e.order hj]

theorem checkAccess_plain (size : Nat) (e : Encoding) (sub : Nat) :
    checkAccess size e.plain sub = checkAccess size e sub := by
  simp only [checkAccess, subIndexLimit, Encoding.isBit_plain,
    Encoding.plain_eq_byte_iff, Encoding.width_plain]

theorem granted_of_width_le {size : Nat} (hwide : e.isBit = false ∧ e ≠ .byte)
    (hsize : size ≤ 8) (hwidth : e.width ≤ 8 * size) (sub : Nat) :
    Granted size e sub := by
  refine ⟨hsize, fun i hi => ?_⟩
  rw [Encoding.position_of_wide hwide]
  exact (e.register_lt hi).trans_le hwidth

theorem field_regroup (h : e.registers ≠ .natural) (hsize : cell.length ≤ 8)
    (hwidth : e.width ≤ 8 * cell.length) :
    cell.field e 0 = field (regroup e cell) e.plain 0 := by
  have hwide := Encoding.wide_of_registers h
  have hplain := Encoding.wide_plain_of_registers h
  have hlength := length_regroup hwidth
  have hgranted := granted_of_width_le hwide hsize hwidth 0
  have hregrouped : Granted (regroup e cell).length e.plain 0 :=
    granted_of_width_le hplain (by omega) (by rw [e.width_plain]; omega) 0
  apply Word.eq_of_bit_eq
  intro i _
  rw [bit_field hgranted, bit_field hregrouped, e.width_plain, e.order_plain,
    Encoding.position_of_wide hwide, Encoding.position_of_wide hplain, e.register_plain]
  by_cases hi : i < e.width
  · rw [bit_regroup h hwidth (by omega), if_pos hi]
  · simp [hi]

theorem setField_regroup (h : e.registers ≠ .natural) (hsize : cell.length ≤ 8)
    (hwidth : e.width ≤ 8 * cell.length) (value : Word) :
    cell.setField e 0 value =
      regroup e (setField (regroup e cell) e.plain 0 value) := by
  have hwide := Encoding.wide_of_registers h
  have hplain := Encoding.wide_plain_of_registers h
  have hlength := length_regroup hwidth
  have hwritten : (setField (regroup e cell) e.plain 0 value).length = cell.length := by
    rw [length_setField, hlength]
  have hset : ∀ j < 8 * cell.length,
      (setField (regroup e cell) e.plain 0 value).bit e.order j =
        if j < e.width then value.bit j else (regroup e cell).bit e.order j := by
    intro j hj
    have hbit : (setField (regroup e cell) e.plain 0 value).bit e.plain.order j = _ :=
      bit_setField_wide 0 value hplain.1 hplain.2 (by omega) (by omega)
    simpa using hbit
  apply eq_of_bit_eq e.order
  · rw [length_setField, length_regroup (by omega), hwritten]
  · intro j hj
    rw [length_setField] at hj
    rw [bit_setField_wide 0 value hwide.1 hwide.2 hsize hj,
      bit_regroup h (by omega) (by omega)]
    split_ifs with hfield
    · have hlt := e.register_lt hfield
      rw [hset _ (by omega), if_pos hlt]
    · rw [hset j hj, if_neg hfield, bit_regroup h hwidth hj, if_neg hfield]

/-- Reading and writing a big-endian cell is reading and writing the little-endian cell
with its bytes in reverse order, failures included.  Reading and writing a field with
reversed registers is reading and writing the plain field of the cell with these
registers put in reverse order. -/
theorem reversed_layouts_mirror_plain_ones (cell : Cell) :
    (∀ e : Encoding, e.order = .big → ∀ (sub : Nat) (value : Word),
      cell.decode e sub = decode cell.reverse e.littleEndian sub ∧
      cell.encode e sub value =
        (encode cell.reverse e.littleEndian sub value).map List.reverse) ∧
    ∀ e : Encoding, e.registers ≠ .natural → e.width ≤ 8 * cell.length → ∀ value : Word,
      cell.decode e 0 = decode (regroup e cell) e.plain 0 ∧
      cell.encode e 0 value =
        (encode (regroup e cell) e.plain 0 value).map (regroup e) := by
  constructor
  · intro e hbig sub value
    have hcheck : checkAccess cell.length e sub =
        checkAccess cell.reverse.length e.littleEndian sub := by
      rw [List.length_reverse, checkAccess_littleEndian]
    exact ⟨decode_congr hcheck fun _ => field_of_big hbig cell sub,
      encode_congr hcheck fun _ => setField_of_big hbig cell sub value⟩
  · intro e hregisters hwidth value
    have hcheck : checkAccess cell.length e 0 =
        checkAccess (regroup e cell).length e.plain 0 := by
      rw [length_regroup hwidth, checkAccess_plain]
    refine ⟨decode_congr hcheck fun haccess => ?_,
      encode_congr hcheck fun haccess => ?_⟩
    · exact field_regroup hregisters (granted_of_checkAccess haccess).size_le hwidth
    · exact setField_regroup hregisters (granted_of_checkAccess haccess).size_le
        hwidth value

/-- Two reversed registers in the last four bytes of a big-endian cell of eight. -/
theorem reversed_layouts_mirror_plain_ones_half_cell :
    (Encoding.order .be32r = .big ∧
      decode [0, 1, 2, 3, 4, 5, 6, 7] .be32r 0 =
        decode [7, 6, 5, 4, 3, 2, 1, 0] .le32r 0 ∧
      encode [0, 1, 2, 3, 4, 5, 6, 7] .be32r 0 0x11223344 =
        (encode [7, 6, 5, 4, 3, 2, 1, 0] .le32r 0 0x11223344).map List.reverse) ∧
    Encoding.registers .be32r ≠ .natural ∧
    Encoding.width .be32r ≤ 8 * ([0, 1, 2, 3, 4, 5, 6, 7] : Cell).length ∧
    decode [0, 1, 2, 3, 4, 5, 6, 7] .be32r 0 = decode [0, 1, 2, 3, 6, 7, 4, 5] .be32 0 ∧
    encode [0, 1, 2, 3, 4, 5, 6, 7] .be32r 0 0x11223344 =
      (encode [0, 1, 2, 3, 6, 7, 4, 5] .be32 0 0x11223344).map (regroup .be32r) :=
  have hlayouts := reversed_layouts_mirror_plain_ones [0, 1, 2, 3, 4, 5, 6, 7]
  ⟨⟨rfl, hlayouts.1 .be32r rfl 0 0x11223344⟩, by decide, by decide,
    hlayouts.2 .be32r (by decide) (by decide) 0x11223344⟩

end Cell

end CyclicStack
