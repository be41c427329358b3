import Mathlib
import CyclicStack.Proofs.Stack.Operators

/-!
# Products, quotients and remainders

A product is the same whether its factors are read with or without a sign.  Quotients
differ, but both kinds go with their remainder: the divisor times the quotient and the
remainder make up the dividend.

For signed readings the quotient is truncated toward zero, and there is one that no word
has: the least number divided by `-1`.  It wraps to the least number, which is as good
modulo `2 ^ 64`.
-/

namespace CyclicStack

namespace Word

/-! ## Signed readings -/

theorem toSigned_toUInt64 (v : Int64) :
    toSigned v.toUInt64 = v.toInt := by
  rw [toSigned, Int64.toInt64_toUInt64]

theorem toSigned_eq_zero_iff {w : Word} :
    toSigned w = 0 ↔ w = 0 := by
  constructor
  · intro h
    have hsigned : w.toInt64 = 0 := Int64.toInt_inj.mp h
    rw [← w.toUInt64_toInt64, hsigned]
    rfl
  · rintro rfl
    rfl

theorem mulSigned_eq_mul (l r : Word) :
    mulSigned l r = l * r := by
  rw [mulSigned, Int64.toUInt64_mul, UInt64.toUInt64_toInt64, UInt64.toUInt64_toInt64]

theorem toSigned_divSigned (l r : Word) :
    toSigned (divSigned l r) = ((toSigned l).tdiv (toSigned r)).bmod (2 ^ 64) := by
  rw [divSigned, toSigned_toUInt64, Int64.toInt_div, toSigned, toSigned]

theorem toSigned_modSigned (l r : Word) :
    toSigned (modSigned l r) = (toSigned l).tmod (toSigned r) := by
  rw [modSigned, toSigned_toUInt64, Int64.toInt_mod, toSigned, toSigned]

/-- Only the least number divided by `-1` has a quotient out of range. -/
theorem toSigned_divSigned_of_not_overflow {l r : Word}
    (h : ¬(toSigned l = -2 ^ 63 ∧ toSigned r = -1)) :
    toSigned (divSigned l r) = (toSigned l).tdiv (toSigned r) := by
  rw [divSigned, toSigned_toUInt64]
  by_cases hl : l.toInt64 = Int64.minValue
  · refine Int64.toInt_div_of_ne_right _ _ fun hr => h ⟨?_, ?_⟩
    · rw [toSigned, hl, Int64.toInt_minValue]
    · rw [toSigned, hr]
      rfl
  · exact Int64.toInt_div_of_ne_left _ _ hl

end Word

/-- The numbers `q` and `m` are quotient and remainder of signed 64-bit numbers. -/
structure IsSignedDivision (l r q m : Int) : Prop where
  law : q * r + m ≡ l [ZMOD 2 ^ 64]
  small : |m| < |r|
  sign : m = 0 ∨ m.sign = l.sign
  truncated : ¬(l = -2 ^ 63 ∧ r = -1) → q = l.tdiv r
  overflow : l = -2 ^ 63 → r = -1 → q = -2 ^ 63 ∧ m = 0

theorem isSignedDivision_of_ne_zero {l r : Word} (h : r ≠ 0) :
    IsSignedDivision l.toSigned r.toSigned (l.divSigned r).toSigned
      (l.modSigned r).toSigned where
  law := by
    have hwrap : (l.divSigned r).toSigned ≡ l.toSigned.tdiv r.toSigned
        [ZMOD 2 ^ 64] := by
      rw [Word.toSigned_divSigned]
      exact Int.bmod_emod
    calc
      (l.divSigned r).toSigned * r.toSigned + (l.modSigned r).toSigned ≡
          l.toSigned.tdiv r.toSigned * r.toSigned +
            (l.modSigned r).toSigned [ZMOD 2 ^ 64] :=
        (hwrap.mul_right _).add_right _
      _ = l.toSigned := by
        rw [Word.toSigned_modSigned, Int.tdiv_mul_add_tmod]
  small := by
    have hpos : 0 < r.toSigned.natAbs :=
      Int.natAbs_pos.mpr fun hr => h (Word.toSigned_eq_zero_iff.mp hr)
    rw [Word.toSigned_modSigned, Int.abs_eq_natAbs, Int.abs_eq_natAbs, Int.natAbs_tmod]
    exact_mod_cast Nat.mod_lt _ hpos
  sign := by
    rw [Word.toSigned_modSigned, Int.sign_tmod]
    by_cases hdvd : r.toSigned ∣ l.toSigned
    · exact .inl (Int.tmod_eq_zero_of_dvd hdvd)
    · exact .inr (if_neg hdvd)
  truncated := Word.toSigned_divSigned_of_not_overflow
  overflow hl hr := by
    rw [Word.toSigned_divSigned, Word.toSigned_modSigned, hl, hr]
    decide

/-! ## Operators that divide -/

theorem Operator.operands_of_divides {op : Operator} (h : op.divides = true) :
    op.operands = 2 := by
  revert h
  cases op <;> decide

theorem Stack.apply_quotient {op : Operator} {f : Word → Word → Word}
    (heffect : op.effect = .quotient f) {l r : Word} (hr : r ≠ 0) (capacity : Nat)
    (rest : List Word) :
    apply op ⟨capacity, r :: l :: rest⟩ = .ok () ⟨capacity, f l r :: rest⟩ := by
  have htwo : op.operands = 2 := by
    rw [← op.operands_effect, heffect, Effect.operands]
  have hresult : op.result? [l, r] = some (f l r) := by
    rw [Operator.result?, heffect, Effect.result?, if_neg hr]
  rw [apply_of_operands_eq_two htwo, hresult, Option.elim_some]

/-! ## The main result -/

/-- Products with and without a sign leave the same word.  Quotients and remainders
belong together, with and without a sign, and division by zero leaves the operands where
they are. -/
theorem division_law (capacity : Nat) (l r : Word) (rest : List Word) :
    let s : Stack := ⟨capacity, r :: l :: rest⟩
    (∃ p : Word,
      Stack.apply .mul s = .ok () ⟨capacity, p :: rest⟩ ∧
      Stack.apply .muls s = .ok () ⟨capacity, p :: rest⟩) ∧
    (r ≠ 0 → ∃ q m : Word,
      Stack.apply .div s = .ok () ⟨capacity, q :: rest⟩ ∧
      Stack.apply .mod s = .ok () ⟨capacity, m :: rest⟩ ∧
      l.toNat = q.toNat * r.toNat + m.toNat ∧ m.toNat < r.toNat) ∧
    (r ≠ 0 → ∃ q m : Word,
      Stack.apply .divs s = .ok () ⟨capacity, q :: rest⟩ ∧
      Stack.apply .mods s = .ok () ⟨capacity, m :: rest⟩ ∧
      IsSignedDivision l.toSigned r.toSigned q.toSigned m.toSigned) ∧
    (r = 0 → ∀ op ∈ [Operator.div, .divs, .mod, .mods],
      Stack.apply op s = .error .divisionByZero s) := by
  intro s
  refine ⟨⟨l * r, ?_, ?_⟩, fun hr => ⟨l / r, l % r, ?_⟩,
    fun hr => ⟨l.divSigned r, l.modSigned r, ?_⟩, fun hr op hop => ?_⟩
  · exact Stack.apply_of_operands_eq_two rfl capacity l r rest
  · rw [← Word.mulSigned_eq_mul]
    exact Stack.apply_of_operands_eq_two rfl capacity l r rest
  · have hpos : 0 < r.toNat :=
      Nat.pos_of_ne_zero fun hzero => hr (UInt64.toNat_inj.mp hzero)
    refine ⟨Stack.apply_quotient rfl hr capacity rest,
      Stack.apply_quotient rfl hr capacity rest, ?_, ?_⟩
    · rw [UInt64.toNat_div, UInt64.toNat_mod, Nat.div_add_mod']
    · rw [UInt64.toNat_mod]
      exact Nat.mod_lt _ hpos
  · exact ⟨Stack.apply_quotient rfl hr capacity rest,
      Stack.apply_quotient rfl hr capacity rest, isSignedDivision_of_ne_zero hr⟩
  · have hdivides : op.divides = true := decide_eq_true hop
    have hoperands : op.operands ≤ s.size := by
      rw [Operator.operands_of_divides hdivides]
      exact Nat.le_add_left 2 rest.length
    exact Stack.apply_eq_error_iff.mpr
      ⟨rfl, .inr (.inl ⟨hoperands, hdivides, congrArg some hr, rfl⟩)⟩

theorem division_law_least_number :
    let least : Stack := ⟨3, [0xffffffffffffffff, 0x8000000000000000, 7]⟩
    (∃ q m : Word,
      Stack.apply .divs least = .ok () ⟨3, [q, 7]⟩ ∧
        Stack.apply .mods least = .ok () ⟨3, [m, 7]⟩ ∧
      q.toSigned = -2 ^ 63 ∧ m.toSigned = 0) ∧
    (∃ q m : Word,
      Stack.apply .div least = .ok () ⟨3, [q, 7]⟩ ∧
        Stack.apply .mod least = .ok () ⟨3, [m, 7]⟩ ∧
      2 ^ 63 = q.toNat * (2 ^ 64 - 1) + m.toNat ∧ m.toNat < 2 ^ 64 - 1) ∧
    Stack.apply .mods ⟨3, [0, 5]⟩ = .error .divisionByZero ⟨3, [0, 5]⟩ := by
  obtain ⟨-, hunsigned, hsigned, -⟩ :=
    division_law 3 0x8000000000000000 0xffffffffffffffff [7]
  obtain ⟨q, m, hdivs, hmods, hdivision⟩ := hsigned (by decide)
  exact ⟨⟨q, m, hdivs, hmods, hdivision.overflow rfl rfl⟩, hunsigned (by decide),
    (division_law 3 5 0 []).2.2.2 rfl .mods (by decide)⟩

end CyclicStack
