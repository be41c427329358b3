import CyclicStack.Number.General
import CyclicStack.Proofs.Number.Ratio

/-!
# Six significant digits

A number is rounded to six significant digits by rounding it to the unit of the sixth
digit.  The rounding can carry into a seventh digit, and then the exponent is one more
than that of the number.  Plain notation rounds the number a second time, to the
decimals that the exponent after the first rounding asks for.  Both roundings give the
same decimal: without a carry they are the same, and with one the number is so close to
a power of ten that a coarser unit rounds it to that power as well.
-/

namespace CyclicStack

/-- The decimal is the number rounded to so many significant digits, ties to even. -/
def RoundsTo (digits : Nat) (x d : ℚ) : Prop :=
  ∃ n : Nat, IsNearest (|x| / 10 ^ (Int.log 10 |x| + 1 - digits)) n ∧
    d = SignType.sign x * (n * 10 ^ (Int.log 10 |x| + 1 - digits))

theorem log_eq_of_le_of_lt {x : ℚ} {e : Int} (hle : 10 ^ e ≤ x)
    (hlt : x < 10 ^ (e + 1)) :
    Int.log 10 x = e := by
  have hpos : 0 < x := lt_of_lt_of_le (by positivity) hle
  apply le_antisymm
  · rw [← Int.lt_add_one_iff, ← Int.lt_zpow_iff_log_lt (by norm_num) hpos,
      Nat.cast_ofNat]
    exact hlt
  · rw [← Int.zpow_le_iff_le_log (by norm_num) hpos, Nat.cast_ofNat]
    exact hle

namespace General

section

variable {x : Ratio} (hnum : 0 < x.num) (hden : 0 < x.den)
include hnum hden

/-- The number in units of its sixth digit. -/
theorem bounds_of_decimalExponent :
    10 ^ 5 ≤ x.toRat * 10 ^ (5 - x.decimalExponent) ∧
      x.toRat * 10 ^ (5 - x.decimalExponent) < 10 ^ 6 := by
  have hpos := Ratio.toRat_pos hnum hden
  have hle := Int.zpow_log_le_self (b := 10) (by norm_num) hpos
  have hlt := Int.lt_zpow_succ_log_self (b := 10) (by norm_num) x.toRat
  rw [← Ratio.decimalExponent_eq_log hnum hden, Nat.cast_ofNat] at hle hlt
  generalize x.decimalExponent = e at *
  constructor
  · calc (10 : ℚ) ^ 5 = 10 ^ e * 10 ^ (5 - e) := by
          rw [← zpow_add₀ (by norm_num), show e + (5 - e) = 5 by ring]; norm_num
      _ ≤ x.toRat * 10 ^ (5 - e) := by gcongr
  · calc x.toRat * 10 ^ (5 - e) < 10 ^ (e + 1) * 10 ^ (5 - e) := by gcongr
      _ = 10 ^ 6 := by rw [← zpow_add₀ (by norm_num),
        show e + 1 + (5 - e) = 6 by ring]; norm_num

/-- The first rounding: six digits, and a carry where these are not enough. -/
theorem scientific_cases :
    ∃ n : Nat, IsNearest (x.toRat * 10 ^ (5 - x.decimalExponent)) n ∧ 10 ^ 5 ≤ n ∧
      (n < 10 ^ 6 ∧ scientific x = (n, x.decimalExponent) ∨
        n = 10 ^ 6 ∧ scientific x = (10 ^ 5, x.decimalExponent + 1)) := by
  have hnear := Ratio.isNearest_nearest_scale hden (b := 10) (by norm_num)
    (5 - x.decimalExponent)
  obtain ⟨hlow, hhigh⟩ := bounds_of_decimalExponent hnum hden
  rw [Nat.cast_ofNat] at hnear
  have hge : 10 ^ 5 ≤ (x.scale 10 (5 - x.decimalExponent)).nearest :=
    hnear.le_of_le (by exact_mod_cast hlow)
  have hle : (x.scale 10 (5 - x.decimalExponent)).nearest ≤ 10 ^ 6 :=
    hnear.ge_of_ge (by exact_mod_cast hhigh.le)
  refine ⟨_, hnear, hge, ?_⟩
  have hscientific : scientific x =
      if (x.scale 10 (5 - x.decimalExponent)).nearest = 10 ^ 6 then
        (10 ^ 5, x.decimalExponent + 1)
      else ((x.scale 10 (5 - x.decimalExponent)).nearest, x.decimalExponent) := rfl
  rw [hscientific]
  rcases hle.lt_or_eq with hlt | heq
  · exact .inl ⟨hlt, if_neg hlt.ne⟩
  · exact .inr ⟨heq, if_pos heq⟩

theorem scientific_bounds :
    10 ^ 5 ≤ (scientific x).1 ∧ (scientific x).1 < 10 ^ 6 := by
  obtain ⟨n, -, hge, ⟨hlt, h⟩ | ⟨-, h⟩⟩ := scientific_cases hnum hden
  · rw [h]
    exact ⟨hge, hlt⟩
  · rw [h]
    norm_num

/-- The exponent that is found with the digits is the exponent of the decimal. -/
theorem log_scientific :
    Int.log 10 ((scientific x).1 * 10 ^ ((scientific x).2 - 5) : ℚ) =
      (scientific x).2 := by
  obtain ⟨hge, hlt⟩ := scientific_bounds hnum hden
  generalize scientific x = s at *
  have hge' : (10 : ℚ) ^ 5 ≤ s.1 := by exact_mod_cast hge
  have hlt' : (s.1 : ℚ) < 10 ^ 6 := by exact_mod_cast hlt
  apply log_eq_of_le_of_lt
  · calc (10 : ℚ) ^ s.2 = 10 ^ 5 * 10 ^ (s.2 - 5) := by
          rw [zpow_sub₀ (by norm_num)]; norm_num; ring
      _ ≤ s.1 * 10 ^ (s.2 - 5) := by gcongr
  · calc (s.1 : ℚ) * 10 ^ (s.2 - 5) < 10 ^ 6 * 10 ^ (s.2 - 5) := by gcongr
      _ = 10 ^ (s.2 + 1) := by
          rw [zpow_sub₀ (by norm_num), zpow_add₀ (by norm_num)]; norm_num; ring

theorem roundsTo_scientific :
    RoundsTo 6 x.toRat ((scientific x).1 * 10 ^ ((scientific x).2 - 5)) := by
  have hpos := Ratio.toRat_pos hnum hden
  obtain ⟨n, hnear, -, hcases⟩ := scientific_cases hnum hden
  have hunit : Int.log 10 |x.toRat| + 1 - (6 : Nat) = -(5 - x.decimalExponent) := by
    rw [abs_of_pos hpos, ← Ratio.decimalExponent_eq_log hnum hden]
    push_cast
    ring
  refine ⟨n, ?_, ?_⟩
  · rw [hunit, zpow_neg, div_inv_eq_mul, abs_of_pos hpos]
    exact hnear
  · rw [hunit, sign_pos hpos, neg_sub, SignType.coe_one, one_mul]
    rcases hcases with ⟨-, h⟩ | ⟨rfl, h⟩
    · rw [h]
    · rw [h, show x.decimalExponent + 1 - 5 = x.decimalExponent - 5 + 1 by ring,
        zpow_add_one₀ (by norm_num)]
      push_cast
      ring

/-- The second rounding gives the digits of the first one. -/
theorem fixed_eq (he : (scientific x).2 < 6) :
    fixed x (5 - (scientific x).2).toNat = (scientific x).1 := by
  obtain ⟨n, hnear, -, hcases⟩ := scientific_cases hnum hden
  have hfixed := Ratio.isNearest_nearest_scale hden (b := 10) (by norm_num)
    (5 - (scientific x).2)
  rw [Nat.cast_ofNat] at hfixed
  rw [fixed, Int.toNat_of_nonneg (by omega)]
  apply hfixed.unique
  rcases hcases with ⟨-, h⟩ | ⟨rfl, h⟩
  · rw [h]
    exact hnear
  · -- The number is within half a unit of the power of ten, and the unit is now ten
    -- times as large.
    have hunit : x.toRat * 10 ^ (5 - x.decimalExponent) =
        x.toRat * 10 ^ (4 - x.decimalExponent) * 10 := by
      rw [show 5 - x.decimalExponent = 4 - x.decimalExponent + 1 by ring,
        zpow_add_one₀ (by norm_num), mul_assoc]
    have hclose := abs_le.mp hnear.1
    rw [hunit] at hclose
    rw [h]
    apply isNearest_of_lt
    rw [show 5 - (x.decimalExponent + 1) = 4 - x.decimalExponent by ring, abs_lt]
    push_cast at hclose ⊢
    constructor <;> linarith

end

end General

end CyclicStack
