import Mathlib
import CyclicStack.Number.Ratio

/-!
# Ratios as rational numbers

The value of a ratio is a rational number.  Scaling multiplies it by a power, rounding
gives the nearest natural number, and the decimal exponent is the logarithm to base ten.
Notations are stated through these facts and not through numerators and denominators.
-/

namespace CyclicStack

/-- The natural number is nearest to the rational one; of two equally near ones it is
the even one. -/
def IsNearest (y : ℚ) (n : Nat) : Prop :=
  |y - n| ≤ 1 / 2 ∧ (|y - n| = 1 / 2 → Even n)

/-! ## The nearest number -/

theorem isNearest_of_lt {y : ℚ} {n : Nat} (h : |y - n| < 1 / 2) :
    IsNearest y n :=
  ⟨h.le, fun heq => absurd heq h.ne⟩

theorem IsNearest.unique {y : ℚ} {n n' : Nat} (h : IsNearest y n)
    (h' : IsNearest y n') :
    n = n' := by
  wlog hle : n ≤ n' generalizing n n'
  · exact (this h' h (le_of_not_ge hle)).symm
  obtain ⟨k, rfl⟩ := Nat.exists_eq_add_of_le hle
  obtain ⟨hnear, heven⟩ := h
  obtain ⟨hnear', heven'⟩ := h'
  rw [abs_le] at hnear hnear'
  push_cast at hnear'
  have hk : k ≤ 1 := by
    have hcast : (k : ℚ) ≤ 1 := by linarith
    exact_mod_cast hcast
  interval_cases k
  · rfl
  · -- Two numbers in a row are both at a distance of a half, and only one of them is
    -- even.
    have hy : y = n + 1 / 2 := by
      push_cast at hnear'
      linarith
    subst hy
    have hn := heven (by norm_num)
    have hn' := heven' (by push_cast; norm_num)
    rw [Nat.even_add_one] at hn'
    exact absurd hn hn'

theorem IsNearest.le_of_le {y : ℚ} {n m : Nat} (h : IsNearest y n) (hm : m ≤ y) :
    m ≤ n := by
  have hnear := abs_le.mp h.1
  have hlt : (m : ℚ) < (n + 1 : Nat) := by push_cast; linarith
  exact Nat.lt_succ_iff.mp (by exact_mod_cast hlt)

theorem IsNearest.ge_of_ge {y : ℚ} {n m : Nat} (h : IsNearest y n) (hm : y ≤ m) :
    n ≤ m := by
  have hnear := abs_le.mp h.1
  have hlt : (n : ℚ) < (m + 1 : Nat) := by push_cast; linarith
  exact Nat.lt_succ_iff.mp (by exact_mod_cast hlt)

/-- A quotient is its whole part and a fraction below one. -/
theorem div_eq_div_add_mod (n : Nat) {d : Nat} (hd : 0 < d) :
    (n / d : ℚ) = (n / d : Nat) + (n % d : Nat) / d := by
  have hdpos : (0 : ℚ) < d := by exact_mod_cast hd
  have hdiv : ((d * (n / d) + n % d : Nat) : ℚ) = n := by rw [Nat.div_add_mod]
  push_cast at hdiv
  rw [div_eq_iff hdpos.ne', add_mul, div_mul_cancel₀ _ hdpos.ne', ← hdiv]
  ring

theorem isNearest_divNearest (n : Nat) {d : Nat} (hd : 0 < d) :
    IsNearest (n / d) (divNearest n d) := by
  have hdpos : (0 : ℚ) < d := by exact_mod_cast hd
  have hmod : ((n % d : Nat) : ℚ) < d := by exact_mod_cast Nat.mod_lt n hd
  rw [div_eq_div_add_mod n hd, divNearest]
  generalize n / d = q
  generalize n % d = r at *
  have hnonneg : (0 : ℚ) ≤ r / d := by positivity
  have hone : (r / d : ℚ) < 1 := (div_lt_one hdpos).mpr hmod
  split_ifs with hdown hup heven
  · have hlt : (r / d : ℚ) < 1 / 2 := by
      rw [div_lt_div_iff₀ hdpos two_pos]
      exact_mod_cast (by omega : r * 2 < 1 * d)
    apply isNearest_of_lt
    rw [add_sub_cancel_left, abs_of_nonneg hnonneg]
    exact hlt
  · have hlt : (1 / 2 : ℚ) < r / d := by
      rw [div_lt_div_iff₀ two_pos hdpos]
      exact_mod_cast (by omega : 1 * d < r * 2)
    apply isNearest_of_lt
    rw [abs_lt]
    push_cast
    constructor <;> linarith
  · have heq : (r / d : ℚ) = 1 / 2 := by
      rw [div_eq_div_iff hdpos.ne' two_ne_zero]
      exact_mod_cast (by omega : r * 2 = 1 * d)
    rw [heq]
    exact ⟨by norm_num, fun _ => Nat.even_iff.mpr heven⟩
  · have heq : (r / d : ℚ) = 1 / 2 := by
      rw [div_eq_div_iff hdpos.ne' two_ne_zero]
      exact_mod_cast (by omega : r * 2 = 1 * d)
    rw [heq]
    refine ⟨by push_cast; norm_num, fun _ => ?_⟩
    rw [Nat.even_add_one, Nat.even_iff]
    exact heven

/-! ## The number of digits -/

theorem digitCount_le_iff {n k : Nat} :
    digitCount n ≤ k ↔ n < 10 ^ k := by
  unfold digitCount
  split_ifs with hn
  · simp [hn]
  · rcases Nat.eq_zero_or_pos k with rfl | hk
    · simp [hn]
    · exact Nat.length_toDigits_le_iff (by norm_num) hk

theorem digitCount_eq_log {n : Nat} (hn : n ≠ 0) :
    digitCount n = Nat.log 10 n + 1 := by
  apply eq_of_forall_ge_iff
  intro k
  rw [digitCount_le_iff, ← Nat.log_lt_iff_lt_pow (by norm_num) hn, Nat.succ_le_iff]

theorem digitCount_pred_eq_clog {n : Nat} (hn : 0 < n) :
    digitCount (n - 1) = Nat.clog 10 n := by
  apply eq_of_forall_ge_iff
  intro k
  rw [digitCount_le_iff, Nat.clog_le_iff_le_pow (by norm_num)]
  have hpow : 0 < 10 ^ k := by positivity
  omega

/-! ## Values -/

namespace Ratio

def toRat (x : Ratio) : ℚ :=
  x.num / x.den

theorem toRat_pos {x : Ratio} (hnum : 0 < x.num) (hden : 0 < x.den) :
    0 < x.toRat := by
  unfold toRat
  positivity

theorem pow_div_pow_eq_zpow {b : Nat} (hb : b ≠ 0) (e : Int) :
    ((Nat.pow b e.toNat : Nat) : ℚ) / (Nat.pow b (-e).toNat : Nat) = (b : ℚ) ^ e := by
  have hb' : (b : ℚ) ≠ 0 := by exact_mod_cast hb
  rw [Nat.pow_eq, Nat.pow_eq, Nat.cast_pow, Nat.cast_pow, ← zpow_natCast,
    ← zpow_natCast, ← zpow_sub₀ hb']
  congr 1
  omega

theorem toRat_ofScaled (m : Nat) {b : Nat} (hb : b ≠ 0) (e : Int) :
    (ofScaled m b e).toRat = m * (b : ℚ) ^ e := by
  rw [toRat, ofScaled, Nat.cast_mul, mul_div_assoc, pow_div_pow_eq_zpow hb]

theorem toRat_scale (x : Ratio) {b : Nat} (hb : b ≠ 0) (e : Int) :
    (x.scale b e).toRat = x.toRat * (b : ℚ) ^ e := by
  rw [toRat, scale, Nat.cast_mul, Nat.cast_mul, mul_div_mul_comm,
    pow_div_pow_eq_zpow hb, toRat]

theorem den_ofScaled_pos (m : Nat) {b : Nat} (hb : b ≠ 0) (e : Int) :
    0 < (ofScaled m b e).den :=
  Nat.pow_pos (Nat.pos_of_ne_zero hb)

theorem den_scale_pos {x : Ratio} (hden : 0 < x.den) {b : Nat} (hb : b ≠ 0) (e : Int) :
    0 < (x.scale b e).den :=
  Nat.mul_pos hden (Nat.pow_pos (Nat.pos_of_ne_zero hb))

theorem isNearest_nearest_scale {x : Ratio} (hden : 0 < x.den) {b : Nat} (hb : b ≠ 0)
    (e : Int) :
    IsNearest (x.toRat * (b : ℚ) ^ e) (x.scale b e).nearest := by
  rw [← toRat_scale x hb]
  exact isNearest_divNearest _ (den_scale_pos hden hb e)

theorem decimalExponent_eq_log {x : Ratio} (hnum : 0 < x.num) (hden : 0 < x.den) :
    x.decimalExponent = Int.log 10 x.toRat := by
  have hden' : (0 : ℚ) < x.den := by exact_mod_cast hden
  have hnum' : (0 : ℚ) < x.num := by exact_mod_cast hnum
  unfold decimalExponent
  split_ifs with hle
  · have hone : 1 ≤ x.toRat := (one_le_div hden').mpr (by exact_mod_cast hle)
    have hquotient : x.num / x.den ≠ 0 := (Nat.div_pos hle hden).ne'
    rw [Int.log_of_one_le_right 10 hone, toRat, Nat.floor_div_eq_div,
      digitCount_eq_log hquotient]
    push_cast
    ring
  · have hone : x.toRat ≤ 1 :=
      (div_le_one hden').mpr (by exact_mod_cast (not_le.mp hle).le)
    have hceil : ⌈x.toRat⁻¹⌉₊ = (x.den + x.num - 1) / x.num := by
      rw [← Nat.ceilDiv_eq_add_pred_div, toRat, inv_div]
      apply eq_of_forall_ge_iff
      intro k
      rw [Nat.ceil_le, div_le_iff₀ hnum', ceilDiv_le_iff_le_mul hnum, Nat.mul_comm]
      exact_mod_cast Iff.rfl
    have hpos : 0 < (x.den + x.num - 1) / x.num := Nat.div_pos (by omega) hnum
    rw [Int.log_of_right_le_one 10 hone, hceil, digitCount_pred_eq_clog hpos]

end Ratio

end CyclicStack
