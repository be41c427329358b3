import CyclicStack.Number.Binary
import CyclicStack.Proofs.Number.Ratio

/-!
# The nearest double

A word stands for a number by its sign, its exponent and its fraction.  The patterns
without a sign are in the order of their numbers, and so they stay if the exponent is
not bounded.  Rounding is to the nearest of these unbounded patterns first.  A pattern
from infinity on becomes infinity, and it is the nearest one if and only if the number
is at least the middle between the largest double and the next power of two.

The significand is rounded to a multiple of the last fraction bit.  Patterns with the
same or a greater exponent stand for such multiples too; those with a smaller exponent
are all below the number, behind the multiple with the smallest significand.
-/

namespace CyclicStack

/-- The number with the given exponent and fraction in double precision. -/
def doubleValue (exponent fraction : Nat) : ℚ :=
  if exponent = 0 then fraction * 2 ^ (-1074 : Int)
  else (2 ^ 52 + fraction) * 2 ^ ((exponent : Int) - 1075)

namespace Word

/-- The sign of a word as a double. -/
def sign (w : Word) : ℚ :=
  if w.toNat.testBit 63 then -1 else 1

/-- The number that a word stands for as a double, by its sign, its exponent and its
fraction.  Infinities and patterns that are not numbers stand for none. -/
def value? (w : Word) : Option ℚ :=
  let exponent : Nat := w.toNat / 2 ^ 52 % 2 ^ 11
  let fraction : Nat := w.toNat % 2 ^ 52
  if exponent = 2047 then none else some (w.sign * doubleValue exponent fraction)

/-- The word is the double without a sign that is nearest to the number; of two equally
near ones it is the even one.  From the middle between the largest double and the next
power of two on, it is infinity. -/
structure IsNearestDouble (x : ℚ) (w : Word) : Prop where
  unsigned : w.toNat < 2 ^ 63
  infinite : 2 ^ 1024 - 2 ^ 970 ≤ x → w = infinity
  finite : x < 2 ^ 1024 - 2 ^ 970 → ∃ v, w.value? = some v ∧
    ∀ (w' : Word) v', w'.value? = some v' →
    v' ≠ v → |x - v| < |x - v'| ∨ |x - v| = |x - v'| ∧ Even w.toNat

end Word

/-! ## Patterns in order -/

/-- The number of a pattern without a sign, where the exponent is not bounded. -/
def patternValue (p : Nat) : ℚ :=
  doubleValue (p / 2 ^ 52) (p % 2 ^ 52)

/-- A significand at an exponent, also if it carries into the exponent. -/
theorem patternValue_significand {k s : Nat} (hs : s ≤ 2 ^ 53)
    (hk : k = 0 ∨ 2 ^ 52 ≤ s) :
    patternValue (k * 2 ^ 52 + s) = s * 2 ^ ((k : Int) - 1074) := by
  unfold patternValue doubleValue
  rcases lt_or_ge s (2 ^ 52) with hlt | hge
  · obtain rfl : k = 0 := by omega
    rw [show (0 * 2 ^ 52 + s) / 2 ^ 52 = 0 by omega,
      show (0 * 2 ^ 52 + s) % 2 ^ 52 = s by omega, if_pos rfl]
    norm_num
  · obtain ⟨f, rfl⟩ := Nat.exists_eq_add_of_le hge
    rcases lt_or_ge f (2 ^ 52) with hf | hf
    · rw [show (k * 2 ^ 52 + (2 ^ 52 + f)) / 2 ^ 52 = k + 1 by omega,
        show (k * 2 ^ 52 + (2 ^ 52 + f)) % 2 ^ 52 = f by omega, if_neg (by omega),
        show ((k + 1 : Nat) : Int) - 1075 = k - 1074 by push_cast; ring]
      push_cast
      rfl
    · obtain rfl : f = 2 ^ 52 := by omega
      rw [show (k * 2 ^ 52 + (2 ^ 52 + 2 ^ 52)) / 2 ^ 52 = k + 2 by omega,
        show (k * 2 ^ 52 + (2 ^ 52 + 2 ^ 52)) % 2 ^ 52 = 0 by omega, if_neg (by omega),
        show ((k + 2 : Nat) : Int) - 1075 = k - 1074 + 1 by push_cast; ring,
        zpow_add_one₀ two_ne_zero]
      push_cast
      ring

theorem exists_significand (p : Nat) :
    ∃ k s, p = k * 2 ^ 52 + s ∧ s < 2 ^ 53 ∧ (k = 0 ∨ 2 ^ 52 ≤ s) := by
  rcases lt_or_ge p (2 ^ 52) with hlt | hge
  · exact ⟨0, p, by omega, by omega, .inl rfl⟩
  · exact ⟨p / 2 ^ 52 - 1, 2 ^ 52 + p % 2 ^ 52, by omega, by omega, .inr (by omega)⟩

theorem patternValue_strictMono :
    StrictMono patternValue := by
  apply strictMono_nat_of_lt_succ
  intro p
  obtain ⟨k, s, rfl, hs, hk⟩ := exists_significand p
  rw [Nat.add_assoc, patternValue_significand hs.le hk,
    patternValue_significand hs (by omega)]
  gcongr
  exact Nat.lt_succ_self s

/-- A pattern is a multiple of the last bit of every exponent that is not greater. -/
theorem patternValue_multiple {k d s : Nat} (hs : s ≤ 2 ^ 53)
    (hk : k + d = 0 ∨ 2 ^ 52 ≤ s) :
    patternValue ((k + d) * 2 ^ 52 + s) =
      (s * 2 ^ d : Nat) * 2 ^ ((k : Int) - 1074) := by
  rw [patternValue_significand hs hk,
    show ((k + d : Nat) : Int) - 1074 = d + (k - 1074) by push_cast; ring,
    zpow_add₀ two_ne_zero, zpow_natCast]
  push_cast
  ring

/-- A pattern is below the smallest significand of every greater exponent. -/
theorem patternValue_lt_of_exponent_lt {k k' s : Nat} (hs : s < 2 ^ 53) (hk : k' < k) :
    patternValue (k' * 2 ^ 52 + s) < 2 ^ 52 * 2 ^ ((k : Int) - 1074) := by
  have hlt :=
    patternValue_strictMono (show k' * 2 ^ 52 + s < k * 2 ^ 52 + 2 ^ 52 by omega)
  rw [patternValue_significand (by norm_num) (.inr le_rfl)] at hlt
  exact_mod_cast hlt

theorem patternValue_zero :
    patternValue 0 = 0 := by
  norm_num [patternValue, doubleValue]

/-! ## The nearest pattern -/

/-- The lower of two numbers is the nearer one up to the middle between them. -/
theorem dist_lower_le_iff {x a b : ℚ} (h : a < b) :
    |x - a| ≤ |x - b| ↔ 2 * x ≤ a + b := by
  rw [← sq_le_sq, ← sub_nonneg,
    show (x - b) ^ 2 - (x - a) ^ 2 = (b - a) * (a + b - 2 * x) by ring,
    mul_nonneg_iff_of_pos_left (sub_pos.mpr h), sub_nonneg]

theorem dist_upper_le_iff {x a b : ℚ} (h : a < b) :
    |x - b| ≤ |x - a| ↔ a + b ≤ 2 * x := by
  rw [← sq_le_sq, ← sub_nonneg,
    show (x - a) ^ 2 - (x - b) ^ 2 = (b - a) * (2 * x - (a + b)) by ring,
    mul_nonneg_iff_of_pos_left (sub_pos.mpr h), sub_nonneg]

/-- The pattern is nearest to the number, where the exponent is not bounded. -/
def IsNearestPattern (x : ℚ) (p : Nat) : Prop :=
  ∀ q, q ≠ p → |x - patternValue p| < |x - patternValue q| ∨
    |x - patternValue p| = |x - patternValue q| ∧ Even p

theorem IsNearestPattern.dist_le {x : ℚ} {p : Nat} (h : IsNearestPattern x p)
    (q : Nat) :
    |x - patternValue p| ≤ |x - patternValue q| := by
  by_cases hq : q = p
  · rw [hq]
  · rcases h q hq with hlt | ⟨heq, -⟩
    · exact hlt.le
    · exact heq.le

theorem IsNearest.lt_or_eq {y : ℚ} {n m : Nat} (h : IsNearest y n) (hm : m ≠ n) :
    |y - n| < |y - m| ∨ |y - n| = |y - m| ∧ Even n := by
  have hone : 1 ≤ |(m : ℚ) - n| := by
    have hint : 1 ≤ |(m : Int) - n| := Int.one_le_abs (by omega)
    exact_mod_cast hint
  have htriangle : |(m : ℚ) - n| ≤ |y - n| + |y - m| := by
    rw [abs_sub_comm y (m : ℚ), add_comm]
    exact abs_sub_le _ _ _
  obtain ⟨hhalf, heven⟩ := h
  rcases (show |y - n| ≤ |y - m| by linarith).lt_or_eq with hlt | heq
  · exact .inl hlt
  · exact .inr ⟨heq, heven (by linarith)⟩

theorem IsNearest.dist_le {y : ℚ} {n : Nat} (h : IsNearest y n) (m : Nat) :
    |y - n| ≤ |y - m| := by
  by_cases hm : m = n
  · rw [hm]
  · rcases h.lt_or_eq hm with hlt | ⟨heq, -⟩
    · exact hlt.le
    · exact heq.le

theorem abs_mul_sub_mul (y z : ℚ) {u : ℚ} (hu : 0 < u) :
    |y * u - z * u| = |y - z| * u := by
  rw [← sub_mul, abs_mul, abs_of_pos hu]

/-- A rounded significand gives the nearest pattern. -/
theorem isNearestPattern_of_significand {y : ℚ} {k s : Nat} (h : IsNearest y s)
    (hlt : y ≤ 2 ^ 53) (hk : k = 0 ∨ 2 ^ 52 ≤ y) :
    IsNearestPattern (y * 2 ^ ((k : Int) - 1074)) (k * 2 ^ 52 + s) := by
  have hs : s ≤ 2 ^ 53 := h.ge_of_ge (by exact_mod_cast hlt)
  have hk' : k = 0 ∨ 2 ^ 52 ≤ s :=
    hk.imp_right fun hle => h.le_of_le (by exact_mod_cast hle)
  have hunit : (0 : ℚ) < 2 ^ ((k : Int) - 1074) := by positivity
  intro q hq
  have hq' := patternValue_strictMono.injective.ne hq
  rw [patternValue_significand hs hk'] at hq' ⊢
  obtain ⟨k', s', rfl, hs', hks'⟩ := exists_significand q
  rcases le_or_gt k k' with hle | hgt
  · obtain ⟨d, rfl⟩ := Nat.exists_eq_add_of_le hle
    rw [patternValue_multiple hs'.le hks'] at hq' ⊢
    have hne : s' * 2 ^ d ≠ s := fun heq => hq' (by rw [heq])
    rw [abs_mul_sub_mul _ _ hunit, abs_mul_sub_mul _ _ hunit]
    rcases h.lt_or_eq hne with hcloser | ⟨heq, heven⟩
    · exact .inl (mul_lt_mul_of_pos_right hcloser hunit)
    · refine .inr ⟨by rw [heq], ?_⟩
      exact ((by decide : Even (2 ^ 52)).mul_left k).add heven
  · have hbase : (2 : ℚ) ^ 52 ≤ y := by
      rcases hk with rfl | hbase
      · omega
      · exact hbase
    -- The smallest significand is between the number and the pattern, and not nearer
    -- than the rounded one.
    have hbelow := patternValue_lt_of_exponent_lt hs' hgt
    have hnear := h.dist_le (2 ^ 52)
    rw [Nat.cast_pow, Nat.cast_ofNat, abs_of_nonneg (sub_nonneg.mpr hbase)] at hnear
    left
    calc |y * 2 ^ ((k : Int) - 1074) - s * 2 ^ ((k : Int) - 1074)|
        = |y - s| * 2 ^ ((k : Int) - 1074) := abs_mul_sub_mul _ _ hunit
      _ ≤ (y - 2 ^ 52) * 2 ^ ((k : Int) - 1074) := by gcongr
      _ < y * 2 ^ ((k : Int) - 1074) - patternValue (k' * 2 ^ 52 + s') := by
          rw [sub_mul]
          exact sub_lt_sub_left hbelow _
      _ ≤ |y * 2 ^ ((k : Int) - 1074) - patternValue (k' * 2 ^ 52 + s')| :=
        le_abs_self _

/-- A number below half of the smallest one. -/
theorem isNearestPattern_zero {x : ℚ} (hx : 0 ≤ x) (hsmall : x < 2 ^ (-1075 : Int)) :
    IsNearestPattern x 0 := by
  intro q hq
  have hone : patternValue 1 = 2 * 2 ^ (-1075 : Int) := by
    have hvalue := patternValue_significand (k := 0) (s := 1) (by norm_num) (.inl rfl)
    rw [Nat.zero_mul, Nat.zero_add, Nat.cast_one, one_mul] at hvalue
    rw [hvalue, show ((0 : Nat) : Int) - 1074 = 1 + -1075 by norm_num,
      zpow_add₀ two_ne_zero, zpow_one]
  have hle := patternValue_strictMono.monotone (Nat.one_le_iff_ne_zero.mpr hq)
  left
  rw [patternValue_zero, sub_zero, abs_of_nonneg hx, abs_sub_comm]
  exact lt_of_lt_of_le (by linarith) (le_abs_self _)

namespace Ratio

variable {x : Ratio}

/-- The lengths of numerator and denominator give the exponent but for one. -/
theorem bounds_of_log2 (hnum : 0 < x.num) (hden : 0 < x.den) :
    2 ^ ((x.num.log2 : Int) - x.den.log2 - 1) ≤ x.toRat ∧
      x.toRat < 2 ^ ((x.num.log2 : Int) - x.den.log2 + 1) := by
  have hden' : (0 : ℚ) < x.den := by exact_mod_cast hden
  have hnumLow : (2 : ℚ) ^ x.num.log2 ≤ x.num := by
    exact_mod_cast Nat.log2_self_le hnum.ne'
  have hnumHigh : (x.num : ℚ) < 2 ^ (x.num.log2 + 1) := by
    exact_mod_cast Nat.lt_log2_self
  have hdenLow : (2 : ℚ) ^ x.den.log2 ≤ x.den := by
    exact_mod_cast Nat.log2_self_le hden.ne'
  have hdenHigh : (x.den : ℚ) < 2 ^ (x.den.log2 + 1) := by
    exact_mod_cast Nat.lt_log2_self
  rw [toRat, le_div_iff₀ hden', div_lt_iff₀ hden']
  generalize x.num.log2 = a at *
  generalize x.den.log2 = b at *
  constructor
  · calc
      (2 : ℚ) ^ ((a : Int) - b - 1) * x.den ≤ 2 ^ ((a : Int) - b - 1) * 2 ^ (b + 1) := by
          gcongr
      _ = 2 ^ a := by
          rw [← zpow_natCast, ← zpow_natCast, ← zpow_add₀ two_ne_zero]
          congr 1
          push_cast
          ring
      _ ≤ x.num := hnumLow
  · calc (x.num : ℚ) < 2 ^ (a + 1) := hnumHigh
      _ = 2 ^ ((a : Int) - b + 1) * 2 ^ b := by
          rw [← zpow_natCast, ← zpow_natCast, ← zpow_add₀ two_ne_zero]
          congr 1
          push_cast
          ring
      _ ≤ 2 ^ ((a : Int) - b + 1) * x.den := by gcongr

theorem den_le_num_scale_iff (hden : 0 < x.den) (e : Int) :
    (x.scale 2 (-e)).den ≤ (x.scale 2 (-e)).num ↔ 2 ^ e ≤ x.toRat := by
  have hscaled : (0 : ℚ) < (x.scale 2 (-e)).den := by
    exact_mod_cast den_scale_pos hden two_ne_zero _
  have hvalue := toRat_scale x two_ne_zero (-e)
  rw [Nat.cast_ofNat, zpow_neg, ← div_eq_mul_inv] at hvalue
  rw [← one_le_div (show (0 : ℚ) < 2 ^ e by positivity), ← hvalue, toRat,
    one_le_div hscaled]
  exact_mod_cast Iff.rfl

theorem bounds_of_binaryExponent (hnum : 0 < x.num) (hden : 0 < x.den) :
    2 ^ x.binaryExponent ≤ x.toRat ∧ x.toRat < 2 ^ (x.binaryExponent + 1) := by
  obtain ⟨hlow, hhigh⟩ := bounds_of_log2 hnum hden
  have hexponent : x.binaryExponent =
      if (2 : ℚ) ^ ((x.num.log2 : Int) - x.den.log2) ≤ x.toRat then
        (x.num.log2 : Int) - x.den.log2
      else (x.num.log2 : Int) - x.den.log2 - 1 :=
    if_congr (den_le_num_scale_iff hden _) rfl rfl
  rw [hexponent]
  split_ifs with hle
  · exact ⟨hle, hhigh⟩
  · exact ⟨hlow, by rw [sub_add_cancel]; exact not_le.mp hle⟩

end Ratio

/-- A ratio is rounded to the nearest pattern, and what is beyond infinity becomes
infinity. -/
theorem BinaryFormat.exists_ofRatio_eq {x : Ratio} (hnum : 0 < x.num)
    (hden : 0 < x.den) :
    ∃ p, IsNearestPattern x.toRat p ∧ double.ofRatio x = min p (2047 * 2 ^ 52) := by
  obtain ⟨hlow, hhigh⟩ := Ratio.bounds_of_binaryExponent hnum hden
  set last := max (x.binaryExponent - 52) (-1074) with hlast
  obtain ⟨k, hk⟩ : ∃ k : Nat, last = k - 1074 := ⟨(last + 1074).toNat, by omega⟩
  have hnear := Ratio.isNearest_nearest_scale hden two_ne_zero (-last)
  rw [Nat.cast_ofNat] at hnear
  have hofRatio : double.ofRatio x =
      min ((last + 1074).toNat * 2 ^ 52 + (x.scale 2 (-last)).nearest)
        (2047 * 2 ^ 52) := rfl
  have hbelow : x.toRat * 2 ^ (-last) ≤ 2 ^ 53 := by
    calc x.toRat * 2 ^ (-last) ≤ 2 ^ (x.binaryExponent + 1) * 2 ^ (-last) := by gcongr
      _ = 2 ^ (x.binaryExponent + 1 - last) := by rw [← zpow_add₀ two_ne_zero,
        sub_eq_add_neg]
      _ ≤ 2 ^ (53 : Int) := zpow_le_zpow_right₀ one_le_two (by omega)
      _ = 2 ^ 53 := by norm_num
  have habove : k = 0 ∨ 2 ^ 52 ≤ x.toRat * 2 ^ (-last) := by
    rcases Nat.eq_zero_or_pos k with hzero | hpos
    · exact .inl hzero
    · right
      calc (2 : ℚ) ^ 52 = 2 ^ x.binaryExponent * 2 ^ (-last) := by
            rw [← zpow_add₀ two_ne_zero, show x.binaryExponent + -last = 52 by omega]
            norm_num
        _ ≤ x.toRat * 2 ^ (-last) := by gcongr
  have hpattern := isNearestPattern_of_significand hnear hbelow habove
  rw [← hk, mul_assoc, ← zpow_add₀ two_ne_zero, neg_add_cancel, zpow_zero,
    mul_one] at hpattern
  refine ⟨_, hpattern, ?_⟩
  rw [hofRatio, show (last + 1074).toNat = k by omega]

/-! ## Overflow -/

theorem patternValue_infinity :
    patternValue (2047 * 2 ^ 52) = 2 ^ 1024 := by
  have hvalue := patternValue_significand (k := 2046) (s := 2 ^ 52) (by norm_num)
    (.inr le_rfl)
  rw [show 2047 * 2 ^ 52 = 2046 * 2 ^ 52 + 2 ^ 52 by norm_num, hvalue]
  rw [Nat.cast_pow, Nat.cast_ofNat,
    show ((2046 : Nat) : Int) - 1074 = (972 : Nat) by norm_num, zpow_natCast, ← pow_add]

theorem patternValue_largest :
    patternValue (2047 * 2 ^ 52 - 1) = 2 ^ 1024 - 2 ^ 971 := by
  have hvalue := patternValue_significand (k := 2045) (s := 2 ^ 53 - 1) (by norm_num)
    (.inr (by norm_num))
  rw [show 2047 * 2 ^ 52 - 1 = 2045 * 2 ^ 52 + (2 ^ 53 - 1) by norm_num, hvalue]
  have hcast : ((2 ^ 53 - 1 : Nat) : ℚ) = 2 ^ 53 - 1 := by norm_num
  rw [hcast, show ((2045 : Nat) : Int) - 1074 = (971 : Nat) by norm_num,
    zpow_natCast, sub_mul, ← pow_add, one_mul]

/-- Overflow is a matter of the exponent that is not bounded. -/
theorem IsNearestPattern.infinity_le_iff {x : ℚ} {p : Nat} (h : IsNearestPattern x p) :
    2047 * 2 ^ 52 ≤ p ↔ 2 ^ 1024 - 2 ^ 970 ≤ x := by
  have hgap : (2 : ℚ) ^ 971 = 2 * 2 ^ 970 := by rw [pow_succ, mul_comm]
  have hlargest := patternValue_largest
  have hinfinity := patternValue_infinity
  rw [hgap] at hlargest
  clear hgap
  generalize (2 : ℚ) ^ 970 = gap at *
  generalize (2 : ℚ) ^ 1024 = power at *
  constructor
  · intro hle
    have hmono := patternValue_strictMono.monotone hle
    have hcloser := h.dist_le (2047 * 2 ^ 52 - 1)
    rw [dist_upper_le_iff (patternValue_strictMono (by omega)), hlargest] at hcloser
    rw [hinfinity] at hmono
    linarith
  · intro hge
    by_contra hlt
    have hmono := patternValue_strictMono.monotone (show p ≤ 2047 * 2 ^ 52 - 1 by omega)
    have hbelow := patternValue_strictMono (not_le.mp hlt)
    -- The number is not closer to the pattern than to infinity, so it is the middle of
    -- two patterns in a row.
    have hfarther : |x - patternValue (2047 * 2 ^ 52)| ≤ |x - patternValue p| := by
      rw [dist_upper_le_iff hbelow]
      linarith
    obtain ⟨heq, heven⟩ :=
      (h (2047 * 2 ^ 52) (by omega)).resolve_left (not_lt.mpr hfarther)
    have hp : p = 2047 * 2 ^ 52 - 1 := by
      have hlower := (dist_lower_le_iff hbelow).mp heq.le
      apply patternValue_strictMono.injective
      apply le_antisymm hmono
      linarith
    rw [hp] at heven
    exact absurd heven (by decide)

/-! ## Words -/

namespace Word

theorem value?_eq (w : Word) :
    w.value? =
      if w.toNat % 2 ^ 63 < 2047 * 2 ^ 52 then
        some (w.sign * patternValue (w.toNat % 2 ^ 63))
      else none := by
  have hword := w.toNat_lt
  unfold value? patternValue
  dsimp only
  rw [show w.toNat % 2 ^ 63 / 2 ^ 52 = w.toNat / 2 ^ 52 % 2 ^ 11 by omega,
    show w.toNat % 2 ^ 63 % 2 ^ 52 = w.toNat % 2 ^ 52 by omega]
  split_ifs <;> first | rfl | omega

theorem value?_of_lt {w : Word} (h : w.toNat < 2 ^ 63) :
    w.value? = if w.toNat < 2047 * 2 ^ 52 then
      some (patternValue w.toNat) else none := by
  have hsign : w.sign = 1 := by
    rw [sign, Nat.testBit_lt_two_pow h, if_neg Bool.false_ne_true]
  rw [value?_eq, Nat.mod_eq_of_lt h, hsign, one_mul]

theorem toNat_ofNat_of_le {p : Nat} (h : p ≤ 2047 * 2 ^ 52) :
    (UInt64.ofNat p).toNat = p := by
  rw [UInt64.toNat_ofNat']
  exact Nat.mod_eq_of_lt (by omega)

theorem value?_ofNat {p : Nat} (h : p < 2047 * 2 ^ 52) :
    value? (UInt64.ofNat p) = some (patternValue p) := by
  have hp := toNat_ofNat_of_le h.le
  rw [value?_of_lt (by omega), hp, if_pos h]

theorem patternValue_of_value? {w : Word} {v : ℚ} (hw : w.toNat < 2 ^ 63)
    (h : w.value? = some v) :
    w.toNat < 2047 * 2 ^ 52 ∧ v = patternValue w.toNat := by
  rw [value?_of_lt hw] at h
  split_ifs at h with hlt
  exact ⟨hlt, (Option.some.inj h).symm⟩

/-- A number is that of a pattern, with a minus or without. -/
theorem exists_patternValue_eq {w : Word} {v : ℚ} (h : w.value? = some v) :
    ∃ q, v = patternValue q ∨ v = -patternValue q := by
  rw [value?_eq, sign] at h
  refine ⟨w.toNat % 2 ^ 63, ?_⟩
  split_ifs at h
  · exact .inr (by rw [← Option.some.inj h, neg_one_mul])
  · exact .inl (by rw [← Option.some.inj h, one_mul])

end Word

/-- Negative numbers are not nearer. -/
theorem IsNearestPattern.neg {x : ℚ} {p q : Nat} (h : IsNearestPattern x p) (hx : 0 ≤ x)
    (hne : -patternValue q ≠ patternValue p) :
    |x - patternValue p| < |x - -patternValue q| ∨
      |x - patternValue p| = |x - -patternValue q| ∧ Even p := by
  rcases Nat.eq_zero_or_pos q with rfl | hq
  · rw [patternValue_zero, neg_zero] at hne ⊢
    have hzero := h 0 (by rintro rfl; exact hne patternValue_zero.symm)
    rwa [patternValue_zero] at hzero
  · left
    have hpos : 0 < patternValue q := patternValue_zero ▸ patternValue_strictMono hq
    calc |x - patternValue p| ≤ |x - patternValue 0| := h.dist_le 0
      _ = x := by rw [patternValue_zero, sub_zero, abs_of_nonneg hx]
      _ < x - -patternValue q := by linarith
      _ ≤ |x - -patternValue q| := le_abs_self _

namespace Word

theorem isNearestDouble_infinity {x : ℚ} (h : 2 ^ 1024 - 2 ^ 970 ≤ x) :
    IsNearestDouble x infinity :=
  ⟨by decide, fun _ => rfl, fun hlt => absurd h (not_le.mpr hlt)⟩

theorem isNearestDouble_ofNat {x : ℚ} {p : Nat} (hx : 0 ≤ x)
    (h : IsNearestPattern x p) :
    IsNearestDouble x (UInt64.ofNat (min p (2047 * 2 ^ 52))) := by
  rcases lt_or_ge p (2047 * 2 ^ 52) with hlt | hge
  · have hp := toNat_ofNat_of_le hlt.le
    rw [min_eq_left hlt.le]
    refine ⟨by omega, fun hlarge => ?_, fun _ => ⟨_, value?_ofNat hlt,
      fun w' v' hvalue hne => ?_⟩⟩
    · exact absurd (h.infinity_le_iff.mpr hlarge) (not_le.mpr hlt)
    · rw [hp]
      obtain ⟨q, rfl | rfl⟩ := exists_patternValue_eq hvalue
      · exact h q fun heq => hne (by rw [heq])
      · exact h.neg hx hne
  · rw [min_eq_right hge]
    exact isNearestDouble_infinity (h.infinity_le_iff.mp hge)

/-- There is one nearest double: two of them would have a third one between them, or be
a pair in a row. -/
theorem IsNearestDouble.unique {x : ℚ} {w w' : Word} (h : IsNearestDouble x w)
    (h' : IsNearestDouble x w') :
    w = w' := by
  rcases le_or_gt (2 ^ 1024 - 2 ^ 970) x with hlarge | hsmall
  · rw [h.infinite hlarge, h'.infinite hlarge]
  wlog hle : w.toNat ≤ w'.toNat generalizing w w'
  · exact (this h' h (le_of_not_ge hle)).symm
  obtain ⟨v, hv, hnearest⟩ := h.finite hsmall
  obtain ⟨v', hv', hnearest'⟩ := h'.finite hsmall
  obtain ⟨hw, rfl⟩ := patternValue_of_value? h.unsigned hv
  obtain ⟨hw', rfl⟩ := patternValue_of_value? h'.unsigned hv'
  rcases hle.eq_or_lt with heq | hlt
  · exact UInt64.toNat_inj.mp heq
  exfalso
  have hvalues := patternValue_strictMono hlt
  have hdist := hnearest w' _ hv' hvalues.ne'
  have hdist' := hnearest' w _ hv hvalues.ne
  obtain ⟨heq, heven⟩ := hdist.resolve_left fun hcloser =>
    hdist'.elim (lt_asymm hcloser) fun htie => hcloser.ne htie.1.symm
  obtain ⟨-, heven'⟩ := hdist'.resolve_left heq.not_gt
  have hnext : w.toNat + 1 < w'.toNat := by
    rw [Nat.even_iff] at heven heven'
    omega
  have hlow := patternValue_strictMono (Nat.lt_succ_self w.toNat)
  have hhigh := patternValue_strictMono hnext
  have hbetween : |x - patternValue w.toNat| ≤ |x - patternValue (w.toNat + 1)| :=
    (hnearest _ _ (value?_ofNat (hnext.trans hw')) hlow.ne').elim le_of_lt fun htie =>
      htie.1.le
  rw [dist_lower_le_iff hlow] at hbetween
  have hmiddle := (dist_upper_le_iff hvalues).mp heq.ge
  linarith

/-! ## Decimals -/

theorem two_pow_le_ten_pow (n : Nat) :
    (2 : ℚ) ^ (3 * n) ≤ 10 ^ n := by
  rw [pow_mul]
  gcongr
  norm_num

theorem decimal_lt (m : Nat) (e : Int) :
    (m * 10 ^ e : ℚ) < 10 ^ (digitCount m + e) := by
  have hm : (m : ℚ) < 10 ^ digitCount m := by exact_mod_cast digitCount_le_iff.mp le_rfl
  rw [zpow_add₀ (by norm_num), zpow_natCast]
  gcongr

theorem le_decimal {m : Nat} (hm : m ≠ 0) (e : Int) :
    10 ^ (digitCount m + e - 1) ≤ (m * 10 ^ e : ℚ) := by
  have hpow : (10 : ℚ) ^ Nat.log 10 m ≤ m := by exact_mod_cast Nat.pow_log_le_self 10 hm
  rw [digitCount_eq_log hm,
    show ((Nat.log 10 m + 1 : Nat) : Int) + e - 1 = Nat.log 10 m + e by push_cast; ring,
    zpow_add₀ (by norm_num), zpow_natCast]
  gcongr

/-- A decimal is read as the nearest double. -/
theorem isNearestDouble_ofDecimal (m : Nat) (e : Int) :
    IsNearestDouble (m * 10 ^ e) (ofDecimal m e) := by
  have hnonneg : (0 : ℚ) ≤ m * 10 ^ e := by positivity
  unfold ofDecimal
  dsimp only
  split_ifs with hsmall hlarge
  · have hhalf : (m * 10 ^ e : ℚ) < 2 ^ (-1075 : Int) := by
      rcases hsmall with rfl | hleading
      · rw [Nat.cast_zero, zero_mul]
        positivity
      · calc (m * 10 ^ e : ℚ) < 10 ^ (digitCount m + e) := decimal_lt m e
          _ ≤ 10 ^ (-(400 : Nat) : Int) := zpow_le_zpow_right₀ (by norm_num) (by omega)
          _ = (10 ^ 400)⁻¹ := by rw [zpow_neg, zpow_natCast]
          _ ≤ (2 ^ (3 * 400))⁻¹ := by
              gcongr
              exact two_pow_le_ten_pow 400
          _ ≤ 2 ^ (-1075 : Int) := by
              rw [← zpow_natCast, ← zpow_neg]
              exact zpow_le_zpow_right₀ one_le_two (by norm_num)
    exact isNearestDouble_ofNat hnonneg (isNearestPattern_zero hnonneg hhalf)
  · apply isNearestDouble_infinity
    calc (2 : ℚ) ^ 1024 - 2 ^ 970 ≤ 2 ^ 1024 := sub_le_self _ (by positivity)
      _ ≤ 2 ^ (3 * 400) := pow_le_pow_right₀ one_le_two (by norm_num)
      _ ≤ 10 ^ 400 := two_pow_le_ten_pow 400
      _ = 10 ^ ((400 : Nat) : Int) := by rw [zpow_natCast]
      _ ≤ 10 ^ (digitCount m + e - 1) := zpow_le_zpow_right₀ (by norm_num) (by omega)
      _ ≤ m * 10 ^ e := le_decimal (fun hzero => hsmall (.inl hzero)) e
  · have hm : 0 < m := Nat.pos_of_ne_zero fun hzero => hsmall (.inl hzero)
    obtain ⟨p, hp, heq⟩ := BinaryFormat.exists_ofRatio_eq (x := .ofScaled m 10 e)
      (Nat.mul_pos hm (Nat.pow_pos (by norm_num)))
        (Ratio.den_ofScaled_pos m (by norm_num) e)
    rw [Ratio.toRat_ofScaled m (by norm_num), Nat.cast_ofNat] at hp
    rw [heq]
    exact isNearestDouble_ofNat hnonneg hp

end Word

end CyclicStack
