import Mathlib
import CyclicStack.Proofs.Stack.Division

/-!
# Powers by repeated squaring

Repeated squaring asks for the power to half the exponent, squares it, and multiplies by
the base once more if the exponent is odd.  The exponents are words, or signed numbers,
whose halves are truncated toward zero.  Both have a magnitude that is halved with the
exponent and has its parity, and this is all that counts: the calls come to an end, and
the recurrence has one solution, the power to the magnitude.

A negative exponent takes one call more than its magnitude.  The exponent `-1` is
neither `0` nor `1`, but the power to its half is `1`, so that the base comes out all
the same.
-/

namespace CyclicStack

section Recurrence

variable {E : Type} [OfNat E 0] [OfNat E 1] [OfNat E 2] [Div E] [Mod E]

/-- Repeated squaring for the exponent `e` asks for the power to `e'`. -/
def Calls (e e' : E) : Prop :=
  e ≠ 0 ∧ e ≠ 1 ∧ e' = e / 2

instance [DecidableEq E] (e e' : E) : Decidable (Calls e e') :=
  inferInstanceAs (Decidable (_ ∧ _ ∧ _))

/-- The powers of `base` follow the recurrence of repeated squaring. -/
def Squares [DecidableEq E] (base : Word) (power : E → Word) : Prop :=
  ∀ e, power e =
    if e = 0 then 1
    else if e = 1 then base
    else
      let square := power (e / 2) * power (e / 2)
      if e % 2 = 0 then square else base * square

/-- A measure of exponents that halving halves. -/
structure IsMagnitude (size : E → Nat) : Prop where
  eq_zero_iff (e : E) : size e = 0 ↔ e = 0
  one : size 1 = 1
  half (e : E) : size (e / 2) = size e / 2
  parity (e : E) : size e % 2 = 0 ↔ e % 2 = 0

namespace IsMagnitude

variable {size : E → Nat}

theorem lt_of_calls (h : IsMagnitude size) {e e' : E} (hcalls : Calls e e') :
    size e' < size e := by
  obtain ⟨hzero, -, rfl⟩ := hcalls
  have hpos : size e ≠ 0 := fun hsize => hzero ((h.eq_zero_iff e).mp hsize)
  rw [h.half]
  omega

theorem wellFounded_calls (h : IsMagnitude size) :
    WellFounded fun e' e : E => Calls e e' :=
  Subrelation.wf h.lt_of_calls (measure size).wf

variable [DecidableEq E]

/-- The power to the magnitude follows the recurrence. -/
theorem power_eq (h : IsMagnitude size) (base : Word) (e : E) :
    Word.power base (size e) =
      if e = 0 then 1
      else if e = 1 then base
      else
        let square := Word.power base (size (e / 2)) * Word.power base (size (e / 2))
        if e % 2 = 0 then square else base * square := by
  by_cases hzero : e = 0
  · rw [if_pos hzero, (h.eq_zero_iff e).mpr hzero, Word.power, if_pos rfl]
  · by_cases hone : e = 1
    · rw [if_neg hzero, if_pos hone, hone, h.one, Word.power,
        if_neg one_ne_zero, if_pos rfl]
    · have hsize : size e ≠ 0 := fun hsize => hzero ((h.eq_zero_iff e).mp hsize)
      rw [if_neg hzero, if_neg hone, h.half]
      by_cases hunit : size e = 1
      · -- The exponent has the magnitude of `1` without being `1`.
        have hodd : ¬e % 2 = 0 := fun heven => by
          have := (h.parity e).mpr heven
          omega
        simp [hunit, hodd, Word.power]
      · rw [Word.power, if_neg hsize, if_neg hunit]
        simp only [h.parity]

/-- The recurrence has no other solution. -/
theorem squares_iff (h : IsMagnitude size) {base : Word} {power : E → Word} :
    Squares base power ↔ ∀ e, power e = Word.power base (size e) := by
  constructor
  · intro hpower e
    induction e using h.wellFounded_calls.induction with
    | _ e ih =>
        rw [hpower e, h.power_eq base e]
        by_cases hzero : e = 0
        · rw [if_pos hzero, if_pos hzero]
        · by_cases hone : e = 1
          · rw [if_neg hzero, if_neg hzero, if_pos hone, if_pos hone]
          · rw [ih (e / 2) ⟨hzero, hone, rfl⟩]
  · intro hpower
    rw [funext hpower]
    exact h.power_eq base

end IsMagnitude

end Recurrence

namespace Word

/-! ## The value of a power -/

theorem toNat_power (base : Word) (exp : Nat) :
    (power base exp).toNat = base.toNat ^ exp % 2 ^ 64 := by
  fun_induction power base exp with
  | case1 => rfl
  | case2 => rw [pow_one, Nat.mod_eq_of_lt base.toNat_lt]
  | case3 exp hzero hone half square heven ih =>
      have hexp : exp / 2 + exp / 2 = exp := by omega
      rw [UInt64.toNat_mul, ih, ← Nat.mul_mod, ← pow_add, hexp]
  | case4 exp hzero hone half square hodd ih =>
      have hexp : exp / 2 + exp / 2 + 1 = exp := by omega
      rw [UInt64.toNat_mul, UInt64.toNat_mul, ih, ← Nat.mul_mod, ← pow_add,
        Nat.mul_mod_mod, ← pow_succ', hexp]

/-! ## Exponents that are words -/

theorem isMagnitude_toNat :
    IsMagnitude fun e : Word => e.toNat where
  eq_zero_iff e := by rw [← UInt64.toNat_inj, UInt64.toNat_zero]
  one := rfl
  half e := UInt64.toNat_div e 2
  parity e := by rw [← UInt64.toNat_inj, UInt64.toNat_mod]; rfl

theorem two_le_of_calls {e e' : Word} (h : Calls e e') :
    2 ≤ e.toNat := by
  have hzero : e.toNat ≠ 0 := fun hzero => h.1 (UInt64.toNat_inj.mp hzero)
  have hone : e.toNat ≠ 1 := fun hone => h.2.1 (UInt64.toNat_inj.mp hone)
  omega

/-- Each further call needs an exponent that is twice as large. -/
theorem two_pow_le_of_isChain {e : Word} {chain : List Word}
    (h : (e :: chain).IsChain Calls) (hne : chain ≠ []) :
    2 ^ chain.length ≤ e.toNat := by
  induction chain generalizing e with
  | nil => exact absurd rfl hne
  | cons e' chain ih =>
      obtain ⟨hcalls, hchain⟩ := List.isChain_cons_cons.mp h
      have hhalf : e'.toNat = e.toNat / 2 := by
        rw [hcalls.2.2]
        exact isMagnitude_toNat.half e
      by_cases hnil : chain = []
      · simpa [hnil] using two_le_of_calls hcalls
      · have hle := ih hchain hnil
        rw [List.length_cons, pow_succ]
        omega

theorem length_le_of_isChain {chain : List Word} (h : chain.IsChain Calls) :
    chain.length ≤ 64 := by
  rcases chain with _ | ⟨e, chain⟩
  · exact Nat.zero_le 64
  · by_cases hne : chain = []
    · simp [hne]
    · have hlt := (two_pow_le_of_isChain h hne).trans_lt e.toNat_lt
      exact (Nat.pow_lt_pow_iff_right one_lt_two).mp hlt

/-! ## Exponents that are signed numbers -/

theorem isMagnitude_natAbs :
    IsMagnitude fun e : Int64 => e.toInt.natAbs where
  eq_zero_iff e := by rw [Int.natAbs_eq_zero, ← Int64.toInt_inj, Int64.toInt_zero]
  one := rfl
  half e := by
    rw [Int64.toInt_div_of_ne_right e 2 (by decide), Int.natAbs_tdiv]
    rfl
  parity e := by
    rw [← Int64.toInt_inj, Int64.toInt_mod, Int64.toInt_zero, ← Int.natAbs_eq_zero,
      Int.natAbs_tmod]
    rfl

/-- The power of signed numbers, by the recurrence for signed exponents. -/
def signedRecurrence (base exp : Int64) : Int64 :=
  if exp = 0 then 1
  else if exp = 1 then base
  else
    let half := signedRecurrence base (exp / 2)
    if exp % 2 = 0 then half * half else base * half * half
termination_by exp.toInt.natAbs
decreasing_by
  exact isMagnitude_natAbs.lt_of_calls ⟨‹_›, ‹_›, rfl⟩

theorem squares_signedRecurrence (base : Int64) :
    Squares base.toUInt64 fun exp => (signedRecurrence base exp).toUInt64 := by
  intro exp
  dsimp only
  rw [signedRecurrence]
  simp only [apply_ite Int64.toUInt64, Int64.toUInt64_mul, UInt64.mul_assoc]
  rfl

theorem toUInt64_signedRecurrence (base exp : Int64) :
    (signedRecurrence base exp).toUInt64 = power base.toUInt64 exp.toInt.natAbs :=
  isMagnitude_natAbs.squares_iff.mp (squares_signedRecurrence base) exp

theorem powSigned_of_neg {base : Int64} (hbase : base < 0) (exp : Int64) :
    powSigned base.toUInt64 exp.toUInt64 = 0 := by
  rw [powSigned, toSigned_toUInt64]
  exact if_pos (Int64.lt_iff_toInt_lt.mp hbase)

theorem powSigned_of_nonneg {base : Int64} (hbase : 0 ≤ base) (exp : Int64) :
    powSigned base.toUInt64 exp.toUInt64 = power base.toUInt64 exp.toInt.natAbs := by
  rw [powSigned, toSigned_toUInt64, toSigned_toUInt64]
  exact if_neg (Int64.le_iff_toInt_le.mp hbase).not_gt

end Word

/-! ## The main results -/

/-- The power of words is exact modulo `2 ^ 64`.  It is what repeated squaring on words
gives, and nothing else is, with never more than 64 calls open at a time. -/
theorem powers_are_exact :
    (∀ (capacity : Nat) (rest : List Word) (base exp : Word),
      Stack.apply .pow ⟨capacity, exp :: base :: rest⟩ =
        .ok () ⟨capacity, Word.pow base exp :: rest⟩) ∧
    (∀ chain : List Word, chain.IsChain Calls → chain.length ≤ 64) ∧
    (∀ (base : Word) (power : Word → Word), Squares base power ↔
      power = Word.pow base) ∧
    (∀ base exp : Word, (Word.pow base exp).toNat =
      base.toNat ^ exp.toNat % 2 ^ 64) := by
  refine ⟨fun capacity rest base exp => ?_, fun chain => Word.length_le_of_isChain,
    fun base power => ?_, fun base exp => Word.toNat_power base exp.toNat⟩
  · rw [Stack.apply_of_operands_eq_two rfl]
    rfl
  · rw [Word.isMagnitude_toNat.squares_iff, funext_iff]
    rfl

theorem powers_are_exact_all_calls :
    let chain := (List.range 64).map fun k => (0xffffffffffffffff : Word) >>> k.toUInt64
    chain.IsChain Calls ∧ chain.length ≤ 64 ∧ chain.head? = some 0xffffffffffffffff ∧
    Word.pow 3 0xffffffffffffffff =
      3 * (Word.pow 3 0x7fffffffffffffff * Word.pow 3 0x7fffffffffffffff) ∧
    (Word.pow 0 0).toNat = 0 ^ 0 % 2 ^ 64 := by
  obtain ⟨-, hlength, hsquares, hexact⟩ := powers_are_exact
  have hchain : ((List.range 64).map fun k => (0xffffffffffffffff : Word) >>>
      k.toUInt64).IsChain Calls := by
    decide +kernel
  exact ⟨hchain, hlength _ hchain, rfl,
    (hsquares 3 (Word.pow 3)).mpr rfl 0xffffffffffffffff, hexact 0 0⟩

/-- The recurrence for signed exponents comes to an end, and the power of signed numbers
follows it, except that it is zero for a negative base. -/
theorem signed_powers_follow_their_recurrence :
    WellFounded (fun e' e : Int64 => Calls e e') ∧
    ∀ base exp : Int64,
      (∀ (capacity : Nat) (rest : List Word),
        Stack.apply .pows ⟨capacity, exp.toUInt64 :: base.toUInt64 :: rest⟩ =
          .ok () ⟨capacity, Word.powSigned base.toUInt64 exp.toUInt64 :: rest⟩) ∧
      (base < 0 → Word.powSigned base.toUInt64 exp.toUInt64 = 0) ∧
      (0 ≤ base →
        Word.powSigned base.toUInt64 exp.toUInt64 =
          (Word.signedRecurrence base exp).toUInt64 ∧
        ((Word.powSigned base.toUInt64 exp.toUInt64).toNat : Int) =
          base.toInt ^ exp.toInt.natAbs % 2 ^ 64) := by
  refine ⟨Word.isMagnitude_natAbs.wellFounded_calls, fun base exp =>
    ⟨fun capacity rest => ?_, fun hbase => ?_, fun hbase => ?_⟩⟩
  · rw [Stack.apply_of_operands_eq_two rfl]
    rfl
  · exact Word.powSigned_of_neg hbase exp
  · have hvalue : (base.toUInt64.toNat : Int) = base.toInt := by
      rw [Int64.toNat_toUInt64_of_le hbase, Int64.cast_toNatClampNeg base hbase]
    rw [Word.powSigned_of_nonneg hbase, Word.toUInt64_signedRecurrence,
      Word.toNat_power]
    refine ⟨rfl, ?_⟩
    push_cast
    rw [hvalue]

theorem signed_powers_follow_their_recurrence_least_exponent :
    Word.powSigned (-3 : Int64).toUInt64 Int64.minValue.toUInt64 = 0 ∧
    Word.powSigned (3 : Int64).toUInt64 Int64.minValue.toUInt64 =
      (Word.signedRecurrence 3 Int64.minValue).toUInt64 ∧
    ((Word.powSigned (3 : Int64).toUInt64 (-3 : Int64).toUInt64).toNat : Int) = 27 := by
  obtain ⟨-, hpowers⟩ := signed_powers_follow_their_recurrence
  have hleast := (hpowers 3 Int64.minValue).2.2 (by decide)
  have hcube := (hpowers 3 (-3)).2.2 (by decide)
  exact ⟨(hpowers (-3) Int64.minValue).2.1 (by decide), hleast.1, hcube.2⟩

end CyclicStack
