import Mathlib

/-!
# Rounding

A number is rounded to the nearest multiple of the unit in its last place, and of two to the even one
(`rounded`). Rounding keeps the order (`rounded_mono`) and every double (`IsDouble.rounded_eq`), so it stays below
the doubles that a number is not above.
-/
namespace SatModulo

/-! ### Whole numbers -/

section Nearest

variable {x y : ℚ} {k : ℤ}

/-- The nearest whole number, and of two the even one. -/
def nearest (x : ℚ) : ℤ :=
  if Int.fract x < 1 / 2 then ⌊x⌋ else if Int.fract x = 1 / 2 then ⌊x⌋ + ⌊x⌋ % 2 else ⌊x⌋ + 1

theorem floor_le_nearest (x : ℚ) : ⌊x⌋ ≤ nearest x := by
  unfold nearest
  split_ifs <;> omega

theorem nearest_le_floor_add_one (x : ℚ) : nearest x ≤ ⌊x⌋ + 1 := by
  unfold nearest
  split_ifs <;> omega

theorem nearest_intCast (k : ℤ) : nearest k = k := by
  rw [nearest, Int.fract_intCast, if_pos (by norm_num), Int.floor_intCast]

theorem nearest_le_add_half (x : ℚ) : (nearest x : ℚ) ≤ x + 1 / 2 := by
  have split := Int.floor_add_fract x
  have low := Int.fract_nonneg x
  unfold nearest
  split_ifs with less half
  · linarith
  · have parity : ((⌊x⌋ % 2 : ℤ) : ℚ) ≤ 1 := by exact_mod_cast (show ⌊x⌋ % 2 ≤ 1 by omega)
    push_cast
    linarith
  · push_cast
    linarith

theorem nearest_mono (le : x ≤ y) : nearest x ≤ nearest y := by
  rcases (Int.floor_le_floor le).lt_or_eq with less | same
  · exact (nearest_le_floor_add_one x).trans (less.trans_le (floor_le_nearest y) :)
  · have fract : Int.fract x ≤ Int.fract y := by
      rw [Int.fract, Int.fract, same]
      linarith
    unfold nearest
    rw [same]
    split_ifs <;> grind

/-- Up to half a unit above an even number is rounded to it. -/
theorem nearest_le_of_even (even : k % 2 = 0) (le : x ≤ k + 1 / 2) : nearest x ≤ k := by
  refine (nearest_mono le).trans_eq ?_
  have half : Int.fract ((1 : ℚ) / 2) = 1 / 2 := Int.fract_eq_self.mpr (by norm_num)
  have floor : ⌊(1 : ℚ) / 2⌋ = 0 := Int.floor_eq_zero_iff.mpr (by norm_num)
  rw [nearest, Int.fract_intCast_add, Int.floor_intCast_add, half, floor, if_neg (lt_irrefl _), if_pos rfl]
  omega

end Nearest

/-! ### Doubles -/

section Rounded

variable {x y : ℚ}

/-- The exponent of the unit in the last of the 53 places of a number, which is no less than that of the least
double. -/
def lastPlace (x : ℚ) : ℤ := max (Int.log 2 x - 52) (-1074)

/-- The nearest double, if exponents had no upper bound. -/
def rounded (x : ℚ) : ℚ := nearest (x / 2 ^ lastPlace x) * 2 ^ lastPlace x

/-- A number of 53 places at most, up to the last of the least double. -/
def IsDouble (x : ℚ) : Prop := ∃ (m : ℕ) (e : ℤ), m < 2 ^ 53 ∧ -1074 ≤ e ∧ x = m * 2 ^ e

theorem lastPlace_mono (positive : 0 < x) (le : x ≤ y) : lastPlace x ≤ lastPlace y :=
  max_le_max_right _ (Int.sub_le_sub_right (Int.log_mono_right positive le) _)

theorem lt_zpow_lastPlace (x : ℚ) : x < 2 ^ (lastPlace x + 53) := by
  refine (Int.lt_zpow_succ_log_self (b := 2) (by norm_num) x).trans_le ?_
  rw [Nat.cast_ofNat]
  exact zpow_le_zpow_right₀ (by norm_num) (by unfold lastPlace; omega)

theorem zpow_lastPlace_le (normal : 2 ^ (-1022 : ℤ) ≤ x) : 2 ^ lastPlace x ≤ x := by
  have leading := Int.zpow_log_le_self (b := 2) (by norm_num) (lt_of_lt_of_le (by positivity) normal : 0 < x)
  rw [Nat.cast_ofNat] at leading
  rcases max_choice (Int.log 2 x - 52) (-1074) with same | same <;> rw [lastPlace, same]
  · exact (zpow_le_zpow_right₀ one_le_two (by omega)).trans leading
  · exact (zpow_le_zpow_right₀ one_le_two (by omega)).trans normal

theorem rounded_le_zpow (x : ℚ) : rounded x ≤ 2 ^ (lastPlace x + 53) := by
  have unit : (0 : ℚ) < 2 ^ lastPlace x := by positivity
  have small : x / 2 ^ lastPlace x < (2 ^ 53 : ℤ) := by
    rw [div_lt_iff₀ unit, Int.cast_pow, Int.cast_ofNat, ← zpow_natCast, ← zpow_add₀ two_ne_zero, add_comm]
    exact lt_zpow_lastPlace x
  have bound := (nearest_mono small.le).trans_eq (nearest_intCast _)
  rw [rounded, zpow_add₀ two_ne_zero, mul_comm (2 ^ lastPlace x)]
  exact mul_le_mul_of_nonneg_right (by exact_mod_cast bound) unit.le

/-- Rounding does not fall below the power of two that a number has reached. -/
theorem zpow_le_rounded (positive : 0 < x) (normal : -1074 < lastPlace x) : 2 ^ (lastPlace x + 52) ≤ rounded x := by
  have unit : (0 : ℚ) < 2 ^ lastPlace x := by positivity
  have leading : (2 : ℚ) ^ (lastPlace x + 52) ≤ x := by
    have low := Int.zpow_log_le_self (b := 2) (by norm_num) positive
    rw [Nat.cast_ofNat] at low
    rwa [show lastPlace x + 52 = Int.log 2 x by unfold lastPlace at normal ⊢; omega]
  have large : ((2 ^ 52 : ℤ) : ℚ) ≤ x / 2 ^ lastPlace x := by
    rw [le_div_iff₀ unit, Int.cast_pow, Int.cast_ofNat, ← zpow_natCast, ← zpow_add₀ two_ne_zero, add_comm]
    exact leading
  have bound := (nearest_intCast _).symm.trans_le (nearest_mono large)
  rw [rounded, zpow_add₀ two_ne_zero, mul_comm (2 ^ lastPlace x)]
  exact mul_le_mul_of_nonneg_right (by exact_mod_cast bound) unit.le

/-- The mantissa of a rounded number may be the power of two after those of 53 places, and is of 53 places unless its
exponent is the least one. -/
theorem mantissa_of_rounded {m : ℕ} (positive : 0 < x) (value : rounded x = m * 2 ^ lastPlace x) :
    m ≤ 2 ^ 53 ∧ (2 ^ 52 ≤ m ∨ lastPlace x = -1074) := by
  have unit : (0 : ℚ) < 2 ^ lastPlace x := by positivity
  constructor
  · have le := rounded_le_zpow x
    rw [value, add_comm, zpow_add₀ two_ne_zero] at le
    exact_mod_cast le_of_mul_le_mul_right le unit
  · refine (le_max_right _ _ : -1074 ≤ lastPlace x).eq_or_lt.symm.imp (fun normal => ?_) Eq.symm
    have le := zpow_le_rounded positive normal
    rw [value, add_comm, zpow_add₀ two_ne_zero] at le
    exact_mod_cast le_of_mul_le_mul_right le unit

theorem rounded_mono_of_pos (positive : 0 < x) (le : x ≤ y) : rounded x ≤ rounded y := by
  rcases (lastPlace_mono positive le).lt_or_eq with less | same
  · -- between them lies the power of two at which the last place changes
    have normal : -1074 < lastPlace y := (le_max_right _ _).trans_lt less
    calc rounded x ≤ 2 ^ (lastPlace x + 53) := rounded_le_zpow x
      _ ≤ 2 ^ (lastPlace y + 52) := zpow_le_zpow_right₀ (by norm_num) (by omega)
      _ ≤ rounded y := zpow_le_rounded (positive.trans_le le) normal
  · have unit : (0 : ℚ) < 2 ^ lastPlace y := by positivity
    rw [rounded, rounded, same]
    refine mul_le_mul_of_nonneg_right ?_ unit.le
    exact_mod_cast nearest_mono (div_le_div_of_nonneg_right le unit.le)

theorem rounded_zero : rounded 0 = 0 := by
  rw [rounded, zero_div, show nearest 0 = 0 from nearest_intCast 0, Int.cast_zero, zero_mul]

theorem rounded_nonneg (nonneg : 0 ≤ x) : 0 ≤ rounded x := by
  have low : 0 ≤ nearest (x / 2 ^ lastPlace x) :=
    (Int.floor_nonneg.mpr (by positivity)).trans (floor_le_nearest _)
  rw [rounded]
  positivity

/-- A double is rounded to itself. -/
theorem IsDouble.rounded_eq (double : IsDouble x) : rounded x = x := by
  obtain ⟨m, e, narrow, low, rfl⟩ := double
  rcases m.eq_zero_or_pos with rfl | positive
  · rw [Nat.cast_zero, zero_mul, rounded_zero]
  have place : lastPlace (m * 2 ^ e) ≤ e := by
    have less : (m : ℚ) * 2 ^ e < (2 : ℕ) ^ (e + 53) := by
      rw [Nat.cast_ofNat, zpow_add₀ two_ne_zero, mul_comm]
      exact mul_lt_mul_of_pos_left (by exact_mod_cast narrow) (by positivity)
    have log := (Int.lt_zpow_iff_log_lt (b := 2) (by norm_num) (by positivity)).mp less
    exact max_le (by omega) low
  obtain ⟨n, shift⟩ := Int.le.dest place
  have whole : (m * 2 ^ e : ℚ) / 2 ^ lastPlace (m * 2 ^ e) = ((m * 2 ^ n : ℤ) : ℚ) := by
    rw [div_eq_iff (by positivity)]
    push_cast
    rw [mul_assoc, ← zpow_natCast, ← zpow_add₀ two_ne_zero, add_comm, shift]
  rw [rounded, whole, nearest_intCast, ← whole, div_mul_cancel₀ _ (by positivity)]

theorem rounded_mono (nonneg : 0 ≤ x) (le : x ≤ y) : rounded x ≤ rounded y := by
  rcases nonneg.eq_or_lt with rfl | positive
  · rcases le.eq_or_lt with rfl | positive
    · exact le_rfl
    · rw [rounded_zero]
      exact rounded_nonneg le
  · exact rounded_mono_of_pos positive le

/-- A number is rounded to no more than a double that it is not above. -/
theorem rounded_le (nonneg : 0 ≤ x) (le : x ≤ y) (double : IsDouble y) : rounded x ≤ y :=
  (rounded_mono nonneg le).trans_eq double.rounded_eq

/-- A number is rounded to no less than a double that it is not below. -/
theorem le_rounded (nonneg : 0 ≤ x) (le : x ≤ y) (double : IsDouble x) : x ≤ rounded y :=
  double.rounded_eq.symm.trans_le (rounded_mono nonneg le)

theorem isDouble_zpow {e : ℤ} (low : -1074 ≤ e) : IsDouble (2 ^ e) :=
  ⟨1, e, by norm_num, low, by rw [Nat.cast_one, one_mul]⟩

/-- Above the subnormal numbers, rounding adds at most one part in `2 ^ 53`. -/
theorem rounded_le_mul (normal : 2 ^ (-1022 : ℤ) ≤ x) : rounded x ≤ x * (1 + 2 ^ (-53 : ℤ)) := by
  have positive : 0 < x := lt_of_lt_of_le (by positivity) normal
  have unit : (0 : ℚ) < 2 ^ lastPlace x := by positivity
  have low := Int.zpow_log_le_self (b := 2) (by norm_num) positive
  have place : lastPlace x = Int.log 2 x - 52 := by
    have log : -1022 ≤ Int.log 2 x :=
      (Int.zpow_le_iff_le_log (b := 2) (by norm_num) positive).mp (by rwa [Nat.cast_ofNat])
    exact max_eq_left (by omega)
  have half : (2 : ℚ) ^ lastPlace x * (1 / 2) ≤ x * 2 ^ (-53 : ℤ) := by
    rw [place, show Int.log 2 x - 52 = Int.log 2 x + (-53 : ℤ) + 1 by omega, zpow_add_one₀ two_ne_zero,
      zpow_add₀ two_ne_zero]
    rw [Nat.cast_ofNat] at low
    linarith [mul_le_mul_of_nonneg_right low (show (0 : ℚ) ≤ 2 ^ (-53 : ℤ) by positivity)]
  calc rounded x ≤ (x / 2 ^ lastPlace x + 1 / 2) * 2 ^ lastPlace x :=
        mul_le_mul_of_nonneg_right (nearest_le_add_half _) unit.le
    _ = x + 2 ^ lastPlace x * (1 / 2) := by field_simp
    _ ≤ x * (1 + 2 ^ (-53 : ℤ)) := by linarith

/-- Up to half a unit in the last place above one is rounded to one, which is even. -/
theorem rounded_le_one (nonneg : 0 ≤ x) (le : x ≤ 1 + 2 ^ (-53 : ℤ)) : rounded x ≤ 1 := by
  refine (rounded_mono nonneg le).trans ?_
  have log : Int.log 2 (1 + 2 ^ (-53 : ℤ) : ℚ) = 0 := by
    have floor : ⌊(1 + 2 ^ (-53 : ℤ) : ℚ)⌋₊ = 1 := (Nat.floor_eq_iff (by positivity)).mpr (by norm_num)
    rw [Int.log_of_one_le_right _ (by norm_num), floor]
    rfl
  have place : lastPlace (1 + 2 ^ (-53 : ℤ)) = -52 := by
    rw [lastPlace, log]
    rfl
  rw [rounded, place]
  have even : nearest ((1 + 2 ^ (-53 : ℤ)) / 2 ^ (-52 : ℤ)) ≤ 2 ^ 52 :=
    nearest_le_of_even (by norm_num) (by norm_num)
  have even : (nearest ((1 + 2 ^ (-53 : ℤ)) / 2 ^ (-52 : ℤ)) : ℚ) ≤ 2 ^ 52 := by exact_mod_cast even
  calc _ ≤ (2 : ℚ) ^ 52 * 2 ^ (-52 : ℤ) := mul_le_mul_of_nonneg_right even (by positivity)
    _ = 1 := by norm_num

end Rounded

end SatModulo
