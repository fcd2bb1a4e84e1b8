import SatModulo.Proofs.Doubles
import SatModulo.Proofs.Rounding

/-!
# Amounts

An amount is a double from zero up, but not infinite. Sums, differences, products and quotients of amounts are those
of the numbers that they stand for, rounded, as long as these are in the range of doubles.
-/
namespace SatModulo

open Float.Model Float.Model.UnpackedFloat

/-! ### Mantissas -/

theorem mantissa_ofMantissaAndAccuracy {m : ℕ} {accuracy : Accuracy} :
    (ExtendedMantissa.ofMantissaAndAccuracy m accuracy).mantissa = m := by
  rcases accuracy with _ | _ | _ | _ <;> rfl

/-- A mantissa and the two bits after it tell of a number its whole part, and how the rest compares with a half. -/
structure Represents (em : ExtendedMantissa) (x : ℚ) : Prop where
  floor : ⌊x⌋ = em.mantissa
  round : em.roundBit = true ↔ 1 / 2 ≤ Int.fract x
  sticky : em.stickyBit = true ↔ Int.fract x ≠ 0 ∧ Int.fract x ≠ 1 / 2

namespace Represents

variable {em : ExtendedMantissa} {x : ℚ}

theorem exact (m : ℕ) : Represents (.ofMantissaAndAccuracy m .exact) m where
  floor := Int.floor_natCast m
  round := by simp [ExtendedMantissa.ofMantissaAndAccuracy, Int.fract_natCast]
  sticky := by simp [ExtendedMantissa.ofMantissaAndAccuracy, Int.fract_natCast]

/-- The quotient of two numbers with the accuracy of its remainder is their fraction. -/
theorem fraction {n d : ℕ} (positive : 0 < d) :
    Represents (.ofMantissaAndAccuracy (n / d) (accuracyOfFraction (n % d) d)) (n / d) := by
  have fract : Int.fract ((n : ℚ) / d) = (n % d : ℕ) / d := Int.fract_div_natCast_eq_div_natCast_mod
  have floor : ⌊(n : ℚ) / d⌋ = (n / d : ℕ) := by
    rw [← Int.cast_natCast n, Rat.floor_intCast_div_natCast, Int.natCast_div]
  have positive' : (0 : ℚ) < d := Nat.cast_pos.mpr positive
  have half : 1 / 2 ≤ Int.fract ((n : ℚ) / d) ↔ d ≤ 2 * (n % d) := by
    rw [fract, le_div_iff₀ positive', div_mul_eq_mul_div, one_mul, div_le_iff₀' two_pos]
    exact_mod_cast Iff.rfl
  have middle : Int.fract ((n : ℚ) / d) = 1 / 2 ↔ 2 * (n % d) = d := by
    rw [fract, div_eq_iff positive'.ne', div_mul_eq_mul_div, one_mul, eq_div_iff two_ne_zero, mul_comm]
    exact_mod_cast Iff.rfl
  have nothing : Int.fract ((n : ℚ) / d) = 0 ↔ n % d = 0 := by
    rw [fract, div_eq_zero_iff, or_iff_left positive'.ne', Nat.cast_eq_zero]
  have floor {accuracy : Accuracy} := floor.trans (congrArg _ (@mantissa_ofMantissaAndAccuracy _ accuracy).symm)
  rw [accuracyOfFraction]
  split
  · rename_i zero
    exact ⟨floor, iff_of_false nofun (by rw [half]; omega),
      iff_of_false nofun fun ⟨rest, _⟩ => rest (nothing.mpr zero)⟩
  rename_i rest
  rcases compared : compare (2 * (n % d)) d
  · have less := Nat.compare_eq_lt.mp compared
    exact ⟨floor, iff_of_false nofun (by rw [half]; omega),
      iff_of_true rfl ⟨mt nothing.mp rest, mt middle.mp less.ne⟩⟩
  · have same := Nat.compare_eq_eq.mp compared
    exact ⟨floor, iff_of_true rfl (half.mpr same.ge), iff_of_false nofun fun ⟨_, more⟩ => more (middle.mpr same)⟩
  · have more := Nat.compare_eq_gt.mp compared
    exact ⟨floor, iff_of_true rfl (half.mpr more.le),
      iff_of_true rfl ⟨mt nothing.mp rest, mt middle.mp more.ne'⟩⟩

theorem roundedMantissa (represents : Represents em x) : nearest x = em.roundedMantissa := by
  obtain ⟨floor, round, sticky⟩ := represents
  obtain ⟨m, _ | _, _ | _⟩ := em <;>
    simp only [ExtendedMantissa.roundedMantissa, ExtendedMantissa.accuracy, Accuracy.roundToNearestEven, nearest] <;>
    grind

/-- A bit that is shifted out is not lost: it goes into the accuracy. -/
theorem shiftRightOne (represents : Represents em x) : Represents em.shiftRightOne (x / 2) := by
  obtain ⟨floor, round, sticky⟩ := represents
  have split := Int.floor_add_fract x
  have low := Int.fract_nonneg x
  have high := Int.fract_lt_one x
  rw [floor, Int.cast_natCast] at split
  have whole : (em.mantissa : ℚ) = 2 * (em.mantissa / 2 : ℕ) + (em.mantissa % 2 : ℕ) := by
    exact_mod_cast (Nat.div_add_mod em.mantissa 2).symm
  -- the bit that is dropped from the mantissa is the half of what is left over
  rcases Nat.mod_two_eq_zero_or_one em.mantissa with bit | bit
  all_goals
    rw [bit] at whole
    push_cast [Nat.cast_div_charZero] at whole
    have floor' : ⌊x / 2⌋ = (em.mantissa / 2 : ℕ) := by
      rw [Int.floor_eq_iff, Int.cast_natCast]
      constructor <;> linarith
    have rest : Int.fract (x / 2) = x / 2 - (em.mantissa / 2 : ℕ) := by
      rw [Int.fract, floor', Int.cast_natCast]
    refine ⟨floor', ?_, ?_⟩
    · simp only [ExtendedMantissa.shiftRightOne, bit]
      grind
    · simp only [ExtendedMantissa.shiftRightOne, Bool.or_eq_true, round, sticky]
      grind

theorem shiftRight (represents : Represents em x) (n : ℕ) : Represents (em >>> n) (x / 2 ^ n) := by
  change Represents (n.repeat ExtendedMantissa.shiftRightOne em) _
  induction n with
  | zero => rwa [pow_zero, div_one]
  | succ n ih =>
    rw [Nat.repeat, pow_succ, ← div_div]
    exact ih.shiftRightOne

end Represents

/-! ### Unpacked amounts -/

namespace Unpacked

def amount : UnpackedFloat → ℚ
  | .finite _ m e _ => m * 2 ^ e
  | _ => 0

theorem amount_zero (sign : Sign) : amount (.zero sign) = 0 := rfl

theorem amount_finite {sign : Sign} {m : ℕ} {e : ℤ} {pos : 0 < m} : amount (.finite sign m e pos) = m * 2 ^ e := rfl

/-- Zero, or a positive number with the mantissa and the exponent of a double, but for the greatest exponent. -/
inductive IsAmount : UnpackedFloat → Prop
  | zero (sign : Sign) : IsAmount (.zero sign)
  | finite (m : ℕ) (e : ℤ) (pos : 0 < m) (narrow : m < 2 ^ 53) (low : -1074 ≤ e)
    (full : 2 ^ 52 ≤ m ∨ e = -1074) : IsAmount (.finite .positive m e pos)

section Round

variable {m : ℕ} {e : ℤ} {y : ℚ} {accuracy : Accuracy}

theorem log_mul_zpow (positive : 0 < m) (floor : ⌊y⌋ = m) : Int.log 2 (y * 2 ^ e) = m.log2 + e := by
  have low : (m : ℚ) ≤ y := by exact_mod_cast (Int.le_floor.mp floor.ge)
  have high : y < m + 1 := by exact_mod_cast (Int.floor_lt.mp (floor.trans_lt (Int.lt_succ m)))
  have least : ((2 : ℚ)) ^ m.log2 ≤ m := by exact_mod_cast Nat.log2_self_le positive.ne'
  have most : (m : ℚ) + 1 ≤ 2 ^ (m.log2 + 1) := by exact_mod_cast Nat.lt_log2_self
  have positive : 0 < y * 2 ^ e := mul_pos ((Nat.cast_pos.mpr positive).trans_le low) (by positivity)
  refine le_antisymm (Int.lt_add_one_iff.mp ?_) ?_
  · rw [← Int.lt_zpow_iff_log_lt (by norm_num) positive, add_right_comm, zpow_add₀ (by norm_num), Nat.cast_ofNat,
      ← Nat.cast_succ, zpow_natCast]
    exact mul_lt_mul_of_pos_right (high.trans_le most) (by positivity)
  · rw [← Int.zpow_le_iff_le_log (by norm_num) positive, zpow_add₀ (by norm_num), Nat.cast_ofNat, zpow_natCast]
    exact mul_le_mul_of_nonneg_right (least.trans low) (by positivity)

theorem targetExponent_eq (positive : 0 < m) (floor : ⌊y⌋ = m) :
    Format.binary64.targetExponent (totalExponent m e) = lastPlace (y * 2 ^ e) := by
  rw [Format.targetExponent, totalExponent, lastPlace, log_mul_zpow positive floor, Format.minExponent,
    Format.mantissaBits]
  norm_num
  omega

theorem shift_of_narrow (narrow : m < 2 ^ 53) (low : -1074 ≤ e) :
    shiftToTargetExponent .binary64 m e .exact = (⟨m, false, false⟩, e) := by
  have log : m.log2 ≤ 52 := by
    rcases m.eq_zero_or_pos with rfl | positive
    · decide
    · exact Nat.lt_succ_iff.mp ((Nat.log2_lt positive.ne').mpr narrow)
  have stays : (Format.binary64.targetExponent (totalExponent m e) - e).toNat = 0 := by
    simp only [Format.targetExponent, totalExponent, Format.mantissaBits, Format.minExponent]
    omega
  rw [shiftToTargetExponent, shiftToExponent, stays]
  simp [HShiftRight.hShiftRight, Nat.repeat, ExtendedMantissa.ofMantissaAndAccuracy]

theorem shift_of_overflow (low : -1074 ≤ e) :
    shiftToTargetExponent .binary64 (2 ^ 53) e .exact = (⟨2 ^ 52, false, false⟩, e + 1) := by
  have moves : (Format.binary64.targetExponent (totalExponent (2 ^ 53) e) - e).toNat = 1 := by
    simp only [Format.targetExponent, totalExponent, Format.mantissaBits, Format.minExponent, Nat.log2_two_pow]
    omega
  rw [shiftToTargetExponent, shiftToExponent, moves]
  simp [HShiftRight.hShiftRight, Nat.repeat, ExtendedMantissa.ofMantissaAndAccuracy, ExtendedMantissa.shiftRightOne]

/-- The first shift leads to the last place of the number. -/
theorem shift_represents (positive : 0 < m) (represents : Represents (.ofMantissaAndAccuracy m accuracy) y)
    (fine : e ≤ lastPlace (y * 2 ^ e)) :
    (shiftToTargetExponent .binary64 m e accuracy).2 = lastPlace (y * 2 ^ e) ∧
      Represents (shiftToTargetExponent .binary64 m e accuracy).1 (y * 2 ^ e / 2 ^ lastPlace (y * 2 ^ e)) := by
  have floor : ⌊y⌋ = m := by rw [represents.floor, mantissa_ofMantissaAndAccuracy]
  obtain ⟨n, shift⟩ := Int.le.dest fine
  have same : y * 2 ^ e / 2 ^ lastPlace (y * 2 ^ e) = y / 2 ^ n := by
    rw [← shift, zpow_add₀ two_ne_zero, zpow_natCast]
    field_simp
  rw [shiftToTargetExponent, shiftToExponent, targetExponent_eq positive floor, same, ← shift, add_sub_cancel_left,
    Int.toNat_natCast]
  exact ⟨rfl, represents.shiftRight n⟩

/-- Rounding what a mantissa with accuracy stands for gives its nearest double. -/
theorem roundWithAccuracy_spec (positive : 0 < m) (represents : Represents (.ofMantissaAndAccuracy m accuracy) y)
    (fine : e ≤ lastPlace (y * 2 ^ e)) :
    IsAmount (roundWithAccuracy .binary64 .positive m e accuracy) ∧
      amount (roundWithAccuracy .binary64 .positive m e accuracy) = rounded (y * 2 ^ e) := by
  have floor : ⌊y⌋ = m := by rw [represents.floor, mantissa_ofMantissaAndAccuracy]
  have above : 0 < y * 2 ^ e :=
    mul_pos ((Nat.cast_pos.mpr positive).trans_le (Int.le_floor.mp floor.ge)) (by positivity)
  obtain ⟨place, shifted⟩ := shift_represents positive represents fine
  rw [roundWithAccuracy]
  generalize shiftToTargetExponent .binary64 m e accuracy = first at *
  generalize y * 2 ^ e = x at *
  obtain ⟨em, _⟩ := first
  subst place
  have value : rounded x = em.roundedMantissa * 2 ^ lastPlace x := by
    rw [rounded, shifted.roundedMantissa, Int.cast_natCast]
  have low : -1074 ≤ lastPlace x := le_max_right _ _
  obtain ⟨most, full⟩ := mantissa_of_rounded above value
  dsimp only
  generalize em.roundedMantissa = r at *
  -- the mantissa has one place too many only if it was rounded up to the next power of two
  rcases most.lt_or_eq with narrow | rfl
  · rw [shift_of_narrow narrow low]
    dsimp only
    split
    · rename_i nothing
      rw [value, nothing, Nat.cast_zero, zero_mul]
      exact ⟨.zero _, rfl⟩
    · exact ⟨.finite _ _ _ narrow low full, value.symm⟩
  · rw [shift_of_overflow low]
    dsimp only
    rw [dif_neg (by decide), value, amount, zpow_add_one₀ two_ne_zero]
    refine ⟨.finite _ _ _ (by norm_num) (by omega) (.inl le_rfl), ?_⟩
    push_cast
    ring

/-- Lowering an exponent keeps the number. -/
theorem amount_decreaseExponent (m : ℕ) (e : ℤ) (t : ℤ) :
    ((decreaseExponent m e t).1 : ℚ) * 2 ^ (decreaseExponent m e t).2 = m * 2 ^ e := by
  rw [decreaseExponent, Nat.shiftLeft_eq, Nat.cast_mul, Nat.cast_pow, Nat.cast_ofNat, mul_assoc, ← zpow_natCast,
    ← zpow_add₀ two_ne_zero, add_sub_cancel]

theorem round_spec (positive : 0 < m) :
    IsAmount (UnpackedFloat.round .binary64 .positive m e) ∧
      amount (UnpackedFloat.round .binary64 .positive m e) = rounded (m * 2 ^ e) := by
  have target := targetExponent_eq positive (Int.floor_natCast m : ⌊(m : ℚ)⌋ = m) (e := e)
  rw [UnpackedFloat.round, target]
  have same := amount_decreaseExponent m e (lastPlace (m * 2 ^ e))
  have fine : (decreaseExponent m e (lastPlace (m * 2 ^ e))).2 ≤ lastPlace (m * 2 ^ e) := by
    simp only [decreaseExponent]
    omega
  have positive : 0 < (decreaseExponent m e (lastPlace (m * 2 ^ e))).1 := by
    rw [decreaseExponent, Nat.shiftLeft_eq]
    exact Nat.mul_pos positive (Nat.two_pow_pos _)
  generalize decreaseExponent m e (lastPlace (m * 2 ^ e)) = lowered at *
  obtain ⟨m', e'⟩ := lowered
  dsimp only at *
  rw [← same] at fine ⊢
  exact roundWithAccuracy_spec positive (.exact m') fine

end Round

section Operations

variable {u v : UnpackedFloat}

theorem IsAmount.isDouble (isAmount : IsAmount u) : IsDouble (amount u) := by
  cases isAmount with
  | zero sign => exact ⟨0, 0, by norm_num, by norm_num, by rw [amount_zero, Nat.cast_zero, zero_mul]⟩
  | finite m e pos narrow low full => exact ⟨m, e, narrow, low, rfl⟩

theorem IsAmount.nonneg (isAmount : IsAmount u) : 0 ≤ amount u := by
  cases isAmount with
  | zero sign => exact le_rfl
  | finite m e pos narrow low full =>
    rw [amount_finite]
    positivity

theorem amount_decreaseExponent_of_le {m : ℕ} {e t : ℤ} (le : t ≤ e) :
    ((decreaseExponent m e t).1 : ℚ) * 2 ^ t = m * 2 ^ e := by
  have same := amount_decreaseExponent m e t
  rwa [show (decreaseExponent m e t).2 = t by simp only [decreaseExponent]; omega] at same

theorem normalize_spec (m : ℕ) (e : ℤ) (sign : Sign) :
    IsAmount (UnpackedFloat.normalize .binary64 m e sign) ∧
      amount (UnpackedFloat.normalize .binary64 m e sign) = rounded (m * 2 ^ e) := by
  rcases m.eq_zero_or_pos with rfl | positive
  · rw [Nat.cast_zero (R := ℚ), zero_mul, rounded_zero]
    exact ⟨.zero sign, rfl⟩
  · have compared : compare (m : ℤ) 0 = .gt := Int.compare_eq_gt.mpr (by omega)
    rw [UnpackedFloat.normalize, compared]
    exact round_spec positive

/-- The sum of two amounts is the nearest double to the sum of their numbers. -/
theorem IsAmount.add (isAmount : IsAmount u) (isAmount' : IsAmount v) :
    IsAmount (UnpackedFloat.add .binary64 u v) ∧
      amount (UnpackedFloat.add .binary64 u v) = rounded (amount u + amount v) := by
  have double := isAmount.isDouble.rounded_eq
  have double' := isAmount'.isDouble.rounded_eq
  cases isAmount with
  | zero sign =>
    rw [amount_zero, zero_add, double']
    cases isAmount' with
    | zero sign' =>
      rw [UnpackedFloat.add]
      split <;> exact ⟨.zero _, rfl⟩
    | finite m e pos narrow low full => exact ⟨.finite m e pos narrow low full, rfl⟩
  | finite m e pos narrow low full =>
    cases isAmount' with
    | zero sign' =>
      rw [amount_zero, add_zero, double]
      exact ⟨.finite m e pos narrow low full, rfl⟩
    | finite m' e' pos' narrow' low' full' =>
      have spec := normalize_spec ((decreaseExponent m e (min e e')).1 + (decreaseExponent m' e' (min e e')).1)
        (min e e') .positive
      rw [Nat.cast_add, Nat.cast_add, add_mul, amount_decreaseExponent_of_le (min_le_left e e'),
        amount_decreaseExponent_of_le (min_le_right e e')] at spec
      exact spec

theorem IsAmount.sub (isAmount : IsAmount u) (isAmount' : IsAmount v) (le : amount v ≤ amount u) :
    IsAmount (UnpackedFloat.sub .binary64 u v) ∧
      amount (UnpackedFloat.sub .binary64 u v) = rounded (amount u - amount v) := by
  have double := isAmount.isDouble.rounded_eq
  cases isAmount' with
  | zero sign' =>
    rw [amount_zero, sub_zero, double]
    cases isAmount with
    | zero sign =>
      rw [UnpackedFloat.sub]
      split <;> exact ⟨.zero _, rfl⟩
    | finite m e pos narrow low full => exact ⟨.finite m e pos narrow low full, rfl⟩
  | finite m' e' pos' narrow' low' full' =>
    cases isAmount with
    | zero sign =>
      rw [amount_zero, amount_finite] at le
      exact absurd le (not_le.mpr (by positivity))
    | finite m e pos narrow low full =>
      have less : (decreaseExponent m' e' (min e e')).1 ≤ (decreaseExponent m e (min e e')).1 := by
        rw [amount_finite, amount_finite, ← amount_decreaseExponent_of_le (min_le_left e e'),
          ← amount_decreaseExponent_of_le (min_le_right e e')] at le
        exact_mod_cast le_of_mul_le_mul_right le (by positivity)
      have spec := normalize_spec ((decreaseExponent m e (min e e')).1 - (decreaseExponent m' e' (min e e')).1)
        (min e e') .positive
      rw [Nat.cast_sub less, Nat.cast_sub less, sub_mul, amount_decreaseExponent_of_le (min_le_left e e'),
        amount_decreaseExponent_of_le (min_le_right e e')] at spec
      exact spec

/-- The product of two amounts is the nearest double to the product of their numbers. -/
theorem IsAmount.mul (isAmount : IsAmount u) (isAmount' : IsAmount v) :
    IsAmount (UnpackedFloat.mul .binary64 u v) ∧
      amount (UnpackedFloat.mul .binary64 u v) = rounded (amount u * amount v) := by
  cases isAmount with
  | zero sign =>
    rw [amount_zero, zero_mul, rounded_zero]
    cases isAmount' <;> exact ⟨.zero _, rfl⟩
  | finite m e pos narrow low full =>
    cases isAmount' with
    | zero sign' =>
      rw [amount_zero, mul_zero, rounded_zero]
      exact ⟨.zero _, rfl⟩
    | finite m' e' pos' narrow' low' full' =>
      have fine : e + e' ≤ lastPlace ((m * m' : ℕ) * 2 ^ (e + e')) := by
        have log : 52 ≤ (m * m').log2 ∨ e + e' ≤ -1074 := by
          refine or_iff_not_imp_right.mpr fun large => (Nat.le_log2 (Nat.mul_pos pos pos').ne').mpr ?_
          rcases full with full | rfl
          · exact full.trans (Nat.le_mul_of_pos_right m pos')
          · exact (full'.resolve_right (by omega)).trans (Nat.le_mul_of_pos_left m' pos)
        rw [lastPlace, log_mul_zpow (Nat.mul_pos pos pos') (Int.floor_natCast _)]
        omega
      rw [amount_finite, amount_finite, mul_mul_mul_comm, ← zpow_add₀ two_ne_zero, ← Nat.cast_mul]
      exact roundWithAccuracy_spec (Nat.mul_pos pos pos') (.exact (m * m')) fine

/-- A quotient of mantissas has at most one place less than their numbers of places tell. -/
theorem zpow_le_div {m m' : ℕ} (positive : 0 < m) (positive' : 0 < m') (e e' : ℤ) :
    (2 : ℚ) ^ ((m.log2 : ℤ) + e - (m'.log2 + e') - 1) ≤ m * 2 ^ e / (m' * 2 ^ e') := by
  have least : ((2 : ℚ)) ^ m.log2 ≤ m := by exact_mod_cast Nat.log2_self_le positive.ne'
  have most : (m' : ℚ) ≤ 2 ^ (m'.log2 + 1) := by exact_mod_cast Nat.lt_log2_self.le
  rw [le_div_iff₀ (by positivity)]
  calc (2 : ℚ) ^ ((m.log2 : ℤ) + e - (m'.log2 + e') - 1) * (m' * 2 ^ e')
      ≤ 2 ^ ((m.log2 : ℤ) + e - (m'.log2 + e') - 1) * (2 ^ (m'.log2 + 1) * 2 ^ e') := by gcongr
    _ = 2 ^ m.log2 * 2 ^ e := by
      rw [← zpow_natCast, ← zpow_natCast, ← zpow_add₀ two_ne_zero, ← zpow_add₀ two_ne_zero,
        ← zpow_add₀ two_ne_zero]
      congr 1
      push_cast
      ring
    _ ≤ m * 2 ^ e := by gcongr

/-- A quotient is prepared for an exponent that is no greater than that of its last place. -/
theorem target_le_lastPlace {m m' : ℕ} (positive : 0 < m) (positive' : 0 < m') (e e' : ℤ) :
    Format.binary64.targetExponent (totalExponent m e - totalExponent m' e') ≤
      lastPlace (m * 2 ^ e / (m' * 2 ^ e')) := by
  have log : (m.log2 : ℤ) + e - (m'.log2 + e') - 1 ≤ Int.log 2 (m * 2 ^ e / (m' * 2 ^ e') : ℚ) := by
    rw [← Int.zpow_le_iff_le_log (by norm_num) (by positivity), Nat.cast_ofNat]
    exact zpow_le_div positive positive' e e'
  simp only [Format.targetExponent, totalExponent, Format.mantissaBits, Format.minExponent, lastPlace]
  omega

theorem shiftLeft_div {m m' : ℕ} {e e' t : ℤ} (positive' : 0 < m') (le : t ≤ e - e') :
    ((m <<< (e - e' - t).toNat : ℕ) : ℚ) / m' * 2 ^ t = m * 2 ^ e / (m' * 2 ^ e') := by
  have sum : ((e - e' - t).toNat : ℤ) + t = e - e' := by omega
  rw [Nat.shiftLeft_eq, Nat.cast_mul, Nat.cast_pow, Nat.cast_ofNat, ← zpow_natCast, div_mul_eq_mul_div, mul_assoc,
    ← zpow_add₀ two_ne_zero, sum, zpow_sub₀ two_ne_zero]
  field_simp

/-- The quotient of two amounts is the nearest double to the quotient of their numbers, if that is no smaller than the
least normal double. -/
theorem IsAmount.div (isAmount : IsAmount u) (isAmount' : IsAmount v) (below : 0 < amount v)
    (normal : 2 ^ (-1022 : ℤ) ≤ amount u / amount v) :
    IsAmount (UnpackedFloat.div .binary64 u v) ∧
      amount (UnpackedFloat.div .binary64 u v) = rounded (amount u / amount v) := by
  cases isAmount' with
  | zero sign' => exact absurd below (lt_irrefl _)
  | finite m' e' pos' narrow' low' full' =>
    cases isAmount with
    | zero sign =>
      rw [amount_zero, zero_div] at normal
      exact absurd normal (not_le.mpr (by positivity))
    | finite m e pos narrow low full =>
      rw [amount_finite, amount_finite] at normal ⊢
      have fine := (min_le_right (e - e') _).trans (target_le_lastPlace pos pos' e e')
      have quotient := shiftLeft_div (m := m) pos' (min_le_left (e - e')
        (Format.binary64.targetExponent (totalExponent m e - totalExponent m' e')))
      rw [UnpackedFloat.div, divCore]
      dsimp only
      generalize min (e - e') (Format.binary64.targetExponent (totalExponent m e - totalExponent m' e')) = t at *
      generalize m <<< (e - e' - t).toNat = n at *
      have positive : 0 < n / m' := by
        have large := (zpow_le_zpow_right₀ one_le_two fine).trans (zpow_lastPlace_le normal)
        rw [← quotient] at large
        have one : 1 ≤ (n : ℚ) / m' := le_of_mul_le_mul_right ((one_mul _).trans_le large) (by positivity)
        rw [one_le_div (by exact_mod_cast pos')] at one
        exact Nat.div_pos (by exact_mod_cast one) pos'
      rw [← quotient] at fine ⊢
      exact roundWithAccuracy_spec positive (.fraction pos') fine

end Operations

section Order

variable {u v : UnpackedFloat}

/-- Of positive amounts the one with the greater exponent is greater. -/
theorem amount_lt_of_exponent {m m' : ℕ} {e e' : ℤ} (narrow : m < 2 ^ 53) (full : 2 ^ 52 ≤ m') (less : e < e') :
    (m : ℚ) * 2 ^ e < m' * 2 ^ e' := by
  have narrow : (m : ℚ) < 2 ^ 53 := by exact_mod_cast narrow
  have full : (2 : ℚ) ^ 52 ≤ m' := by exact_mod_cast full
  calc (m : ℚ) * 2 ^ e < 2 ^ 53 * 2 ^ e := by gcongr
    _ = 2 ^ 52 * 2 ^ (e + 1) := by
      rw [zpow_add_one₀ two_ne_zero]
      ring
    _ ≤ m' * 2 ^ e' := by
      gcongr
      · norm_num
      · exact less

theorem IsAmount.lt_iff (isAmount : IsAmount u) (isAmount' : IsAmount v) :
    u.lt v = true ↔ amount u < amount v := by
  cases isAmount with
  | zero sign =>
    cases isAmount' with
    | zero sign' => exact iff_of_false nofun (lt_irrefl _)
    | finite m' e' pos' narrow' low' full' =>
      rw [amount_zero, amount_finite]
      exact iff_of_true rfl (by positivity)
  | finite m e pos narrow low full =>
    cases isAmount' with
    | zero sign' =>
      rw [amount_zero, amount_finite]
      exact iff_of_false nofun (not_lt.mpr (by positivity))
    | finite m' e' pos' narrow' low' full' =>
      have ordered := lt_iff_place (u := .finite .positive m e pos) (v := .finite .positive m' e' pos') nofun nofun
      rw [ordered, amount_finite, amount_finite]
      simp only [place, Prod.Lex.toLex_lt_toLex, lt_irrefl, false_or, true_and]
      rcases lt_trichotomy e e' with less | rfl | more
      · exact iff_of_true (.inl less) (amount_lt_of_exponent narrow (full'.resolve_right (by omega)) less)
      · rw [mul_lt_mul_iff_left₀ (by positivity), Nat.cast_lt]
        simp
      · have less := amount_lt_of_exponent narrow' (full.resolve_right (by omega)) more
        exact iff_of_false (by omega) (not_lt.mpr less.le)

end Order

section Pack

variable {u : UnpackedFloat}

theorem toNat_one_append {w : ℕ} (b : BitVec w) : (1#1 ++ b).toNat = 2 ^ w + b.toNat := by
  rw [BitVec.toNat_append, ← Nat.shiftLeft_add_eq_or_of_lt b.isLt]
  simp [Nat.shiftLeft_eq]

/-- The mantissa and the exponent of a double. -/
theorem finite_of_unpack {b : BitVec Format.binary64.numBits} {sign : Sign} {m : ℕ} {e : ℤ} {pos : 0 < m}
    (unpacked : UnpackedFloat.unpack .binary64 b = .finite sign m e pos) :
    m < 2 ^ 53 ∧ -1074 ≤ e ∧ (2 ^ 52 ≤ m ∨ e = -1074) := by
  have bias : ((Format.binary64.exponentBias : ℕ) : ℤ) = 1023 := rfl
  have places : ((Format.binary64.mantissaBitsWithoutImplicit : ℕ) : ℤ) = 52 := rfl
  have narrow : (unpackMantissa b).toNat < 2 ^ 52 := (unpackMantissa b).isLt
  rw [UnpackedFloat.unpack] at unpacked
  dsimp only at unpacked
  split at unpacked
  · split at unpacked <;> cases unpacked
  · split at unpacked
    · rename_i zero
      split at unpacked
      · cases unpacked
      · cases unpacked
        rw [zero, bias]
        norm_num
        omega
    · rename_i normal
      cases unpacked
      have least : (unpackExponent b).toNat ≠ 0 := fun zero => normal (BitVec.eq_of_toNat_eq zero)
      have leading : (1#1 ++ unpackMantissa b).toNat = 2 ^ 52 + (unpackMantissa b).toNat := toNat_one_append _
      rw [leading, bias]
      omega

/-- What is finite and not below zero is unpacked as an amount. -/
theorem isAmount_unpack {b : BitVec Format.binary64.numBits}
    (finite : UnpackedFloat.unpack .binary64 b ≠ .infinity .positive)
    (isNumber : UnpackedFloat.unpack .binary64 b ≠ .notANumber)
    (low : UnpackedFloat.lt (UnpackedFloat.unpack .binary64 b) (.zero .positive) = false) :
    IsAmount (UnpackedFloat.unpack .binary64 b) := by
  cases unpacked : UnpackedFloat.unpack .binary64 b with
  | notANumber => exact absurd unpacked isNumber
  | zero sign => exact .zero sign
  | infinity sign =>
    cases sign with
    | positive => exact absurd unpacked finite
    | negative =>
      rw [unpacked] at low
      cases low
  | finite sign m e pos =>
    obtain ⟨narrow, least, full⟩ := finite_of_unpack unpacked
    cases sign with
    | positive => exact .finite m e pos narrow least full
    | negative =>
      rw [unpacked] at low
      cases low

theorem finite_congr {sign : Sign} {m m' : ℕ} {e e' : ℤ} {pos : 0 < m} {pos' : 0 < m'} (mantissa : m = m')
    (exponent : e = e') : UnpackedFloat.finite sign m e pos = .finite sign m' e' pos' := by
  subst mantissa exponent
  rfl

section Finite

variable {m : ℕ} {e : ℤ} {pos : 0 < m}

/-- Packing a number whose exponent is in range. -/
theorem pack_finite (narrow : m < 2 ^ 53) (most : e ≤ 971) :
    UnpackedFloat.pack .binary64 (.finite .positive m e pos) =
      if 2 ^ 52 ≤ m then packComponents .binary64 .positive (BitVec.ofNat 11 (e + 1075).toNat) (BitVec.ofNat 52 m)
      else packComponents .binary64 .positive 0#11 (BitVec.ofNat 52 m) := by
  have bias : (e + Format.binary64.exponentBias + Format.binary64.mantissaBitsWithoutImplicit).toNat =
      (e + 1075).toNat := by
    change (e + (1023 : ℕ) + (52 : ℕ)).toNat = _
    omega
  have places : m.log2 + 1 = 53 ↔ 2 ^ 52 ≤ m := by
    have least := Nat.le_log2 (k := 52) pos.ne'
    have most := Nat.log2_lt (k := 53) pos.ne'
    omega
  rw [UnpackedFloat.pack]
  simp only [bias]
  rw [if_neg (by omega)]
  exact if_congr places rfl rfl

/-- A mantissa of 53 bits loses its first bit when it is packed, and gets it back when it is unpacked. -/
theorem unpack_normal (full : 2 ^ 52 ≤ m) (narrow : m < 2 ^ 53) (low : -1074 ≤ e) (most : e ≤ 971) :
    UnpackedFloat.unpack .binary64
        (packComponents .binary64 .positive (BitVec.ofNat 11 (e + 1075).toNat) (BitVec.ofNat 52 m)) =
      .finite .positive m e pos := by
  have exponent : (BitVec.ofNat 11 (e + 1075).toNat).toNat = (e + 1075).toNat :=
    BitVec.toNat_ofNat .. |>.trans (Nat.mod_eq_of_lt (by omega))
  have leading : (1#1 ++ BitVec.ofNat 52 m).toNat = m := by
    rw [toNat_one_append, BitVec.toNat_ofNat]
    omega
  rw [UnpackedFloat.unpack]
  simp only [unpackMantissa_packComponents, unpackExponent_packComponents, unpackSign_packComponents]
  rw [if_neg, if_neg]
  · refine finite_congr leading ?_
    rw [exponent]
    change ((e + 1075).toNat : ℤ) - ((1023 : ℕ) + (52 : ℕ)) = e
    omega
  · intro zero
    rw [zero] at exponent
    have exponent : 0 = (e + 1075).toNat := exponent
    omega
  · intro ones
    rw [ones] at exponent
    have exponent : 2047 = (e + 1075).toNat := exponent
    omega

theorem unpack_subnormal (narrow : m < 2 ^ 52) :
    UnpackedFloat.unpack .binary64 (packComponents .binary64 .positive 0#11 (BitVec.ofNat 52 m)) =
      .finite .positive m (-1074) pos := by
  have mantissa : (BitVec.ofNat 52 m).toNat = m := BitVec.toNat_ofNat .. |>.trans (Nat.mod_eq_of_lt (by omega))
  rw [UnpackedFloat.unpack]
  simp only [unpackMantissa_packComponents, unpackExponent_packComponents, unpackSign_packComponents]
  rw [if_neg (by decide), if_pos trivial, dif_neg]
  · exact finite_congr mantissa rfl
  · intro zero
    rw [zero] at mantissa
    exact pos.ne mantissa

/-- The exponents of numbers in range. -/
theorem exponent_le (full : 2 ^ 52 ≤ m ∨ e = -1074) (small : (m : ℚ) * 2 ^ e < 2 ^ (1024 : ℤ)) : e ≤ 971 := by
  rcases full with full | rfl
  · have full : (2 : ℚ) ^ (52 : ℤ) ≤ m := by exact_mod_cast full
    have less := (mul_le_mul_of_nonneg_right full (by positivity : (0 : ℚ) ≤ 2 ^ e)).trans_lt small
    rw [← zpow_add₀ two_ne_zero, zpow_lt_zpow_iff_right₀ one_lt_two] at less
    omega
  · norm_num

end Finite

/-- An amount below the greatest double is packed without loss. -/
theorem IsAmount.unpack_pack (isAmount : IsAmount u) (small : amount u < 2 ^ (1024 : ℤ)) :
    UnpackedFloat.unpack .binary64 (UnpackedFloat.pack .binary64 u) = u := by
  cases isAmount with
  | zero sign => exact unpack_packedZero
  | finite m e pos narrow low full =>
    have most := exponent_le full small
    rw [pack_finite narrow most]
    split
    · rename_i normal
      exact unpack_normal normal narrow low most
    · rename_i subnormal
      obtain rfl := full.resolve_left subnormal
      exact unpack_subnormal (not_le.mp subnormal)

end Pack

end Unpacked

/-! ### Amounts -/

/-- A double from zero up that is finite. -/
def IsAmount (x : Float) : Prop := 0.0 ≤ x ∧ x.isFinite = true

instance (x : Float) : Decidable (IsAmount x) := inferInstanceAs (Decidable (_ ∧ _))

def amount (x : Float) : ℚ := Unpacked.amount x.toModel.unpack

section Amounts

variable {x y : Float}

theorem isAmount_iff_unpack : IsAmount x ↔ Unpacked.IsAmount x.toModel.unpack := by
  have zero : (0.0 : Float).toModel.unpack = .zero .positive := rfl
  have finite : x.isFinite = x.toModel.unpack.isFinite := rfl
  refine ⟨fun ⟨low, inside⟩ => ?_, fun isAmount => ?_⟩
  · have isNumber := isNaN_of_le low
    have notLess := (le_iff_not_lt isNumber.1 isNumber.2).mp low
    rw [lt_iff_unpack, zero, Bool.not_eq_true] at notLess
    refine Unpacked.isAmount_unpack (fun infinite => ?_) (ne_notANumber isNumber.2) notLess
    rw [finite, show x.toModel.unpack = _ from infinite] at inside
    cases inside
  · rw [IsAmount, le_iff_unpack, zero, finite]
    generalize x.toModel.unpack = u at isAmount ⊢
    cases isAmount <;> exact ⟨rfl, rfl⟩

theorem IsAmount.isNumber (isAmount : IsAmount x) : x.isNaN = false := (isNaN_of_le isAmount.1).2

theorem IsAmount.nonneg (isAmount : IsAmount x) : 0 ≤ amount x := (isAmount_iff_unpack.mp isAmount).nonneg

theorem IsAmount.isDouble (isAmount : IsAmount x) : IsDouble (amount x) := (isAmount_iff_unpack.mp isAmount).isDouble

theorem IsAmount.lt_iff (isAmount : IsAmount x) (isAmount' : IsAmount y) : x < y ↔ amount x < amount y :=
  lt_iff_unpack.trans ((isAmount_iff_unpack.mp isAmount).lt_iff (isAmount_iff_unpack.mp isAmount'))

theorem IsAmount.le_iff (isAmount : IsAmount x) (isAmount' : IsAmount y) : x ≤ y ↔ amount x ≤ amount y := by
  rw [le_iff_not_lt isAmount.isNumber isAmount'.isNumber, isAmount'.lt_iff isAmount, not_lt]

/-- What is between two amounts is one. -/
theorem IsAmount.of_le (isAmount : IsAmount x) (isAmount' : IsAmount y) {z : Float} (low : x ≤ z) (high : z ≤ y) :
    IsAmount z := by
  have zero : (0.0 : Float).toModel.unpack = .zero .positive := rfl
  have isNumber := (isNaN_of_le high).1
  have notLess := (le_iff_not_lt isAmount.isNumber isNumber).mp low
  have notBelow := (le_iff_not_lt (isNaN_of_le isAmount.1).1 isAmount.isNumber).mp isAmount.1
  refine isAmount_iff_unpack.mpr (Unpacked.isAmount_unpack (fun infinite => ?_) (ne_notANumber isNumber) ?_)
  · rw [le_iff_unpack, show z.toModel.unpack = _ from infinite] at high
    have finite := isAmount_iff_unpack.mp isAmount'
    generalize y.toModel.unpack = v at high finite
    cases finite <;> cases high
  · refine Bool.eq_false_iff.mpr fun less => notLess ?_
    exact lt_of_lt_of_not_lt (lt_iff_unpack.mpr (zero ▸ less)) notBelow isAmount.isNumber

/-- An operation on doubles whose exact result is in range. -/
theorem isAmount_of_pack {u : UnpackedFloat} {z : ℚ} (packed : x.toModel = Float.Model.pack u)
    (spec : Unpacked.IsAmount u ∧ Unpacked.amount u = rounded z) (nonneg : 0 ≤ z) (small : z ≤ 2 ^ (1023 : ℤ)) :
    IsAmount x ∧ amount x = rounded z := by
  have inRange : Unpacked.amount u < 2 ^ (1024 : ℤ) := by
    rw [spec.2]
    exact (rounded_le nonneg small (isDouble_zpow (by norm_num))).trans_lt
      (zpow_lt_zpow_right₀ (by norm_num) (by norm_num))
  have same : x.toModel.unpack = u := by
    rw [packed]
    exact spec.1.unpack_pack inRange
  rw [isAmount_iff_unpack, amount, same]
  exact spec

theorem IsAmount.add (isAmount : IsAmount x) (isAmount' : IsAmount y) (small : amount x + amount y ≤ 2 ^ (1023 : ℤ)) :
    IsAmount (x + y) ∧ amount (x + y) = rounded (amount x + amount y) :=
  isAmount_of_pack rfl ((isAmount_iff_unpack.mp isAmount).add (isAmount_iff_unpack.mp isAmount'))
    (add_nonneg isAmount.nonneg isAmount'.nonneg) small

theorem IsAmount.sub (isAmount : IsAmount x) (isAmount' : IsAmount y) (le : amount y ≤ amount x)
    (small : amount x ≤ 2 ^ (1023 : ℤ)) :
    IsAmount (x - y) ∧ amount (x - y) = rounded (amount x - amount y) :=
  isAmount_of_pack rfl ((isAmount_iff_unpack.mp isAmount).sub (isAmount_iff_unpack.mp isAmount') le)
    (sub_nonneg.mpr le) ((sub_le_self _ isAmount'.nonneg).trans small)

theorem IsAmount.mul (isAmount : IsAmount x) (isAmount' : IsAmount y) (small : amount x * amount y ≤ 2 ^ (1023 : ℤ)) :
    IsAmount (x * y) ∧ amount (x * y) = rounded (amount x * amount y) :=
  isAmount_of_pack rfl ((isAmount_iff_unpack.mp isAmount).mul (isAmount_iff_unpack.mp isAmount'))
    (mul_nonneg isAmount.nonneg isAmount'.nonneg) small

theorem IsAmount.div (isAmount : IsAmount x) (isAmount' : IsAmount y) (below : 0 < amount y)
    (normal : 2 ^ (-1022 : ℤ) ≤ amount x / amount y) (small : amount x / amount y ≤ 2 ^ (1023 : ℤ)) :
    IsAmount (x / y) ∧ amount (x / y) = rounded (amount x / amount y) :=
  isAmount_of_pack rfl ((isAmount_iff_unpack.mp isAmount).div (isAmount_iff_unpack.mp isAmount') below normal)
    (div_nonneg isAmount.nonneg isAmount'.nonneg) small

end Amounts

end SatModulo
