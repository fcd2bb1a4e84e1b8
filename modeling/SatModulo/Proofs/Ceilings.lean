import SatModulo.Proofs.Amounts
import SatModulo.Proofs.Revisions
import SatModulo.Proofs.Scaling

/-!
# How far activities grow

An activity that a bump would lead above the maximum is scaled down first, and all others with it, so that the
largest of them and the weight is one; then the weight is added. As rounding a quotient and then a product does not
lead above one (`Schedule.Within.rescale`), an activity is at most two after that. So no activity is ever above
the maximum unless that is less than two, and then some come to be (`Schedule.ceiling_exact`).
-/
namespace SatModulo

/-! ### Operations on activities -/

theorem amount_one : amount 1.0 = 1 := by decide +kernel

theorem isAmount_one : IsAmount 1.0 := by decide

theorem isDouble_one : IsDouble 1 := amount_one ▸ isAmount_one.isDouble

theorem isDouble_two : IsDouble 2 := by simpa using isDouble_zpow (e := 1) (by norm_num)

theorem two_le_zpow {e : ℤ} (low : 1 ≤ e) : (2 : ℚ) ≤ 2 ^ e :=
  (zpow_one 2).ge.trans (zpow_le_zpow_right₀ one_le_two low)

namespace Activity

variable {a b : Activity} {p q : ℚ}

/-- An amount that is at most the given number. -/
structure UpTo (p : ℚ) (a : Activity) : Prop where
  isAmount : IsAmount a.value
  le : amount a.value ≤ p

theorem UpTo.mono (upTo : UpTo p a) (le : p ≤ q) : UpTo q a := ⟨upTo.isAmount, upTo.le.trans le⟩

theorem UpTo.nonneg (upTo : UpTo p a) : 0 ≤ p := upTo.isAmount.nonneg.trans upTo.le

variable [Conventions]

/-- On numbers an operation is that of doubles, whatever the conventions. -/
theorem lift_value {op : Operation} (isNumber : a.value.isNaN = false) (isNumber' : b.value.isNaN = false) :
    (lift op a b).value = op.eval a.value b.value := by
  rw [lift, if_neg (Bool.eq_false_iff.mp isNumber'), if_neg (Bool.eq_false_iff.mp isNumber)]

theorem lift_eq {op : Operation} {x : Float} (isNumber : a.value.isNaN = false) (isNumber' : b.value.isNaN = false)
    (same : op.eval a.value b.value = x) (number : x.isNaN = false) : lift op a b = ⟨x, false⟩ := by
  simp only [lift, isNumber, isNumber', same, number, Bool.false_eq_true, if_false, Bool.false_and]

theorem one_sub_zero : (Reckoning.one - ⟨0.0, false⟩ : Activity) = Reckoning.one :=
  lift_eq isNaN_one (by decide) (show (1.0 - 0.0 : Float) = 1.0 by decide +kernel) (by decide)

theorem one_div_one : (Reckoning.one / Reckoning.one : Activity) = Reckoning.one :=
  lift_eq isNaN_one isNaN_one (show (1.0 / 1.0 : Float) = 1.0 by decide +kernel) (by decide)

theorem one_mul_one : (Reckoning.one * Reckoning.one : Activity) = Reckoning.one :=
  lift_eq isNaN_one isNaN_one (show (1.0 * 1.0 : Float) = 1.0 by decide +kernel) (by decide)

theorem larger_self (a : Activity) : Reckoning.larger a a = a := by
  change a.larger a = a
  rcases larger_spec a a with ⟨same, _⟩ | ⟨same, _⟩ <;> exact same

namespace UpTo

theorem sum (upTo : UpTo p a) (upTo' : UpTo q b) (small : p + q ≤ 2 ^ (1023 : ℤ)) :
    IsAmount (a + b).value ∧ amount (a + b).value = rounded (amount a.value + amount b.value) := by
  have same : (a + b).value = a.value + b.value := lift_value upTo.isAmount.isNumber upTo'.isAmount.isNumber
  rw [same]
  exact upTo.isAmount.add upTo'.isAmount ((add_le_add upTo.le upTo'.le).trans small)

theorem add (upTo : UpTo p a) (upTo' : UpTo q b) (double : IsDouble (p + q)) (small : p + q ≤ 2 ^ (1023 : ℤ)) :
    UpTo (p + q) (a + b) := by
  obtain ⟨isAmount, sum⟩ := upTo.sum upTo' small
  refine ⟨isAmount, sum.trans_le (rounded_le ?_ (add_le_add upTo.le upTo'.le) double)⟩
  exact add_nonneg upTo.isAmount.nonneg upTo'.isAmount.nonneg

theorem product (upTo : UpTo p a) (upTo' : UpTo q b) (small : p * q ≤ 2 ^ (1023 : ℤ)) :
    IsAmount (a * b).value ∧ amount (a * b).value = rounded (amount a.value * amount b.value) := by
  have same : (a * b).value = a.value * b.value := lift_value upTo.isAmount.isNumber upTo'.isAmount.isNumber
  rw [same]
  exact upTo.isAmount.mul upTo'.isAmount
    ((mul_le_mul upTo.le upTo'.le upTo'.isAmount.nonneg upTo.nonneg).trans small)

theorem mul (upTo : UpTo p a) (upTo' : UpTo q b) (double : IsDouble (p * q)) (small : p * q ≤ 2 ^ (1023 : ℤ)) :
    UpTo (p * q) (a * b) := by
  obtain ⟨isAmount, product⟩ := upTo.product upTo' small
  have le := mul_le_mul upTo.le upTo'.le upTo'.isAmount.nonneg upTo.nonneg
  refine ⟨isAmount, product.trans_le (rounded_le ?_ le double)⟩
  exact mul_nonneg upTo.isAmount.nonneg upTo'.isAmount.nonneg

end UpTo

/-- The reciprocal of an amount is the nearest double to the reciprocal of its number. -/
theorem one_div_spec (isAmount : IsAmount a.value) (low : 1 / 2 ≤ amount a.value)
    (high : amount a.value ≤ 2 ^ (1022 : ℤ)) :
    IsAmount (Reckoning.one / a : Activity).value ∧
      amount (Reckoning.one / a : Activity).value = rounded (1 / amount a.value) := by
  have positive : 0 < amount a.value := lt_of_lt_of_le (by norm_num) low
  have same : (Reckoning.one / a : Activity).value = 1.0 / a.value := lift_value isNaN_one isAmount.isNumber
  have least : 2 ^ (-1022 : ℤ) ≤ 1 / amount a.value := by
    rw [zpow_neg, ← one_div]
    exact one_div_le_one_div_of_le positive high
  have most : 1 / amount a.value ≤ 2 := by
    rw [div_le_iff₀ positive]
    linarith
  rw [same, ← amount_one]
  rw [← amount_one] at least most
  exact isAmount_one.div isAmount positive least (most.trans (two_le_zpow (by norm_num)))

/-- The factor by which the weight grows is at most two. -/
theorem UpTo.growth (decay : UpTo (1 / 2) a) : UpTo 2 (Reckoning.one / (Reckoning.one - a)) := by
  have half : IsDouble (1 / 2) := by simpa using isDouble_zpow (e := -1) (by norm_num)
  have nonneg := decay.isAmount.nonneg
  have le := decay.le
  have same : (Reckoning.one - a : Activity).value = 1.0 - a.value := lift_value isNaN_one decay.isAmount.isNumber
  obtain ⟨isAmount, rest⟩ := isAmount_one.sub decay.isAmount (by linarith [amount_one])
    (amount_one.trans_le (one_le_two.trans (two_le_zpow (by norm_num))))
  rw [← same, amount_one] at rest
  rw [← same] at isAmount
  have low := le_rounded (y := 1 - amount a.value) (by norm_num) (by linarith) half
  have high := rounded_le (x := 1 - amount a.value) (by linarith) (by linarith) isDouble_one
  rw [← rest] at low high
  obtain ⟨isAmount, quotient⟩ := one_div_spec isAmount low (high.trans (one_le_two.trans (two_le_zpow (by norm_num))))
  refine ⟨isAmount, quotient.trans_le (rounded_le (by positivity) ?_ isDouble_two)⟩
  rw [div_le_iff₀ (by linarith)]
  linarith

/-- The factor that scales a number to one leads nothing that is not above the number to more than one: it is too large
by at most one part in `2 ^ 53`, and up to half a unit in the last place above one is rounded to one. -/
theorem UpTo.mul_one_div (isAmount : IsAmount b.value) (low : 1 / 2 ≤ amount b.value)
    (high : amount b.value ≤ 2 ^ (1022 : ℤ)) (upTo : UpTo (amount b.value) a) :
    UpTo 1 (a * (Reckoning.one / b)) := by
  obtain ⟨isAmount', quotient⟩ := one_div_spec isAmount low high
  have positive : 0 < amount b.value := lt_of_lt_of_le (by norm_num) low
  have normal : (2 : ℚ) ^ (-1022 : ℤ) ≤ 1 / amount b.value := by
    rw [zpow_neg, ← one_div]
    exact one_div_le_one_div_of_le positive high
  have factor : UpTo (1 / amount b.value * (1 + 2 ^ (-53 : ℤ))) (Reckoning.one / b) :=
    ⟨isAmount', quotient.trans_le (rounded_le_mul normal)⟩
  have one : amount b.value * (1 / amount b.value * (1 + 2 ^ (-53 : ℤ))) = 1 + 2 ^ (-53 : ℤ) := by field_simp
  have small : (1 : ℚ) + 2 ^ (-53 : ℤ) ≤ 2 ^ (1023 : ℤ) :=
    le_trans (by norm_num) (two_le_zpow (by norm_num))
  obtain ⟨isAmount'', rest⟩ := upTo.product factor (one.trans_le small)
  have le := (mul_le_mul upTo.le factor.le isAmount'.nonneg upTo.nonneg).trans_eq one
  exact ⟨isAmount'', rest.trans_le (rounded_le_one (mul_nonneg upTo.isAmount.nonneg isAmount'.nonneg) le)⟩

end Activity

/-! ### Calls on a schedule -/

namespace Schedule

variable {s : Schedule Activity} {c w : ℚ} {maximum a : Activity}

/-- Activities up to the first number, a weight up to the second one, and a decay up to one half. -/
structure Within (c w : ℚ) (s : Schedule Activity) : Prop where
  activity : ∀ r ∈ s.standings, r.activity.UpTo c
  weight : s.weight.UpTo w
  decay : s.decay.UpTo (1 / 2)

namespace Within

theorem mono {c' w' : ℚ} (within : s.Within c w) (le : c ≤ c') (le' : w ≤ w') : s.Within c' w' where
  activity r member := (within.activity r member).mono le
  weight := within.weight.mono le'
  decay := within.decay

theorem upTo_max (within : s.Within c w) : ∀ a ∈ s.activities, a.UpTo (max c w) := by
  refine List.forall_mem_append.mpr ⟨List.forall_mem_map.mpr fun r member => ?_, List.forall_mem_singleton.mpr ?_⟩
  · exact (within.activity r member).mono (le_max_left _ _)
  · exact within.weight.mono (le_max_right _ _)

theorem upTo_activity (within : s.Within c w) {i : Nat} {a : Activity} (found : s.activity i = some a) :
    a ∈ s.activities ∧ a.UpTo c := by
  obtain ⟨r, inside, rfl⟩ := Option.map_eq_some_iff.mp found
  have member := List.mem_of_getElem? inside
  exact ⟨List.mem_append_left _ (List.mem_map_of_mem member), within.activity r member⟩

end Within

/-- How a schedule is between calls: its maximum is in range, no activity is above both that and two, and the weight
can be added once more and is still a double. -/
structure Contained (maximum : Activity) (s : Schedule Activity) : Prop where
  same : s.maximum = maximum
  isAmount : IsAmount maximum.value
  low : 1 ≤ amount maximum.value
  high : amount maximum.value ≤ 2 ^ (500 : ℤ)
  within : s.Within (max (amount maximum.value) 2) (2 ^ (501 : ℤ))

namespace Contained

theorem ceiling_le (contained : s.Contained maximum) : max (amount maximum.value) 2 ≤ 2 ^ (500 : ℤ) :=
  max_le contained.high (two_le_zpow (by norm_num))

theorem register (contained : s.Contained maximum) : s.register.2.Contained maximum := by
  obtain ⟨same, isAmount, low, high, activity, weight, decay⟩ := contained
  have zero : Activity.UpTo 0 Measure.zero := ⟨by decide, le_of_eq rfl⟩
  refine ⟨same, isAmount, low, high, List.forall_mem_append.mpr ⟨activity, ?_⟩, weight, decay⟩
  exact List.forall_mem_singleton.mpr (zero.mono (zero_le_two.trans (le_max_right _ _)))

end Contained

variable [Conventions]

/-- A theory gets the weight, and the weight grows. -/
def reward (s : Schedule Activity) (i : Nat) : Schedule Activity :=
  { s with
    standings := s.standings.modify i fun r => { r with activity := r.activity + s.weight }
    weight := s.weight * (Reckoning.one / (Reckoning.one - s.decay)) }

/-- A bump rewards a theory, once everything is scaled down if that would lead above the maximum. -/
theorem bump_eq {i : Nat} {a : Activity} (found : s.activity i = some a) :
    s.bump i = (if Reckoning.exceeds (a + s.weight) s.maximum then s.rescale else s).reward i := by
  rw [Schedule.bump, found]
  rfl

namespace Within

/-- No activity is above the peak, and neither is the weight. -/
theorem upTo_peak (within : s.Within c w) :
    s.peak.UpTo (max c w) ∧ ∀ a ∈ s.activities, a.UpTo (amount s.peak.value) := by
  obtain ⟨none', _⟩ | ⟨member, _, most⟩ := s.peak_leads
  · have isNaN := none' s.weight (List.mem_append_right _ (.head _))
    rw [within.weight.isAmount.isNumber] at isNaN
    cases isNaN
  · have peak := within.upTo_max _ member
    refine ⟨peak, fun a inside => ?_⟩
    have isAmount := (within.upTo_max a inside).isAmount
    exact ⟨isAmount, not_lt.mp (mt (peak.isAmount.lt_iff isAmount).mpr (most a inside isAmount.isNumber))⟩

theorem rescale (within : s.Within c w) (low : 1 / 2 ≤ amount s.peak.value) (high : max c w ≤ 2 ^ (1022 : ℤ)) :
    s.rescale.Within 1 1 := by
  obtain ⟨peak, most⟩ := within.upTo_peak
  have scaled (a : Activity) (inside : a ∈ s.activities) : (a * (Reckoning.one / s.peak)).UpTo 1 :=
    (most a inside).mul_one_div peak.isAmount low (peak.le.trans high)
  exact {
    activity := List.forall_mem_map.mpr fun r member =>
      scaled _ (List.mem_append_left _ (List.mem_map_of_mem member))
    weight := scaled _ (List.mem_append_right _ (.head _))
    decay := within.decay }

theorem reward (within : s.Within c w) {i : Nat} (sum : ∀ a, s.activity i = some a → (a + s.weight).UpTo c)
    (double : IsDouble (w * 2)) (small : w * 2 ≤ 2 ^ (1023 : ℤ)) : (s.reward i).Within c (w * 2) where
  activity r member := by
    obtain ⟨j, found⟩ := List.mem_iff_getElem?.mp member
    obtain ⟨r', found', rfl⟩ := Option.map_eq_some_iff.mp (List.getElem?_modify .. ▸ found)
    split
    · rename_i same
      subst same
      exact sum _ (by rw [Schedule.activity, found', Option.map_some])
    · exact within.activity r' (List.mem_of_getElem? found')
  weight := within.weight.mul within.decay.growth double small
  decay := within.decay

end Within

namespace Contained

theorem sum (contained : s.Contained maximum) {i : Nat} (found : s.activity i = some a) :
    IsAmount (a + s.weight).value ∧
      amount (a + s.weight).value = rounded (amount a.value + amount s.weight.value) := by
  refine (contained.within.upTo_activity found).2.sum contained.within.weight ?_
  calc _ ≤ 2 ^ (501 : ℤ) + 2 ^ (501 : ℤ) :=
        add_le_add_left (contained.ceiling_le.trans (zpow_le_zpow_right₀ one_le_two (by norm_num))) _
    _ = 2 ^ (502 : ℤ) := by rw [← mul_two, ← zpow_add_one₀ two_ne_zero]; rfl
    _ ≤ 2 ^ (1023 : ℤ) := zpow_le_zpow_right₀ one_le_two (by norm_num)

/-- What is added without scaling down does not lead above the maximum, so the weight was not above it either. -/
theorem bump_of_not_exceeds (contained : s.Contained maximum) {i : Nat} (found : s.activity i = some a)
    (notMore : ¬Reckoning.exceeds (a + s.weight) s.maximum = true) : (s.bump i).Contained maximum := by
  obtain ⟨isAmount, sum⟩ := contained.sum found
  have le : amount (a + s.weight).value ≤ amount maximum.value := by
    refine not_lt.mp (mt (contained.isAmount.lt_iff isAmount).mpr ?_)
    rw [← contained.same]
    exact fun more => notMore (decide_eq_true more)
  have nonneg := (contained.within.upTo_activity found).2.isAmount.nonneg
  obtain ⟨same, isAmount', low, high, activity, weight, decay⟩ := contained
  have weight : s.weight.UpTo (2 ^ (500 : ℤ)) := by
    refine ⟨weight.isAmount, le_trans ?_ (le.trans high)⟩
    rw [sum]
    exact le_rounded weight.isAmount.nonneg (le_add_of_nonneg_left nonneg) weight.isAmount.isDouble
  have next : (2 : ℚ) ^ (501 : ℤ) = 2 ^ (500 : ℤ) * 2 := zpow_add_one₀ two_ne_zero 500
  rw [bump_eq found, if_neg notMore]
  refine ⟨same, isAmount', low, high, next ▸ Within.reward ⟨activity, weight, decay⟩ (fun a' found' => ?_) ?_ ?_⟩
  · obtain rfl := Option.some.inj (found.symm.trans found')
    exact ⟨isAmount, le.trans (le_max_left _ _)⟩
  · rw [← next]
    exact isDouble_zpow (by norm_num)
  · rw [← next]
    exact zpow_le_zpow_right₀ one_le_two (by norm_num)

/-- The maximum is no less than one, so a sum above it has a summand of no less than a half. -/
theorem half_le_peak (contained : s.Contained maximum) {i : Nat} (found : s.activity i = some a)
    (more : Reckoning.exceeds (a + s.weight) s.maximum = true) : 1 / 2 ≤ amount s.peak.value := by
  obtain ⟨isAmount, sum⟩ := contained.sum found
  have above : amount maximum.value < amount (a + s.weight).value := by
    rw [← contained.isAmount.lt_iff isAmount, ← contained.same]
    exact of_decide_eq_true more
  obtain ⟨_, most⟩ := contained.within.upTo_peak
  have summand := most a (contained.within.upTo_activity found).1
  have weight := most s.weight (List.mem_append_right _ (.head _))
  by_contra less
  have small : amount a.value + amount s.weight.value ≤ 1 := by linarith [summand.le, weight.le]
  have le := rounded_le (add_nonneg summand.isAmount.nonneg weight.isAmount.nonneg) small isDouble_one
  linarith [contained.low]

/-- Once everything is scaled down to at most one, the weight leads to two at most. -/
theorem bump_of_exceeds (contained : s.Contained maximum) {i : Nat} (found : s.activity i = some a)
    (more : Reckoning.exceeds (a + s.weight) s.maximum = true) : (s.bump i).Contained maximum := by
  have half := contained.half_le_peak found more
  have ceiling := contained.ceiling_le
  obtain ⟨same, isAmount, low, high, within⟩ := contained
  have scaled := within.rescale half (max_le (ceiling.trans (zpow_le_zpow_right₀ one_le_two (by norm_num)))
    (zpow_le_zpow_right₀ one_le_two (by norm_num)))
  have rewarded := (scaled.mono one_le_two le_rfl).reward (i := i) (fun a' found' => ?_)
    ((one_mul (2 : ℚ)).symm ▸ isDouble_two) ((one_mul _).trans_le (two_le_zpow (by norm_num)))
  · rw [bump_eq found, if_pos more]
    exact ⟨same, isAmount, low, high, rewarded.mono (le_max_right _ _)
      ((one_mul _).trans_le (two_le_zpow (by norm_num)))⟩
  · have next := (scaled.upTo_activity found').2.add scaled.weight (one_add_one_eq_two (R := ℚ) ▸ isDouble_two)
      (one_add_one_eq_two.trans_le (two_le_zpow (by norm_num)))
    exact next.mono one_add_one_eq_two.le

theorem bump (contained : s.Contained maximum) (i : Nat) : (s.bump i).Contained maximum := by
  cases found : s.activity i with
  | none =>
    unfold Schedule.bump
    rwa [found]
  | some a =>
    by_cases more : Reckoning.exceeds (a + s.weight) s.maximum = true
    · exact contained.bump_of_exceeds found more
    · exact contained.bump_of_not_exceeds found more

end Contained

end Schedule

/-- What a schedule is called for. -/
inductive ScheduleCall where
  | register
  | bump (i : Nat)
  deriving DecidableEq, Repr

/-- The usual settings with other values. -/
def ScheduleSettings.ofValues (bump decay maximum : Float) : ScheduleSettings :=
  let usual : ScheduleSettings := {}
  ⟨{ usual.bump with value := bump }, { usual.decay with value := decay },
    { usual.maximum with value := maximum }⟩

/-- All values lie between their bounds, and the first bump is not above the maximum. -/
structure ScheduleSettings.Fit (s : ScheduleSettings) : Prop where
  bump : s.bump.InBounds
  decay : s.decay.InBounds
  maximum : s.maximum.InBounds
  bump_le : s.bump.value ≤ s.maximum.value

namespace Schedule

theorem amount_of_inBounds {x : Float} (low : 1.0 ≤ x) (high : x ≤ 1e150) :
    IsAmount x ∧ 1 ≤ amount x ∧ amount x ≤ 2 ^ (500 : ℤ) := by
  have isAmountMost : IsAmount 1e150 := by decide +kernel
  have most : amount 1e150 ≤ 2 ^ (500 : ℤ) := by decide +kernel
  have isAmount := isAmount_one.of_le isAmountMost low high
  refine ⟨isAmount, amount_one ▸ (isAmount_one.le_iff isAmount).mp low, ?_⟩
  exact ((isAmount.le_iff isAmountMost).mp high).trans most

/-- A schedule starts within its bounds where the settings fit. -/
theorem contained_ofSettings {bump decay maximum : Float}
    (fit : (ScheduleSettings.ofValues bump decay maximum).Fit) :
    (ofSettings (.ofValues bump decay maximum)).Contained ⟨maximum, false⟩ := by
  obtain ⟨⟨bumpLow, bumpHigh⟩, ⟨decayLow, decayHigh⟩, ⟨maximumLow, maximumHigh⟩, le⟩ := fit
  obtain ⟨isAmount, low, high⟩ := amount_of_inBounds maximumLow maximumHigh
  have isAmountBump : IsAmount bump := by
    refine IsAmount.of_le (x := Float.ofBits 0x0010000000000000) (y := 1e100) ?_ ?_ bumpLow bumpHigh <;>
      decide +kernel
  have isAmountHalf : IsAmount 0.5 := by decide
  have isAmountDecay : IsAmount decay := IsAmount.of_le (x := 0.0) (by decide) isAmountHalf decayLow decayHigh
  have half : amount 0.5 = 1 / 2 := by decide +kernel
  refine ⟨rfl, isAmount, low, high, nofun, ⟨isAmountBump, ?_⟩, ⟨isAmountDecay, ?_⟩⟩
  · exact (((isAmountBump.le_iff isAmount).mp le).trans high).trans (zpow_le_zpow_right₀ one_le_two (by norm_num))
  · exact half ▸ (isAmountDecay.le_iff isAmountHalf).mp decayHigh

section Calls

variable [Conventions] {s : Schedule Activity}

def take (s : Schedule Activity) : ScheduleCall → Schedule Activity
  | .register => s.register.2
  | .bump i => s.bump i

def after (s : Schedule Activity) (calls : List ScheduleCall) : Schedule Activity := calls.foldl take s

theorem Contained.after {maximum : Activity} (contained : s.Contained maximum) (calls : List ScheduleCall) :
    (s.after calls).Contained maximum := by
  unfold Schedule.after
  induction calls generalizing s with
  | nil => exact contained
  | cons call rest ih =>
    refine ih ?_
    cases call with
    | register => exact contained.register
    | bump i => exact contained.bump i

/-- A schedule of one theory that has this activity, with a weight of one that does not grow. -/
def alone (maximum : Float) (a : Activity) : Schedule Activity :=
  ⟨[⟨0, a⟩], Reckoning.one, ⟨0.0, false⟩, ⟨maximum, false⟩⟩

theorem reward_alone (maximum : Float) (a : Activity) :
    (alone maximum a).reward 0 = alone maximum (a + Reckoning.one) := by
  have grown : (Reckoning.one * (Reckoning.one / (Reckoning.one - ⟨0.0, false⟩)) : Activity) = Reckoning.one := by
    rw [Activity.one_sub_zero, Activity.one_div_one, Activity.one_mul_one]
  exact congrArg (fun w => { alone maximum (a + Reckoning.one) with weight := w }) grown

theorem rescale_alone (maximum : Float) : (alone maximum Reckoning.one).rescale = alone maximum Reckoning.one := by
  have peak : (alone maximum Reckoning.one).peak = Reckoning.one := Activity.larger_self _
  have scaled : (Reckoning.one * (Reckoning.one / Reckoning.one) : Activity) = Reckoning.one := by
    rw [Activity.one_div_one, Activity.one_mul_one]
  rw [rescale, peak]
  simp only [alone, List.map_cons, List.map_nil, scaled]

/-- Where the maximum is less than two, a theory that is bumped twice comes to be above it. -/
theorem after_bumps {maximum : Float} (low : 1.0 ≤ maximum) (less : maximum < 2.0) :
    ((ofSettings (.ofValues 1.0 0.0 maximum)).after [.register, .bump 0, .bump 0]).standings =
      [⟨0, ⟨2.0, false⟩⟩] := by
  have notMore := (le_iff_not_lt (isNaN_of_le low).1 (isNaN_of_le low).2).mp low
  have one : (Measure.zero + Reckoning.one : Activity) = Reckoning.one :=
    Activity.lift_eq (by decide) Activity.isNaN_one (show (0.0 + 1.0 : Float) = 1.0 by decide +kernel) (by decide)
  have two : (Reckoning.one + Reckoning.one : Activity) = ⟨2.0, false⟩ :=
    Activity.lift_eq Activity.isNaN_one Activity.isNaN_one (show (1.0 + 1.0 : Float) = 2.0 by decide +kernel)
      (by decide)
  have bumped (a : Activity) : (alone maximum a).bump 0 =
      (if Reckoning.exceeds (a + Reckoning.one) (⟨maximum, false⟩ : Activity) then (alone maximum a).rescale
        else alone maximum a).reward 0 := bump_eq rfl
  have first : (alone maximum Measure.zero).bump 0 = alone maximum Reckoning.one := by
    rw [bumped, one, if_neg, reward_alone, one]
    exact fun more => notMore (of_decide_eq_true more)
  have second : (alone maximum Reckoning.one).bump 0 = alone maximum ⟨2.0, false⟩ := by
    rw [bumped, two, if_pos, rescale_alone, reward_alone, two]
    exact decide_eq_true less
  have registered : (ofSettings (.ofValues 1.0 0.0 maximum)).register.2 = alone maximum Measure.zero := rfl
  simp only [after, List.foldl_cons, List.foldl_nil, take, registered, first, second]
  rfl

/-- Whatever the calls, and on whatever machine, no activity is above the maximum or two, whichever is more. So the
maximum bounds the activities under all settings just if it is not less than two. -/
theorem ceiling_exact {maximum : Float} (low : 1.0 ≤ maximum) (high : maximum ≤ 1e150) :
    (∀ bump decay calls, (ScheduleSettings.ofValues bump decay maximum).Fit →
      ∀ r ∈ ((ofSettings (.ofValues bump decay maximum)).after calls).standings,
        r.activity.value ≤ maximum ∨ r.activity.value ≤ 2.0) ∧
    ((∀ bump decay calls, (ScheduleSettings.ofValues bump decay maximum).Fit →
      ∀ r ∈ ((ofSettings (.ofValues bump decay maximum)).after calls).standings,
        r.activity.value ≤ maximum) ↔ 2.0 ≤ maximum) := by
  have isAmountTwo : IsAmount 2.0 := by decide
  have two : amount 2.0 = 2 := by decide +kernel
  obtain ⟨isAmount, _⟩ := amount_of_inBounds low high
  have bounded (bump decay : Float) (calls : List ScheduleCall)
      (fit : (ScheduleSettings.ofValues bump decay maximum).Fit) :
      ∀ r ∈ ((ofSettings (.ofValues bump decay maximum)).after calls).standings,
        r.activity.value ≤ maximum ∨ r.activity.value ≤ 2.0 := by
    intro r member
    have upTo := ((contained_ofSettings fit).after calls).within.activity r member
    rw [upTo.isAmount.le_iff isAmount, upTo.isAmount.le_iff isAmountTwo, two]
    exact le_max_iff.mp upTo.le
  refine ⟨bounded, fun always => ?_, fun large bump decay calls fit r member => ?_⟩
  · by_contra less
    have less : maximum < 2.0 := not_not.mp (mt (le_iff_not_lt isAmountTwo.isNumber isAmount.isNumber).mpr less)
    have bump : Float.ofBits 0x0010000000000000 ≤ 1.0 ∧ 1.0 ≤ 1e100 := by decide +kernel
    have decay : 0.0 ≤ 0.0 ∧ 0.0 ≤ 0.5 := by decide +kernel
    have le := always 1.0 0.0 [.register, .bump 0, .bump 0] ⟨bump, decay, ⟨low, high⟩, low⟩ ⟨0, ⟨2.0, false⟩⟩ (by
      rw [after_bumps low less]
      exact .head _)
    exact (le_iff_not_lt isAmountTwo.isNumber isAmount.isNumber).mp le less
  · rcases bounded bump decay calls fit r member with le | le
    · exact le
    · have upTo := ((contained_ofSettings fit).after calls).within.activity r member
      rw [isAmountTwo.le_iff isAmount] at large
      rw [upTo.isAmount.le_iff isAmountTwo] at le
      exact (upTo.isAmount.le_iff isAmount).mpr (le.trans large)

end Calls

/-- With the usual first bump and decay a maximum of four is kept to; a maximum of one is not. -/
theorem ceiling_exact_of_four_of_one :
    (∀ calls, ∀ r ∈ ((ofSettings (.ofValues 1.0 0.05 4.0)).after calls).standings, r.activity.value ≤ 4.0) ∧
      ¬∀ bump decay calls, (ScheduleSettings.ofValues bump decay 1.0).Fit →
        ∀ r ∈ ((ofSettings (.ofValues bump decay 1.0)).after calls).standings, r.activity.value ≤ 1.0 := by
  have fit : (ScheduleSettings.ofValues 1.0 0.05 4.0).Fit := by
    refine ⟨⟨?_, ?_⟩, ⟨?_, ?_⟩, ⟨?_, ?_⟩, ?_⟩ <;> decide +kernel
  refine ⟨fun calls => ?_, fun always => ?_⟩
  · exact (ceiling_exact (by decide) (by decide +kernel)).2.mpr (by decide) 1.0 0.05 calls fit
  · have two : (2.0 : Float) ≤ 1.0 := (ceiling_exact (by decide) (by decide +kernel)).2.mp always
    exact absurd two (by decide)

end Schedule

end SatModulo
