import Mathlib
import SatModulo.Activity

/-!
# The order of doubles

A double that is a number has a place in a linear order (`lt_iff_place`, `le_iff_not_lt`), and no two above zero
have the same place (`eq_of_not_lt`). A sum is above zero only if a summand is (`pos_of_add`).
-/
namespace SatModulo

open Float.Model Float.Model.UnpackedFloat

/-! ### Unpacked doubles -/

namespace Unpacked

variable {u v : UnpackedFloat}

def place : UnpackedFloat → Int ×ₗ Int ×ₗ Int
  | .infinity .negative => toLex (-2, toLex (0, 0))
  | .finite .negative m e _ => toLex (-1, toLex (-e, -m))
  | .zero _ | .notANumber => toLex (0, toLex (0, 0))
  | .finite .positive m e _ => toLex (1, toLex (e, m))
  | .infinity .positive => toLex (2, toLex (0, 0))

theorem lt_iff_place (isNumber : u ≠ .notANumber) (isNumber' : v ≠ .notANumber) :
    u.lt v = true ↔ place u < place v := by
  have signs : compare Sign.negative Sign.positive = .lt := rfl
  rcases u with ⟨_ | _⟩ | _ | ⟨_ | _⟩ | ⟨_ | _, m, e, pos⟩ <;>
    rcases v with ⟨_ | _⟩ | _ | ⟨_ | _⟩ | ⟨_ | _, m', e', pos'⟩ <;>
    first
    | exact absurd rfl isNumber
    | exact absurd rfl isNumber'
    | simp [UnpackedFloat.lt, UnpackedFloat.compare, place, Prod.Lex.lt_iff, Ordering.then_eq_lt,
        Ordering.then_eq_gt, Int.compare_eq_lt, Nat.compare_eq_lt, Int.compare_eq_gt, Nat.compare_eq_gt, signs]

theorem compare_swap : v.compare u = (u.compare v).map Ordering.swap := by
  have swap (e e' : Int) (m m' : Nat) :
      (compare e' e).then (compare m' m) = ((compare e e').then (compare m m')).swap := by
    rw [Ordering.swap_then, Int.compare_swap, Nat.compare_swap]
  rcases u with ⟨_ | _⟩ | _ | ⟨_ | _⟩ | ⟨_ | _, m, e, pos⟩ <;>
    rcases v with ⟨_ | _⟩ | _ | ⟨_ | _⟩ | ⟨_ | _, m', e', pos'⟩
  case finite.negative.finite.negative => exact congrArg (some ·.swap) (swap e e' m m')
  case finite.positive.finite.positive => exact congrArg some (swap e e' m m')
  all_goals rfl

theorem compare_ne_none (isNumber : u ≠ .notANumber) (isNumber' : v ≠ .notANumber) : u.compare v ≠ none := by
  rcases u with ⟨_ | _⟩ | _ | ⟨_ | _⟩ | ⟨_ | _, m, e, pos⟩ <;>
    rcases v with ⟨_ | _⟩ | _ | ⟨_ | _⟩ | ⟨_ | _, m', e', pos'⟩ <;>
    first
    | exact absurd rfl isNumber
    | exact absurd rfl isNumber'
    | nofun

theorem le_iff_not_lt (isNumber : u ≠ .notANumber) (isNumber' : v ≠ .notANumber) :
    u.le v = true ↔ ¬v.lt u = true := by
  unfold UnpackedFloat.le UnpackedFloat.lt
  rw [compare_swap (u := u)]
  rcases compared : u.compare v with _ | _ | _ | _
  · exact absurd compared (compare_ne_none isNumber isNumber')
  all_goals decide

inductive Above : UnpackedFloat → Prop
  | infinity : Above (.infinity .positive)
  | finite (m : Nat) (e : Int) (pos : 0 < m) : Above (.finite .positive m e pos)

theorem above_iff : Above u ↔ UnpackedFloat.lt (.zero .positive) u = true := by
  refine ⟨fun above => by cases above <;> rfl, fun high => ?_⟩
  rcases u with ⟨_ | _⟩ | _ | _ | ⟨_ | _, m, e, pos⟩
  case infinity.positive => exact .infinity
  case finite.positive => exact .finite m e pos
  all_goals cases high

theorem Above.eq_of_place (above : Above u) (above' : Above v) (same : place u = place v) : u = v := by
  cases above <;> cases above' <;> simp_all [place]

theorem Above.unpackSign_eq {b : BitVec Format.binary64.numBits} (above : Above (UnpackedFloat.unpack .binary64 b)) :
    unpackSign b = 0#1 := by
  by_contra signed
  have sign : Sign.ofBitVec (unpackSign b) = .negative := if_neg signed
  rw [UnpackedFloat.unpack] at above
  dsimp only at above
  rw [sign] at above
  split at above
  · split at above <;> cases above
  · split at above
    · split at above <;> cases above
    · cases above

/-- Packing keeps the sign. -/
theorem unpackSign_pack_finite {sign : Sign} {m : Nat} {e : Int} {pos : 0 < m} :
    unpackSign (UnpackedFloat.pack .binary64 (.finite sign m e pos)) = sign.toBitVec := by
  rw [UnpackedFloat.pack]
  dsimp only
  split
  · exact unpackSign_packComponents ..
  · split <;> exact unpackSign_packComponents ..

/-- Only a number above zero is packed to one. -/
theorem Above.of_unpack_pack (above : Above (UnpackedFloat.unpack .binary64 (UnpackedFloat.pack .binary64 u))) :
    Above u := by
  have sign := above.unpackSign_eq
  rcases u with ⟨_ | _⟩ | _ | _ | ⟨_ | _, m, e, pos⟩
  case infinity.positive => exact .infinity
  case finite.positive => exact .finite m e pos
  case infinity.negative => cases (unpackSign_packComponents .negative ..).symm.trans sign
  case finite.negative => cases unpackSign_pack_finite.symm.trans sign
  case notANumber =>
    rw [UnpackedFloat.pack, unpack_packedNaN] at above
    cases above
  case zero =>
    rw [UnpackedFloat.pack, unpack_packedZero] at above
    cases above

theorem not_above_round (m : Nat) (e : Int) (accuracy : Accuracy) :
    ¬Above (UnpackedFloat.roundWithAccuracy .binary64 .negative m e accuracy) := by
  rw [UnpackedFloat.roundWithAccuracy]
  dsimp only
  split <;> rintro ⟨⟩

/-- What is rounded to something above zero is above zero. -/
theorem Above.of_normalize {m e : Int} (above : Above (UnpackedFloat.normalize .binary64 m e .positive)) : 0 < m := by
  rw [UnpackedFloat.normalize] at above
  split at above
  · exact absurd above (not_above_round _ _ _)
  · cases above
  · rename_i more
    exact Int.compare_eq_gt.mp more

theorem Above.of_add (above : Above (UnpackedFloat.add .binary64 u v)) : Above u ∨ Above v := by
  rcases u with ⟨_ | _⟩ | _ | ⟨_ | _⟩ | ⟨_ | _, m, e, pos⟩ <;>
    rcases v with ⟨_ | _⟩ | _ | ⟨_ | _⟩ | ⟨_ | _, m', e', pos'⟩
  case finite.negative.finite.negative =>
    have more := above.of_normalize
    have low : ∀ n : Nat, Sign.negative.apply n ≤ 0 := fun n => Int.neg_nonpos_of_nonneg (Int.natCast_nonneg n)
    exact absurd more (Int.not_lt.mpr (Int.add_nonpos (low _) (low _)))
  all_goals first
    | exact .inl (.finite ..)
    | exact .inr (.finite ..)
    | exact .inl .infinity
    | exact .inr .infinity
    | cases above

end Unpacked

/-! ### Doubles -/

section Order

variable {x y z : Float}

theorem isNaN_iff_unpack : x.isNaN = true ↔ x.toModel.unpack = .notANumber := isNaN_iff

theorem lt_iff_unpack : x < y ↔ x.toModel.unpack.lt y.toModel.unpack = true := decide_eq_true_iff

theorem ne_notANumber (isNumber : x.isNaN = false) : x.toModel.unpack ≠ .notANumber := fun isNaN => by
  rw [isNaN_iff_unpack.mpr isNaN] at isNumber
  cases isNumber

/-- What is compared is a number. -/
theorem isNaN_of_lt (less : x < y) : x.isNaN = false ∧ y.isNaN = false := by
  rw [lt_iff_unpack] at less
  refine ⟨Bool.eq_false_iff.mpr fun isNaN => ?_, Bool.eq_false_iff.mpr fun isNaN => ?_⟩
  · rw [isNaN_iff_unpack.mp isNaN] at less
    cases less
  · rw [isNaN_iff_unpack.mp isNaN] at less
    generalize x.toModel.unpack = u at less
    cases u <;> cases less

theorem lt_iff_place (isNumber : x.isNaN = false) (isNumber' : y.isNaN = false) :
    x < y ↔ Unpacked.place x.toModel.unpack < Unpacked.place y.toModel.unpack :=
  lt_iff_unpack.trans (Unpacked.lt_iff_place (ne_notANumber isNumber) (ne_notANumber isNumber'))

theorem le_iff_unpack : x ≤ y ↔ x.toModel.unpack.le y.toModel.unpack = true := decide_eq_true_iff

theorem le_iff_not_lt (isNumber : x.isNaN = false) (isNumber' : y.isNaN = false) : x ≤ y ↔ ¬y < x := by
  rw [le_iff_unpack, lt_iff_unpack]
  exact Unpacked.le_iff_not_lt (ne_notANumber isNumber) (ne_notANumber isNumber')

theorem isNaN_of_le (le : x ≤ y) : x.isNaN = false ∧ y.isNaN = false := by
  rw [le_iff_unpack] at le
  refine ⟨Bool.eq_false_iff.mpr fun isNaN => ?_, Bool.eq_false_iff.mpr fun isNaN => ?_⟩
  · rw [isNaN_iff_unpack.mp isNaN] at le
    cases le
  · rw [isNaN_iff_unpack.mp isNaN] at le
    generalize x.toModel.unpack = u at le
    cases u <;> cases le

theorem isNaN_of_beq (same : (x == y) = true) : x.isNaN = false := by
  have same : x.toModel.unpack.beq y.toModel.unpack = true := same
  refine Bool.eq_false_iff.mpr fun isNaN => ?_
  rw [isNaN_iff_unpack.mp isNaN] at same
  cases same

theorem not_lt_self : ¬x < x := fun less => by
  obtain ⟨isNumber, _⟩ := isNaN_of_lt less
  exact lt_irrefl _ ((lt_iff_place isNumber isNumber).mp less)

theorem not_lt_of_lt (less : x < y) : ¬y < x := fun more => by
  obtain ⟨isNumber, isNumber'⟩ := isNaN_of_lt less
  exact lt_asymm ((lt_iff_place isNumber isNumber').mp less) ((lt_iff_place isNumber' isNumber).mp more)

/-- What is less than something is less than all that is not less than that. -/
theorem lt_of_lt_of_not_lt (less : x < y) (notLess : ¬z < y) (isNumber : z.isNaN = false) : x < z := by
  obtain ⟨numberX, numberY⟩ := isNaN_of_lt less
  rw [lt_iff_place isNumber numberY, not_lt] at notLess
  rw [lt_iff_place numberX numberY] at less
  exact (lt_iff_place numberX isNumber).mpr (lt_of_lt_of_le less notLess)

theorem lt_of_not_lt_of_lt (notLess : ¬y < x) (less : y < z) (isNumber : x.isNaN = false) : x < z := by
  obtain ⟨numberY, numberZ⟩ := isNaN_of_lt less
  rw [lt_iff_place numberY isNumber, not_lt] at notLess
  rw [lt_iff_place numberY numberZ] at less
  exact (lt_iff_place isNumber numberZ).mpr (lt_of_le_of_lt notLess less)

/-- Above zero, numbers of which neither is less are the same. -/
theorem eq_of_not_lt (above : 0.0 < x) (above' : 0.0 < y) (notLess : ¬x < y) (notMore : ¬y < x) : x = y := by
  have zero : (0.0 : Float).toModel.unpack = .zero .positive := rfl
  have isNumber := (isNaN_of_lt above).2
  have isNumber' := (isNaN_of_lt above').2
  rw [lt_iff_place isNumber isNumber', not_lt] at notLess
  rw [lt_iff_place isNumber' isNumber, not_lt] at notMore
  rw [lt_iff_unpack, zero, ← Unpacked.above_iff] at above above'
  have same := above.eq_of_place above' (le_antisymm notMore notLess)
  obtain ⟨⟨bits, valid⟩⟩ := x
  obtain ⟨⟨bits', valid'⟩⟩ := y
  obtain rfl : bits = bits' := UInt64.toBitVec_inj.mp ((unpack_inj_of_valid valid valid').mp same)
  rfl

theorem pos_of_add (above : 0.0 < x + y) : 0.0 < x ∨ 0.0 < y := by
  have zero : (0.0 : Float).toModel.unpack = .zero .positive := rfl
  rw [lt_iff_unpack, zero, ← Unpacked.above_iff] at above
  rw [lt_iff_unpack, lt_iff_unpack, zero, ← Unpacked.above_iff, ← Unpacked.above_iff]
  exact Unpacked.Above.of_add (Unpacked.Above.of_unpack_pack above)

end Order

end SatModulo
