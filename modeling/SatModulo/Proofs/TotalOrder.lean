import SatModulo.Schedule

/-!
# The order of turns

Theories have their turns by priority, then the more active first in the total order of doubles, then by index
(`Schedule.pairwise_before_order`). The total order compares doubles by their bits, read as signed integers in
which all bits but the sign are flipped where that is set (`totalKey`). So it is a strict order of all doubles,
numbers or not, in which those with different bits are never equal, and the comparison of theories is one too. All
of this needs no more than that numbers are ranked by some bits (`Measure.RanksBits`), as activities are
(`Activity.ranksBits`).
-/
namespace SatModulo

/-- The key of bits in the total order of doubles. -/
def totalKey (b : BitVec 64) : Int := (b ^^^ ((b.sshiftRight 63) >>> 1)).toInt

variable {b b' : BitVec 64}

/-- Without the sign, bits are their own key. -/
theorem totalKey_of_msb_false (positive : b.msb = false) : totalKey b = (b.toNat % 0x8000000000000000 : Nat) := by
  have low := BitVec.msb_eq_false_iff_two_mul_lt.mp positive
  have mask : (b.sshiftRight 63) >>> 1 = 0#64 := by
    rw [BitVec.sshiftRight_eq_of_msb_false positive]
    apply BitVec.eq_of_toNat_eq
    simp [Nat.shiftRight_eq_div_pow]
    omega
  rw [totalKey, mask, BitVec.xor_zero, BitVec.toInt_eq_msb_cond, if_neg (by simp [positive])]
  omega

/-- A sign that is set is cleared by a pivot. -/
theorem xor_pivot (negative : b.msb = true) :
    b ^^^ 0x8000000000000000#64 = (b.setWidth 63).setWidth 64 := by
  apply BitVec.eq_of_getLsbD_eq
  intro i inside
  rw [BitVec.msb_eq_getLsbD_last] at negative
  have pivot : (0x8000000000000000#64).getLsbD i = decide (i = 63) := by
    rw [BitVec.getLsbD_ofNat, show (0x8000000000000000 : Nat) = 2 ^ 63 from rfl, Nat.testBit_two_pow]
    simp [inside, eq_comm]
  rw [BitVec.getLsbD_xor, pivot, BitVec.getLsbD_setWidth, BitVec.getLsbD_setWidth]
  by_cases last : i = 63
  · subst last
    simp_all
  · have low : i < 63 := by omega
    simp [last, low, inside]

/-- With the sign, the key of bits is below all others, and lower for the higher ones. -/
theorem totalKey_of_msb_true (negative : b.msb = true) :
    totalKey b = -((b.toNat % 0x8000000000000000 : Nat) : Int) - 1 := by
  have high := BitVec.msb_eq_true_iff_two_mul_ge.mp negative
  have mask : (b.sshiftRight 63) >>> 1 = 0x7fffffffffffffff#64 := by
    rw [BitVec.sshiftRight_eq_of_msb_true negative]
    apply BitVec.eq_of_toNat_eq
    simp [Nat.shiftRight_eq_div_pow]
    omega
  have flip : b ^^^ 0x7fffffffffffffff#64 = ~~~(b ^^^ 0x8000000000000000#64) := by
    rw [BitVec.not_xor_right]
    rfl
  have low : ((b.setWidth 63).setWidth 64).toNat = b.toNat % 0x8000000000000000 := by
    simp
    omega
  have bound := Nat.mod_lt b.toNat (y := 0x8000000000000000) (by decide)
  rw [totalKey, mask, flip, xor_pivot negative, BitVec.toInt_not, low, Int.bmod_def]
  simp only [Int.reducePow, Int.reduceSub]
  split <;> omega

/-- Bits with the same key are the same. -/
theorem totalKey_injective (same : totalKey b = totalKey b') : b = b' := by
  apply BitVec.eq_of_toNat_eq
  cases sign : b.msb <;> cases sign' : b'.msb
  · rw [totalKey_of_msb_false sign, totalKey_of_msb_false sign'] at same
    have low := BitVec.msb_eq_false_iff_two_mul_lt.mp sign
    have low' := BitVec.msb_eq_false_iff_two_mul_lt.mp sign'
    omega
  · rw [totalKey_of_msb_false sign, totalKey_of_msb_true sign'] at same
    omega
  · rw [totalKey_of_msb_true sign, totalKey_of_msb_false sign'] at same
    omega
  · rw [totalKey_of_msb_true sign, totalKey_of_msb_true sign'] at same
    have high := BitVec.msb_eq_true_iff_two_mul_ge.mp sign
    have high' := BitVec.msb_eq_true_iff_two_mul_ge.mp sign'
    have bound := b.isLt
    have bound' := b'.isLt
    omega

/-- Numbers that are ranked by the total order of some bits. -/
def Measure.RanksBits {α : Type} [Measure α] (bits : α → BitVec 64) : Prop :=
  ∀ a b : α, rank a b = compare (totalKey (bits a)) (totalKey (bits b))

namespace Activity

/-- The bits of an activity, where the sign of a value that is no number is the one it has here. -/
def bits (a : Activity) : BitVec 64 :=
  if a.value.isNaN ∧ a.negative then a.value.toBits.toBitVec ||| 0x8000000000000000#64
  else a.value.toBits.toBitVec

/-- The order that is computed from sign and magnitude is the total order of bits. -/
theorem position_eq_totalKey (a : Activity) : a.position = totalKey a.bits := by
  have sign : a.value.toBits.toBitVec.msb = true ↔ 0x8000000000000000 ≤ a.value.toBits.toNat := by
    have wide : a.value.toBits.toBitVec.toNat = a.value.toBits.toNat := rfl
    rw [BitVec.msb_eq_true_iff_two_mul_ge]
    omega
  unfold position bits
  dsimp only
  by_cases nan : a.value.isNaN = true ∧ a.negative = true
  · have same : (a.value.toBits.toBitVec ||| 0x8000000000000000#64).toNat % 0x8000000000000000 =
        a.value.toBits.toNat % 0x8000000000000000 := by
      rw [BitVec.toNat_or, show (0x8000000000000000 : Nat) = 2 ^ 63 from rfl, Nat.or_mod_two_pow]
      simp
    have negative : (a.value.toBits.toBitVec ||| 0x8000000000000000#64).msb = true := by
      rw [BitVec.msb_or, Bool.or_eq_true]
      exact .inr rfl
    rw [if_pos (.inr nan), if_pos nan, totalKey_of_msb_true negative, same]
  · rw [if_neg nan]
    by_cases high : 0x8000000000000000 ≤ a.value.toBits.toNat
    · rw [if_pos (.inl high), totalKey_of_msb_true (sign.mpr high)]
      rfl
    · rw [if_neg (not_or.mpr ⟨high, nan⟩),
        totalKey_of_msb_false (Bool.eq_false_iff.mpr fun negative => high (sign.mp negative))]
      rfl

/-- Activities are ranked by the total order of their bits. -/
theorem ranksBits : Measure.RanksBits bits := by
  intro a b
  rw [← position_eq_totalKey, ← position_eq_totalKey]
  rfl

end Activity

namespace Schedule

variable {α : Type} {bits : α → BitVec 64} {s : Schedule α} {i j k : Nat}

/-- The theory of an index has its turn before that of another: it has a lower priority, or the same and more
activity in the total order of bits, or the same of both and a lower index. -/
def Before (bits : α → BitVec 64) (s : Schedule α) (i j : Nat) : Prop :=
  ∃ a b, s.standings[i]? = some a ∧ s.standings[j]? = some b ∧
    (a.priority < b.priority ∨ a.priority = b.priority ∧
      (totalKey (bits b.activity) < totalKey (bits a.activity) ∨ bits b.activity = bits a.activity ∧ i < j))

theorem Before.trans (first : s.Before bits i j) (second : s.Before bits j k) : s.Before bits i k := by
  obtain ⟨a, b, foundA, foundB, ordered⟩ := first
  obtain ⟨b', d, foundB', foundD, ordered'⟩ := second
  obtain rfl : b = b' := Option.some.inj (foundB.symm.trans foundB')
  refine ⟨a, d, foundA, foundD, ?_⟩
  rcases ordered with lower | ⟨same, ordered⟩
  · rcases ordered' with lower' | ⟨same', _⟩ <;> exact .inl (by omega)
  · rcases ordered' with lower' | ⟨same', ordered'⟩
    · exact .inl (by omega)
    · refine .inr ⟨same.trans same', ?_⟩
      rcases ordered with more | ⟨equal, less⟩
      · rcases ordered' with more' | ⟨equal', _⟩
        · exact .inl (Int.lt_trans more' more)
        · exact .inl (by rwa [equal'])
      · rcases ordered' with more' | ⟨equal', less'⟩
        · exact .inl (by rwa [← equal])
        · exact .inr ⟨equal'.trans equal, Nat.lt_trans less less'⟩

theorem Before.irrefl : ¬s.Before bits i i := by
  rintro ⟨a, b, foundA, foundB, ordered⟩
  obtain rfl : a = b := Option.some.inj (foundA.symm.trans foundB)
  rcases ordered with lower | ⟨_, more | ⟨_, less⟩⟩ <;> omega

/-- Of two theories one has its turn before the other. -/
theorem before_or_before (inside : i < s.standings.length) (inside' : j < s.standings.length) (other : i ≠ j) :
    s.Before bits i j ∨ s.Before bits j i := by
  unfold Before
  rw [List.getElem?_eq_getElem inside, List.getElem?_eq_getElem inside']
  generalize s.standings[i] = a
  generalize s.standings[j] = b
  rcases Int.lt_trichotomy a.priority b.priority with lower | same | higher
  · exact .inl ⟨a, b, rfl, rfl, .inl lower⟩
  · rcases Int.lt_trichotomy (totalKey (bits b.activity)) (totalKey (bits a.activity)) with
      more | equal | fewer
    · exact .inl ⟨a, b, rfl, rfl, .inr ⟨same, .inl more⟩⟩
    · replace equal := totalKey_injective equal
      rcases Nat.lt_or_gt_of_ne other with less | greater
      · exact .inl ⟨a, b, rfl, rfl, .inr ⟨same, .inr ⟨equal, less⟩⟩⟩
      · exact .inr ⟨b, a, rfl, rfl, .inr ⟨same.symm, .inr ⟨equal.symm, greater⟩⟩⟩
    · exact .inr ⟨b, a, rfl, rfl, .inr ⟨same.symm, .inl fewer⟩⟩
  · exact .inr ⟨b, a, rfl, rfl, .inl higher⟩

variable [Measure α]

/-- A theory precedes another exactly if it has its turn before. -/
theorem precedes_iff (ranks : Measure.RanksBits bits) (inside : i < s.standings.length)
    (inside' : j < s.standings.length) : s.precedes i j = true ↔ s.Before bits i j := by
  have keys (a b : α) : totalKey (bits b) = totalKey (bits a) ↔ bits b = bits a :=
    ⟨totalKey_injective, congrArg _⟩
  simp only [precedes, Before, compareStandings, List.getElem?_eq_getElem inside, List.getElem?_eq_getElem inside',
    ranks _ _, keys, beq_iff_eq, Ordering.then_eq_lt, Ordering.then_eq_eq, Int.compare_eq_lt, Nat.compare_eq_lt,
    Std.LawfulEqCmp.compare_eq_iff_eq, Option.some.injEq, exists_and_left, exists_eq_left']
  rw [and_assoc, or_assoc, ← and_or_left]

theorem mem_order : i ∈ s.order ↔ i < s.standings.length := by
  rw [s.order_perm.mem_iff, List.mem_range]

/-- An index that is not among some others is put in its place. -/
theorem pairwise_before_insert (ranks : Measure.RanksBits bits) {indices : List Nat}
    (inside : i < s.standings.length) (others : ∀ j ∈ indices, j < s.standings.length ∧ j ≠ i)
    (sorted : indices.Pairwise (s.Before bits)) : (s.insert i indices).Pairwise (s.Before bits) := by
  induction indices with
  | nil => exact List.pairwise_singleton ..
  | cons j rest ih =>
    rw [List.forall_mem_cons] at others
    rw [List.pairwise_cons] at sorted
    unfold insert
    split
    · rename_i first
      replace first := (precedes_iff ranks inside others.1.1).mp first
      refine List.pairwise_cons.mpr ⟨List.forall_mem_cons.mpr ⟨first, fun k member => ?_⟩, ?_⟩
      · exact first.trans (sorted.1 k member)
      · exact List.pairwise_cons.mpr sorted
    · rename_i notFirst
      rw [precedes_iff ranks inside others.1.1] at notFirst
      have last := (before_or_before others.1.1 inside others.1.2).resolve_right notFirst
      refine List.pairwise_cons.mpr ⟨fun k member => ?_, ih others.2 sorted.2⟩
      rcases List.mem_cons.mp ((s.insert_perm i rest).mem_iff.mp member) with rfl | member
      · exact last
      · exact sorted.1 k member

/-- Theories have their turns one before the other. -/
theorem pairwise_before_order (ranks : Measure.RanksBits bits) (s : Schedule α) :
    s.order.Pairwise (s.Before bits) := by
  suffices ∀ indices : List Nat, indices.Nodup → (∀ i ∈ indices, i < s.standings.length) →
      (indices.foldr s.insert []).Perm indices ∧ (indices.foldr s.insert []).Pairwise (s.Before bits) from
    (this _ List.nodup_range fun i => List.mem_range.mp).2
  intro indices distinct inside
  induction indices with
  | nil => exact ⟨.refl _, .nil⟩
  | cons i rest ih =>
    rw [List.forall_mem_cons] at inside
    rw [List.nodup_cons] at distinct
    obtain ⟨perm, sorted⟩ := ih distinct.2 inside.2
    refine ⟨(s.insert_perm i _).trans (perm.cons i), pairwise_before_insert ranks inside.1 ?_ sorted⟩
    intro j member
    have old := perm.mem_iff.mp member
    exact ⟨inside.2 j old, fun same => distinct.1 (same ▸ old)⟩

end Schedule

end SatModulo
