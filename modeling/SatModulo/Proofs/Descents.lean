import SatModulo.Search.Conflict

/-!
# Resolution from literal to literal

Resolution goes down the trail by position. Every position that it comes to is one of the trail, so it is
the same to go through the literals themselves, latest first (`Procedure.resolve_eq_descend`).
-/
namespace SatModulo

variable {σ : Type} [Theory σ]

theorem Resolvent.isMarked_of_lt {s : Atoms} {r : Resolvent} {a : Atom} (known : a < s.count) :
    r.isMarked s a = .ok (decide (a ∈ r.seen)) :=
  if_pos known

/-- A mark says whether the atom was met before. -/
theorem Resolvent.isMarked_eq_ok {s : Atoms} {r : Resolvent} {a : Atom} {met : Bool}
    (marked : r.isMarked s a = .ok met) : met = true ↔ a ∈ r.seen := by
  unfold isMarked at marked
  split at marked
  · cases marked
    exact decide_eq_true_iff
  · cases marked

namespace Procedure

/-- Resolves along literals, latest first, until one literal of the level is left. -/
def descend : List Literal → Resolvent → Procedure σ (Literal × List Literal)
  | [], _ => throw (.analysis .emptyResolution)
  | l :: earlier, r => do
    if ← ofFaulty (r.isMarked (← get).atoms l.atom) then
      if r.pending ≤ 1 then return (l, r.lower)
      else
        let reason ← reasonFor l
        let r ← ofExcept id ({ r with pending := r.pending - 1 }.addAll (← get).atoms
          (reason.filter (· ≠ l)))
        descend earlier r
    else descend earlier r

/-- Below a position of the trail there are only positions of the trail. -/
theorem resolve_eq_descend (trail : List Literal) {position : Nat} (inside : position ≤ trail.length)
    (r : Resolvent) :
    (resolve trail position r : Procedure σ _) = descend (trail.take position).reverse r := by
  induction position generalizing r with
  | zero => rfl
  | succ position ih =>
    rw [← List.take_append_getElem inside, List.reverse_append, List.reverse_singleton]
    unfold resolve descend
    simp only [entryAt_of_lt inside, ih (Nat.le_of_succ_le inside)]
    rfl

theorem resolve_trail (t : Trail) (r : Resolvent) :
    (resolve t.literals t.length r : Procedure σ _) = descend t.literals.reverse r := by
  rw [Trail.length, resolve_eq_descend _ (Nat.le_refl _), List.take_length]

end Procedure

end SatModulo
