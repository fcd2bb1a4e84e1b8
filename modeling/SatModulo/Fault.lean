/-!
# Faults

What ends a run. A fault is not an error that a caller can handle: after it there is no state to go
on with, so it stands outside the errors of `SatModulo.Error`.
-/
namespace SatModulo

/-- Why a run ended. -/
inductive Fault where
  /-- The least literal was to be negated; its negation is no literal. -/
  | noNegation
  /-- A random truth value was asked for with a likelihood outside the unit interval. -/
  | notAProbability
  /-- A theory was asked to observe an atom after the trail was cut behind its back: it had been handed
  more than the trail still holds. -/
  | trailTooShort
  /-- An entry was asked for by a position that is outside of what has entries. -/
  | outOfRange
  deriving DecidableEq, Repr

/-- The entry at a position. -/
def entryAt {α : Type} (entries : List α) (position : Nat) : Except Fault α :=
  match entries[position]? with
  | some a => .ok a
  | none => .error .outOfRange

/-- The entries before a position. -/
def entriesBefore {α : Type} (entries : List α) (position : Nat) : Except Fault (List α) :=
  if position ≤ entries.length then .ok (entries.take position) else .error .outOfRange

@[simp] theorem entryAt_of_lt {α : Type} {entries : List α} {position : Nat}
    (inside : position < entries.length) : entryAt entries position = .ok entries[position] := by
  rw [entryAt, List.getElem?_eq_getElem inside]

theorem entriesBefore_of_le {α : Type} {entries : List α} {position : Nat}
    (inside : position ≤ entries.length) : entriesBefore entries position = .ok (entries.take position) :=
  if_pos inside

end SatModulo
