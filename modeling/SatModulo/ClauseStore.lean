import SatModulo.Error

/-!
# Stores of clauses

Clauses that were given and clauses that were learnt, each under a key that stays valid, and for each literal
the keys of the clauses it occurs in. Which literals occur is what theories are told by `SPEC_FULL.md`, line 97.
-/
namespace SatModulo

/-- The clauses by kind, and the keys by literal index. -/
structure ClauseStore where
  given : Array Clause := #[]
  learnt : Array Clause := #[]
  /-- The keys of the clauses of each literal, in the order of storing, once per occurrence. -/
  index : Array (List ClauseKey) := #[]
  deriving DecidableEq, Repr

namespace ClauseStore

def get? (s : ClauseStore) : ClauseKey → Option Clause
  | .given n => s.given[n]?
  | .learnt n => s.learnt[n]?

/-- The clause of a key, or that there is none. -/
def get (s : ClauseStore) (key : ClauseKey) : Except ClauseError Clause :=
  match s.get? key with
  | some c => .ok c
  | none => .error .missing

/-- The keys of the clauses in which a literal occurs, in the order of storing. -/
def occurrences (s : ClauseStore) (l : Literal) : List ClauseKey := s.index[l.index]?.getD []

def occurs (s : ClauseStore) (l : Literal) : Bool := !(s.occurrences l).isEmpty

def clauses (s : ClauseStore) : List Clause := s.given.toList ++ s.learnt.toList

/-- Notes an occurrence of a literal; the index grows as far as is needed. -/
def noteOccurrence (key : ClauseKey) (index : Array (List ClauseKey)) (l : Literal) :
    Array (List ClauseKey) :=
  (index ++ Array.replicate (l.index + 1 - index.size) []).modify l.index (· ++ [key])

/-- Stores a clause and gives its key. The empty clause is refused; each kind has room for `2 ^ 32`
clauses. Where a clause is refused, the store is given back as it was. -/
def put (s : ClauseStore) (c : Clause) (learnt : Bool) : Except ClauseError ClauseKey × ClauseStore :=
  let position := if learnt then s.learnt.size else s.given.size
  if c.isEmpty then (.error .emptyClause, s)
  else if UInt32.size ≤ position then (.error .storageExhausted, s)
  else
    let key : ClauseKey := if learnt then .learnt position else .given position
    let index := c.foldl (noteOccurrence key) s.index
    (.ok key, if learnt then { s with learnt := s.learnt.push c, index } else { s with given := s.given.push c, index })

/-- Stores a clause, for those who go on with the store they had where the clause is refused. -/
def store (s : ClauseStore) (c : Clause) (learnt : Bool) : Except ClauseError (ClauseKey × ClauseStore) :=
  let (result, s) := s.put c learnt
  result.map (·, s)

theorem put_of_error {s : ClauseStore} {c : Clause} {learnt : Bool} {e : ClauseError}
    (refused : (s.put c learnt).1 = .error e) : (s.put c learnt).2 = s := by
  unfold put at refused ⊢
  dsimp only at refused ⊢
  by_cases empty : c.isEmpty = true
  · rw [if_pos empty]
  · rw [if_neg empty] at refused ⊢
    by_cases full : UInt32.size ≤ if learnt then s.learnt.size else s.given.size
    · rw [if_pos full]
    · rw [if_neg full] at refused
      cases refused

/-- What storing does in one piece: the clause is refused, or appended to its kind and noted at each of its literals.
-/
theorem store_eq (s : ClauseStore) (c : Clause) (learnt : Bool) : s.store c learnt =
    let position := if learnt then s.learnt.size else s.given.size
    if c.isEmpty then .error .emptyClause
    else if UInt32.size ≤ position then .error .storageExhausted
    else
      let key : ClauseKey := if learnt then .learnt position else .given position
      let index := c.foldl (noteOccurrence key) s.index
      if learnt then .ok (key, { s with learnt := s.learnt.push c, index })
      else .ok (key, { s with given := s.given.push c, index }) := by
  unfold store put
  dsimp only
  by_cases empty : c.isEmpty = true
  · rw [if_pos empty, if_pos empty]
    rfl
  · rw [if_neg empty, if_neg empty]
    by_cases full : UInt32.size ≤ if learnt then s.learnt.size else s.given.size
    · rw [if_pos full, if_pos full]
      rfl
    · rw [if_neg full, if_neg full]
      cases learnt <;> rfl

end ClauseStore

end SatModulo
