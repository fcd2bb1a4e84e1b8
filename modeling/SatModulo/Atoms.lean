import SatModulo.Clause
import SatModulo.Error
import SatModulo.Trail

/-!
# Atoms

The atoms of a context with their values. An atom that has a value also has the level at which it got
it and the reason for it; these come and go together, so they are one record. The atom `0` is true
at level `0` for no reason and stands on no trail.
-/
namespace SatModulo

/-- A number by which a theory recognises why it made a literal true. -/
abbrev Marker := Nat

/-- Why an atom has its value. -/
inductive Reason where
  | decision
  /-- Every other literal of the clause was false. -/
  | clause (key : ClauseKey)
  /-- A theory made the literal true, and can say why when asked with the marker. -/
  | theory (index : Nat) (marker : Marker)
  deriving DecidableEq, Repr

/-- A value with the level at which it was given and the reason for it. -/
structure Assignment where
  value : Bool
  level : Nat
  reason : Option Reason
  deriving DecidableEq, Repr

/-- An atom: the value it last had, or is to have first, and the value it has. -/
structure AtomCell where
  previous : Bool
  assigned : Option Assignment := none
  deriving DecidableEq, Repr

/-- The atoms by number, and the trail of what has been assigned. -/
structure Atoms where
  cells : Array AtomCell := #[⟨true, some ⟨true, 0, none⟩⟩]
  trail : Trail := {}
  deriving DecidableEq, Repr

namespace Atoms

/-- The number of atoms, the atom `0` included. -/
def count (s : Atoms) : Nat := s.cells.size

def assignment (s : Atoms) (a : Atom) : Option Assignment :=
  s.cells[a]?.bind (·.assigned)

/-- The value of an atom; an unknown atom has none. -/
def value (s : Atoms) (a : Atom) : Option Bool := (s.assignment a).map (·.value)

def levelOf (s : Atoms) (a : Atom) : Option Nat := (s.assignment a).map (·.level)

def reasonOf (s : Atoms) (a : Atom) : Option Reason := (s.assignment a).bind (·.reason)

/-- The value that an atom last had; that of an unknown atom is false. -/
def previousValue (s : Atoms) (a : Atom) : Bool := (s.cells[a]?.map (·.previous)).getD false

def valueOf (s : Atoms) (l : Literal) : Option Bool := l.valueOn s.value

def status (s : Atoms) (l : Literal) : Status := l.statusOn s.value

def valuation (s : Atoms) : Valuation := s.cells.toList.map fun c => c.assigned.map (·.value)

/-- The atoms without a value, in ascending order. -/
def unvalued (s : Atoms) : List Atom := s.valuation.unvalued

def level (s : Atoms) : Nat := s.trail.level

/-- Adds an atom that is to have the given value first. -/
def fresh (s : Atoms) (previous : Bool) : Except AtomError (Atom × Atoms) :=
  if s.count ≤ maxAtom then .ok (s.count, { s with cells := s.cells.push { previous } })
  else .error .exhausted

/-- Makes a literal true at the current level, if its atom has no value. The status is the one it had
before. -/
def assign (s : Atoms) (l : Literal) (reason : Reason) : Except AtomError (Status × Atoms) :=
  if l.atom < s.count then
    match s.status l with
    | .unset =>
      .ok (.unset,
        { cells := s.cells.modify l.atom fun c =>
            { c with assigned := some ⟨l.polarity, s.level, some reason⟩ }
          trail := s.trail.store l })
    | status => .ok (status, s)
  else .error .unknown

/-- Takes the value of an atom back and keeps it as the previous one. The trail is left alone. -/
def drop (s : Atoms) (a : Atom) : Atoms :=
  { s with
    cells := s.cells.modify a fun c =>
      match c.assigned with
      | some assigned => ⟨assigned.value, none⟩
      | none => c }

/-- Takes back every value given above a level, and gives the literals, oldest first. -/
def forgetAbove (s : Atoms) (level : Nat) : List Literal × Atoms :=
  let (cleared, trail) := s.trail.cutTo level
  (cleared, cleared.foldl (fun s l => s.drop l.atom) { s with trail })

def openLevel (s : Atoms) : Atoms := { s with trail := s.trail.openLevel }

@[simp] theorem count_drop (s : Atoms) (a : Atom) : (s.drop a).count = s.count := by
  simp [drop, count]

@[simp] theorem trail_drop (s : Atoms) (a : Atom) : (s.drop a).trail = s.trail := rfl

theorem assignment_drop (s : Atoms) (a b : Atom) :
    (s.drop a).assignment b = if b = a then none else s.assignment b := by
  by_cases same : b = a
  · subst same
    simp only [drop, assignment, Array.getElem?_modify, if_true]
    cases s.cells[b]? with
    | none => rfl
    | some cell => obtain ⟨_, _ | _⟩ := cell <;> rfl
  · simp [drop, assignment, Array.getElem?_modify, same, Ne.symm same]

/-- Only an atom that is known and has no value is given one. -/
theorem assign_eq_ok {s s' : Atoms} {l : Literal} {reason : Reason} {status : Status}
    (success : s.assign l reason = .ok (status, s')) :
    l.atom < s.count ∧ s.status l = status ∧ (status ≠ .unset → s' = s) := by
  unfold assign at success
  split at success
  · rename_i known
    split at success
    · rename_i unset
      cases success
      exact ⟨known, unset, fun other => absurd rfl other⟩
    · cases success
      exact ⟨known, rfl, fun _ => rfl⟩
  · cases success

end Atoms

end SatModulo
