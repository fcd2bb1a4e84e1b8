import SatModulo.LevelStack
import SatModulo.Literal

/-!
# Trails

The literals that were made true, in order and by level, with a head: the number of literals whose consequences
by clauses have been drawn. Literals are added and taken back at the end only (`literals_store`,
`literals_cutTo_append`). The trail that the core and its theories share is in `SPEC_FULL.md`, line 21.
-/
namespace SatModulo

/-- The true literals by level, and how many of them have been propagated. -/
structure Trail where
  stack : LevelStack Literal := {}
  head : Nat := 0
  deriving DecidableEq, Repr

namespace Trail

/-- The true literals, oldest first. -/
def literals (t : Trail) : List Literal := t.stack.entries

def length (t : Trail) : Nat := t.literals.length

/-- The current level. It is stored in a word of 32 bits; where decisions lead their levels it fits there, as no more
levels are open than atoms have values. -/
def level (t : Trail) : Nat := t.stack.level

def topLiterals (t : Trail) : List Literal := t.stack.top

/-- The positions at which the levels above the base begin. -/
def starts (t : Trail) : List Nat := t.stack.starts

/-- The position after the last literal of a level. -/
def endOf (t : Trail) (level : Nat) : Nat := t.stack.endOf level

def store (t : Trail) (l : Literal) : Trail := { t with stack := t.stack.push l }

def openLevel (t : Trail) : Trail := { t with stack := t.stack.openLevel }

/-- Takes back every literal above a level, and gives them, oldest first. The head stays within the
trail; a level that is not below the current one changes nothing. -/
def cutTo (t : Trail) (level : Nat) : List Literal × Trail :=
  if level < t.level then
    let stack := t.stack.cutTo level
    (t.stack.above level, ⟨stack, min t.head stack.entries.length⟩)
  else ([], t)

/-- The next literal to be propagated. -/
def next (t : Trail) : Option Literal := t.literals[t.head]?

@[simp] theorem literals_store (t : Trail) (l : Literal) : (t.store l).literals = t.literals ++ [l] := by
  simp [store, literals]

@[simp] theorem level_store (t : Trail) (l : Literal) : (t.store l).level = t.level := rfl

@[simp] theorem literals_openLevel (t : Trail) : t.openLevel.literals = t.literals := by
  simp [openLevel, literals]

@[simp] theorem level_openLevel (t : Trail) : t.openLevel.level = t.level + 1 := by
  simp [openLevel, level]

theorem level_cutTo (t : Trail) (target : Nat) : (t.cutTo target).2.level = min target t.level := by
  unfold cutTo
  split
  · exact t.stack.level_cutTo target
  · rename_i high
    exact (Nat.min_eq_right (Nat.not_lt.mp high)).symm

/-- What is taken back stood at the end of the trail. -/
theorem literals_cutTo_append (t : Trail) (target : Nat) :
    (t.cutTo target).2.literals ++ (t.cutTo target).1 = t.literals := by
  unfold cutTo
  split
  · exact t.stack.entries_cutTo_append_above target
  · simp

end Trail

end SatModulo
