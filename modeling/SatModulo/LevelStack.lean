/-!
# Stacks of levels

Entries in order, cut into levels: level `0` is the base, and each further level is opened above the ones
before. Cutting back to a level drops every entry of a later level and closes those levels. As the entries are
kept by level, every stack is well formed. A stack is its list of levels (`eq_of_levels`), a cut takes the first
of them (`levels_cutTo`), and of two cuts the lower one counts (`cutTo_cutTo`). These are the levels of
`SPEC_FULL.md`, lines 34, 42 and 75 to 76.
-/
namespace SatModulo

/-- The entries of the levels below the current one, base first, and those of the current level. -/
structure LevelStack (α : Type) where
  below : List (List α) := []
  top : List α := []
  deriving DecidableEq, Repr

namespace LevelStack

variable {α : Type}

def level (s : LevelStack α) : Nat := s.below.length

/-- All levels, base first. -/
def levels (s : LevelStack α) : List (List α) := s.below ++ [s.top]

/-- All entries, oldest first. -/
def entries (s : LevelStack α) : List α := s.below.flatten ++ s.top

/-- The entries of a level; a level that is not open has none. -/
def entriesAt (s : LevelStack α) (level : Nat) : List α := s.levels[level]?.getD []

def push (s : LevelStack α) (a : α) : LevelStack α := { s with top := s.top ++ [a] }

def openLevel (s : LevelStack α) : LevelStack α := ⟨s.below ++ [s.top], []⟩

/-- Closes every level above the given one. A level that is not below the current one changes nothing. -/
def cutTo (s : LevelStack α) (level : Nat) : LevelStack α :=
  match s.below[level]? with
  | some top => ⟨s.below.take level, top⟩
  | none => s

/-- The entries that a cut drops, oldest first. -/
def above (s : LevelStack α) (level : Nat) : List α :=
  s.entries.drop (s.cutTo level).entries.length

/-- The positions, from `start` on, at which the levels after each of the given ones begin. -/
def startsFrom : Nat → List (List α) → List Nat
  | _, [] => []
  | start, entries :: rest =>
    (start + entries.length) :: startsFrom (start + entries.length) rest

/-- The positions at which the levels above the base begin. -/
def starts (s : LevelStack α) : List Nat := startsFrom 0 s.below

/-- The position after the last entry of a level. -/
def endOf (s : LevelStack α) (level : Nat) : Nat :=
  s.starts[level]?.getD s.entries.length

@[simp] theorem entries_push (s : LevelStack α) (a : α) : (s.push a).entries = s.entries ++ [a] := by
  simp [push, entries]

@[simp] theorem level_push (s : LevelStack α) (a : α) : (s.push a).level = s.level := rfl

@[simp] theorem entries_openLevel (s : LevelStack α) : s.openLevel.entries = s.entries := by
  simp [openLevel, entries]

@[simp] theorem level_openLevel (s : LevelStack α) : s.openLevel.level = s.level + 1 := by
  simp [openLevel, level]

theorem level_cutTo (s : LevelStack α) (target : Nat) :
    (s.cutTo target).level = min target s.level := by
  unfold cutTo LevelStack.level
  split
  · simp
  · rename_i h
    have bound := List.getElem?_eq_none_iff.mp h
    exact (Nat.min_eq_right bound).symm

theorem entries_eq_flatten (s : LevelStack α) : s.entries = s.levels.flatten := by
  simp [entries, levels]

theorem length_levels (s : LevelStack α) : s.levels.length = s.level + 1 := by
  simp [levels, level]

/-- Stacks are told apart by their levels. -/
theorem eq_of_levels {s t : LevelStack α} (same : s.levels = t.levels) : s = t := by
  obtain ⟨below, top⟩ := s
  obtain ⟨below', top'⟩ := t
  obtain ⟨rfl, last⟩ := List.append_inj' same rfl
  obtain rfl : top = top' := List.singleton_inj.mp last
  rfl

@[simp] theorem levels_openLevel (s : LevelStack α) : s.openLevel.levels = s.levels ++ [[]] := rfl

/-- A cut keeps the levels up to the given one. -/
theorem levels_cutTo (s : LevelStack α) (target : Nat) :
    (s.cutTo target).levels = s.levels.take (target + 1) := by
  unfold cutTo levels
  split
  · rename_i top h
    obtain ⟨bound, rfl⟩ := List.getElem?_eq_some_iff.mp h
    rw [List.take_append_of_le_length bound, List.take_append_getElem bound]
  · rename_i h
    have bound := List.getElem?_eq_none_iff.mp h
    rw [List.take_of_length_le (by simpa using bound)]

/-- The lower of two cuts counts. -/
theorem cutTo_cutTo (s : LevelStack α) (first second : Nat) :
    (s.cutTo first).cutTo second = s.cutTo (min second first) := by
  apply eq_of_levels
  rw [levels_cutTo, levels_cutTo, levels_cutTo, List.take_take, Nat.add_min_add_right]

/-- A cut to a level that is not below the current one changes nothing. -/
theorem cutTo_of_le (s : LevelStack α) (target : Nat) (high : s.level ≤ target) :
    s.cutTo target = s := by
  apply eq_of_levels
  rw [levels_cutTo, List.take_of_length_le (by rw [length_levels]; omega)]

/-- A cut drops entries from the end only. -/
theorem entries_cutTo_append_above (s : LevelStack α) (target : Nat) :
    (s.cutTo target).entries ++ s.above target = s.entries := by
  have kept : (s.cutTo target).entries <+: s.entries := by
    rw [entries_eq_flatten, entries_eq_flatten, levels_cutTo]
    exact ⟨(s.levels.drop (target + 1)).flatten, by rw [← List.flatten_append, List.take_append_drop]⟩
  obtain ⟨dropped, split⟩ := kept
  rw [above, ← split, List.drop_left]

end LevelStack

end SatModulo
