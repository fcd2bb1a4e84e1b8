import SatModulo.LevelStack

/-!
# Level logs

What a theory remembers, by level. A log can be cut back at once, or the cut can be deferred: then the entries
stay in store until the log next changes, and every question is answered as if they were gone. What is seen of a
log is a stack of levels, and each operation does to it what it does to a stack; a cut that is put off
(`view_defer`) and one made at once (`view_backtrack`) cannot be told apart there. This is the log of
`SPEC_FULL.md`, line 78.
-/
namespace SatModulo

/-- Entries by level, with a level that is still to be cut back to. -/
structure LevelLog (α : Type) where
  stack : LevelStack α := {}
  deferred : Option Nat := none
  deriving DecidableEq, Repr

namespace LevelLog

variable {α : Type}

/-- The log as it is seen: the stack without what is to be cut. -/
def view (log : LevelLog α) : LevelStack α :=
  match log.deferred with
  | none => log.stack
  | some level => log.stack.cutTo level

/-- The level that is seen. It is stored in a word of 32 bits, where it fits as long as the trail that the log follows
keeps to that bound. -/
def level (log : LevelLog α) : Nat := log.view.level

/-- The entries that are seen, oldest first. -/
def entries (log : LevelLog α) : List α := log.view.entries

def length (log : LevelLog α) : Nat := log.entries.length

def firstEntries (log : LevelLog α) (count : Nat) : List α := log.entries.take count

def entriesAt (log : LevelLog α) (level : Nat) : List α := log.view.entriesAt level

def isReconciled (log : LevelLog α) : Bool := log.deferred.isNone

/-- Makes up for a deferred cut, and gives what it drops, most recent first. -/
def reconcile (log : LevelLog α) : List α × LevelLog α :=
  match log.deferred with
  | none => ([], log)
  | some level => ((log.stack.above level).reverse, ⟨log.stack.cutTo level, none⟩)

def openLevel (log : LevelLog α) : LevelLog α := ⟨log.view.openLevel, none⟩

def record (log : LevelLog α) (a : α) : LevelLog α := ⟨log.view.push a, none⟩

/-- Puts off a cut. Only a level below the one seen is noted, so the noted level only falls. -/
def defer (log : LevelLog α) (level : Nat) : LevelLog α :=
  if level < log.level then { log with deferred := some level } else log

/-- Cuts back at once, a cut put off before included, and gives what is dropped, most recent first. -/
def backtrack (log : LevelLog α) (level : Nat) : List α × LevelLog α :=
  (log.defer level).reconcile

/-- Reconciling changes nothing that is seen. -/
@[simp] theorem view_reconcile (log : LevelLog α) : log.reconcile.2.view = log.view := by
  obtain ⟨stack, deferred⟩ := log
  cases deferred <;> rfl

@[simp] theorem view_openLevel (log : LevelLog α) : log.openLevel.view = log.view.openLevel := rfl

@[simp] theorem view_record (log : LevelLog α) (a : α) : (log.record a).view = log.view.push a := rfl

/-- A cut that is put off is seen at once. -/
@[simp] theorem view_defer (log : LevelLog α) (level : Nat) :
    (log.defer level).view = log.view.cutTo level := by
  unfold defer
  split
  · rename_i below
    obtain ⟨stack, deferred⟩ := log
    cases deferred with
    | none => rfl
    | some noted =>
      have lower : level ≤ noted := by
        simp only [LevelLog.level, view, LevelStack.level_cutTo] at below
        omega
      simp only [view, LevelStack.cutTo_cutTo, Nat.min_eq_left lower]
  · rename_i high
    exact (log.view.cutTo_of_le level (Nat.not_lt.mp high)).symm

@[simp] theorem view_backtrack (log : LevelLog α) (level : Nat) :
    (log.backtrack level).2.view = log.view.cutTo level := by
  simp [backtrack]

end LevelLog

end SatModulo
