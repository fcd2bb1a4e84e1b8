import SatModulo.LevelLog
import SatModulo.Proofs.Positions

/-!
# Lazy logs

A level log answers as one that is never lazy. The eager log keeps its level and each entry with the
level it was made at, and drops at once what a cut or a cut put off leaves behind; what is seen of a
level log is the eager log after the same operations (`EagerLog.run_eq`). A level log can be kept by
position, as one list of entries with the positions at which levels begin: then each operation and each
question reads at positions that may lie outside, and none does (`PositionLog.run_eq`,
`PositionLog.reads`).
-/
namespace SatModulo

/-- What is done to a log. -/
inductive LogOperation (α : Type) where
  | record (a : α)
  | openLevel
  | backtrack (level : Nat)
  | defer (level : Nat)
  | reconcile
  deriving DecidableEq, Repr

/-- The same operation, or a cut put off for a cut made at once. -/
inductive LogOperation.Postpones {α : Type} : LogOperation α → LogOperation α → Prop
  | same (operation : LogOperation α) : Postpones operation operation
  | later (level : Nat) : Postpones (.backtrack level) (.defer level)

variable {α : Type}

namespace LevelLog

def apply (log : LevelLog α) : LogOperation α → LevelLog α
  | .record a => log.record a
  | .openLevel => log.openLevel
  | .backtrack level => (log.backtrack level).2
  | .defer level => log.defer level
  | .reconcile => log.reconcile.2

def run (operations : List (LogOperation α)) : LevelLog α := operations.foldl apply {}

/-- A cut that is still to be made is to a level below those kept. -/
def LowersOnly (log : LevelLog α) : Prop :=
  ∀ target, log.deferred = some target → target < log.stack.level

/-- A cut is put off only to a level below the one that is seen, so the level that is noted stays below those kept. -/
theorem LowersOnly.defer {log : LevelLog α} (lowers : log.LowersOnly) (level : Nat) :
    (log.defer level).LowersOnly := by
  unfold LevelLog.defer
  split
  · rename_i below
    rintro target ⟨⟩
    obtain ⟨stack, deferred⟩ := log
    cases deferred with
    | none => exact below
    | some noted =>
      simp only [LevelLog.level, view, LevelStack.level_cutTo] at below
      exact Nat.lt_of_lt_of_le below (Nat.min_le_right _ _)
  · exact lowers

theorem deferred_reconcile (log : LevelLog α) : log.reconcile.2.deferred = none := by
  obtain ⟨stack, deferred⟩ := log
  cases deferred <;> rfl

theorem LowersOnly.of_none {log : LevelLog α} (none : log.deferred = none) : log.LowersOnly := by
  rintro target noted
  rw [none] at noted
  cases noted

theorem LowersOnly.apply {log : LevelLog α} (lowers : log.LowersOnly) (operation : LogOperation α) :
    (log.apply operation).LowersOnly := by
  cases operation with
  | record a => exact .of_none rfl
  | openLevel => exact .of_none rfl
  | backtrack level => exact .of_none (deferred_reconcile _)
  | defer level => exact lowers.defer level
  | reconcile => exact .of_none (deferred_reconcile _)

theorem run_lowersOnly (operations : List (LogOperation α)) : (run operations).LowersOnly := by
  have fold : ∀ log : LevelLog α, log.LowersOnly → (operations.foldl LevelLog.apply log).LowersOnly := by
    induction operations with
    | nil => intro log lowers; exact lowers
    | cons operation rest ih => intro log lowers; exact ih _ (lowers.apply operation)
  exact fold {} (.of_none rfl)

/-- With nothing left to be cut, all that is kept is seen. -/
theorem view_of_none {log : LevelLog α} (none : log.deferred = none) : log.view = log.stack := by
  rw [view, none]

/-- Reconciling gives back what is kept and not seen, most recent first. -/
theorem entries_append_reconcile (log : LevelLog α) :
    log.entries ++ log.reconcile.1.reverse = log.stack.entries := by
  obtain ⟨stack, deferred⟩ := log
  cases deferred with
  | none => exact List.append_nil _
  | some target =>
    rw [reconcile, List.reverse_reverse]
    exact stack.entries_cutTo_append_above target

theorem level_le_stack (log : LevelLog α) : log.level ≤ log.stack.level := by
  obtain ⟨stack, deferred⟩ := log
  cases deferred with
  | none => exact Nat.le_refl _
  | some target =>
    rw [level, view, LevelStack.level_cutTo]
    exact Nat.min_le_right _ _

/-- What is kept at a level that is seen is seen. -/
theorem entriesAt_of_le (log : LevelLog α) {level : Nat} (low : level ≤ log.level) :
    log.entriesAt level = log.stack.entriesAt level := by
  obtain ⟨stack, deferred⟩ := log
  cases deferred with
  | none => rfl
  | some target =>
    rw [LevelLog.level, view, LevelStack.level_cutTo] at low
    rw [entriesAt, view, LevelStack.entriesAt_cutTo, if_pos (Nat.le_trans low (Nat.min_le_left _ _))]

theorem stack_defer (log : LevelLog α) (level : Nat) : (log.defer level).stack = log.stack := by
  unfold defer
  split <;> rfl

end LevelLog

/-- A log that is cut at once: its level, and each entry with the level it was made at. -/
structure EagerLog (α : Type) where
  level : Nat := 0
  tagged : List (Nat × α) := []
  deriving DecidableEq, Repr

namespace EagerLog

/-- Drops what is above a level below the current one. -/
def cutTo (log : EagerLog α) (level : Nat) : EagerLog α :=
  if level < log.level then ⟨level, log.tagged.filter (·.1 ≤ level)⟩ else log

def apply (log : EagerLog α) : LogOperation α → EagerLog α
  | .record a => { log with tagged := log.tagged ++ [(log.level, a)] }
  | .openLevel => { log with level := log.level + 1 }
  | .backtrack level => log.cutTo level
  | .defer level => log.cutTo level
  | .reconcile => log

def run (operations : List (LogOperation α)) : EagerLog α := operations.foldl apply {}

def entries (log : EagerLog α) : List α := log.tagged.map (·.2)

def entriesAt (log : EagerLog α) (level : Nat) : List α :=
  (log.tagged.filter (·.1 = level)).map (·.2)

/-- The entries of some levels, each with its level; the first is level `start`. -/
def tagFrom : Nat → List (List α) → List (Nat × α)
  | _, [] => []
  | start, entries :: rest => entries.map (start, ·) ++ tagFrom (start + 1) rest

def ofStack (stack : LevelStack α) : EagerLog α := ⟨stack.level, tagFrom 0 stack.levels⟩

theorem tagFrom_append (start : Nat) (first second : List (List α)) :
    tagFrom start (first ++ second) = tagFrom start first ++ tagFrom (start + first.length) second := by
  induction first generalizing start with
  | nil => rfl
  | cons entries rest ih =>
    rw [List.cons_append, tagFrom, tagFrom, ih, List.length_cons, List.append_assoc, Nat.add_assoc,
      Nat.add_comm 1]

theorem map_tag (level : Nat) (entries : List α) : (entries.map (level, ·)).map (·.2) = entries := by
  rw [List.map_map]
  exact List.map_id entries

theorem map_tagFrom (start : Nat) (levels : List (List α)) :
    (tagFrom start levels).map (·.2) = levels.flatten := by
  induction levels generalizing start with
  | nil => rfl
  | cons entries rest ih => rw [tagFrom, List.map_append, map_tag, ih, List.flatten_cons]

theorem bounds_of_mem_tagFrom {start : Nat} {levels : List (List α)} {entry : Nat × α}
    (member : entry ∈ tagFrom start levels) : start ≤ entry.1 ∧ entry.1 < start + levels.length := by
  induction levels generalizing start with
  | nil => cases member
  | cons entries rest ih =>
    rw [tagFrom, List.mem_append] at member
    rw [List.length_cons]
    rcases member with here | later
    · obtain ⟨a, -, rfl⟩ := List.mem_map.mp here
      exact ⟨Nat.le_refl start, by omega⟩
    · have bounds := ih later
      omega

/-- The entries tagged with at most a level are those of the levels up to it. -/
theorem filter_le_tagFrom (levels : List (List α)) (target : Nat) :
    (tagFrom 0 levels).filter (·.1 ≤ target) = tagFrom 0 (levels.take (target + 1)) := by
  have split := tagFrom_append 0 (levels.take (target + 1)) (levels.drop (target + 1))
  rw [List.take_append_drop] at split
  rw [split, List.filter_append, List.filter_eq_self.mpr, List.filter_eq_nil_iff.mpr, List.append_nil]
  · intro entry member
    have bounds := bounds_of_mem_tagFrom member
    have dropped : (levels.drop (target + 1)) ≠ [] := by
      rintro none
      rw [none] at member
      cases member
    have long : target + 1 < levels.length := by simpa using dropped
    rw [List.length_take] at bounds
    simp only [decide_eq_true_eq]
    omega
  · intro entry member
    have bounds := bounds_of_mem_tagFrom member
    rw [List.length_take] at bounds
    simp only [decide_eq_true_eq]
    omega

theorem filter_eq_tagFrom (start i : Nat) (levels : List (List α)) :
    ((tagFrom start levels).filter (·.1 = start + i)).map (·.2) = levels[i]?.getD [] := by
  induction levels generalizing start i with
  | nil => rfl
  | cons entries rest ih =>
    rw [tagFrom, List.filter_append, List.map_append]
    cases i with
    | zero =>
      have none : (tagFrom (start + 1) rest).filter (·.1 = start + 0) = [] := by
        rw [List.filter_eq_nil_iff]
        intro entry member
        have bounds := bounds_of_mem_tagFrom member
        simp only [decide_eq_true_eq]
        omega
      rw [none, List.map_nil, List.append_nil, List.filter_eq_self.mpr (by simp), map_tag]
      rfl
    | succ i =>
      have none : (entries.map (start, ·)).filter (·.1 = start + (i + 1)) = [] := by
        simp [List.filter_eq_nil_iff]
      rw [none, List.map_nil, List.nil_append, List.getElem?_cons_succ, ← ih (start + 1) i,
        Nat.add_assoc, Nat.add_comm 1]

theorem entries_ofStack (stack : LevelStack α) : (ofStack stack).entries = stack.entries := by
  rw [entries, ofStack, map_tagFrom, LevelStack.entries_eq_flatten]

theorem entriesAt_ofStack (stack : LevelStack α) (level : Nat) :
    (ofStack stack).entriesAt level = stack.entriesAt level := by
  have found := filter_eq_tagFrom 0 level stack.levels
  rwa [Nat.zero_add] at found

theorem ofStack_push (stack : LevelStack α) (a : α) :
    ofStack (stack.push a) =
      { ofStack stack with tagged := (ofStack stack).tagged ++ [(stack.level, a)] } := by
  simp only [ofStack, LevelStack.levels, LevelStack.push, tagFrom_append, tagFrom, List.map_append,
    List.append_assoc, List.append_nil, Nat.zero_add]
  rfl

theorem ofStack_openLevel (stack : LevelStack α) :
    ofStack stack.openLevel = { ofStack stack with level := stack.level + 1 } := by
  simp [ofStack, tagFrom_append, tagFrom]

theorem ofStack_cutTo (stack : LevelStack α) (target : Nat) :
    ofStack (stack.cutTo target) = (ofStack stack).cutTo target := by
  unfold cutTo
  split
  · rename_i below
    have lower : min target stack.level = target := Nat.min_eq_left (Nat.le_of_lt below)
    rw [ofStack, ofStack, filter_le_tagFrom, ← LevelStack.levels_cutTo, LevelStack.level_cutTo, lower]
  · rename_i high
    rw [stack.cutTo_of_le target (Nat.not_lt.mp high)]

/-- An operation does to what is seen of a level log what it does to the eager log. -/
theorem apply_ofStack (log : LevelLog α) (operation : LogOperation α) :
    (ofStack log.view).apply operation = ofStack (log.apply operation).view := by
  cases operation with
  | record a => exact (ofStack_push log.view a).symm
  | openLevel => exact (ofStack_openLevel log.view).symm
  | backtrack level => rw [apply, LevelLog.apply, LevelLog.view_backtrack, ofStack_cutTo]
  | defer level => rw [apply, LevelLog.apply, LevelLog.view_defer, ofStack_cutTo]
  | reconcile => rw [apply, LevelLog.apply, LevelLog.view_reconcile]

/-- What is seen of a level log is the eager log after the same operations. -/
theorem run_eq (operations : List (LogOperation α)) :
    run operations = ofStack (LevelLog.run operations).view := by
  have fold : ∀ (log : LevelLog α),
      operations.foldl apply (ofStack log.view) = ofStack (operations.foldl LevelLog.apply log).view := by
    induction operations with
    | nil => intro log; rfl
    | cons operation rest ih =>
      intro log
      rw [List.foldl_cons, List.foldl_cons, apply_ofStack, ih]
  exact fold {}

/-- Putting a cut off is nothing to an eager log. -/
theorem apply_postpones {first second : LogOperation α} (postpones : first.Postpones second)
    (log : EagerLog α) : log.apply second = log.apply first := by
  cases postpones with
  | same => rfl
  | later level => rfl

theorem run_postponed {operations postponed : List (LogOperation α)}
    (postpones : List.Forall₂ LogOperation.Postpones operations postponed) :
    run postponed = run operations := by
  have fold : ∀ log : EagerLog α, postponed.foldl apply log = operations.foldl apply log := by
    induction postpones with
    | nil => intro log; rfl
    | cons first _ ih =>
      intro log
      rw [List.foldl_cons, List.foldl_cons, apply_postpones first, ih]
  exact fold {}

/-- Each question about a level log has the answer of an eager log. -/
structure Answers (eager : EagerLog α) (log : LevelLog α) : Prop where
  level : log.level = eager.level
  entries : log.entries = eager.entries
  length : log.length = eager.tagged.length
  empty : log.length = 0 ↔ eager.tagged = []
  firstEntries : ∀ count, log.firstEntries count = eager.entries.take count
  entriesAt : ∀ level, log.entriesAt level = eager.entriesAt level

theorem answers_ofStack (log : LevelLog α) : (ofStack log.view).Answers log := by
  have entries : log.entries = (ofStack log.view).entries := (entries_ofStack log.view).symm
  have length : log.length = (ofStack log.view).tagged.length := by
    rw [LevelLog.length, entries, EagerLog.entries, List.length_map]
  exact
    { level := rfl
      entries := entries
      length := length
      empty := by rw [length, List.length_eq_zero_iff]
      firstEntries := fun count => by rw [LevelLog.firstEntries, entries]
      entriesAt := fun level => (entriesAt_ofStack log.view level).symm }

end EagerLog

/-- A log kept by position: all entries, the positions at which the levels above the base begin, and the
level of a cut that is still to be made. -/
structure PositionLog (α : Type) where
  entries : List α := []
  starts : List Nat := []
  deferred : Option Nat := none
  deriving DecidableEq, Repr

namespace PositionLog

/-- The entries from one position up to another; there are none to give where the positions are out of
order or outside. -/
def slice (entries : List α) (start stop : Nat) : Option (List α) :=
  if start ≤ stop ∧ stop ≤ entries.length then some ((entries.take stop).drop start) else none

def level (log : PositionLog α) : Nat := log.deferred.getD log.starts.length

def endOf (log : PositionLog α) (level : Nat) : Nat := log.starts[level]?.getD log.entries.length

def startOf (log : PositionLog α) (level : Nat) : Option Nat :=
  if level = 0 then some 0 else log.starts[level - 1]?

/-- The position after the last entry that is seen. -/
def seenEnd (log : PositionLog α) : Nat :=
  match log.deferred with
  | some target => log.endOf target
  | none => log.entries.length

def seen (log : PositionLog α) : Option (List α) := slice log.entries 0 log.seenEnd

def firstSeen (log : PositionLog α) (count : Nat) : Option (List α) := do
  let seen ← log.seen
  slice seen 0 (min count seen.length)

def seenAt (log : PositionLog α) (level : Nat) : Option (List α) :=
  if log.level < level then some []
  else do
    let start ← log.startOf level
    slice log.entries start (min (log.endOf level) log.seenEnd)

/-- Makes up for a cut that is still to be made, and gives what it drops, most recent first. -/
def reconcile (log : PositionLog α) : Option (List α × PositionLog α) :=
  match log.deferred with
  | none => some ([], log)
  | some target => do
    let kept ← slice log.entries 0 (log.endOf target)
    some ((log.entries.drop (log.endOf target)).reverse, ⟨kept, log.starts.take target, none⟩)

def openLevel (log : PositionLog α) : Option (PositionLog α) := do
  let (_, log) ← log.reconcile
  some { log with starts := log.starts ++ [log.entries.length] }

def record (log : PositionLog α) (a : α) : Option (PositionLog α) := do
  let (_, log) ← log.reconcile
  some { log with entries := log.entries ++ [a] }

def defer (log : PositionLog α) (level : Nat) : PositionLog α :=
  if level < log.level then { log with deferred := some level } else log

def backtrack (log : PositionLog α) (level : Nat) : Option (List α × PositionLog α) :=
  (log.defer level).reconcile

def apply (log : PositionLog α) : LogOperation α → Option (PositionLog α)
  | .record a => log.record a
  | .openLevel => log.openLevel
  | .backtrack level => (log.backtrack level).map (·.2)
  | .defer level => some (log.defer level)
  | .reconcile => log.reconcile.map (·.2)

def run (operations : List (LogOperation α)) : Option (PositionLog α) := operations.foldlM apply {}

def ofLevels (log : LevelLog α) : PositionLog α := ⟨log.stack.entries, log.stack.starts, log.deferred⟩

theorem slice_eq {entries : List α} {start stop : Nat} (ordered : start ≤ stop)
    (inside : stop ≤ entries.length) : slice entries start stop = some ((entries.take stop).drop start) :=
  if_pos ⟨ordered, inside⟩

theorem slice_endOf (stack : LevelStack α) (level : Nat) :
    slice stack.entries 0 (stack.endOf level) = some (stack.cutTo level).entries := by
  rw [slice_eq (Nat.zero_le _) (stack.endOf_le_length level), List.drop_zero, stack.take_endOf]

theorem level_ofLevels {log : LevelLog α} (lowers : log.LowersOnly) :
    (ofLevels log).level = log.level := by
  obtain ⟨stack, deferred⟩ := log
  cases deferred with
  | none => exact stack.length_starts
  | some target =>
    have low : target < stack.level := lowers target rfl
    rw [LevelLog.level, LevelLog.view, LevelStack.level_cutTo, Nat.min_eq_left (Nat.le_of_lt low)]
    rfl

theorem seenEnd_ofLevels (log : LevelLog α) : (ofLevels log).seenEnd = log.length := by
  obtain ⟨stack, deferred⟩ := log
  cases deferred with
  | none => rfl
  | some target => exact stack.endOf_eq target

theorem seen_ofLevels (log : LevelLog α) : (ofLevels log).seen = some log.entries := by
  obtain ⟨stack, deferred⟩ := log
  cases deferred with
  | none =>
    have whole := slice_eq (Nat.zero_le _) (Nat.le_refl stack.entries.length)
    rwa [List.take_length, List.drop_zero] at whole
  | some target => exact slice_endOf stack target

theorem firstSeen_ofLevels (log : LevelLog α) (count : Nat) :
    (ofLevels log).firstSeen count = some (log.firstEntries count) := by
  rw [firstSeen, seen_ofLevels, Option.bind_eq_bind, Option.bind_some,
    slice_eq (Nat.zero_le _) (Nat.min_le_right _ _), List.drop_zero, LevelLog.firstEntries,
    ← List.take_eq_take_min]

theorem startOf_ofLevels {log : LevelLog α} {level : Nat} (opened : level ≤ log.stack.level) :
    (ofLevels log).startOf level = some (log.stack.startOf level) := by
  unfold startOf LevelStack.startOf
  split
  · rfl
  · exact log.stack.getElem?_starts (by omega)

/-- The end of a level that is seen lies before the end of what is seen. -/
theorem min_endOf_seenEnd {log : LevelLog α} {level : Nat} (low : level ≤ log.level) :
    min (log.stack.endOf level) (ofLevels log).seenEnd = log.stack.endOf level := by
  apply Nat.min_eq_left
  obtain ⟨stack, deferred⟩ := log
  cases deferred with
  | none => exact stack.endOf_le_length level
  | some target =>
    rw [LevelLog.level, LevelLog.view, LevelStack.level_cutTo] at low
    exact stack.endOf_mono (Nat.le_trans low (Nat.min_le_left _ _))

/-- The entries of a level are between two positions, also while a cut is still to be made. -/
theorem seenAt_ofLevels {log : LevelLog α} (lowers : log.LowersOnly) (level : Nat) :
    (ofLevels log).seenAt level = some (log.entriesAt level) := by
  rw [seenAt, level_ofLevels lowers]
  split
  · rename_i high
    rw [LevelLog.entriesAt, LevelStack.entriesAt_of_lt level high]
  · rename_i low
    have seen : level ≤ log.level := Nat.not_lt.mp low
    have stop : min ((ofLevels log).endOf level) (ofLevels log).seenEnd = log.stack.endOf level :=
      min_endOf_seenEnd seen
    have read : slice (ofLevels log).entries (log.stack.startOf level) (log.stack.endOf level) =
        some (log.stack.entriesAt level) := by
      rw [← log.stack.drop_take_endOf]
      exact slice_eq (log.stack.startOf_le_endOf level) (log.stack.endOf_le_length level)
    rw [startOf_ofLevels (Nat.le_trans seen log.level_le_stack), Option.bind_eq_bind, Option.bind_some,
      stop, read, log.entriesAt_of_le seen]

/-- Both slices that are taken to make up for a cut lie within the entries. -/
theorem reconcile_ofLevels (log : LevelLog α) :
    (ofLevels log).reconcile = some (log.reconcile.1, ofLevels log.reconcile.2) := by
  obtain ⟨stack, deferred⟩ := log
  cases deferred with
  | none => rfl
  | some target =>
    have kept : slice stack.entries 0 ((ofLevels ⟨stack, some target⟩).endOf target) =
        some (stack.cutTo target).entries := slice_endOf stack target
    have dropped :
        stack.entries.drop ((ofLevels ⟨stack, some target⟩).endOf target) = stack.above target := by
      rw [LevelStack.above, ← stack.endOf_eq]
      rfl
    simp only [reconcile, LevelLog.reconcile, ofLevels] at kept dropped ⊢
    rw [kept, Option.bind_eq_bind, Option.bind_some, dropped, stack.starts_cutTo]

/-- With nothing left to be cut, what is kept by position is what is seen. -/
theorem ofLevels_reconcile (log : LevelLog α) :
    ofLevels log.reconcile.2 = ⟨log.view.entries, log.view.starts, none⟩ := by
  have none : log.reconcile.2.deferred = none := log.deferred_reconcile
  rw [ofLevels, none, ← LevelLog.view_of_none none, LevelLog.view_reconcile]

theorem openLevel_ofLevels (log : LevelLog α) :
    (ofLevels log).openLevel = some (ofLevels log.openLevel) := by
  rw [openLevel, reconcile_ofLevels, Option.bind_eq_bind, Option.bind_some, ofLevels_reconcile, ofLevels,
    LevelLog.openLevel, LevelStack.starts_openLevel, LevelStack.entries_openLevel]

theorem record_ofLevels (log : LevelLog α) (a : α) :
    (ofLevels log).record a = some (ofLevels (log.record a)) := by
  rw [record, reconcile_ofLevels, Option.bind_eq_bind, Option.bind_some, ofLevels_reconcile, ofLevels,
    LevelLog.record, LevelStack.starts_push, LevelStack.entries_push]

theorem defer_ofLevels {log : LevelLog α} (lowers : log.LowersOnly) (level : Nat) :
    (ofLevels log).defer level = ofLevels (log.defer level) := by
  rw [defer, level_ofLevels lowers, LevelLog.defer]
  split <;> rfl

theorem backtrack_ofLevels {log : LevelLog α} (lowers : log.LowersOnly) (level : Nat) :
    (ofLevels log).backtrack level = some ((log.backtrack level).1, ofLevels (log.backtrack level).2) := by
  rw [backtrack, defer_ofLevels lowers, reconcile_ofLevels]
  rfl

/-- No operation reads outside, and each does by position what it does by level. -/
theorem apply_ofLevels {log : LevelLog α} (lowers : log.LowersOnly) (operation : LogOperation α) :
    (ofLevels log).apply operation = some (ofLevels (log.apply operation)) := by
  cases operation with
  | record a => exact record_ofLevels log a
  | openLevel => exact openLevel_ofLevels log
  | backtrack level => rw [apply, backtrack_ofLevels lowers, Option.map_some]; rfl
  | defer level => rw [apply, defer_ofLevels lowers]; rfl
  | reconcile => rw [apply, reconcile_ofLevels, Option.map_some]; rfl

/-- No run of operations on an empty log reads outside. -/
theorem run_eq (operations : List (LogOperation α)) :
    run operations = some (ofLevels (LevelLog.run operations)) := by
  have fold : ∀ log : LevelLog α, log.LowersOnly →
      operations.foldlM apply (ofLevels log) = some (ofLevels (operations.foldl LevelLog.apply log)) := by
    induction operations with
    | nil => intro log _; rfl
    | cons operation rest ih =>
      intro log lowers
      rw [List.foldlM_cons, apply_ofLevels lowers, Option.bind_eq_bind, Option.bind_some,
        ih _ (lowers.apply operation), List.foldl_cons]
  exact fold {} (.of_none rfl)

/-- No question and no cut reads outside, and each has the answer of the level log. -/
structure Reads (kept : PositionLog α) (log : LevelLog α) : Prop where
  level : kept.level = log.level
  seen : kept.seen = some log.entries
  seenEnd : kept.seenEnd = log.length
  firstSeen : ∀ count, kept.firstSeen count = some (log.firstEntries count)
  seenAt : ∀ level, kept.seenAt level = some (log.entriesAt level)
  reconcile : kept.reconcile = some (log.reconcile.1, ofLevels log.reconcile.2)
  backtrack : ∀ level,
    kept.backtrack level = some ((log.backtrack level).1, ofLevels (log.backtrack level).2)

theorem reads {log : LevelLog α} (lowers : log.LowersOnly) : (ofLevels log).Reads log where
  level := level_ofLevels lowers
  seen := seen_ofLevels log
  seenEnd := seenEnd_ofLevels log
  firstSeen := firstSeen_ofLevels log
  seenAt := seenAt_ofLevels lowers
  reconcile := reconcile_ofLevels log
  backtrack := backtrack_ofLevels lowers

end PositionLog

/-- What a cut gives back is what was kept and is not seen after it, most recent first, and no more is
kept after it than is seen. -/
structure LevelLog.Undoes (log : LevelLog α) (cut : List α × LevelLog α) : Prop where
  split : cut.2.entries ++ cut.1.reverse = log.stack.entries
  reconciled : cut.2.isReconciled
  kept : cut.2.stack.entries = cut.2.entries

theorem LevelLog.reconcile_undoes (log : LevelLog α) : log.Undoes log.reconcile where
  split := by
    rw [← log.entries_append_reconcile, entries, view_reconcile]
    rfl
  reconciled := by rw [isReconciled, deferred_reconcile]; rfl
  kept := by rw [entries, view_of_none log.deferred_reconcile]

theorem LevelLog.backtrack_undoes (log : LevelLog α) (level : Nat) : log.Undoes (log.backtrack level) := by
  have undoes := (log.defer level).reconcile_undoes
  exact { undoes with split := by rw [← log.stack_defer level]; exact undoes.split }

/-- A lazy log refines the eager one: after any operations on an empty log each question has the answer
of the eager log; kept by position, no operation and no question reads outside; a cut gives back what was
kept and is not seen after it; and putting off any of the cuts changes no answer. -/
theorem lazy_log_refines_eager (operations : List (LogOperation α)) :
    (EagerLog.run operations).Answers (LevelLog.run operations) ∧
    (∃ kept, PositionLog.run operations = some kept ∧
      kept.entries = (LevelLog.run operations).stack.entries ∧ kept.Reads (LevelLog.run operations)) ∧
    (LevelLog.run operations).Undoes (LevelLog.run operations).reconcile ∧
    (∀ level, (LevelLog.run operations).Undoes ((LevelLog.run operations).backtrack level)) ∧
    ∀ postponed, List.Forall₂ LogOperation.Postpones operations postponed →
      (EagerLog.run operations).Answers (LevelLog.run postponed) := by
  have answers : ∀ operations : List (LogOperation α),
      (EagerLog.run operations).Answers (LevelLog.run operations) := by
    intro operations
    rw [EagerLog.run_eq]
    exact EagerLog.answers_ofStack _
  have lowers : (LevelLog.run operations).LowersOnly := LevelLog.run_lowersOnly operations
  refine ⟨answers operations, ⟨_, PositionLog.run_eq operations, rfl, PositionLog.reads lowers⟩,
    LevelLog.reconcile_undoes _, LevelLog.backtrack_undoes _, ?_⟩
  intro postponed postpones
  rw [← EagerLog.run_postponed postpones]
  exact answers postponed

/-- Two levels are opened and both cuts below them put off, the second to a lower level. -/
theorem lazy_log_refines_eager_twice_deferred :
    List.Forall₂ LogOperation.Postpones
      [.record 1, .openLevel, .record 2, .openLevel, .record 3, .backtrack 1, .backtrack 0, .record 4]
      [.record 1, .openLevel, .record 2, .openLevel, .record 3, .defer 1, .defer 0, .record 4] ∧
    (LevelLog.run [.record 1, .openLevel, .record 2, .openLevel, .record 3, .defer 1, .defer 0,
      .record 4]).entries = [1, 4] := by
  have postpones : List.Forall₂ LogOperation.Postpones
      [.record 1, .openLevel, .record 2, .openLevel, .record 3, .backtrack 1, .backtrack 0, .record 4]
      [.record 1, .openLevel, .record 2, .openLevel, .record 3, .defer 1, .defer 0, .record 4] := by
    repeat' constructor
  exact ⟨postpones, ((lazy_log_refines_eager _).2.2.2.2 _ postpones).entries⟩

end SatModulo
