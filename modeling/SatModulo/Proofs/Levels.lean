import SatModulo.LevelStack
import Mathlib.Data.List.Basic

/-!
# Entries by level

What is entered at which level of a stack, and in which order. An entry of a level stands after the
entries of lower levels (`level_le_of_before`), so a cut keeps the entries of the levels up to its
target and their order (`entriesAt_cutTo`, `entries_cutTo_isPrefix`).
-/
namespace SatModulo

namespace LevelStack

variable {α : Type} {s : LevelStack α}

theorem entriesAt_of_lt (level : Nat) (high : s.level < level) : s.entriesAt level = [] := by
  rw [entriesAt, List.getElem?_eq_none (by rw [length_levels]; omega)]
  rfl

theorem mem_entries_iff (a : α) : a ∈ s.entries ↔ ∃ level, a ∈ s.entriesAt level := by
  rw [entries_eq_flatten, List.mem_flatten]
  constructor
  · rintro ⟨entries, open', member⟩
    obtain ⟨level, bound, rfl⟩ := List.mem_iff_getElem.mp open'
    exact ⟨level, by rw [entriesAt, List.getElem?_eq_getElem bound]; exact member⟩
  · rintro ⟨level, member⟩
    rw [entriesAt] at member
    cases found : s.levels[level]? with
    | none => rw [found] at member; cases member
    | some entries =>
      rw [found] at member
      exact ⟨entries, List.mem_of_getElem? found, member⟩

theorem level_le_of_mem {a : α} {level : Nat} (member : a ∈ s.entriesAt level) : level ≤ s.level := by
  by_contra high
  rw [entriesAt_of_lt level (by omega)] at member
  cases member

/-- As long as no level is opened, every entry is of the current one. -/
theorem mem_entriesAt_of_base {a : α} (base : s.level = 0) (member : a ∈ s.entries) :
    a ∈ s.entriesAt s.level := by
  obtain ⟨level, entered⟩ := (mem_entries_iff a).mp member
  obtain rfl : level = s.level := by
    have low := level_le_of_mem entered
    omega
  exact entered

theorem entriesAt_level : s.entriesAt s.level = s.top := by
  simp [entriesAt, levels, level]

theorem entriesAt_below {level : Nat} (low : level < s.level) :
    s.entriesAt level = s.below[level]?.getD [] := by
  rw [entriesAt, levels, List.getElem?_append_left low]

/-- An entry is added to the current level and to no other. -/
theorem entriesAt_push (a : α) (level : Nat) :
    (s.push a).entriesAt level =
      if level = s.level then s.entriesAt level ++ [a] else s.entriesAt level := by
  split
  · subst level
    rw [entriesAt_level, ← level_push s a, entriesAt_level]
    rfl
  · rcases Nat.lt_or_ge level s.level with low | high
    · rw [entriesAt_below low, entriesAt_below (by simpa using low)]
      rfl
    · have beyond : s.level < level := by omega
      rw [entriesAt_of_lt level beyond]
      exact entriesAt_of_lt level beyond

theorem entriesAt_openLevel (level : Nat) : s.openLevel.entriesAt level = s.entriesAt level := by
  rcases Nat.lt_or_ge s.level level with high | low
  · rw [entriesAt_of_lt level high, entriesAt, levels_openLevel]
    rcases Nat.lt_or_ge (s.level + 1) level with beyond | next
    · rw [List.getElem?_eq_none (by simp [length_levels]; omega)]
      rfl
    · obtain rfl : level = s.levels.length := by rw [length_levels]; omega
      simp
  · rw [entriesAt, entriesAt, levels_openLevel,
      List.getElem?_append_left (by rw [length_levels]; omega)]

/-- What is above a level is no matter below it. -/
theorem cutTo_of_below_eq {t : LevelStack α} {level : Nat} (same : t.below = s.below) (low : level < s.level) :
    t.cutTo level = s.cutTo level := by
  have given : s.below[level]? = some s.below[level] := List.getElem?_eq_getElem low
  rw [cutTo, cutTo, same, given]

theorem cutTo_push (a : α) {level : Nat} (low : level < s.level) : (s.push a).cutTo level = s.cutTo level :=
  cutTo_of_below_eq rfl low

theorem entriesAt_cutTo (target level : Nat) :
    (s.cutTo target).entriesAt level = if level ≤ target then s.entriesAt level else [] := by
  rw [entriesAt, levels_cutTo]
  split
  · rw [List.getElem?_take_of_lt (by omega)]
    rfl
  · rw [List.getElem?_eq_none (by rw [List.length_take]; omega)]
    rfl

theorem entries_cutTo_isPrefix (s : LevelStack α) (target : Nat) : (s.cutTo target).entries <+: s.entries :=
  ⟨s.above target, s.entries_cutTo_append_above target⟩

theorem mem_cutTo_entries_iff (target : Nat) (a : α) :
    a ∈ (s.cutTo target).entries ↔ ∃ level, level ≤ target ∧ a ∈ s.entriesAt level := by
  simp only [mem_entries_iff, entriesAt_cutTo]
  constructor
  · rintro ⟨level, member⟩
    split at member
    · exact ⟨level, ‹_›, member⟩
    · cases member
  · rintro ⟨level, low, member⟩
    exact ⟨level, by rwa [if_pos low]⟩

/-- The entries up to a level, and those of the levels above it. -/
theorem entries_eq_append (level : Nat) :
    s.entries = (s.levels.take level).flatten ++ (s.levels.drop level).flatten := by
  rw [← List.flatten_append, List.take_append_drop, entries_eq_flatten]

theorem entriesAt_sublist (s : LevelStack α) (level : Nat) : (s.entriesAt level).Sublist s.entries := by
  rw [entries_eq_flatten, entriesAt]
  cases found : s.levels[level]? with
  | none => exact List.nil_sublist _
  | some entries => exact List.sublist_flatten_of_mem (List.mem_of_getElem? found)

theorem entries_of_base (base : s.level = 0) : s.entries = s.entriesAt 0 := by
  rw [← base, entriesAt_level, entries, List.length_eq_zero_iff.mp base]
  rfl

theorem mem_levels_take {a : α} {i j : Nat} (below : i < j) (entered : a ∈ s.entriesAt i) :
    a ∈ (s.levels.take j).flatten := by
  refine List.mem_flatten.mpr ⟨s.entriesAt i, ?_, entered⟩
  rw [entriesAt] at entered ⊢
  cases found : s.levels[i]? with
  | none => rw [found] at entered; cases entered
  | some entries =>
    refine List.mem_of_getElem? (i := i) ?_
    rw [List.getElem?_take_of_lt below, found]
    rfl

theorem mem_levels_drop {a : α} {j : Nat} (entered : a ∈ s.entriesAt j) :
    a ∈ (s.levels.drop j).flatten := by
  refine List.mem_flatten.mpr ⟨s.entriesAt j, ?_, entered⟩
  rw [entriesAt] at entered ⊢
  cases found : s.levels[j]? with
  | none => rw [found] at entered; cases entered
  | some entries =>
    refine List.mem_of_getElem? (i := 0) ?_
    rw [List.getElem?_drop, Nat.add_zero, found]
    rfl

/-- In a stack without repetition an entry is of one level. -/
theorem level_unique {a : α} {i j : Nat} (distinct : s.entries.Nodup) (atI : a ∈ s.entriesAt i)
    (atJ : a ∈ s.entriesAt j) : i = j := by
  have apart : ∀ {i j}, i < j → a ∈ s.entriesAt i → a ∈ s.entriesAt j → False := by
    intro i j below low high
    rw [s.entries_eq_append j] at distinct
    exact (List.nodup_append.mp distinct).2.2 a (mem_levels_take below low) a (mem_levels_drop high) rfl
  rcases Nat.lt_trichotomy i j with below | same | above
  · exact (apart below atI atJ).elim
  · exact same
  · exact (apart above atJ atI).elim

/-- In a stack without repetition what stands before an entry is of no higher level. -/
theorem level_le_of_before {earlier : List α} {a b : α} {i j : Nat} (distinct : s.entries.Nodup)
    (order : earlier ++ [a] <+: s.entries) (before : b ∈ earlier) (atA : a ∈ s.entriesAt i)
    (atB : b ∈ s.entriesAt j) : j ≤ i := by
  by_contra higher
  -- Up to level `j` the entries hold `a` but not `b`, so they end between the two.
  have split := s.entries_eq_append j
  have hasA : a ∈ (s.levels.take j).flatten := mem_levels_take (by omega) atA
  have hasB : b ∈ (s.levels.drop j).flatten := mem_levels_drop atB
  rw [split] at distinct
  have apart := (List.nodup_append.mp distinct).2.2
  obtain ⟨rest, total⟩ := order
  rw [split, List.append_assoc] at total
  rcases List.append_eq_append_iff.mp total with ⟨more, low, high⟩ | ⟨more, low, high⟩
  · exact apart b (by rw [low]; exact List.mem_append_left _ before) b hasB rfl
  · exact apart a hasA a (by rw [high]; simp) rfl

/-- Where the last entries are all of the current level, its entries end with them. -/
theorem exists_entriesAt_eq_append (distinct : s.entries.Nodup) {count : Nat}
    (late : ∀ a ∈ s.entries.drop count, a ∈ s.entriesAt s.level) :
    ∃ early, s.entriesAt s.level = early ++ s.entries.drop count := by
  rw [entriesAt_level] at *
  rw [entries] at distinct late ⊢
  rcases Nat.lt_or_ge count s.below.flatten.length with inside | beyond
  · obtain ⟨a, member⟩ := List.exists_mem_of_length_pos (l := s.below.flatten.drop count)
      (by rw [List.length_drop]; omega)
    have atTop := late a (by
      rw [List.drop_append_of_le_length (Nat.le_of_lt inside)]
      exact List.mem_append_left _ member)
    exact absurd rfl ((List.nodup_append.mp distinct).2.2 a (List.mem_of_mem_drop member) a atTop)
  · refine ⟨s.top.take (count - s.below.flatten.length), ?_⟩
    rw [List.drop_append, List.drop_eq_nil_of_le beyond, List.nil_append, List.take_append_drop]

variable {t u : LevelStack α} {level : Nat}

/-- The entries up to a level stay, before any others. -/
def KeepsTo (level : Nat) (s t : LevelStack α) : Prop :=
  (s.cutTo level).entries <+: (t.cutTo level).entries

namespace KeepsTo

theorem refl (level : Nat) (s : LevelStack α) : KeepsTo level s s := List.prefix_refl _

theorem trans (first : KeepsTo level s t) (second : KeepsTo level t u) : KeepsTo level s u :=
  List.IsPrefix.trans first second

theorem push (s : LevelStack α) (a : α) : KeepsTo level s (s.push a) := by
  rcases Nat.lt_or_ge level s.level with low | high
  · have same : (s.push a).cutTo level = s.cutTo level := by
      simp only [cutTo, LevelStack.push, List.getElem?_eq_getElem (show level < s.below.length from low)]
    simpa only [KeepsTo, same] using List.prefix_refl _
  · rw [KeepsTo, s.cutTo_of_le level high, (s.push a).cutTo_of_le level high, entries_push]
    exact List.prefix_append _ _

theorem openLevel (s : LevelStack α) : KeepsTo level s s.openLevel := by
  rw [KeepsTo, entries_eq_flatten, entries_eq_flatten, levels_cutTo, levels_cutTo, levels_openLevel,
    List.take_append, List.flatten_append]
  exact List.prefix_append _ _

theorem cutTo (s : LevelStack α) {target : Nat} (low : level ≤ target) :
    KeepsTo level s (s.cutTo target) := by
  simpa only [KeepsTo, cutTo_cutTo, Nat.min_eq_left low] using List.prefix_refl _

/-- The first entries up to a level stay what they are. -/
theorem take_eq (keeps : KeepsTo level s t) {count : Nat}
    (inside : count ≤ (s.cutTo level).entries.length) : t.entries.take count = s.entries.take count := by
  obtain ⟨_, whole⟩ := s.entries_cutTo_isPrefix level
  obtain ⟨_, whole'⟩ := List.IsPrefix.trans keeps (t.entries_cutTo_isPrefix level)
  rw [← whole, ← whole', List.take_append_of_le_length inside, List.take_append_of_le_length inside]

end KeepsTo

end LevelStack

end SatModulo
