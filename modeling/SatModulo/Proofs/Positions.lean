import SatModulo.Proofs.Levels
import Mathlib.Data.List.Nodup

/-!
# Positions of levels

Where the levels of a stack begin and end in its entries. The entries up to a level are those before its
end (`take_endOf`), and those of one level stand between the end of the level before it and its own
(`drop_take_endOf`). A cut keeps the first starts (`starts_cutTo`), as many as levels above the base.
-/
namespace SatModulo

namespace LevelStack

variable {α : Type}

theorem length_startsFrom (start : Nat) (levels : List (List α)) :
    (startsFrom start levels).length = levels.length := by
  induction levels generalizing start with
  | nil => rfl
  | cons entries rest ih => rw [startsFrom, List.length_cons, ih, List.length_cons]

theorem startsFrom_append (start : Nat) (first second : List (List α)) :
    startsFrom start (first ++ second) =
      startsFrom start first ++ startsFrom (start + first.flatten.length) second := by
  induction first generalizing start with
  | nil => rfl
  | cons entries rest ih =>
    rw [List.cons_append, startsFrom, startsFrom, ih, List.flatten_cons, List.length_append,
      Nat.add_assoc, List.cons_append]

theorem startsFrom_take (start count : Nat) (levels : List (List α)) :
    startsFrom start (levels.take count) = (startsFrom start levels).take count := by
  induction levels generalizing start count with
  | nil => simp [startsFrom]
  | cons entries rest ih =>
    cases count with
    | zero => rfl
    | succ count => rw [List.take_succ_cons, startsFrom, startsFrom, ih, List.take_succ_cons]

theorem getElem?_startsFrom (start : Nat) {levels : List (List α)} {i : Nat} (inside : i < levels.length) :
    (startsFrom start levels)[i]? = some (start + (levels.take (i + 1)).flatten.length) := by
  induction levels generalizing start i with
  | nil => simp at inside
  | cons entries rest ih =>
    cases i with
    | zero => simp [startsFrom]
    | succ i =>
      rw [startsFrom, List.getElem?_cons_succ, ih _ (by simpa using inside)]
      simp [Nat.add_assoc]

variable (s : LevelStack α)

@[simp] theorem length_starts : s.starts.length = s.level := length_startsFrom 0 s.below

@[simp] theorem starts_push (a : α) : (s.push a).starts = s.starts := rfl

@[simp] theorem starts_openLevel : s.openLevel.starts = s.starts ++ [s.entries.length] := by
  simp [starts, LevelStack.openLevel, startsFrom_append, startsFrom, entries]

theorem below_cutTo (target : Nat) : (s.cutTo target).below = s.below.take target := by
  unfold cutTo
  split
  · rfl
  · rename_i high
    rw [List.take_of_length_le (List.getElem?_eq_none_iff.mp high)]

/-- A cut keeps the starts of the levels that stay open. -/
theorem starts_cutTo (target : Nat) : (s.cutTo target).starts = s.starts.take target := by
  rw [starts, below_cutTo, startsFrom_take, starts]

theorem entries_cutTo_zero : (s.cutTo 0).entries = s.entriesAt 0 := by
  rw [entries_of_base (by rw [level_cutTo, Nat.zero_min]), entriesAt_cutTo, if_pos (Nat.le_refl 0)]

theorem entries_cutTo_succ (level : Nat) :
    (s.cutTo (level + 1)).entries = (s.cutTo level).entries ++ s.entriesAt (level + 1) := by
  rw [entries_eq_flatten, entries_eq_flatten, levels_cutTo, levels_cutTo, List.take_add_one,
    List.flatten_append, entriesAt]
  cases s.levels[level + 1]? <;> simp

/-- A level ends where the entries up to it do. -/
theorem endOf_eq (level : Nat) : s.endOf level = (s.cutTo level).entries.length := by
  rcases Nat.lt_or_ge level s.level with low | high
  · have inside : level < s.below.length := low
    rw [endOf, starts, getElem?_startsFrom 0 inside, entries_eq_flatten (s.cutTo level), levels_cutTo,
      levels, List.take_append_of_le_length inside]
    simp
  · rw [endOf, List.getElem?_eq_none (by simpa using high), cutTo_of_le s level high]
    rfl

theorem take_endOf (level : Nat) : s.entries.take (s.endOf level) = (s.cutTo level).entries := by
  rw [endOf_eq]
  exact (List.prefix_iff_eq_take.mp (s.entries_cutTo_isPrefix level)).symm

theorem endOf_le_length (level : Nat) : s.endOf level ≤ s.entries.length := by
  rw [endOf_eq]
  exact (s.entries_cutTo_isPrefix level).length_le

theorem endOf_mono {low high : Nat} (le : low ≤ high) : s.endOf low ≤ s.endOf high := by
  have kept := (s.cutTo high).entries_cutTo_isPrefix low
  rw [cutTo_cutTo, Nat.min_eq_left le] at kept
  rw [endOf_eq, endOf_eq]
  exact kept.length_le

/-- Each open level above the base begins where the one before it ends. -/
theorem getElem?_starts {level : Nat} (opened : level < s.level) :
    s.starts[level]? = some (s.endOf level) := by
  have inside : level < s.starts.length := by rwa [length_starts]
  rw [endOf, List.getElem?_eq_getElem inside, Option.getD_some]

def startOf (level : Nat) : Nat := if level = 0 then 0 else s.endOf (level - 1)

theorem startOf_le_endOf (level : Nat) : s.startOf level ≤ s.endOf level := by
  unfold startOf
  split
  · exact Nat.zero_le _
  · exact s.endOf_mono (Nat.sub_le level 1)

theorem startOf_mono {low high : Nat} (le : low ≤ high) : s.startOf low ≤ s.startOf high := by
  unfold startOf
  split
  · exact Nat.zero_le _
  · rw [if_neg (by omega)]
    exact s.endOf_mono (Nat.sub_le_sub_right le 1)

/-- The entries of a level stand between its start and its end. -/
theorem drop_take_endOf (level : Nat) :
    (s.entries.take (s.endOf level)).drop (s.startOf level) = s.entriesAt level := by
  rw [take_endOf, startOf]
  cases level with
  | zero => rw [if_pos rfl, List.drop_zero, entries_cutTo_zero]
  | succ level =>
    rw [if_neg (Nat.succ_ne_zero level), Nat.add_sub_cancel, endOf_eq, entries_cutTo_succ, List.drop_left]

/-- An entry of a level stands between the start and the end of the level. -/
theorem exists_position {a : α} {level : Nat} (entered : a ∈ s.entriesAt level) :
    ∃ p, s.startOf level ≤ p ∧ p < s.endOf level ∧ s.entries[p]? = some a := by
  rw [← drop_take_endOf] at entered
  obtain ⟨i, found⟩ := List.mem_iff_getElem?.mp entered
  rw [List.getElem?_drop] at found
  have inside : s.startOf level + i < s.endOf level := by
    by_contra beyond
    rw [List.getElem?_take_eq_none (Nat.not_lt.mp beyond)] at found
    cases found
  rw [List.getElem?_take_of_lt inside] at found
  exact ⟨s.startOf level + i, Nat.le_add_right _ _, inside, found⟩

variable {s}

/-- In a stack without repetition only the entries of a level stand there. -/
theorem bounds_of_position (distinct : s.entries.Nodup) {a : α} {p level : Nat}
    (found : s.entries[p]? = some a) (entered : a ∈ s.entriesAt level) :
    s.startOf level ≤ p ∧ p < s.endOf level := by
  obtain ⟨q, above, below, found'⟩ := s.exists_position entered
  obtain ⟨insideP, rfl⟩ := List.getElem?_eq_some_iff.mp found
  obtain ⟨insideQ, same⟩ := List.getElem?_eq_some_iff.mp found'
  obtain rfl : q = p := distinct.getElem_inj_iff.mp same
  exact ⟨above, below⟩

theorem head?_entriesAt {level : Nat} (inhabited : s.entriesAt level ≠ []) :
    (s.entriesAt level).head? = s.entries[s.startOf level]? := by
  obtain ⟨a, rest, split⟩ := List.exists_cons_of_ne_nil inhabited
  have entered : a ∈ s.entriesAt level := by
    rw [split]
    exact List.mem_cons_self
  obtain ⟨p, above, below, -⟩ := s.exists_position entered
  rw [← drop_take_endOf, List.head?_drop, List.getElem?_take_of_lt (Nat.lt_of_le_of_lt above below)]

theorem starts_eq_map (s : LevelStack α) : s.starts = (List.range s.level).map s.endOf := by
  refine List.ext_getElem? fun i => ?_
  rw [List.getElem?_map]
  rcases Nat.lt_or_ge i s.level with low | high
  · rw [s.getElem?_starts low, List.getElem?_range low]
    rfl
  · rw [List.getElem?_eq_none (by simpa using high), List.getElem?_eq_none (by simpa using high)]
    rfl

theorem startOf_succ (s : LevelStack α) (level : Nat) : s.startOf (level + 1) = s.endOf level := rfl

theorem mem_starts_iff {p : Nat} :
    p ∈ s.starts ↔ ∃ level, 0 < level ∧ level ≤ s.level ∧ s.startOf level = p := by
  simp only [starts_eq_map, List.mem_map, List.mem_range]
  constructor
  · rintro ⟨level, low, rfl⟩
    exact ⟨level + 1, Nat.succ_pos level, low, s.startOf_succ level⟩
  · rintro ⟨level, above, low, rfl⟩
    refine ⟨level - 1, by omega, ?_⟩
    rw [startOf, if_neg (by omega)]

/-- The level of a position is the number of levels above the base that begin at or before it. -/
theorem countP_starts {p level : Nat} (opened : level ≤ s.level) (above : s.startOf level ≤ p)
    (below : p < s.endOf level) : s.starts.countP (· ≤ p) = level := by
  have early : ∀ i ∈ List.range level, s.endOf i ≤ p := by
    intro i low
    have before := s.endOf_mono (Nat.le_sub_one_of_lt (List.mem_range.mp low))
    rw [startOf, if_neg (by have := List.mem_range.mp low; omega)] at above
    exact Nat.le_trans before above
  have late : ∀ i, p < s.endOf (level + i) := fun i =>
    Nat.lt_of_lt_of_le below (s.endOf_mono (Nat.le_add_right level i))
  have split : List.range s.level = List.range level ++ (List.range (s.level - level)).map (level + ·) := by
    rw [← List.range_add, Nat.add_sub_of_le opened]
  rw [starts_eq_map, List.countP_map, split, List.countP_append, List.countP_map,
    List.countP_eq_length.mpr, List.countP_eq_zero.mpr, List.length_range, Nat.add_zero]
  · intro i _
    simpa using late i
  · intro i low
    simpa using early i low

/-- Where no level above the base is empty, each begins after the one before. -/
theorem starts_pairwise (inhabited : ∀ level, 0 < level → level ≤ s.level → s.entriesAt level ≠ []) :
    s.starts.Pairwise (· < ·) := by
  rw [starts_eq_map, List.pairwise_map]
  refine List.Pairwise.imp_of_mem ?_ List.pairwise_lt_range
  intro i j _ inRange before
  obtain ⟨a, entered⟩ := List.exists_mem_of_ne_nil _
    (inhabited j (by omega) (Nat.le_of_lt (List.mem_range.mp inRange)))
  obtain ⟨p, above, below, -⟩ := s.exists_position entered
  have later := s.endOf_mono (Nat.le_sub_one_of_lt before)
  rw [startOf, if_neg (by omega)] at above
  omega

/-- Where no level above the base is empty, each begins before the end of the entries. -/
theorem lt_length_of_mem_starts
    (inhabited : ∀ level, 0 < level → level ≤ s.level → s.entriesAt level ≠ []) :
    ∀ start ∈ s.starts, start < s.entries.length := by
  intro start member
  obtain ⟨level, above, low, rfl⟩ := mem_starts_iff.mp member
  obtain ⟨a, entered⟩ := List.exists_mem_of_ne_nil _ (inhabited level above low)
  obtain ⟨p, before, after, -⟩ := s.exists_position entered
  have inside := s.endOf_le_length level
  omega

/-- An entry stands where its level begins exactly if it is the first of its level. -/
theorem head?_entriesAt_iff (distinct : s.entries.Nodup) {a : α} {p level : Nat}
    (found : s.entries[p]? = some a) (entered : a ∈ s.entriesAt level) :
    (s.entriesAt level).head? = some a ↔ s.startOf level = p := by
  rw [head?_entriesAt (List.ne_nil_of_mem entered)]
  constructor
  · intro first
    obtain ⟨insideP, rfl⟩ := List.getElem?_eq_some_iff.mp found
    obtain ⟨insideQ, same⟩ := List.getElem?_eq_some_iff.mp first
    exact distinct.getElem_inj_iff.mp same
  · rintro rfl
    exact found

/-- The positions at which the levels above the base begin are those of their first entries. -/
theorem mem_starts_iff_head? (distinct : s.entries.Nodup) {a : α} {p level : Nat}
    (found : s.entries[p]? = some a) (entered : a ∈ s.entriesAt level) :
    p ∈ s.starts ↔ 0 < level ∧ (s.entriesAt level).head? = some a := by
  rw [head?_entriesAt_iff distinct found entered, mem_starts_iff]
  obtain ⟨above, below⟩ := bounds_of_position distinct found entered
  constructor
  · rintro ⟨other, proper, -, rfl⟩
    have reached : other ≤ level := by
      by_contra higher
      have later := s.endOf_mono (Nat.le_sub_one_of_lt (Nat.not_le.mp higher))
      rw [startOf, if_neg (by omega)] at below
      omega
    exact ⟨by omega, Nat.le_antisymm above (s.startOf_mono reached)⟩
  · rintro ⟨proper, rfl⟩
    exact ⟨level, proper, level_le_of_mem entered, rfl⟩

end LevelStack

end SatModulo
