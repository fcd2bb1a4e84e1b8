import SatModulo.ClauseStore
import SatModulo.Proofs.Assignments

/-!
# Occurrences of literals in stored clauses

The index of a store names for each literal exactly the clauses in which the literal occurs
(`Indexed`), once for each occurrence. Storing keeps every clause under its key (`store_eq_ok`).
-/
namespace SatModulo

/-- Literals are told apart by their positions. -/
theorem Literal.index_injective {l m : Literal} (same : l.index = m.index) : l = m := by
  unfold index at same
  cases lp : l.polarity <;> cases mp : m.polarity <;>
    simp only [lp, mp, if_true, Bool.false_eq_true, if_false] at same
  · exact eq_of_atom_of_polarity (by lia) (by rw [lp, mp])
  · lia
  · lia
  · exact eq_of_atom_of_polarity (by lia) (by rw [lp, mp])

namespace ClauseStore

theorem getD_noteOccurrence (key : ClauseKey) (index : Array (List ClauseKey)) (l : Literal) (i : Nat) :
    (noteOccurrence key index l)[i]?.getD [] =
      index[i]?.getD [] ++ if i = l.index then [key] else [] := by
  rw [noteOccurrence, Array.getElem?_modify]
  have grown : (index ++ Array.replicate (l.index + 1 - index.size) [])[i]?.getD [] =
      index[i]?.getD [] := by
    rw [Array.getElem?_append]
    split
    · rfl
    · rename_i beyond
      rw [Array.getElem?_eq_none (Nat.not_lt.mp beyond), Array.getElem?_replicate]
      split <;> rfl
  split
  · rename_i here
    subst here
    rw [if_pos rfl, ← grown]
    have bound : l.index < (index ++ Array.replicate (l.index + 1 - index.size) []).size := by
      rw [Array.size_append, Array.size_replicate]
      omega
    rw [Array.getElem?_eq_getElem bound]
    rfl
  · rename_i other
    rw [if_neg (Ne.symm other), List.append_nil, grown]

/-- A clause is noted at a literal as often as the literal occurs in it. -/
theorem getD_foldl_noteOccurrence (key : ClauseKey) (c : Clause) (index : Array (List ClauseKey))
    (l : Literal) :
    (c.foldl (noteOccurrence key) index)[l.index]?.getD [] =
      index[l.index]?.getD [] ++ List.replicate (c.count l) key := by
  induction c generalizing index with
  | nil => simp
  | cons m rest ih =>
    rw [List.foldl_cons, ih, getD_noteOccurrence, List.append_assoc]
    congr 1
    by_cases same : m = l
    · subst same
      simp [List.replicate_succ]
    · have apart : l.index ≠ m.index := fun equal => same (Literal.index_injective equal).symm
      simp [apart, same]

/-- The store of learnt clauses takes a clause as long as it has room. -/
theorem store_learnt (s : ClauseStore) (l : Literal) (lower : List Literal) :
    s.store (l :: lower) true =
      if UInt32.size ≤ s.learnt.size then .error .storageExhausted
      else .ok (.learnt s.learnt.size,
        { s with
          learnt := s.learnt.push (l :: lower)
          index := (l :: lower).foldl (noteOccurrence (.learnt s.learnt.size)) s.index }) := by
  simp only [store_eq, List.isEmpty_cons, Bool.false_eq_true, if_false, if_true]

variable {s s' : ClauseStore} {c : Clause} {learnt : Bool} {key : ClauseKey}

/-- A stored clause gets a key that named none, every other key keeps its clause, and the key is noted
for each occurrence of a literal. -/
theorem store_eq_ok (success : s.store c learnt = .ok (key, s')) :
    c ≠ [] ∧ s.get? key = none ∧ s'.get? key = some c ∧
      (∀ other, other ≠ key → s'.get? other = s.get? other) ∧
      ∀ l, s'.occurrences l = s.occurrences l ++ List.replicate (c.count l) key := by
  rw [store_eq] at success
  cases learnt
  all_goals
    simp only [Bool.false_eq_true, if_false, if_true] at success
    split at success
    · cases success
    · rename_i nonempty
      split at success
      · cases success
      · cases success
        refine ⟨by simpa using nonempty, by simp [get?], by simp [get?], ?_,
          fun l => getD_foldl_noteOccurrence ..⟩
        rintro (n | n) other
        all_goals
          simp only [get?, ne_eq, ClauseKey.given.injEq, ClauseKey.learnt.injEq] at other ⊢
          try rw [Array.getElem?_push, if_neg other]

/-- A key that had a clause has the same after a clause was stored. -/
theorem get?_store (success : s.store c learnt = .ok (key, s')) {other : ClauseKey} {d : Clause}
    (found : s.get? other = some d) : s'.get? other = some d := by
  obtain ⟨_, unused, _, kept, _⟩ := store_eq_ok success
  rw [kept other, found]
  rintro rfl
  rw [unused] at found
  cases found

theorem get?_store_iff (success : s.store c learnt = .ok (key, s')) (other : ClauseKey) (d : Clause) :
    s'.get? other = some d ↔ s.get? other = some d ∨ other = key ∧ d = c := by
  obtain ⟨_, unused, new, kept, _⟩ := store_eq_ok success
  by_cases same : other = key
  · subst same
    rw [new, unused]
    simp [eq_comm]
  · rw [kept other same]
    simp [same]

/-- The index names the clauses of each literal. -/
def Indexed (s : ClauseStore) : Prop :=
  ∀ l key, key ∈ s.occurrences l ↔ ∃ c, s.get? key = some c ∧ l ∈ c

theorem Indexed.initial : Indexed {} := by
  intro l key
  constructor
  · intro member
    simp [occurrences] at member
  · rintro ⟨c, found, _⟩
    cases key <;> simp [get?] at found

theorem Indexed.store (h : s.Indexed) (success : s.store c learnt = .ok (key, s')) : s'.Indexed := by
  obtain ⟨_, unused, _, _, noted⟩ := store_eq_ok success
  intro l other
  simp only [noted l, List.mem_append, List.mem_replicate, h l other, get?_store_iff success]
  constructor
  · rintro (⟨d, found, member⟩ | ⟨count, rfl⟩)
    · exact ⟨d, .inl found, member⟩
    · exact ⟨c, .inr ⟨rfl, rfl⟩, List.count_pos_iff.mp (Nat.pos_of_ne_zero count)⟩
  · rintro ⟨d, found | ⟨rfl, rfl⟩, member⟩
    · exact .inl ⟨d, found, member⟩
    · exact .inr ⟨Nat.ne_of_gt (List.count_pos_iff.mpr member), rfl⟩

end ClauseStore

end SatModulo
