import SatModulo.Proofs.Failures
import SatModulo.Proofs.Timeline
import SatModulo.Theories.RuleTable
import Mathlib.Data.List.Sort

/-!
# Levels to return to

The level to return to from a clause is the second largest of the levels of its literals, where a level counts
for each literal that has it. It is the same whether the levels are collected first or the two largest are kept
in one pass over the clause (`Atoms.backjumpLevel_eq_passLevel`).

If a clause is false and only one of its literals is of its largest level, returns to that level and to all above
it, but below the largest, leave this literal without a value and all others false. No return to a lower level
does (`PublicRun.backjumpLevel_asserts`).
-/
namespace SatModulo

/-! ### The two largest of some numbers -/

/-- The second largest of some numbers, where a number that occurs twice counts twice. It is `0` if there are
fewer than two. -/
def secondLargest (levels : List Nat) : Nat := (levels.insertionSort (· ≥ ·))[1]?.getD 0

/-- In which order numbers come is no matter. -/
theorem twoLargest_perm {levels levels' : List Nat} (perm : levels.Perm levels') :
    twoLargest levels = twoLargest levels' := by
  refine perm.foldl_eq' (fun x _ y _ largest => ?_) _
  ext
  · exact Nat.max_right_comm ..
  · dsimp only
    rw [Nat.min_max_distrib_right, Nat.min_max_distrib_right, Nat.min_comm x y]
    ac_rfl

theorem twoLargest_of_pairwise {first second : Nat} {rest : List Nat}
    (ordered : (first :: second :: rest).Pairwise (· ≥ ·)) :
    twoLargest (first :: second :: rest) = (first, second) := by
  obtain ⟨below, ordered⟩ := List.pairwise_cons.mp ordered
  have le : second ≤ first := below second (.head _)
  have run : ∀ rest : List Nat, (∀ level ∈ rest, level ≤ second) →
      rest.foldl (fun largest level => (max largest.1 level, max largest.2 (min largest.1 level)))
        (first, second) = (first, second) := by
    intro rest low
    induction rest with
    | nil => rfl
    | cons level rest ih =>
      obtain ⟨here, later⟩ := List.forall_mem_cons.mp low
      rw [List.foldl_cons, Nat.max_eq_left (Nat.le_trans here le), Nat.min_eq_right (Nat.le_trans here le),
        Nat.max_eq_left here]
      exact ih later
  rw [twoLargest, List.foldl_cons, List.foldl_cons]
  simpa [Nat.max_eq_left le, Nat.min_eq_right le] using run rest (List.pairwise_cons.mp ordered).1

/-- The second of the two largest numbers is the second in descending order. -/
theorem twoLargest_eq_secondLargest (levels : List Nat) : (twoLargest levels).2 = secondLargest levels := by
  have ordered : (levels.insertionSort (· ≥ ·)).Pairwise (· ≥ ·) := levels.pairwise_insertionSort _
  rw [← twoLargest_perm (levels.perm_insertionSort (· ≥ ·)), secondLargest]
  match levels.insertionSort (· ≥ ·), ordered with
  | [], _ => rfl
  | [first], _ => simp [twoLargest]
  | first :: second :: rest, ordered => rw [twoLargest_of_pairwise ordered]; rfl

/-- Takes a number into account among the two largest so far, of which the second comes first. -/
def keepTwo : Option Nat × Option Nat → Nat → Option Nat × Option Nat
  | (second, none), level => (second, some level)
  | (second, some largest), level =>
    if largest < level then (some largest, some level)
    else
      match second with
      | none => (some level, some largest)
      | some second => if second < level then (some level, some largest) else (some second, some largest)

/-- The numbers that are kept are the two largest, as far as there are any. -/
structure KeepsLargest (kept : Option Nat × Option Nat) (largest : Nat × Nat) : Prop where
  first : kept.2.getD 0 = largest.1
  second : kept.1.getD 0 = largest.2
  inOrder : kept.2 = none → kept.1 = none
  descending : largest.2 ≤ largest.1

/-- One more number is taken into account by two comparisons. -/
theorem KeepsLargest.keepTwo {kept : Option Nat × Option Nat} {largest : Nat × Nat}
    (keeps : KeepsLargest kept largest) (level : Nat) :
    KeepsLargest (keepTwo kept level) (max largest.1 level, max largest.2 (min largest.1 level)) := by
  obtain ⟨first, second⟩ := largest
  obtain ⟨keptSecond, keptFirst⟩ := kept
  obtain ⟨rfl, rfl, inOrder, descending⟩ := keeps
  dsimp only at inOrder descending ⊢
  cases keptFirst with
  | none =>
    obtain rfl := inOrder rfl
    exact ⟨(Nat.zero_max level).symm, by simp [SatModulo.keepTwo], nofun, by simp⟩
  | some first =>
    cases keptSecond with
    | none =>
      rw [SatModulo.keepTwo]
      split_ifs with higher
      · exact ⟨by simp; omega, by simp; omega, nofun, by simp⟩
      · exact ⟨by simp; omega, by simp; omega, nofun, by simp⟩
    | some second =>
      rw [Option.getD_some, Option.getD_some] at descending
      rw [SatModulo.keepTwo]
      split_ifs with higher between
      · exact ⟨by simp; omega, by simp; omega, nofun, by simp; omega⟩
      · exact ⟨by simp; omega, by simp; omega, nofun, by simp; omega⟩
      · exact ⟨by simp; omega, by simp; omega, nofun, by simp; omega⟩

namespace Atoms

variable {s : Atoms} {clause : Clause} {l : Literal}

def levelsOf (s : Atoms) (clause : Clause) : List Nat := clause.filterMap fun l => s.levelOf l.atom

/-- The level to return to, by one pass over a clause that keeps the two largest levels and ends at a literal
without a value. -/
def passLevel (s : Atoms) (clause : Clause) : Except Error Nat := do
  let kept ← clause.foldlM (fun kept l =>
    match s.levelOf l.atom with
    | some level => .ok (keepTwo kept level)
    | none => .error .backjump) (none, none)
  return kept.1.getD 0

/-- To keep two levels in one pass comes to the same as to collect all of them first. -/
theorem backjumpLevel_eq_passLevel (s : Atoms) (clause : Clause) :
    s.backjumpLevel clause = s.passLevel clause := by
  suffices run : ∀ kept largest, KeepsLargest kept largest →
      (clause.mapM (fun l =>
          match s.levelOf l.atom with
          | some level => Except.ok level
          | none => .error Error.backjump) >>= fun levels =>
        Except.ok (levels.foldl (fun largest level => (max largest.1 level, max largest.2 (min largest.1 level)))
          largest).2) =
      (clause.foldlM (fun kept l =>
          match s.levelOf l.atom with
          | some level => .ok (SatModulo.keepTwo kept level)
          | none => .error Error.backjump) kept >>= fun kept => .ok (kept.1.getD 0)) from
    run (none, none) (0, 0) ⟨rfl, rfl, fun _ => rfl, Nat.le_refl 0⟩
  induction clause with
  | nil => exact fun kept largest keeps => congrArg Except.ok keeps.second.symm
  | cons l rest ih =>
    intro kept largest keeps
    rw [List.mapM_cons, List.foldlM_cons]
    cases s.levelOf l.atom with
    | none => rfl
    | some level =>
      refine Eq.trans ?_ (ih _ _ (keeps.keepTwo level))
      cases rest.mapM (fun l =>
        match s.levelOf l.atom with
        | some level => Except.ok level
        | none => .error Error.backjump) <;> rfl

/-- Where all literals of a clause have values, the level to return to is the second largest of theirs. -/
theorem backjumpLevel_of_valued (valued : ∀ l ∈ clause, (s.value l.atom).isSome) :
    s.backjumpLevel clause = .ok (secondLargest (s.levelsOf clause)) := by
  have given : ∀ l ∈ clause, s.levelOf l.atom = some ((s.levelOf l.atom).getD 0) := by
    intro l member
    obtain ⟨value, some'⟩ := Option.isSome_iff_exists.mp (valued l member)
    obtain ⟨given, assigned, _⟩ := value_eq_some.mp some'
    rw [levelOf_eq_some.mpr ⟨given, assigned, rfl⟩]
    rfl
  have levels : s.levelsOf clause = clause.map fun l => (s.levelOf l.atom).getD 0 := by
    rw [levelsOf, List.filterMap_congr given, ← List.filterMap_eq_map]
    rfl
  have mapped : (clause.mapM fun l =>
      match s.levelOf l.atom with
      | some level => Except.ok level
      | none => .error Error.backjump) = .ok (s.levelsOf clause) := by
    rw [levels]
    refine Except.mapM_of_ok fun l member => ?_
    rw [given l member]
    rfl
  have collected : s.backjumpLevel clause = .ok (twoLargest (s.levelsOf clause)).2 :=
    congrArg (· >>= fun levels => Except.ok (twoLargest levels).2) mapped
  rw [collected, twoLargest_eq_secondLargest]

theorem levelsOf_perm {clause' : Clause} (perm : clause.Perm clause') :
    (s.levelsOf clause).Perm (s.levelsOf clause') := perm.filterMap _

/-- If one literal alone has the largest level, the second largest is the largest of the others. -/
theorem secondLargest_le_iff {others : Clause} {top level : Nat} (perm : clause.Perm (l :: others))
    (atTop : s.levelOf l.atom = some top) (below : ∀ i ∈ s.levelsOf others, i < top) :
    secondLargest (s.levelsOf clause) ≤ level ↔ ∀ i ∈ s.levelsOf others, i ≤ level := by
  have split : s.levelsOf (l :: others) = top :: s.levelsOf others := List.filterMap_cons_some atTop
  obtain ⟨-, bounds⟩ := le_foldl_max (s.levelsOf others) 0
  rw [← twoLargest_eq_secondLargest, twoLargest_perm (levelsOf_perm perm), split, twoLargest_of_lt below]
  refine ⟨fun le i member => Nat.le_trans (bounds i member) le, fun low => ?_⟩
  rcases foldl_max_mem (s.levelsOf others) 0 with zero | member
  · rw [zero]
    exact Nat.zero_le level
  · exact low _ member

/-- A return takes back the values that were given above its level, and no others. -/
theorem Coherent.valueOf_forgetAbove (h : s.Coherent) {i : Nat} (given : s.levelOf l.atom = some i)
    (target : Nat) : (s.forgetAbove target).2.valueOf l = if i ≤ target then s.valueOf l else none := by
  split
  · rename_i low
    rw [valueOf, valueOf, Literal.valueOn, Literal.valueOn, value, value,
      ClauseStore.Supports.assignment_of_low h given low]
  · rename_i high
    rw [valueOf, Literal.valueOn_eq_none, value_eq_none,
      ClauseStore.Supports.assignment_of_high h given (Nat.not_le.mp high)]

end Atoms

/-! ### Returns that leave one literal -/

variable {σ : Type} {c c' : Context σ} {clause : Clause} {l : Literal} {others : List Literal}

/-- Of the literals of a clause one has no value, and all others are false. -/
structure Context.LeavesOne (c : Context σ) (l : Literal) (others : List Literal) : Prop where
  unset : c.valueOf l = none
  falsified : ∀ m ∈ others, c.valueOf m = some false

/-- A return leaves one literal of a false clause if it goes below the level of this literal, and not below that
of any other. -/
theorem Procedure.Retreated.leavesOne_iff {target top : Nat} [Theory σ] (retreated : Retreated target c c')
    (h : c.atoms.Coherent) (falsified : ∀ m ∈ l :: others, c.valueOf m = some false)
    (atTop : c.atoms.levelOf l.atom = some top) :
    c'.LeavesOne l others ↔ (∀ i ∈ c.atoms.levelsOf others, i ≤ target) ∧ target < top := by
  have isFalse := List.forall_mem_cons.mp falsified
  have after (m : Literal) {i : Nat} (given : c.atoms.levelOf m.atom = some i) :
      c'.valueOf m = if i ≤ target then c.valueOf m else none := by
    rw [Context.valueOf, retreated.atoms_eq]
    exact h.valueOf_forgetAbove given target
  constructor
  · rintro ⟨unset, still⟩
    refine ⟨fun i member => ?_, ?_⟩
    · obtain ⟨m, other, given⟩ := List.mem_filterMap.mp member
      have value := still m other
      rw [after m given] at value
      by_contra high
      rw [if_neg high] at value
      cases value
    · by_contra high
      rw [after l atTop, if_pos (Nat.not_lt.mp high), isFalse.1] at unset
      cases unset
  · rintro ⟨low, high⟩
    refine ⟨?_, fun m other => ?_⟩
    · rw [after l atTop, if_neg (Nat.not_le.mpr high)]
    · obtain ⟨i, given⟩ := Atoms.levelOf_isSome_of_false (isFalse.2 m other)
      rw [after m given, if_pos (low i (List.mem_filterMap.mpr ⟨m, other, given⟩)), isFalse.2 m other]

namespace PublicRun

/-- In all states of a run, the level to return to from a clause whose literals have values is the second largest
of their levels. Where the clause is false and one literal alone is of its largest level, which is not `0`, just
the returns to that level or above, but below the largest, leave this literal without a value and all others
false. Literals count as often as they occur. -/
theorem backjumpLevel_asserts [Theory σ] {settings : Settings} {events : List (Event σ)} {s : Session σ}
    (run : PublicRun settings events s) (reached : Moves .any s.context c)
    (valued : ∀ l ∈ clause, (c.atoms.value l.atom).isSome) :
    c.atoms.backjumpLevel clause = .ok (secondLargest (c.atoms.levelsOf clause)) ∧
      c.atoms.passLevel clause = .ok (secondLargest (c.atoms.levelsOf clause)) ∧
      ∀ before l after top, clause = before ++ l :: after → (∀ m ∈ clause, c.valueOf m = some false) →
        c.atoms.levelOf l.atom = some top → 0 < top → (∀ i ∈ c.atoms.levelsOf (before ++ after), i < top) →
        secondLargest (c.atoms.levelsOf clause) < top ∧
          ∀ target, ∃ c', c.run (Procedure.backjump target) = .ok (.ok (), c') ∧
            (c'.LeavesOne l (before ++ after) ↔
              secondLargest (c.atoms.levelsOf clause) ≤ target ∧ target < top) := by
  have coherent : c.atoms.Coherent := (Moves.coherent reached run.coherent.1).supports.atoms
  have level := Atoms.backjumpLevel_of_valued valued
  refine ⟨level, Atoms.backjumpLevel_eq_passLevel _ clause ▸ level, ?_⟩
  rintro before l after top rfl falsified atTop positive below
  have atMost (i : Nat) : secondLargest (c.atoms.levelsOf (before ++ l :: after)) ≤ i ↔
      ∀ j ∈ c.atoms.levelsOf (before ++ after), j ≤ i :=
    Atoms.secondLargest_le_iff List.perm_middle atTop below
  refine ⟨Nat.lt_of_le_pred positive ((atMost _).mpr fun i member => Nat.le_pred_of_lt (below i member)),
    fun target => ?_⟩
  obtain ⟨result, c', ran, rfl, retreated⟩ := (Procedure.backjump_ends (c := c) target).returns
  refine ⟨c', ran, ?_⟩
  rw [atMost]
  exact retreated.leavesOne_iff coherent (fun m member => falsified m (List.perm_middle.mem_iff.mpr member)) atTop

/-- After three decisions, a clause that has the first one negated twice and the last one negated between is left
with one literal by just the returns to the first two decisions. -/
theorem backjumpLevel_asserts_repeated :
    ∃ (events : List (Event RuleTable)) (s : Session RuleTable), PublicRun {} events s ∧
      events.map (·.command) = [.freshLiterals 3, .decideLiteral ⟨1⟩, .decideLiteral ⟨2⟩, .decideLiteral ⟨3⟩] ∧
      s.context.atoms.backjumpLevel [⟨-1⟩, ⟨-3⟩, ⟨-1⟩] = .ok 1 ∧
      ∀ target, ∃ c', s.context.run (Procedure.backjump target) = .ok (.ok (), c') ∧
        (c'.LeavesOne ⟨-3⟩ [⟨-1⟩, ⟨-1⟩] ↔ 1 ≤ target ∧ target < 3) := by
  obtain ⟨events, s, run, commands, checked⟩ := of_run_any (σ := RuleTable) {}
    [.freshLiterals 3, .decideLiteral ⟨1⟩, .decideLiteral ⟨2⟩, .decideLiteral ⟨3⟩]
    (by simp [Command.IsPublic])
    (fun _ s => ([⟨-1⟩, ⟨-3⟩, ⟨-1⟩] : Clause).all (fun l => decide (s.context.valueOf l = some false)) &&
      decide (s.context.atoms.levelOf 3 = some 3) &&
      decide (s.context.atoms.levelsOf [⟨-1⟩, ⟨-3⟩, ⟨-1⟩] = [1, 3, 1]) &&
      decide (s.context.atoms.levelsOf [⟨-1⟩, ⟨-1⟩] = [1, 1]))
    (by decide +kernel)
  simp only [Bool.and_eq_true, decide_eq_true_eq, List.all_eq_true] at checked
  obtain ⟨⟨⟨falsified, last⟩, levels⟩, others⟩ := checked
  have valued : ∀ l ∈ ([⟨-1⟩, ⟨-3⟩, ⟨-1⟩] : Clause), (s.context.atoms.value l.atom).isSome := fun l member =>
    Option.isSome_of_eq_some (Literal.valueOn_eq_false.mp (falsified l member))
  obtain ⟨level, _, leaves⟩ := run.backjumpLevel_asserts .refl valued
  rw [levels] at level leaves
  have below : ∀ i ∈ s.context.atoms.levelsOf ([⟨-1⟩] ++ [⟨-1⟩]), i < 3 := others ▸ by decide
  exact ⟨events, s, run, commands, level, (leaves [⟨-1⟩] ⟨-3⟩ [⟨-1⟩] 3 rfl falsified last (by decide) below).2⟩

end PublicRun

end SatModulo
