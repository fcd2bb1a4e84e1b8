import SatModulo.Proofs.Delivery
import SatModulo.Proofs.Openings
import SatModulo.Proofs.Searching
import Mathlib.Data.List.Lex
import Mathlib.Algebra.Group.Nat.Defs
import Mathlib.Data.Finset.Card

/-!
# A search makes progress

A return takes literals back, so the length of the trail is no measure of a search. The counts of literals
by level are, base level first and in the lexicographic order (`Trail.counts`): what is made true at the
current level, a decision, and a literal that is asserted at a lower level all raise them
(`Context.Rises`), and so does every iteration of the search that is followed by another
(`Procedure.iterate_rises`). On a number of atoms there are fewer such lists than the search has
iterations (`Atoms.rank_lt`).
-/
namespace SatModulo

/-- The number of literals of each level, base first. -/
def LevelStack.counts {α : Type} (s : LevelStack α) : List Nat := s.levels.map List.length

namespace LevelStack

variable {α : Type} (s : LevelStack α)

/-- More entries at the current level raise the counts. -/
theorem counts_lt_extend {more : List α} (new : more ≠ []) :
    s.counts < counts ⟨s.below, s.top ++ more⟩ := by
  simp only [counts, levels, List.map_append, List.map_singleton]
  refine List.Lex.append_left (· < ·) (.rel ?_) _
  rw [List.length_append]
  exact Nat.lt_add_of_pos_right (List.length_pos_of_ne_nil new)

/-- An entry on a level of its own raises the counts. -/
theorem counts_lt_open (a : α) : s.counts < (s.openLevel.push a).counts := by
  have longer : (s.openLevel.push a).counts = s.counts ++ [1] := by
    simp [counts, levels, push, openLevel]
  have more : s.counts ++ [] < s.counts ++ [1] := List.Lex.append_left (· < ·) .nil _
  rwa [List.append_nil, ← longer] at more

/-- An entry at a lower level raises the counts, whatever is taken back. -/
theorem counts_lt_cutTo {level : Nat} (low : level < s.level) (a : α) :
    s.counts < ((s.cutTo level).push a).counts := by
  have inside : level < s.levels.length := by
    rw [length_levels]
    omega
  have cut : (s.cutTo level).below = s.levels.take level ∧ (s.cutTo level).top = s.levels[level] := by
    have levels := levels_cutTo s level
    rw [← List.take_append_getElem inside] at levels
    obtain ⟨below, top⟩ := List.append_inj' levels rfl
    exact ⟨below, List.singleton_inj.mp top⟩
  have split : s.levels = s.levels.take level ++ s.levels[level] :: s.levels.drop (level + 1) := by
    rw [List.cons_getElem_drop_succ, List.take_append_drop]
  have before : s.counts = (s.levels.take level).map List.length ++
      (s.levels[level].length :: (s.levels.drop (level + 1)).map List.length) := by
    conv_lhs => rw [counts, split, List.map_append, List.map_cons]
  have after : ((s.cutTo level).push a).counts = (s.levels.take level).map List.length ++
      [s.levels[level].length + 1] := by
    simp [counts, levels, push, cut]
  rw [before, after]
  exact List.Lex.append_left (· < ·) (.rel (Nat.lt_succ_self _)) _

end LevelStack

variable {σ : Type}

/-- The counts of literals by level are raised, and no atom is added. -/
structure Context.Rises (c after : Context σ) : Prop where
  counts : c.atoms.trail.stack.counts < after.atoms.trail.stack.counts
  atoms : after.atoms.count = c.atoms.count

/-- What is drawn is added to the current level. -/
theorem ClauseStore.growsAll_stack {store : ClauseStore} {s s' : Atoms}
    (steps : Relation.ReflTransGen store.Grows s s') :
    ∃ more, s'.trail.stack = ⟨s.trail.stack.below, s.trail.stack.top ++ more⟩ := by
  induction steps with
  | refl => exact ⟨[], by rw [List.append_nil]⟩
  | @tail between last _ step ih =>
    obtain ⟨more, stack⟩ := ih
    have pushed : ∀ l reason, between.assign l reason = .ok (.unset, last) →
        ∃ more, last.trail.stack = ⟨s.trail.stack.below, s.trail.stack.top ++ more⟩ := by
      intro l reason made
      refine ⟨more ++ [l], ?_⟩
      rw [Atoms.stack_assign made, stack, LevelStack.push, List.append_assoc]
    cases step with
    | units step =>
      cases step with
      | force _ key clause l found forces made => exact pushed l _ made
      | pass l next seen => exact ⟨more, stack⟩
    | conclude i step =>
      obtain ⟨l, marker, _, made⟩ := step
      exact pushed l _ made

theorem Context.Rises.trans {c mid after : Context σ} (first : c.Rises mid) (second : mid.Rises after) :
    c.Rises after :=
  ⟨lt_trans first.counts second.counts, second.atoms.trans first.atoms⟩

variable [Theory σ] {c c' mid after : Context σ}

theorem Draws.count_eq (draws : Draws c c') : c'.atoms.count = c.atoms.count := by
  induction draws with
  | refl => rfl
  | tail _ draw ih => rw [ClauseStore.growsAll_count draw.grows, ih]

theorem Draws.stack_eq (draws : Draws c c') :
    ∃ more, c'.atoms.trail.stack = ⟨c.atoms.trail.stack.below, c.atoms.trail.stack.top ++ more⟩ := by
  induction draws with
  | refl => exact ⟨[], by rw [List.append_nil]⟩
  | tail _ draw ih =>
    obtain ⟨first, before⟩ := ih
    obtain ⟨second, after⟩ := ClauseStore.growsAll_stack draw.grows
    exact ⟨first ++ second, by rw [after, before, List.append_assoc]⟩

/-- Drawing consequences raises the counts, or makes no literal true. -/
theorem Draws.rises_or_eq (draws : Draws c c') :
    c.Rises c' ∨ c'.atoms.trail.stack = c.atoms.trail.stack := by
  obtain ⟨more, stack⟩ := draws.stack_eq
  by_cases none : more = []
  · exact .inr (by rw [stack, none, List.append_nil])
  · refine .inl ⟨?_, draws.count_eq⟩
    rw [stack]
    exact c.atoms.trail.stack.counts_lt_extend none

/-- Every draw that makes a literal true raises the counts. -/
theorem Draws.rises (draws : Draws c c') (longer : c.atoms.trail.length < c'.atoms.trail.length) :
    c.Rises c' := by
  refine draws.rises_or_eq.resolve_right fun same => ?_
  rw [Trail.length, Trail.length, Trail.literals, Trail.literals, same] at longer
  exact absurd longer (Nat.lt_irrefl _)

theorem Draws.rises_trans (draws : Draws c mid) (rises : mid.Rises after) : c.Rises after := by
  rcases draws.rises_or_eq with before | same
  · exact before.trans rises
  · refine ⟨?_, rises.atoms.trans draws.count_eq⟩
    rw [← same]
    exact rises.counts

theorem Context.Rises.draws (rises : c.Rises mid) (draws : Draws mid after) : c.Rises after := by
  rcases draws.rises_or_eq with further | same
  · exact rises.trans further
  · refine ⟨?_, draws.count_eq.trans rises.atoms⟩
    rw [same]
    exact rises.counts

namespace Procedure

theorem Decides.rises (decided : Decides c c') : c.Rises c' := by
  obtain ⟨mid, opened, draws, same, decide, after⟩ := decided
  refine draws.rises_trans (Context.Rises.draws ?_ (.single after))
  cases decide with
  | decide l proposer theories atoms delivered opened made =>
    have counted := Atoms.count_assign made
    refine ⟨?_, counted⟩
    change mid.atoms.trail.stack.counts < atoms.trail.stack.counts
    rw [Atoms.stack_assign made]
    exact mid.atoms.trail.stack.counts_lt_open l

theorem Asserts.rises {l : Literal} {level : Nat} (asserts : Asserts c l level after) :
    c.Rises after := by
  refine ⟨?_, asserts.count⟩
  rw [asserts.stack]
  exact c.atoms.trail.stack.counts_lt_cutTo asserts.low l

/-- An iteration of the search that is followed by another raises the counts. -/
theorem iterate_rises (h : c.Coherent) : (iterate : Procedure σ (Option Report)).Ensures c
    fun result after => result = .ok none → c.Rises after := by
  have counted : Draw c { c with counters.iterations := c.counters.iterations + 1 } :=
    .adjust c c.random _ c.theories.schedule rfl
  have first : Draws c _ := .single counted
  -- Recovery that is followed by another iteration has asserted a literal.
  have recovered : ∀ {mid conflict}, Draws c mid → mid.Conflicting conflict →
      (iterate.recoverFrom conflict : Procedure σ (Option Report)).Ensures mid
        fun result after => result = .ok none → c.Rises after := by
    intro mid conflict draws conflicting
    refine .bind (recover_course (Draws.coherent draws h) conflicting) (fun e after _ no => by cases no) ?_
    intro recovery after recovers
    cases recovery with
    | unsatisfiable => exact .pure fun no => by cases no
    | asserted key literal level =>
      exact .pure fun _ => Draws.rises_trans draws (Asserts.rises recovers)
  refine .modify_bind (.get_bind ?_)
  split
  · exact .pure fun no => by cases no
  refine .bind (propagate_leads (counted.coherent h)) (fun e after _ no => by cases no) ?_
  rintro outcome propagated ⟨further, found⟩
  replace further := first.trans further
  split
  · exact recovered further found
  · refine .get_bind (.ofFaulty_bind fun (isNew, theories) cleared => .modify_bind ?_)
    have further' := further.tail (.clearSatisfied propagated isNew theories cleared)
    refine .bind (makeDecision_course (Draws.coherent further' h)) (fun e after _ no => by cases no) ?_
    intro decision decided made
    cases decision with
    | decided l => exact .pure fun _ => Draws.rises_trans further' (Decides.rises made.1)
    | exhausted =>
      obtain ⟨last, _, _⟩ := made
      have toFull := further'.trans last
      refine .bind (finalCheck_leads (Draws.coherent toFull h)) (fun e after _ no => by cases no) ?_
      rintro checked after ⟨final, held⟩
      cases checked with
      | assigned => exact .pure fun _ => Draws.rises_trans toFull (Draws.rises final held)
      | conflict conflict => exact recovered (toFull.trans final) held
      | satisfied => exact .modify_bind (.pure fun no => by cases no)

end Procedure

/-! ### Counts are bounded -/

/-- Counts as a number of some base, each digit one more than the count, with room for a width. -/
def rank (base : Nat) : Nat → List Nat → Nat
  | _, [] => 0
  | 0, _ => 0
  | width + 1, x :: rest => (x + 1) * base ^ width + rank base width rest

/-- Digits below the base make a number below the power of the width. -/
private theorem rank_lt_pow {base : Nat} (positive : 0 < base) (width : Nat) (xs : List Nat)
    (digits : ∀ x ∈ xs, x + 1 < base) : rank base width xs < base ^ width := by
  induction xs generalizing width with
  | nil =>
    rw [rank]
    exact Nat.pow_pos positive
  | cons x rest ih =>
    cases width with
    | zero => exact Nat.one_pos
    | succ width =>
      obtain ⟨digit, others⟩ := List.forall_mem_cons.mp digits
      calc (x + 1) * base ^ width + rank base width rest
          < (x + 1) * base ^ width + base ^ width := Nat.add_lt_add_left (ih width others) _
        _ = (x + 1 + 1) * base ^ width := (Nat.succ_mul _ _).symm
        _ ≤ base * base ^ width := Nat.mul_le_mul_right _ digit
        _ = base ^ (width + 1) := by rw [Nat.pow_succ, Nat.mul_comm]

/-- The number respects the lexicographic order. -/
private theorem rank_lt_rank {base width : Nat} {xs ys : List Nat} (less : xs < ys) (positive : 0 < base)
    (digits : ∀ x ∈ xs, x + 1 < base) (room : ys.length ≤ width) (room' : xs.length ≤ width) :
    rank base width xs < rank base width ys := by
  induction (List.lt_iff_lex_lt xs ys).mp less generalizing width with
  | nil =>
    obtain ⟨width, rfl⟩ : ∃ n, width = n + 1 := ⟨width - 1, by rw [List.length_cons] at room; omega⟩
    simp only [rank]
    exact Nat.add_pos_left (Nat.mul_pos (Nat.succ_pos _) (Nat.pow_pos positive)) _
  | @rel x xs y ys below =>
    obtain ⟨width, rfl⟩ : ∃ n, width = n + 1 := ⟨width - 1, by rw [List.length_cons] at room; omega⟩
    have others := rank_lt_pow positive width xs fun z member => digits z (.tail _ member)
    calc (x + 1) * base ^ width + rank base width xs
        < (x + 1) * base ^ width + base ^ width := Nat.add_lt_add_left others _
      _ = (x + 1 + 1) * base ^ width := (Nat.succ_mul _ _).symm
      _ ≤ (y + 1) * base ^ width := Nat.mul_le_mul_right _ (Nat.succ_le_succ below)
      _ ≤ (y + 1) * base ^ width + rank base width ys := Nat.le_add_right _ _
  | @cons x xs ys rest ih =>
    obtain ⟨width, rfl⟩ : ∃ n, width = n + 1 := ⟨width - 1, by rw [List.length_cons] at room; omega⟩
    rw [List.length_cons] at room room'
    exact Nat.add_lt_add_left (ih rest (fun z member => digits z (.tail _ member)) (by omega) (by omega)) _

private theorem length_le_flatten {α : Type} {lists : List (List α)} (inhabited : ∀ xs ∈ lists, xs ≠ []) :
    lists.length ≤ lists.flatten.length := by
  induction lists with
  | nil => exact Nat.le_refl _
  | cons xs rest ih =>
    obtain ⟨here, others⟩ := List.forall_mem_cons.mp inhabited
    have positive := List.length_pos_of_ne_nil here
    have more := ih others
    rw [List.flatten_cons, List.length_append, List.length_cons]
    omega

namespace Atoms

variable {s : Atoms}

/-- The trail has room for the atoms but the true one. -/
theorem Coherent.length_lt (h : s.Coherent) : s.trail.length < s.count := by
  have distinct : (topAtom :: s.trail.literals.map Literal.atom).Nodup := by
    refine List.nodup_cons.mpr ⟨fun member => ?_, h.distinct⟩
    obtain ⟨l, onTrail, top⟩ := List.mem_map.mp member
    exact h.ne_top_of_mem onTrail top
  have known : topAtom :: s.trail.literals.map Literal.atom ⊆ List.range s.count := by
    refine List.cons_subset.mpr ⟨List.mem_range.mpr (lt_count_of_assignment h.top), fun a member => ?_⟩
    obtain ⟨l, onTrail, rfl⟩ := List.mem_map.mp member
    exact List.mem_range.mpr (h.lt_count_of_mem onTrail)
  have fits := (List.subperm_of_subset distinct known).length_le
  rwa [List.length_cons, List.length_map, List.length_range] at fits

/-- There are no more levels than atoms, and fewer literals at each. -/
theorem Opened.counts_bounded (opened : s.Opened) (h : s.Coherent) :
    s.trail.stack.counts.length ≤ s.count ∧ ∀ x ∈ s.trail.stack.counts, x < s.count := by
  have short := h.length_lt
  refine ⟨?_, fun x member => ?_⟩
  · have inhabited : ∀ xs ∈ s.trail.stack.levels.drop 1, xs ≠ [] := by
      intro xs member
      obtain ⟨i, inside, rfl⟩ := List.mem_iff_getElem.mp member
      rw [List.length_drop, LevelStack.length_levels] at inside
      have some' := opened.inhabited (1 + i) (by omega) (by rw [Atoms.level, Trail.level]; omega)
      rw [LevelStack.entriesAt, List.getElem?_eq_getElem (by rw [LevelStack.length_levels]; omega)] at some'
      rw [List.getElem_drop]
      exact some'
    have above := length_le_flatten inhabited
    have whole := congrArg List.length (s.trail.stack.entries_eq_append 1)
    rw [List.length_append] at whole
    rw [List.length_drop] at above
    rw [LevelStack.counts, List.length_map]
    rw [Trail.length, Trail.literals] at short
    omega
  · obtain ⟨xs, inside, rfl⟩ := List.mem_map.mp member
    have part := (List.sublist_flatten_of_mem inside).length_le
    rw [← LevelStack.entries_eq_flatten] at part
    exact Nat.lt_of_le_of_lt part short

def rank (s : Atoms) : Nat := SatModulo.rank (s.count + 2) (s.count + 2) s.trail.stack.counts

theorem Opened.rank_lt (opened : s.Opened) (h : s.Coherent) :
    s.rank < Procedure.iterationBound s.count :=
  rank_lt_pow (Nat.succ_pos _) _ _ fun x member => by
    have small := (opened.counts_bounded h).2 x member
    omega

end Atoms

omit [Theory σ] in
/-- The number is raised with the counts. -/
theorem Context.Rises.rank_lt {c after : Context σ} (rises : c.Rises after) (h : c.Coherent)
    (opened : c.Opened) (h' : after.Coherent) (opened' : after.Opened) :
    c.atoms.rank < after.atoms.rank := by
  obtain ⟨short, digits⟩ := opened.atoms.counts_bounded h.supports.atoms
  obtain ⟨short', _⟩ := opened'.atoms.counts_bounded h'.supports.atoms
  rw [rises.atoms] at short'
  rw [Atoms.rank, Atoms.rank, rises.atoms]
  exact rank_lt_rank rises.counts (Nat.succ_pos _) (fun x member => Nat.succ_lt_succ
    (Nat.lt_succ_of_lt (digits x member))) (by omega) (by omega)

/-! ### Loops come to an end -/

namespace Procedure

/-- A loop without a bound, whose body goes on with `none`: how often it goes through the body, and how
it ends. -/
inductive Loops {α : Type} (body : Procedure σ (Option α)) :
    Nat → Context σ → Except Fault (Except Error α × Context σ) → Prop
  | fault (c : Context σ) (cause : Fault) (ran : c.run body = .error cause) :
    Loops body 1 c (.error cause)
  | error (c after : Context σ) (e : Error) (ran : c.run body = .ok (.error e, after)) :
    Loops body 1 c (.ok (.error e, after))
  | answer (c after : Context σ) (a : α) (ran : c.run body = .ok (.ok (some a), after)) :
    Loops body 1 c (.ok (.ok a, after))
  | again {c mid : Context σ} {count : Nat} {outcome : Except Fault (Except Error α × Context σ)}
    (ran : c.run body = .ok (.ok none, mid)) (rest : Loops body count mid outcome) :
    Loops body (count + 1) c outcome

omit [Theory σ] in
/-- A loop with a bound is the loop without one, if each time it goes on less is left than before and the
bound exceeds what is left. -/
theorem loops_within {α : Type} {body : Procedure σ (Option α)} (within : Nat → Procedure σ α)
    (unfolds : ∀ fuel, within (fuel + 1) = body >>= fun outcome => outcome.elim (within fuel) pure)
    (keeps : Context σ → Prop) (left : Context σ → Nat)
    (goesOn : ∀ c after, keeps c → c.run body = .ok (.ok none, after) →
      keeps after ∧ left after < left c)
    {fuel : Nat} (holds : keeps c) (enough : left c < fuel) :
    ∃ count ≤ left c + 1, Loops body count c (c.run (within fuel)) := by
  induction fuel generalizing c with
  | zero => omega
  | succ fuel ih =>
    rw [unfolds, Ensures.run_bind]
    cases ran : c.run body with
    | error cause => exact ⟨1, by omega, .fault c cause ran⟩
    | ok outcome =>
      obtain ⟨e | _ | a, after⟩ := outcome
      · exact ⟨1, by omega, .error c after e ran⟩
      · obtain ⟨holds', less⟩ := goesOn c after holds ran
        obtain ⟨count, short, loops⟩ := ih holds' (by omega)
        exact ⟨count + 1, by omega, .again ran loops⟩
      · exact ⟨1, by omega, .answer c after a ran⟩

/-- A round of propagation: clauses, then the theories in turn. After `none` another round follows. -/
def round : Procedure σ (Option (Option Conflict)) := do
  match ← propagateClauses with
  | some key => return some (some (.clause key))
  | none =>
    deliverAll
    match ← takeTurns (← get).theories.schedule.order false with
    | .error conflict => return some (some conflict)
    | .ok true => return none
    | .ok false => return some none

/-- A round draws consequences, and another follows only if it made a literal true. -/
theorem round_leads (h : c.Coherent) : (round : Procedure σ (Option (Option Conflict))).Leads Draw c c
    fun outcome after => outcome = none → c.atoms.trail.length < after.atoms.trail.length := by
  refine .call (propagateClauses_leads h) .refl fun outcome propagated reached _ => ?_
  split
  · exact .pure reached fun no => by cases no
  · refine .call deliverAll_leads reached ?_
    rintro ⟨⟩ told reached' ⟨_, delivered⟩
    refine .get_bind (.from_start ?_ reached')
    have turns := takeTurns_leads (Draws.coherent reached' h) delivered
      (Schedule.nodup_order told.theories.schedule) false
    refine .call turns .refl fun outcome turned final held => ?_
    split
    · exact .pure final fun no => by cases no
    · refine .pure final fun _ => ?_
      exact Nat.lt_of_le_of_lt (Draws.length_le reached') ((held.2.1 rfl).resolve_left Bool.false_ne_true)
    · exact .pure final fun no => by cases no

/-- The rounds of a propagation come to an end, so their bound is not noticed. -/
theorem rounds_loop (h : c.Coherent) :
    ∃ count ≤ c.atoms.unvalued.length + 1,
      Loops round count c (c.run (roundsWithin (c.atoms.unvalued.length + 1))) := by
  refine loops_within roundsWithin (fun fuel => ?_) Context.Coherent (fun c => c.atoms.unvalued.length)
    (fun c after h ran => ?_) h (Nat.lt_succ_self _)
  · rw [roundsWithin, round, bind_assoc]
    congr 1
    funext outcome
    cases outcome with
    | some key => rfl
    | none =>
      simp only [bind_assoc]
      congr 1
      funext _
      congr 1
      funext told
      congr 1
      funext outcome
      rcases outcome with _ | ⟨⟨⟩⟩ <;> rfl
  · obtain ⟨draws, longer⟩ := round_leads h _ _ ran
    have balance := (Draws.frame draws).2.2.1
    have more := longer rfl
    exact ⟨Draws.coherent draws h, by omega⟩

/-- The iterations of a search come to an end, so their bound is not noticed. -/
theorem iterations_loop (h : c.Coherent) (opened : c.Opened) (open' : c.phase ≠ .unsatisfiable) :
    ∃ count ≤ iterationBound c.atoms.count,
      Loops iterate count c (c.run (iterateWithin (iterationBound c.atoms.count))) := by
  let keeps : Context σ → Prop := fun mid =>
    mid.Coherent ∧ mid.Opened ∧ mid.phase ≠ .unsatisfiable ∧ mid.atoms.count = c.atoms.count
  have goesOn : ∀ mid after, keeps mid → mid.run iterate = .ok (.ok none, after) → keeps after ∧
      iterationBound c.atoms.count - 1 - after.atoms.rank <
        iterationBound c.atoms.count - 1 - mid.atoms.rank := by
    rintro mid after ⟨h, opened, open', counted⟩ ran
    have rises := iterate_rises h _ _ ran rfl
    have moves : Moves decidesAtEnd mid after := iterate_course h open' _ _ ran
    have coherent := Moves.coherent moves h
    have opened' := Moves.opened moves h opened
    have raised := rises.rank_lt h opened coherent opened'
    have small := opened'.atoms.rank_lt coherent.supports.atoms
    have counted' := rises.atoms.trans counted
    rw [counted'] at small
    exact ⟨⟨coherent, opened', moves.phase_ne open', counted'⟩, by omega⟩
  have positive := opened.atoms.rank_lt h.supports.atoms
  have unfolds : ∀ fuel, (iterateWithin (fuel + 1) : Procedure σ Report) =
      iterate >>= fun outcome => outcome.elim (iterateWithin fuel) pure := by
    intro fuel
    rw [iterateWithin]
    congr 1
    funext outcome
    cases outcome <;> rfl
  obtain ⟨count, short, loops⟩ := loops_within iterateWithin unfolds keeps _ goesOn
    ⟨h, opened, open', rfl⟩ (show _ < iterationBound c.atoms.count by omega)
  exact ⟨count, by omega, loops⟩

end Procedure

end SatModulo
