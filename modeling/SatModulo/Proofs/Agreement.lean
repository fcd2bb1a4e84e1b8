import SatModulo.Proofs.Openings
import SatModulo.Proofs.Positions
import SatModulo.Proofs.Runs
import SatModulo.Theories.RuleTable

/-!
# Agreement of trail, values and reasons

A literal has a decision as its reason exactly if it is the first of a level above the base
(`Atoms.Led`): consequences go behind it, and a cut drops whole levels. With the trail that says what the
values say (`Atoms.Coherent`), the clauses that explain what they forced (`ClauseStore.Supports`) and
levels that are not empty (`Atoms.Opened`), the trail, the values, the levels, the starts of levels and
the reasons tell of each other by position (`Context.TrailAgrees`), after every command of every run.
-/
namespace SatModulo

namespace Atoms

/-- A decision is the first literal of a level above the base, and each of these is one. -/
def Led (s : Atoms) : Prop :=
  ∀ level l, l ∈ s.trail.stack.entriesAt level →
    (s.reasonOf l.atom = some .decision ↔
      0 < level ∧ (s.trail.stack.entriesAt level).head? = some l)

variable {s s' : Atoms} {l : Literal} {reason : Reason}

/-- No literal of the trail is on an atom without a value. -/
theorem Coherent.ne_of_unvalued (h : s.Coherent) {a : Atom} (unvalued : s.assignment a = none)
    {level : Nat} (entered : l ∈ s.trail.stack.entriesAt level) : l.atom ≠ a := by
  rintro rfl
  obtain ⟨reason, assigned⟩ := (h.mem_entriesAt_iff l level).mp entered
  rw [unvalued] at assigned
  cases assigned

namespace Led

theorem initial : Led {} := by
  intro level l entered
  cases level <;> cases entered

/-- A consequence goes behind the literal that leads its level. -/
theorem assign (led : s.Led) (h : s.Coherent) (opened : s.Opened)
    (made : s.assign l reason = .ok (.unset, s')) (drawn : reason ≠ .decision) : s'.Led := by
  have unvalued := (assign_eq_unset made).2.1
  intro level m entered
  rw [reasonOf_assign made]
  rw [stack_assign made, LevelStack.entriesAt_push] at entered ⊢
  by_cases current : level = s.trail.stack.level
  · rw [if_pos current] at entered ⊢
    rcases List.mem_append.mp entered with old | new
    · rw [if_neg (h.ne_of_unvalued unvalued old), led level m old,
        List.head?_append_of_ne_nil _ (List.ne_nil_of_mem old)]
    · obtain rfl := List.mem_singleton.mp new
      rw [if_pos rfl, Option.some.injEq]
      refine iff_of_false drawn fun ⟨above, first⟩ => ?_
      have inhabited := opened.inhabited level above (Nat.le_of_eq current)
      rw [List.head?_append_of_ne_nil _ inhabited] at first
      exact h.ne_of_unvalued unvalued (List.mem_of_head? first) rfl
  · rw [if_neg current] at entered ⊢
    rw [if_neg (h.ne_of_unvalued unvalued entered), led level m entered]

/-- A decision leads the level that is opened for it. -/
theorem decide (led : s.Led) (h : s.Coherent)
    (made : s.openLevel.assign l .decision = .ok (.unset, s')) : s'.Led := by
  have unvalued := (assign_eq_unset made).2.1
  have same : ∀ level, s.openLevel.trail.stack.entriesAt level = s.trail.stack.entriesAt level :=
    fun level => LevelStack.entriesAt_openLevel level
  have top : s.openLevel.trail.stack.level = s.trail.stack.level + 1 := LevelStack.level_openLevel _
  intro level m entered
  rw [reasonOf_assign made]
  rw [stack_assign made, LevelStack.entriesAt_push, same, top] at entered ⊢
  split at entered
  · rename_i current
    rw [LevelStack.entriesAt_of_lt level (by omega), List.nil_append] at entered ⊢
    obtain rfl := List.mem_singleton.mp entered
    rw [if_pos rfl, if_pos current]
    exact iff_of_true rfl ⟨by omega, rfl⟩
  · rename_i other
    rw [if_neg other, if_neg (h.ne_of_unvalued unvalued entered)]
    exact led level m entered

theorem forgetAbove (led : s.Led) (h : s.Coherent) (level : Nat) : (s.forgetAbove level).2.Led := by
  intro i l entered
  have kept : l ∈ (s.forgetAbove level).2.trail.literals :=
    (LevelStack.mem_entries_iff l).mpr ⟨i, entered⟩
  rw [reasonOf, ClauseStore.Supports.assignment_of_kept h kept]
  rw [trail_forgetAbove, Trail.stack_cutTo, LevelStack.entriesAt_cutTo] at entered ⊢
  split at entered
  · rw [if_pos ‹_›]
    exact led i l entered
  · cases entered

theorem fresh (led : s.Led) {previous : Bool} {a : Atom} (success : s.fresh previous = .ok (a, s')) :
    s'.Led := by
  obtain ⟨_, _, trail, assignment⟩ := fresh_eq_ok success
  intro level l entered
  rw [trail] at entered ⊢
  rw [reasonOf, assignment]
  exact led level l entered

theorem grows {store : ClauseStore} (led : s.Led) (h : s.Coherent) (opened : s.Opened)
    (step : store.Grows s s') : s'.Led := by
  cases step with
  | units step =>
    cases step with
    | force _ key clause l found forces made => exact led.assign h opened made (by simp)
    | pass l next seen => exact led
  | conclude i step =>
    obtain ⟨l, marker, _, made⟩ := step
    exact led.assign h opened made (by simp)

theorem growsAll {store : ClauseStore} (led : s.Led) (h : store.Supports s) (opened : s.Opened)
    (steps : Relation.ReflTransGen store.Grows s s') : s'.Led := by
  induction steps with
  | refl => exact led
  | tail steps step ih => exact ih.grows (h.growsAll steps).atoms (opened.growsAll h steps) step

end Led

end Atoms

variable {σ : Type} [Theory σ] {c c' : Context σ} {taking : Intake σ}

theorem Jump.led (jump : Jump c c') (h : c.Coherent) (opened : c.Opened) (led : c.atoms.Led) :
    c'.atoms.Led := by
  have atoms := h.supports.atoms
  cases jump with
  | retreat level low retracted theories undecided taken => exact led.forgetAbove atoms level
  | learn key l lower level clauses retracted theories s' distinct falsified current low below tight
      entailed stored undecided taken made =>
    exact (led.forgetAbove atoms level).assign (atoms.forgetAbove level)
      (opened.atoms.forgetAbove atoms level) made (by simp)

theorem Build.led (build : Build taking c c') (h : c.Coherent) (opened : c.Opened) (led : c.atoms.Led) :
    c'.atoms.Led := by
  cases build with
  | fresh previous a atoms success => exact led.fresh success
  | giveUnit clause key clauses l atoms given base distinct known stored state made =>
    exact led.assign h.supports.atoms opened.atoms made (by simp)
  | _ => exact led

theorem Move.led (move : Move taking c c') (h : c.Coherent) (opened : c.Opened) (led : c.atoms.Led) :
    c'.atoms.Led := by
  cases move with
  | draw move => exact led.growsAll h.supports opened.atoms move.grows
  | jump move => exact move.led h opened led
  | decide allowed move =>
    cases move with
    | decide l proposer theories atoms delivered opened' made => exact led.decide h.supports.atoms made
  | build move => exact move.led h opened led
  | settle phase before after => exact led
  | configure settings given => exact led

structure Context.Led (c : Context σ) : Prop where
  opened : c.Opened
  atoms : c.atoms.Led

theorem Context.Led.move (led : c.Led) (h : c.Coherent) (move : Move taking c c') : c'.Led :=
  ⟨move.opened h led.opened, move.led h led.opened led.atoms⟩

/-- The trail, the values, levels and reasons of atoms, the starts of levels and the clauses that are
reasons say the same. -/
structure Context.TrailAgrees (c : Context σ) : Prop where
  /-- The literals of the trail are on distinct atoms. -/
  distinct : (c.atoms.trail.literals.map Literal.atom).Nodup
  /-- None is the true atom, and all are known. -/
  proper : ∀ l ∈ c.atoms.trail.literals, l.atom ≠ topAtom ∧ l.atom < c.atoms.count
  /-- An atom has a value exactly if its literal of that polarity is on the trail. -/
  value : ∀ a, a ≠ topAtom → ∀ v, c.atoms.value a = some v ↔ .on a v ∈ c.atoms.trail.literals
  /-- It has a level exactly if one of its literals is. -/
  levelled : ∀ a, a ≠ topAtom →
    ((c.atoms.levelOf a).isSome ↔ ∃ v, .on a v ∈ c.atoms.trail.literals)
  /-- It has a reason exactly if one of its literals is. -/
  reasoned : ∀ a, a ≠ topAtom →
    ((c.atoms.reasonOf a).isSome ↔ ∃ v, .on a v ∈ c.atoms.trail.literals)
  /-- The level of a literal is the number of levels that start at or before its position. -/
  level : ∀ (p : Nat) l, c.atoms.trail.literals[p]? = some l →
    c.atoms.levelOf l.atom = some (c.atoms.trail.starts.countP (· ≤ p))
  /-- The true atom is true at the base level, and neither it nor its opposite is on the trail. -/
  top : c.atoms.value topAtom = some true ∧ c.atoms.levelOf topAtom = some 0 ∧
    ∀ v, .on topAtom v ∉ c.atoms.trail.literals
  increasing : c.atoms.trail.starts.Pairwise (· < ·)
  inside : ∀ start ∈ c.atoms.trail.starts, start < c.atoms.trail.length
  /-- A decision stands exactly where a level starts. -/
  decision : ∀ (p : Nat) l, c.atoms.trail.literals[p]? = some l →
    (c.atoms.reasonOf l.atom = some .decision ↔ p ∈ c.atoms.trail.starts)
  /-- A literal is in the clause that is its reason, and every other literal of the clause is false, and
  was before it unless it is on the true atom. -/
  because : ∀ (p : Nat) l key, c.atoms.trail.literals[p]? = some l →
    c.atoms.reasonOf l.atom = some (.clause key) →
    ∃ clause, c.clauses.get? key = some clause ∧ l ∈ clause ∧ ∀ m ∈ clause, m ≠ l →
      c.valueOf m = some false ∧
        (m.atom = topAtom ∨ ∃ q < p, c.atoms.trail.literals[q]? = some m.negate)
  head : c.atoms.trail.head ≤ c.atoms.trail.length

namespace Atoms.Coherent

variable {s : Atoms}

/-- An atom has an assignment exactly if one of its literals is on the trail. -/
theorem isSome_assignment_iff (h : s.Coherent) {a : Atom} (proper : a ≠ topAtom) :
    (s.assignment a).isSome ↔ ∃ v, .on a v ∈ s.trail.literals := by
  simp only [h.mem_literals_iff, Literal.atom_on, Literal.polarity_on proper]
  constructor
  · intro assigned
    obtain ⟨⟨v, level, reason⟩, assigned⟩ := Option.isSome_iff_exists.mp assigned
    obtain ⟨reason, rfl⟩ := Option.isSome_iff_exists.mp (h.reasoned a _ assigned proper)
    exact ⟨v, level, reason, assigned⟩
  · rintro ⟨v, level, reason, assigned⟩
    rw [assigned]
    rfl

theorem value_iff_mem (h : s.Coherent) {a : Atom} (proper : a ≠ topAtom) (v : Bool) :
    s.value a = some v ↔ .on a v ∈ s.trail.literals := by
  rw [← h.valueOf_eq_true (by rwa [Literal.atom_on]), valueOf, Literal.valueOn_eq_true, Literal.atom_on,
    Literal.polarity_on proper]

theorem isSome_reasonOf_iff (h : s.Coherent) {a : Atom} (proper : a ≠ topAtom) :
    (s.reasonOf a).isSome ↔ (s.assignment a).isSome := by
  rw [reasonOf]
  cases assigned : s.assignment a with
  | none => rfl
  | some given => exact iff_of_true (h.reasoned a given assigned proper) rfl

/-- The position of a literal tells its level. -/
theorem exists_entriesAt_of_position (h : s.Coherent) {p : Nat} {l : Literal}
    (found : s.trail.literals[p]? = some l) :
    ∃ level, l ∈ s.trail.stack.entriesAt level ∧ s.levelOf l.atom = some level ∧
      level = s.trail.starts.countP (· ≤ p) := by
  obtain ⟨level, entered⟩ := (LevelStack.mem_entries_iff l).mp (List.mem_of_getElem? found)
  obtain ⟨above, below⟩ := LevelStack.bounds_of_position h.nodup found entered
  have counted := LevelStack.countP_starts (LevelStack.level_le_of_mem entered) above below
  exact ⟨level, entered, h.levelOf_of_mem entered, counted.symm⟩

end Atoms.Coherent

/-- What explains a literal of the trail is false but for it, and was before it. -/
theorem Atoms.Explains.before {s : Atoms} (h : s.Coherent) {clause : Clause} {l : Literal}
    (explains : s.Explains clause l) {p : Nat} (found : s.trail.literals[p]? = some l) :
    ∀ m ∈ clause, m ≠ l → s.valueOf m = some false ∧
      (m.atom = topAtom ∨ ∃ q < p, s.trail.literals[q]? = some m.negate) := by
  obtain ⟨earlier, order, -, others⟩ := explains
  have whole : ∀ q, q < (earlier ++ [l]).length → s.trail.literals[q]? = (earlier ++ [l])[q]? := by
    intro q inside
    obtain ⟨rest, split⟩ := order
    rw [← split, List.getElem?_append_left inside]
  have here : s.trail.literals[earlier.length]? = some l := by
    rw [whole _ (by simp)]
    simp
  obtain rfl : earlier.length = p := by
    obtain ⟨insideP, same⟩ := List.getElem?_eq_some_iff.mp found
    obtain ⟨insideQ, same'⟩ := List.getElem?_eq_some_iff.mp here
    exact h.nodup.getElem_inj_iff.mp (same'.trans same.symm)
  intro m inClause other
  rcases others m inClause other with early | top
  · obtain ⟨q, at'⟩ := List.mem_iff_getElem?.mp early
    have inside : q < earlier.length := (List.getElem?_eq_some_iff.mp at').1
    have onTrail : m.negate ∈ s.trail.literals := order.subset (List.mem_append_left _ early)
    have proper : m.atom ≠ topAtom := by
      rw [← Literal.atom_negate]
      exact h.ne_top_of_mem onTrail
    refine ⟨(h.valueOf_eq_false proper).mpr onTrail, .inr ⟨q, inside, ?_⟩⟩
    rw [whole q (by simp; omega), List.getElem?_append_left inside, at']
  · exact ⟨Atoms.valueOf_falsum h top, .inl top⟩

omit [Theory σ] in
/-- The trail and what is kept by atom agree wherever decisions lead their levels. -/
theorem Context.Led.trailAgrees {c : Context σ} (led : c.Led) (h : c.Coherent) : c.TrailAgrees := by
  have atoms := h.supports.atoms
  exact
    { distinct := atoms.distinct
      proper := fun l member => ⟨atoms.ne_top_of_mem member, atoms.lt_count_of_mem member⟩
      value := fun a proper v => atoms.value_iff_mem proper v
      levelled := fun a proper => by
        rw [← atoms.isSome_assignment_iff proper, Atoms.levelOf, Option.isSome_map]
      reasoned := fun a proper => by
        rw [← atoms.isSome_assignment_iff proper, atoms.isSome_reasonOf_iff proper]
      level := fun p l found => by
        obtain ⟨level, -, given, rfl⟩ := atoms.exists_entriesAt_of_position found
        exact given
      top := by
        refine ⟨Atoms.value_eq_some.mpr ⟨_, atoms.top, rfl⟩,
          Atoms.levelOf_eq_some.mpr ⟨_, atoms.top, rfl⟩, fun v member => ?_⟩
        exact atoms.ne_top_of_mem member (Literal.atom_on topAtom v)
      increasing := LevelStack.starts_pairwise led.opened.atoms.inhabited
      inside := LevelStack.lt_length_of_mem_starts led.opened.atoms.inhabited
      decision := fun p l found => by
        obtain ⟨level, entered, -, -⟩ := atoms.exists_entriesAt_of_position found
        rw [led.atoms level l entered]
        exact (LevelStack.mem_starts_iff_head? atoms.nodup found entered).symm
      because := fun p l key found reasoned => by
        obtain ⟨clause, stored, explains⟩ :=
          h.supports.because l (List.mem_of_getElem? found) key reasoned
        have member : l ∈ clause := explains.elim fun _ held => held.2.1
        exact ⟨clause, stored, member, explains.before atoms found⟩
      head := atoms.head_le }

namespace PublicRun

variable {settings : Settings} {events : List (Event σ)} {s : Session σ}

/-- Along a run decisions open and lead levels. -/
theorem led (run : PublicRun settings events s) : s.context.Led := by
  refine run.invariant ⟨.initial settings, .initial⟩ (fun move h led => led.move h move) ?_
  intro c c' refuted led
  obtain ⟨atoms, theories⟩ := refuted.frame
  exact ⟨⟨by rw [atoms]; exact led.opened.atoms, by rw [atoms, theories]; exact led.opened.registered⟩,
    by rw [atoms]; exact led.atoms⟩

/-- After every command of a run, whatever its theories answer, the trail, the values, levels and reasons
of atoms, the starts of levels and the clauses that are reasons say the same. -/
theorem trail_agrees (run : PublicRun settings events s) : s.context.TrailAgrees :=
  run.led.trailAgrees run.coherent.1

/-- Of two decisions a theory draws a consequence of the first, and a clause one of both. -/
theorem trail_agrees_after_decisions :
    ∃ (events : List (Event RuleTable)) (s : Session RuleTable),
      PublicRun {} events s ∧
      events.map (·.command) = [.freshLiterals 4,
        .addTheory { rules := [{ premises := [⟨1⟩], conclusion := some ⟨2⟩ }] }, .observe 0 1,
        .addClause [⟨-2⟩, ⟨-3⟩, ⟨4⟩], .decideLiteral ⟨1⟩, .propagate, .decideLiteral ⟨3⟩, .propagate] ∧
      s.context.atoms.trail.literals = [⟨1⟩, ⟨2⟩, ⟨3⟩, ⟨4⟩] ∧ s.context.atoms.trail.starts = [0, 2] ∧
      s.context.TrailAgrees := by
  obtain ⟨_, s, ran, checked⟩ := Session.of_run_any (Session.ofSettings {} : Session RuleTable)
    [.freshLiterals 4, .addTheory { rules := [{ premises := [⟨1⟩], conclusion := some ⟨2⟩ }] },
      .observe 0 1, .addClause [⟨-2⟩, ⟨-3⟩, ⟨4⟩], .decideLiteral ⟨1⟩, .propagate, .decideLiteral ⟨3⟩,
      .propagate]
    (fun (_, s) => decide (s.context.atoms.trail.literals = [⟨1⟩, ⟨2⟩, ⟨3⟩, ⟨4⟩] ∧
      s.context.atoms.trail.starts = [0, 2])) (by decide +kernel)
  obtain ⟨literals, starts⟩ := of_decide_eq_true checked
  obtain ⟨events, run, commands, _⟩ := PublicRun.of_run (by simp [Command.IsPublic]) ran
  exact ⟨events, s, run, commands, literals, starts, run.trail_agrees⟩

end PublicRun

end SatModulo
