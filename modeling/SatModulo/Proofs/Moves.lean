import SatModulo.Proofs.Accounts
import SatModulo.Proofs.Meaning
import SatModulo.Proofs.Occurrences
import SatModulo.Search.Solve
import SatModulo.Building
import Mathlib.Logic.Relation

/-!
# Moves of a context

What an operation can do to a context, in the smallest steps after which the atoms, the clauses and the
theories agree again. A context draws consequences and consults its theories (`Draw`), goes back and
learns (`Jump`), decides (`Decide`), is added to (`Build`), and notes what it is at. A move says what
was true when it was made; what all operations keep is shown of moves. That there is no solution is
found at the end of an operation only (`Refute`), so the course of an operation is moves that may end
in that.
-/
namespace SatModulo

variable {σ : Type}

def Call.clause? : Call → Option Clause
  | .propagate _ _ conflict => conflict
  | .solve _ _ conflict => conflict
  | .buildReason _ _ reason => some reason
  | _ => none

/-- A question whose answer changes nothing that the core keeps of a theory. -/
def Call.IsQuestion : Call → Prop
  | .isSatisfied _ | .decide _ | .checkPropagated _ | .checkSolved _ => True
  | _ => False

/-- A clause is missed when it is decided, and no literal at or past the head will lead to it. -/
def Atoms.Missed (s : Atoms) (head : Nat) (clause : Clause) : Prop :=
  clause.stateOn s.value ≠ .unforced ∧ ∀ l ∈ clause, l.negate ∉ s.trail.literals.drop head

instance (s : Atoms) (head : Nat) (clause : Clause) : Decidable (s.Missed head clause) :=
  inferInstanceAs (Decidable (_ ∧ _))

namespace Context

/-- A clause that is stored or was given by a theory. -/
def Known (c : Context σ) (clause : Clause) : Prop :=
  (∃ key, c.clauses.get? key = some clause) ∨
    ∃ i, ∃ call ∈ c.theories.account i, call.clause? = some clause

def withCall (c : Context σ) (i : Nat) (m : Member σ) (call : Call) : Context σ :=
  { c with
    theories := { c.theories with
      members := c.theories.members.set i m
      calls := c.theories.calls ++ [call].map (i, ·) } }

end Context

/-- A way in which a theory takes its turn, with the account of it. -/
inductive TurnKind [Theory σ] :
    (σ → Turn (Option Clause × σ)) → (Nat → List Literal → Option Clause → Call) → Prop
  | propagate : TurnKind Theory.propagate .propagate
  | solve : TurnKind Theory.solve .solve

/-- What moves may take from outside: clauses that are given, theories that are registered, the contexts
in which a literal may be decided, and settings. -/
structure Intake (σ : Type) where
  clause : Clause → Prop := fun _ => False
  theory : σ → Prop := fun _ => False
  decides : Context σ → Prop := fun _ => False
  settings : Settings → Prop := fun _ => False

structure Intake.Le (less more : Intake σ) : Prop where
  clause : ∀ c, less.clause c → more.clause c
  theory : ∀ t, less.theory t → more.theory t
  decides : ∀ c, less.decides c → more.decides c
  settings : ∀ s, less.settings s → more.settings s

def Intake.any : Intake σ := ⟨fun _ => True, fun _ => True, fun _ => True, fun _ => True⟩

theorem Intake.le_any (taking : Intake σ) : taking.Le .any :=
  ⟨fun _ _ => trivial, fun _ _ => trivial, fun _ _ => trivial, fun _ _ => trivial⟩

/-- Clauses are propagated by one step. -/
inductive ClauseStore.Propagates (store : ClauseStore) : Atoms → Atoms → Prop
  /-- A stored clause forces a literal. -/
  | force (s s' : Atoms) (key : ClauseKey) (clause : Clause) (l : Literal)
    (found : store.get? key = some clause) (forces : clause.stateOn s.value = .unit l)
    (made : s.assign l (.clause key) = .ok (.unset, s')) : Propagates store s s'
  /-- The head passes a literal that leads to no clause any more. -/
  | pass (s : Atoms) (l : Literal) (next : s.trail.next = some l)
    (seen : ∀ key clause, store.get? key = some clause → l.negate ∈ clause →
      ¬s.Missed (s.trail.head + 1) clause) :
    Propagates store s { s with trail.head := s.trail.head + 1 }

section
variable [Theory σ]

/-- Consequences are drawn, and theories are told and asked. -/
inductive Draw : Context σ → Context σ → Prop
  /-- Standings of theories, counts and the random generator may change at any time. -/
  | adjust (c : Context σ) (random : Generator) (counters : Counters) (schedule : Schedule Activity)
    (standings : schedule.standings.length = c.theories.schedule.standings.length) :
    Draw c { c with random, counters, theories := { c.theories with schedule } }
  | units (c : Context σ) (atoms : Atoms) (step : c.clauses.Propagates c.atoms atoms) :
    Draw c { c with atoms }
  /-- The trail is handed over to every theory. -/
  | deliver (c : Context σ) (theories : Registry σ)
    (told : c.theories.deliverAll c.atoms.trail = .ok theories) : Draw c { c with theories }
  /-- A theory takes a turn. -/
  | turn (c : Context σ) (i : Nat) (turn : σ → Turn (Option Clause × σ))
    (call : Nat → List Literal → Option Clause → Call) (kind : TurnKind turn call)
    (conflict : Option Clause) (atoms : Atoms) (theories : Registry σ)
    (taken : c.theories.changeAt i (Procedure.memberTurn i turn call c.atoms) =
      .ok (some (conflict, atoms), theories)) : Draw c { c with atoms, theories }
  /-- The theories that have not been prepared are. -/
  | preprocess (c : Context σ) (theories : Registry σ)
    (prepared : c.theories.preprocess c.clauses.occurs = .ok theories) : Draw c { c with theories }
  /-- Theories hear of new facts at the base level. -/
  | clearSatisfied (c : Context σ) (isNew : Bool) (theories : Registry σ)
    (cleared : c.theories.clearSatisfied c.atoms.trail = .ok (isNew, theories)) :
    Draw c { c with theories }
  /-- A theory is asked a question. -/
  | ask (c : Context σ) (i : Nat) (m : Member σ) (found : c.theories.members[i]? = some m)
    (call : Call) (question : call.IsQuestion) (theory : σ)
    (answered : Theory.Answers i m.theory call theory) :
    Draw c (c.withCall i { m with theory } call)
  /-- A theory is asked why it made a literal of the trail true. -/
  | explain (c : Context σ) (i : Nat) (m : Member σ) (found : c.theories.members[i]? = some m)
    (l : Literal) (marker : Marker) (onTrail : l ∈ c.atoms.trail.literals)
    (reasoned : c.atoms.reasonOf l.atom = some (.theory i marker)) (reason : Clause) (theory : σ)
    (answered : Theory.buildReason l marker m.theory = .ok (reason, theory)) :
    Draw c (c.withCall i { m with theory } (.buildReason l marker reason))

/-- A context goes back to a lower level, to learn or otherwise. -/
inductive Jump : Context σ → Context σ → Prop
  | retreat (c : Context σ) (level : Nat) (low : level < c.level) (retracted theories : Registry σ)
    (undecided : c.theories.retractAbove level = .ok retracted)
    (taken : retracted.backtrack level (c.atoms.forgetAbove level).2.trail = .ok theories) :
    Jump c { c with atoms := (c.atoms.forgetAbove level).2, theories }
  /-- A clause that is false, and of the current level in its first literal only, is learnt. The
  context goes back to the highest level of the others, where the clause forces its first literal. -/
  | learn (c : Context σ) (key : ClauseKey) (l : Literal) (lower : List Literal) (level : Nat)
    (clauses : ClauseStore) (retracted theories : Registry σ) (atoms : Atoms)
    (distinct : ((l :: lower).map Literal.atom).Nodup)
    (falsified : ∀ m ∈ l :: lower, c.valueOf m = some false)
    (current : c.atoms.levelOf l.atom = some c.level) (low : level < c.level)
    (below : ∀ m ∈ lower, ∃ i, c.atoms.levelOf m.atom = some i ∧ i ≤ level)
    (tight : level = 0 ∨ ∃ m ∈ lower, c.atoms.levelOf m.atom = some level)
    (entailed : ∀ v, (∀ clause, c.Known clause → clause.Holds v) → Clause.Holds v (l :: lower))
    (stored : c.clauses.store (l :: lower) true = .ok (key, clauses))
    (undecided : c.theories.retractAbove level = .ok retracted)
    (taken : retracted.backtrack level (c.atoms.forgetAbove level).2.trail = .ok theories)
    (made : (c.atoms.forgetAbove level).2.assign l (.clause key) = .ok (.unset, atoms)) :
    Jump c { c with clauses, atoms, theories }

/-- A literal is decided on a level of its own, on a proposal of a theory or not. -/
inductive Decide : Context σ → Context σ → Prop
  | decide (c : Context σ) (l : Literal) (proposer : Option (Nat × Option Marker))
    (theories : Registry σ) (atoms : Atoms)
    (delivered : ∀ m ∈ c.theories.members, m.head = c.atoms.trail.length)
    (opened : c.theories.openLevel = .ok theories)
    (made : c.atoms.openLevel.assign l .decision = .ok (.unset, atoms)) :
    Decide c
      { c with
        atoms
        theories := match proposer with
          | none => theories
          | some (theory, reason) =>
            theories.recordDecision ⟨c.atoms.openLevel.level, theory, l, reason⟩
        phase := .solving }

variable (taking : Intake σ)

/-- Atoms, clauses and theories are added. -/
inductive Build : Context σ → Context σ → Prop
  | fresh (c : Context σ) (previous : Bool) (a : Atom) (atoms : Atoms)
    (success : c.atoms.fresh previous = .ok (a, atoms)) : Build c { c with atoms }
  /-- A clause that leaves a choice is stored at the base level. -/
  | give (c : Context σ) (clause : Clause) (key : ClauseKey) (clauses : ClauseStore)
    (given : taking.clause clause) (base : c.level = 0) (distinct : (clause.map Literal.atom).Nodup)
    (known : ∀ l ∈ clause, l.atom < c.atoms.count)
    (stored : c.clauses.store clause false = .ok (key, clauses))
    (state : clause.stateOn c.atoms.value = .unforced) : Build c { c with clauses }
  /-- A clause that forces a literal is stored at the base level, and the literal made true. -/
  | giveUnit (c : Context σ) (clause : Clause) (key : ClauseKey) (clauses : ClauseStore)
    (l : Literal) (atoms : Atoms) (given : taking.clause clause) (base : c.level = 0)
    (distinct : (clause.map Literal.atom).Nodup) (known : ∀ l ∈ clause, l.atom < c.atoms.count)
    (stored : c.clauses.store clause false = .ok (key, clauses))
    (state : clause.stateOn c.atoms.value = .unit l)
    (made : c.atoms.assign l (.clause key) = .ok (.unset, atoms)) : Build c { c with clauses, atoms }
  | register (c : Context σ) (theory : σ) (outcome : Except TheoryError Nat) (theories : Registry σ)
    (given : ∀ i, outcome = .ok i → taking.theory theory) (base : c.level = 0)
    (registered : c.theories.register theory = (outcome, theories)) : Build c { c with theories }
  /-- A theory observes another atom, and hears of its literal if that was handed over before. -/
  | observe (c : Context σ) (i : Nat) (a : Atom) (base : c.level = 0) (known : a < c.atoms.count)
    (m : Member σ) (found : c.theories.members[i]? = some m) (new : ¬m.observes a) (theory : σ)
    (own : List Literal) (inside : m.head ≤ c.atoms.trail.length)
    (late : own = ((c.atoms.trail.literals.take m.head).find? fun l => l.atom == a).toList)
    (told : own.foldlM (fun s l => Theory.enqueue l s) m.theory = .ok theory) :
    Build c
      { c with
        theories := { c.theories with
          members := c.theories.members.set i
            { m with theory, observed := insertAtom a m.observed }
          calls := c.theories.calls ++ (own.map Call.enqueue).map (i, ·) } }

/-- One move of any kind. What a context is at is changed only while it is not known to have no
solution. -/
inductive Move : Context σ → Context σ → Prop
  | draw {c c' : Context σ} (move : Draw c c') : Move c c'
  | jump {c c' : Context σ} (move : Jump c c') : Move c c'
  | decide {c c' : Context σ} (allowed : taking.decides c) (move : Decide c c') : Move c c'
  | build {c c' : Context σ} (move : Build taking c c') : Move c c'
  | settle (c : Context σ) (phase : Phase) (before : c.phase ≠ .unsatisfiable)
    (after : phase ≠ .unsatisfiable) : Move c { c with phase }
  | configure (c : Context σ) (settings : Settings) (given : taking.settings settings) :
    Move c { c with settings }

inductive Refute : Context σ → Context σ → Prop
  /-- A known clause is false at the base level. -/
  | base (c : Context σ) (clause : Clause) (known : c.Known clause)
    (falsified : ∀ l ∈ clause, c.valueOf l = some false ∧ c.atoms.levelOf l.atom = some 0) :
    Refute c { c with phase := .unsatisfiable }
  /-- A clause that is given is false, and is stored all the same. -/
  | contradict (c : Context σ) (clause : Clause) (key : ClauseKey) (clauses : ClauseStore)
    (given : taking.clause clause) (base : c.level = 0) (distinct : (clause.map Literal.atom).Nodup)
    (known : ∀ l ∈ clause, l.atom < c.atoms.count)
    (stored : c.clauses.store clause false = .ok (key, clauses))
    (state : clause.stateOn c.atoms.value = .falsified) :
    Refute c { c with clauses, phase := .unsatisfiable }
  | empty (c : Context σ) (given : taking.clause []) (base : c.level = 0) :
    Refute c { c with phase := .unsatisfiable }

omit [Theory σ] in
theorem Refute.phase_eq {taking : Intake σ} {c c' : Context σ} (refute : Refute taking c c') :
    c'.phase = .unsatisfiable := by
  cases refute <;> rfl

omit [Theory σ] in
theorem Refute.frame {taking : Intake σ} {c c' : Context σ} (refute : Refute taking c c') :
    c'.atoms = c.atoms ∧ c'.theories = c.theories := by
  cases refute <;> exact ⟨rfl, rfl⟩

abbrev Moves : Context σ → Context σ → Prop := Relation.ReflTransGen (Move taking)

/-- The course of an operation: moves, and at their end it may turn out that there is no solution. -/
def Course (c c' : Context σ) : Prop :=
  Moves taking c c' ∨ ∃ mid, Moves taking c mid ∧ Refute taking mid c'

/-- Consequences are drawn in any number of moves. -/
abbrev Draws : Context σ → Context σ → Prop := Relation.ReflTransGen Draw

end

/-- Settings change only to what is taken. -/
theorem Move.settings_eq [Theory σ] {taking : Intake σ} {c c' : Context σ} (move : Move taking c c')
    (kept : ∀ s, ¬taking.settings s) : c'.settings = c.settings := by
  cases move with
  | draw move => cases move <;> rfl
  | jump move => cases move <;> rfl
  | decide allowed move => cases move; rfl
  | build move => cases move <;> rfl
  | settle => rfl
  | configure settings given => exact absurd given (kept settings)

theorem Moves.settings_eq [Theory σ] {taking : Intake σ} {c c' : Context σ} (moves : Moves taking c c')
    (kept : ∀ s, ¬taking.settings s) : c'.settings = c.settings := by
  induction moves with
  | refl => rfl
  | tail _ move ih => exact (move.settings_eq kept).trans ih

theorem Intake.empty_le (taking : Intake σ) : Intake.Le {} taking :=
  ⟨fun _ => False.elim, fun _ => False.elim, fun _ => False.elim, fun _ => False.elim⟩

namespace Intake.Le

variable [Theory σ] {less more : Intake σ} {c c' : Context σ}

theorem build (le : less.Le more) (move : Build less c c') : Build more c c' := by
  cases move with
  | fresh previous a atoms success => exact .fresh c previous a atoms success
  | give clause key clauses given base distinct known stored state =>
    exact .give c clause key clauses (le.clause _ given) base distinct known stored state
  | giveUnit clause key clauses l atoms given base distinct known stored state made =>
    exact .giveUnit c clause key clauses l atoms (le.clause _ given) base distinct known stored
      state made
  | register theory outcome theories given base registered =>
    exact .register c theory outcome theories (fun i ok => le.theory _ (given i ok)) base registered
  | observe i a base known m found new theory own inside late told =>
    exact .observe c i a base known m found new theory own inside late told

theorem move (le : less.Le more) (move : Move less c c') : Move more c c' := by
  cases move with
  | draw move => exact .draw move
  | jump move => exact .jump move
  | decide allowed move => exact .decide (le.decides _ allowed) move
  | build move => exact .build (le.build move)
  | settle phase before after => exact .settle c phase before after
  | configure settings given => exact .configure c settings (le.settings _ given)

theorem moves (le : less.Le more) (moves : Moves less c c') : Moves more c c' :=
  moves.lift id fun _ _ => le.move

omit [Theory σ] in
theorem refute (le : less.Le more) (refuted : Refute less c c') : Refute more c c' := by
  cases refuted with
  | base clause known falsified => exact .base c clause known falsified
  | contradict clause key clauses given base distinct known stored state =>
    exact .contradict c clause key clauses (le.clause _ given) base distinct known stored state
  | empty given base => exact .empty c (le.clause _ given) base

theorem course (le : less.Le more) (course : Course less c c') : Course more c c' := by
  rcases course with moves | ⟨mid, moves, refuted⟩
  · exact .inl (le.moves moves)
  · exact .inr ⟨mid, le.moves moves, le.refute refuted⟩

end Intake.Le

theorem Draws.moves [Theory σ] {taking : Intake σ} {c c' : Context σ} (draws : Draws c c') :
    Moves taking c c' :=
  draws.lift id fun _ _ => .draw

end SatModulo
