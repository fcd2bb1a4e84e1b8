import Mathlib.Logic.Equiv.Defs
import SatModulo.Proofs.Constraints
import SatModulo.Search.Solve
import SatModulo.Theories.AtMost
import SatModulo.Theories.Reachability

/-!
# Renumbered theories

Atoms know of theories only as the reasons of values, and what is done to atoms does not look at the index of a
theory: it is the same under other indices (`Atoms.renumber`). A theory at its turn that does not look at atoms
cannot see the indices of others either (`Turn.run_renumber`).
-/
namespace SatModulo

variable {π : Equiv.Perm Nat}

def Reason.renumber (π : Equiv.Perm Nat) : Reason → Reason
  | .theory i marker => .theory (π i) marker
  | .decision => .decision
  | .clause key => .clause key

def Assignment.renumber (π : Equiv.Perm Nat) (given : Assignment) : Assignment :=
  { given with reason := given.reason.map (Reason.renumber π) }

namespace Atoms

def renumber (π : Equiv.Perm Nat) (s : Atoms) : Atoms :=
  { s with cells := s.cells.map fun c => { c with assigned := c.assigned.map (Assignment.renumber π) } }

variable {s : Atoms} {a : Atom} {l : Literal}

@[simp] theorem count_renumber : (s.renumber π).count = s.count := by
  simp [count, renumber]

@[simp] theorem trail_renumber : (s.renumber π).trail = s.trail := rfl

@[simp] theorem level_renumber : (s.renumber π).level = s.level := rfl

theorem assignment_renumber : (s.renumber π).assignment a = (s.assignment a).map (Assignment.renumber π) := by
  simp only [assignment, renumber, Array.getElem?_map]
  cases s.cells[a]? <;> rfl

@[simp] theorem value_renumber : (s.renumber π).value = s.value := by
  funext a
  simp only [value, assignment_renumber, Option.map_map]
  rfl

@[simp] theorem levelOf_renumber : (s.renumber π).levelOf = s.levelOf := by
  funext a
  simp only [levelOf, assignment_renumber, Option.map_map]
  rfl

@[simp] theorem reasonOf_renumber : (s.renumber π).reasonOf a = (s.reasonOf a).map (Reason.renumber π) := by
  simp only [reasonOf, assignment_renumber]
  cases s.assignment a <;> rfl

@[simp] theorem previousValue_renumber : (s.renumber π).previousValue = s.previousValue := by
  funext a
  simp only [previousValue, renumber, Array.getElem?_map, Option.map_map]
  rfl

@[simp] theorem valueOf_renumber : (s.renumber π).valueOf l = s.valueOf l := by
  simp only [valueOf, value_renumber]

@[simp] theorem status_renumber : (s.renumber π).status l = s.status l := by
  simp only [status, value_renumber]

@[simp] theorem unvalued_renumber : (s.renumber π).unvalued = s.unvalued := by
  have same : (s.renumber π).valuation = s.valuation := by
    simp only [valuation, renumber, Array.toList_map, List.map_map]
    refine List.map_congr_left fun c _ => ?_
    simp only [Function.comp_apply, Option.map_map]
    rfl
  rw [unvalued, same, unvalued]

theorem cells_modify_renumber {f g : AtomCell → AtomCell}
    (commutes : ∀ c : AtomCell, g { c with assigned := c.assigned.map (Assignment.renumber π) } =
      { f c with assigned := (f c).assigned.map (Assignment.renumber π) }) :
    (s.renumber π).cells.modify a g = ({ s with cells := s.cells.modify a f }.renumber π).cells := by
  refine Array.ext_getElem? fun i => ?_
  simp only [renumber, Array.getElem?_modify, Array.getElem?_map]
  cases s.cells[i]? with
  | none => simp
  | some c => by_cases same : a = i <;> simp [same, commutes]

theorem assign_renumber (l : Literal) (reason : Reason) :
    (s.renumber π).assign l (reason.renumber π) = (s.assign l reason).map (Prod.map id (renumber π)) := by
  unfold assign
  rw [count_renumber, status_renumber]
  split
  · split
    · rw [cells_modify_renumber (f := fun c => { c with assigned := some ⟨l.polarity, s.level, some reason⟩ })]
      · rfl
      · exact fun c => rfl
    · rfl
  · rfl

theorem fresh_renumber (previous : Bool) :
    (s.renumber π).fresh previous = (s.fresh previous).map (Prod.map id (renumber π)) := by
  unfold fresh
  rw [count_renumber]
  split
  · simp [renumber, Except.map]
  · rfl

theorem drop_renumber : (s.renumber π).drop a = (s.drop a).renumber π := by
  refine congrArg (Atoms.mk · s.trail) (cells_modify_renumber ?_)
  rintro ⟨_, _ | _⟩ <;> rfl

theorem forgetAbove_renumber (level : Nat) :
    ((s.renumber π).forgetAbove level).2 = (s.forgetAbove level).2.renumber π := by
  have dropped : ∀ (literals : List Literal) (s : Atoms),
      literals.foldl (fun s l => s.drop l.atom) (s.renumber π) =
        (literals.foldl (fun s l => s.drop l.atom) s).renumber π := by
    intro literals
    induction literals with
    | nil => exact fun _ => rfl
    | cons l rest ih =>
      intro s
      simp only [List.foldl_cons, drop_renumber, ih]
  exact dropped _ { s with trail := (s.trail.cutTo level).2 }

@[simp] theorem isOpen_renumber : (s.renumber π).isOpen l = s.isOpen l := by
  simp only [isOpen, count_renumber, value_renumber]

@[simp] theorem backjumpLevel_renumber (clause : Clause) :
    (s.renumber π).backjumpLevel clause = s.backjumpLevel clause := by
  simp only [backjumpLevel, levelOf_renumber]

@[simp] theorem isReason_renumber (clause : Clause) : (s.renumber π).isReason l clause = s.isReason l clause := by
  simp only [isReason, falseBefore, assignedBefore, positionOf, levelOf_renumber, value_renumber, trail_renumber]

@[simp] theorem addAll_renumber (r : Resolvent) (clause : Clause) :
    r.addAll (s.renumber π) clause = r.addAll s clause := by
  have same : Resolvent.add (s.renumber π) = Resolvent.add s := by
    funext r l
    simp only [Resolvent.add, count_renumber, levelOf_renumber, level_renumber]
    rfl
  rw [Resolvent.addAll, same, Resolvent.addAll]

end Atoms

namespace ClauseStore

variable {store : ClauseStore}

/-- Clauses are looked at without a look at the theories that reasons name. -/
theorem visit_renumber (keys : List ClauseKey) (s : Atoms) :
    store.visit keys (s.renumber π) = Prod.map id (Atoms.renumber π) (store.visit keys s) := by
  induction keys generalizing s with
  | nil => rfl
  | cons key rest ih =>
    unfold visit
    split
    · rfl
    · rw [Atoms.value_renumber]
      split
      · exact ih s
      · rfl
      · rename_i l _
        have made := Atoms.assign_renumber (π := π) (s := s) l (.clause key)
        rw [show (Reason.clause key).renumber π = .clause key from rfl] at made
        rw [made]
        cases s.assign l (.clause key) with
        | error e => rfl
        | ok outcome => exact ih outcome.2

theorem propagateWithin_renumber (fuel : Nat) (s : Atoms) :
    store.propagateWithin fuel (s.renumber π) = Prod.map id (Atoms.renumber π) (store.propagateWithin fuel s) := by
  induction fuel generalizing s with
  | zero => rfl
  | succ fuel ih =>
    unfold propagateWithin
    rw [Atoms.trail_renumber]
    split
    · rfl
    · rename_i l _
      rw [visit_renumber]
      rcases store.visit (store.occurrences l.negate) s with ⟨_ | _, after⟩
      · rfl
      · exact ih { after with trail := { after.trail with head := after.trail.head + 1 } }

theorem propagate_renumber (s : Atoms) :
    store.propagate (s.renumber π) = Prod.map id (Atoms.renumber π) (store.propagate s) := by
  rw [propagate, Atoms.unvalued_renumber, Atoms.trail_renumber, propagateWithin_renumber, propagate]

end ClauseStore

/-! ### Turns -/

namespace Turn

variable {α β : Type}

/-- A turn at which the atoms are not looked at. -/
def Blind : Turn α → Prop
  | .done _ | .fault _ => True
  | .look _ => False
  | .assign _ _ resume => ∀ status, (resume status).Blind

theorem blind_ofExcept (x : Except Fault α) : (ofExcept x).Blind := by
  cases x <;> exact trivial

theorem Blind.andThen {t : Turn α} {next : α → Turn β} (blind : t.Blind) (rest : ∀ a, (next a).Blind) :
    (t.andThen next).Blind := by
  induction t with
  | done a => exact rest a
  | fault cause => exact trivial
  | look resume ih => exact blind.elim
  | assign l marker resume ih => exact fun status => ih status (blind status)

theorem andThen_assoc {γ : Type} (t : Turn α) (next : α → Turn β) (last : β → Turn γ) :
    (t.andThen next).andThen last = t.andThen fun a => (next a).andThen last := by
  induction t with
  | done a => rfl
  | fault cause => rfl
  | look resume ih => exact congrArg Turn.look (funext ih)
  | assign l marker resume ih => exact congrArg (Turn.assign l marker) (funext ih)

/-- A theory of another index takes the same turn. -/
theorem Blind.run_renumber {t : Turn α} (blind : t.Blind) (i : Nat) (s : Atoms) :
    t.run (π i) (s.renumber π) = (t.run i s).map (Prod.map id (Atoms.renumber π)) := by
  induction t generalizing s with
  | done a => rfl
  | fault cause => rfl
  | look resume ih => exact blind.elim
  | assign l marker resume ih =>
    have made := Atoms.assign_renumber (π := π) (s := s) l (.theory i marker)
    rw [show (Reason.theory i marker).renumber π = .theory (π i) marker from rfl] at made
    simp only [run, made]
    cases s.assign l (.theory i marker) with
    | error e => exact ih (.error e) (blind _) s
    | ok outcome => exact ih (.ok outcome.1) (blind _) outcome.2

end Turn

/-! ### Theories -/

/-- A theory to which its index is only a name: what it does is the same under another one. It does not look at
atoms at its turns, and what it sees of them otherwise is the same where theories have other indices. -/
structure Theory.IsNameless {σ : Type} [Theory σ] (t : σ) : Prop where
  setIndex (i j : Nat) : Theory.setIndex j (Theory.setIndex i t) = Theory.setIndex j t
  capabilities (i : Nat) : Theory.capabilities (Theory.setIndex i t) = Theory.capabilities t
  preprocess (i : Nat) : Theory.preprocess (Theory.setIndex i t) = Theory.setIndex i (Theory.preprocess t)
  noteOccurs (l : Literal) (occurs : Bool) (i : Nat) :
    Theory.noteOccurs l occurs (Theory.setIndex i t) = Theory.setIndex i (Theory.noteOccurs l occurs t)
  openLevel (i : Nat) : Theory.openLevel (Theory.setIndex i t) = Theory.setIndex i (Theory.openLevel t)
  backtrack (level i : Nat) :
    Theory.backtrack level (Theory.setIndex i t) = Theory.setIndex i (Theory.backtrack level t)
  enqueue (l : Literal) (i : Nat) :
    Theory.enqueue l (Theory.setIndex i t) = (Theory.enqueue l t).map (Theory.setIndex i)
  clearSatisfied (i : Nat) :
    Theory.clearSatisfied (Theory.setIndex i t) = (Theory.clearSatisfied t).map (Theory.setIndex i)
  undecide (l : Literal) (i : Nat) :
    Theory.undecide l (Theory.setIndex i t) = Theory.setIndex i (Theory.undecide l t)
  flush (π : Equiv.Perm Nat) (s : Atoms) (i : Nat) :
    Theory.flush (s.renumber π) (Theory.setIndex i t) = Theory.setIndex i (Theory.flush s t)
  propagate (i : Nat) : Theory.propagate (Theory.setIndex i t) =
    (Theory.propagate t).andThen fun outcome => .done (outcome.1, Theory.setIndex i outcome.2)
  solve (i : Nat) : Theory.solve (Theory.setIndex i t) =
    (Theory.solve t).andThen fun outcome => .done (outcome.1, Theory.setIndex i outcome.2)
  blind_propagate : (Theory.propagate t).Blind
  blind_solve : (Theory.solve t).Blind
  isSatisfied (i : Nat) : Theory.isSatisfied (Theory.setIndex i t) = Theory.isSatisfied t
  decide (π : Equiv.Perm Nat) (s : Atoms) (i : Nat) : Theory.decide (s.renumber π) (Theory.setIndex i t) =
    Prod.map id (Theory.setIndex i) (Theory.decide s t)
  buildReason (l : Literal) (marker : Marker) (i : Nat) : Theory.buildReason l marker (Theory.setIndex i t) =
    (Theory.buildReason l marker t).map (Prod.map id (Theory.setIndex i))
  checkPropagated (π : Equiv.Perm Nat) (s : Atoms) (i : Nat) :
    Theory.checkPropagated (s.renumber π) (Theory.setIndex i t) = Theory.checkPropagated s t
  checkSolved (π : Equiv.Perm Nat) (s : Atoms) (i : Nat) :
    Theory.checkSolved (s.renumber π) (Theory.setIndex i t) = Theory.checkSolved s t

class Theory.Nameless (σ : Type) [Theory σ] : Prop where
  isNameless (t : σ) : Theory.IsNameless t

namespace AtMost

theorem falsify_setIndex (i : Nat) (members : List Literal) (t : AtMost) :
    falsify (Theory.setIndex i t) members =
      (falsify t members).andThen fun outcome => .done (outcome.1, Theory.setIndex i outcome.2) := by
  induction members generalizing t with
  | nil => rfl
  | cons member rest ih =>
    unfold falsify
    cases member.negate? with
    | error cause => rfl
    | ok l =>
      refine congrArg (Turn.assign l t.log.length) (funext fun status => ?_)
      rcases status with e | (_ | _ | _)
      · rfl
      · exact ih { t with counters.propagations := t.counters.propagations + 1 }
      · exact ih t
      · change (Turn.ofExcept (t.reason l t.log.length)).andThen _ =
          ((Turn.ofExcept (t.reason l t.log.length)).andThen _).andThen _
        cases t.reason l t.log.length <;> rfl

theorem blind_falsify (members : List Literal) (t : AtMost) : (falsify t members).Blind := by
  induction members generalizing t with
  | nil => exact trivial
  | cons member rest ih =>
    unfold falsify
    refine (Turn.blind_ofExcept _).andThen fun l status => ?_
    rcases status with e | (_ | _ | _)
    · exact trivial
    · exact ih _
    · exact ih _
    · exact (Turn.blind_ofExcept _).andThen fun clause => trivial

theorem examine_setIndex (i : Nat) (t : AtMost) :
    examine (Theory.setIndex i t) =
      (examine t).andThen fun outcome => .done (outcome.1, Theory.setIndex i outcome.2) := by
  have others := falsify_setIndex i (t.members.filter (· ∉ t.trueMembers t.log.entries)) t
  change examine { t with index := some i } = _
  unfold examine
  dsimp only [trueMembers] at others ⊢
  split
  · cases entriesBefore (t.log.entries.filter (· ∈ t.members)) (t.bound + 1) with
    | error cause => rfl
    | ok excess =>
      change (Turn.ofExcept (Literal.negateAll? excess)).andThen _ =
        ((Turn.ofExcept (Literal.negateAll? excess)).andThen _).andThen _
      cases Literal.negateAll? excess <;> rfl
  · split
    · rfl
    · exact others

theorem blind_examine (t : AtMost) : (examine t).Blind := by
  rw [examine_eq]
  split
  · exact (Turn.blind_ofExcept _).andThen fun clause => trivial
  · split
    · exact trivial
    · exact blind_falsify _ t

theorem isNameless (t : AtMost) : Theory.IsNameless t where
  setIndex _ _ := rfl
  capabilities _ := rfl
  preprocess _ := rfl
  noteOccurs _ _ _ := rfl
  openLevel _ := rfl
  backtrack _ _ := rfl
  enqueue l i := by
    simp only [Theory.enqueue, Theory.setIndex]
    split
    · rfl
    · cases l.negate? with
      | error cause => rfl
      | ok opposite =>
        change (if opposite ∈ t.members then _ else _) =
          (if opposite ∈ t.members then _ else _ : Except Fault AtMost).map _
        split <;> rfl
  clearSatisfied i := by
    simp only [Theory.clearSatisfied, Theory.setIndex]
    split
    · change t.cannotExceed.bind _ = (t.cannotExceed.bind _).map _
      rcases t.cannotExceed with cause | (_ | _) <;> rfl
    · rfl
  undecide _ _ := rfl
  flush _ _ _ := rfl
  propagate i := by
    simp only [Theory.propagate]
    change (if t.satisfiedAtBase = true then _ else _) = _
    split
    · rfl
    · exact examine_setIndex i t
  solve i := examine_setIndex i t
  blind_propagate := by
    simp only [Theory.propagate]
    split
    · exact trivial
    · exact blind_examine t
  blind_solve := blind_examine t
  isSatisfied _ := rfl
  decide _ _ _ := rfl
  buildReason l marker i := by
    change (t.reason l marker).bind _ = ((t.reason l marker).bind _).map _
    cases t.reason l marker <;> rfl
  checkPropagated π s i := by
    simp only [Theory.checkPropagated, isPropagated, Atoms.valueOf_renumber]
    rfl
  checkSolved π s i := by
    simp only [Theory.checkSolved, isSolved, Atoms.valueOf_renumber]
    rfl

instance : Theory.Nameless AtMost := ⟨isNameless⟩

end AtMost

namespace Reachability

theorem examine_setIndex (skipUnoccurring : Bool) (i : Nat) (t : Reachability) :
    examine skipUnoccurring (Theory.setIndex i t) =
      (examine skipUnoccurring t).andThen fun outcome => .done (outcome.1, Theory.setIndex i outcome.2) := by
  change (Turn.ofExcept (t.consequence t.log.entries)).andThen _ =
    ((Turn.ofExcept (t.consequence t.log.entries)).andThen _).andThen _
  rcases t.consequence t.log.entries with cause | (_ | ((_ | ⟨l, rest⟩)))
  · rfl
  · rfl
  · rfl
  · change (if (factValue t.log.entries t.reach).isSome then _ else
        if skipUnoccurring && !t.mayOccur l then _ else _) =
      (if (factValue t.log.entries t.reach).isSome then _ else
        if skipUnoccurring && !t.mayOccur l then _ else _ : Turn (Option Clause × Reachability)).andThen _
    split
    · rfl
    · split
      · rfl
      · refine congrArg (Turn.assign l t.log.length) (funext fun status => ?_)
        rcases status with e | (_ | _ | _) <;> rfl

/-- A reachability looks at its own facts only, never at the atoms. -/
theorem blind_examine (skipUnoccurring : Bool) (t : Reachability) : (examine skipUnoccurring t).Blind := by
  refine (Turn.blind_ofExcept _).andThen fun drawn => ?_
  rcases drawn with _ | (_ | ⟨l, rest⟩)
  · exact trivial
  · exact trivial
  · dsimp only
    split
    · exact trivial
    · split
      · exact trivial
      · intro status
        rcases status with e | (_ | _ | _) <;> exact trivial

theorem settleProposal_setIndex (l : Literal) (i : Nat) (t : Reachability) :
    settleProposal l (Theory.setIndex i t) = Theory.setIndex i (settleProposal l t) := by
  change settleProposal l { t with index := some i } = { settleProposal l t with index := some i }
  unfold settleProposal
  dsimp only
  split
  · rfl
  · split
    · split <;> rfl
    · rfl

theorem isNameless (t : Reachability) : Theory.IsNameless t where
  setIndex _ _ := rfl
  capabilities _ := rfl
  preprocess _ := rfl
  noteOccurs _ _ _ := rfl
  openLevel _ := rfl
  backtrack _ _ := rfl
  enqueue l i := by
    simp only [Theory.enqueue, settleProposal_setIndex]
    rfl
  clearSatisfied _ := rfl
  undecide _ _ := rfl
  flush _ _ _ := rfl
  propagate i := examine_setIndex true i t
  solve i := examine_setIndex false i t
  blind_propagate := blind_examine true t
  blind_solve := blind_examine false t
  isSatisfied _ := rfl
  decide π s i := by
    have same : propose (s.renumber π) (Theory.setIndex i t) = propose s t := by
      simp only [propose, Atoms.value_renumber]
      rfl
    simp only [Theory.decide, proposal?, same]
    cases propose s t <;> rfl
  buildReason l marker i := by
    change (t.reason l marker).bind _ = ((t.reason l marker).bind _).map _
    cases t.reason l marker <;> rfl
  checkPropagated π s i := by
    simp only [Theory.checkPropagated, isPropagated, Atoms.valueOf_renumber]
    rfl
  checkSolved π s i := by
    simp only [Theory.checkSolved, isSolved, Atoms.value_renumber]
    rfl

instance : Theory.Nameless Reachability := ⟨isNameless⟩

end Reachability

section Family

variable {σ τ : Type} [Theory σ] [Theory τ]

/-- What acts as a nameless theory is nameless. -/
theorem Theory.IsNameless.embed {f : σ → τ} {t : σ} (h : IsNameless t) (embeds : Embedding f)
    (capable : ∀ t, Theory.capabilities (f t) = Theory.capabilities t) : IsNameless (f t) where
  setIndex i j := by rw [embeds.setIndex, embeds.setIndex, embeds.setIndex, h.setIndex]
  capabilities i := by rw [embeds.setIndex, capable, capable, h.capabilities]
  preprocess i := by rw [embeds.setIndex, embeds.preprocess, embeds.preprocess, embeds.setIndex, h.preprocess]
  noteOccurs l occurs i := by
    rw [embeds.setIndex, embeds.noteOccurs, embeds.noteOccurs, embeds.setIndex, h.noteOccurs]
  openLevel i := by rw [embeds.setIndex, embeds.openLevel, embeds.openLevel, embeds.setIndex, h.openLevel]
  backtrack level i := by
    rw [embeds.setIndex, embeds.backtrack, embeds.backtrack, embeds.setIndex, h.backtrack]
  enqueue l i := by
    rw [embeds.setIndex, embeds.enqueue, embeds.enqueue, h.enqueue]
    cases Theory.enqueue l t with
    | error cause => rfl
    | ok t' => exact congrArg Except.ok (embeds.setIndex i t').symm
  clearSatisfied i := by
    rw [embeds.setIndex, embeds.clearSatisfied, embeds.clearSatisfied, h.clearSatisfied]
    cases Theory.clearSatisfied t with
    | error cause => rfl
    | ok t' => exact congrArg Except.ok (embeds.setIndex i t').symm
  undecide l i := by rw [embeds.setIndex, embeds.undecide, embeds.undecide, embeds.setIndex, h.undecide]
  flush π s i := by rw [embeds.setIndex, embeds.flush, embeds.flush, embeds.setIndex, h.flush]
  propagate i := by
    rw [embeds.setIndex, embeds.propagate, embeds.propagate, h.propagate, Turn.andThen_assoc, Turn.andThen_assoc]
    simp only [Turn.andThen, embeds.setIndex]
  solve i := by
    rw [embeds.setIndex, embeds.solve, embeds.solve, h.solve, Turn.andThen_assoc, Turn.andThen_assoc]
    simp only [Turn.andThen, embeds.setIndex]
  blind_propagate := by
    rw [embeds.propagate]
    exact h.blind_propagate.andThen fun _ => trivial
  blind_solve := by
    rw [embeds.solve]
    exact h.blind_solve.andThen fun _ => trivial
  isSatisfied i := by rw [embeds.setIndex, embeds.isSatisfied, embeds.isSatisfied, h.isSatisfied]
  decide π s i := by
    rw [embeds.setIndex, embeds.decide, embeds.decide, h.decide]
    exact congrArg (Prod.mk _) (embeds.setIndex i _).symm
  buildReason l marker i := by
    rw [embeds.setIndex, embeds.buildReason, embeds.buildReason, h.buildReason]
    cases Theory.buildReason l marker t with
    | error cause => rfl
    | ok outcome => exact congrArg (fun u => Except.ok (outcome.1, u)) (embeds.setIndex i outcome.2).symm
  checkPropagated π s i := by
    rw [embeds.setIndex, embeds.checkPropagated, embeds.checkPropagated, h.checkPropagated]
  checkSolved π s i := by rw [embeds.setIndex, embeds.checkSolved, embeds.checkSolved, h.checkSolved]

/-- A family of nameless theories is nameless. -/
instance [Theory.Nameless σ] [Theory.Nameless τ] : Theory.Nameless (σ ⊕ τ) where
  isNameless
    | .inl t => (Theory.Nameless.isNameless t).embed .inl fun _ => rfl
    | .inr t => (Theory.Nameless.isNameless t).embed .inr fun _ => rfl

end Family

end SatModulo
