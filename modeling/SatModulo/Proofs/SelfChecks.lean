import SatModulo.Proofs.Backing
import SatModulo.Proofs.Explanations
import SatModulo.Proofs.Registration
import SatModulo.Proofs.Solutions
import SatModulo.Proofs.Timeline
import SatModulo.Theories.RuleTable

/-!
# Final turns and self-checks

A theory judges a full valuation in two ways: its final turn looks at the facts that it was told, its
self-check at the values of its atoms. Both say whether the valuation satisfies the theory, so they agree
when all values were told (`Constraint.Informed.solve_agrees`). The true atom has a value that no theory is
told, so the two part where a theory is about it (`solve_disagrees_on_true_edge`).
-/
namespace SatModulo

open Constraint

/-- Where every atom has a value, nothing can be made true. -/
theorem Atoms.eq_of_full {i : Nat} {asks : Literal → Marker → Prop} {s s' : Atoms}
    (full : ∀ a < s.count, (s.value a).isSome)
    (chain : Relation.ReflTransGen (Atoms.Concludes i asks) s s') : s' = s := by
  induction chain with
  | refl => rfl
  | tail _ step ih =>
    subst ih
    obtain ⟨l, marker, _, made⟩ := step
    obtain ⟨known, unset, _⟩ := assign_eq_unset made
    have valued := full l.atom known
    rw [value_eq_none.mpr unset] at valued
    cases valued

/-- Theories whose final turn ends, and whose self-check says whether a valuation satisfies them. -/
class SelfChecking (σ : Type) [Theory σ] [Constraint σ] : Prop where
  ends {root t : σ} {heard : LevelStack Literal} {s : Atoms} (informed : Informed root heard t s) (i : Nat) :
    (Theory.solve t).Returns i s fun _ _ => True
  checkSolved_iff {root t : σ} {heard : LevelStack Literal} (isBuilt : IsBuilt root)
    (recalls : Recalls root heard t) {s : Atoms} {v : Atom → Bool}
    (values : ∀ a ∈ atoms root, s.value a = some (v a)) : Theory.checkSolved s t = true ↔ Models v root

instance : SelfChecking AtMost where
  ends informed i :=
    Turn.Returns.mono (AtMost.examine_returns (AtMost.holds_of_informed informed) i) fun _ _ _ => trivial
  checkSolved_iff _ recalls _ _ values := AtMost.isSolved_iff_models recalls values

instance : SelfChecking Reachability where
  ends informed i :=
    Turn.Returns.mono (Reachability.examine_returns informed false i) fun _ _ _ => trivial
  checkSolved_iff isBuilt recalls _ _ values := Reachability.isSolved_iff_models isBuilt.1 recalls values

instance {σ τ : Type} [Theory σ] [Theory τ] [Constraint σ] [Constraint τ] [SelfChecking σ] [SelfChecking τ] :
    SelfChecking (σ ⊕ τ) where
  ends := by
    rintro (root | root) (t | t) heard s informed i
    · exact Theory.Embedding.returns (SelfChecking.ends informed.inl i) fun _ _ _ => id
    · exact informed.recalls.elim
    · exact informed.recalls.elim
    · exact Theory.Embedding.returns (SelfChecking.ends informed.inr i) fun _ _ _ => id
  checkSolved_iff := by
    rintro (root | root) (t | t) heard isBuilt recalls s v values
    · have own : Theory.checkSolved s t = true ↔ Models v root :=
        SelfChecking.checkSolved_iff (show IsBuilt root from isBuilt) recalls values
      exact own
    · exact recalls.elim
    · exact recalls.elim
    · have own : Theory.checkSolved s t = true ↔ Models v root :=
        SelfChecking.checkSolved_iff (show IsBuilt root from isBuilt) recalls values
      exact own

/-- Nothing is said of the theories of a type. -/
theorem SelfChecking.unspoken {τ : Type} [Theory τ] : @SelfChecking τ _ (Constraint.unspoken τ) := by
  let _ : Constraint τ := Constraint.unspoken τ
  exact {
    ends := fun informed _ => informed.isBuilt.elim
    checkSolved_iff := fun isBuilt _ => isBuilt.elim }

variable {σ : Type} [Theory σ] [Constraint σ] [LawfulConstraint σ] [Accountable σ] [SelfChecking σ]

/-- Where every atom has a value, and a theory was told those of its own, its final turn changes nothing and
finds no conflict exactly if its self-check agrees. -/
theorem Constraint.Informed.solve_agrees {root t : σ} {heard : LevelStack Literal} {s : Atoms}
    (informed : Informed root heard t s) (full : ∀ a < s.count, (s.value a).isSome)
    (complete : ∀ a ∈ atoms root, ∃ l ∈ heard.entries, l.atom = a) (i : Nat) :
    ∃ conflict t', (Theory.solve t).run i s = .ok ((conflict, t'), s) ∧
      (conflict = none ↔ Theory.checkSolved s t = true) := by
  obtain ⟨⟨conflict, t'⟩, s', ran, -⟩ := SelfChecking.ends informed i
  have falsified := Accountable.conflicts informed.isBuilt informed.recalls informed.facts informed.coherent
    informed.onTrail .solve i _ _ ran
  obtain ⟨entailed, chain⟩ :=
    (LawfulConstraint.turns informed.isBuilt informed.recalls informed.facts .solve).run ran
  obtain rfl : s' = s := Atoms.eq_of_full full chain
  let v : Atom → Bool := fun a => (s'.value a).getD false
  have values : ∀ a < s'.count, s'.value a = some (v a) := fun a known => by
    obtain ⟨value, given⟩ := Option.isSome_iff_exists.mp (full a known)
    simp [v, given]
  have checks : Theory.checkSolved s' t = true ↔ Models v root :=
    SelfChecking.checkSolved_iff informed.isBuilt informed.recalls fun a member =>
      values a (informed.known a member)
  refine ⟨conflict, t', ran, ?_⟩
  rw [checks]
  constructor
  · rintro rfl
    exact LawfulConstraint.settled informed.isBuilt informed.recalls informed.facts complete
      (.inr ⟨t', ran⟩) fun l fact => informed.coherent.holds_of_mem values (informed.onTrail l fact)
  · -- A conflict is false, and holds wherever the theory is satisfied.
    intro models
    cases conflict with
    | none => rfl
    | some clause =>
      obtain ⟨l, member, holds⟩ := entailed clause rfl v models
      have isFalse := Literal.valueOn_eq_false.mp (falsified clause rfl l member)
      have other : v l.atom = !l.polarity := congrArg (·.getD false) isFalse
      rw [Literal.Holds, other] at holds
      exact absurd holds (Bool.not_not_eq.mpr rfl)

/-! ### Runs -/

/-- A theory as it was built, about whatever atoms. -/
def AtMost.IsMade (t : AtMost) : Prop := ∃ members bound, t = ofMembers members bound

/-- A theory as it was built, about whatever atoms. -/
def Reachability.IsMade (t : Reachability) : Prop :=
  ∃ nodes source target reach listing edges,
    t = List.foldl addEdge (ofNodes nodes source target reach listing) edges

/-- A theory that was made about atoms that are known, and not always true, is as it was built. -/
theorem Constraint.builtBelow_of_isMade {root : AtMost ⊕ Reachability} {count : Nat}
    (made : Sum.elim AtMost.IsMade Reachability.IsMade root) (room : count ≤ maxAtom + 1)
    (proper : ∀ a ∈ atoms root, a ≠ topAtom) (known : ∀ a ∈ atoms root, a < count) :
    BuiltBelow count root := by
  refine ⟨?_, known⟩
  rcases root with root | root
  · obtain ⟨members, bound, rfl⟩ := made
    exact ⟨members, bound, rfl, fun l member => proper l.atom <| List.mem_map_of_mem
      (Clause.mem_addAllNew.mpr (.inr member))⟩
  · obtain ⟨nodes, source, target, reach, listing, edges, rfl⟩ := made
    refine ⟨⟨nodes, source, target, reach, listing, edges, rfl, proper⟩, ?_⟩
    exact Nat.lt_succ_iff.mp (Nat.lt_of_lt_of_le (known _ (.head _)) room)

/-- The final turn of a theory and its self-check agree on the context: the turn makes nothing true, and
finds no conflict exactly if the check says that the valuation is a solution. -/
def Context.SolveAgrees (c : Context σ) (i : Nat) : Prop :=
  ∃ m conflict theory, c.theories.members[i]? = some m ∧
    (Theory.solve m.theory).run i c.atoms = .ok ((conflict, theory), c.atoms) ∧
    (conflict = none ↔ Theory.checkSolved c.atoms m.theory = true)

namespace PublicRun

section Any

variable {settings : Settings} {events : List (Event σ)} {s : Session σ} {e : Event σ}

/-- A theory that was built and observes its atoms agrees with itself where all values are delivered. -/
theorem solveAgrees_of_registers (run : PublicRun settings events s) (member : e ∈ events) {root : σ}
    {i : Nat} (given : e.command = .addTheory root) (registered : e.result = .ok (.theory i))
    (built : BuiltBelow s.context.atoms.count root)
    (observed : ∀ a ∈ atoms root, ∃ o ∈ events, o.Observes i a)
    (full : ∀ a < s.context.atoms.count, (s.context.atoms.value a).isSome)
    (delivered : s.context.AllDelivered) : s.context.SolveAgrees i := by
  obtain ⟨m, stems⟩ := run.stems_of_registers member given registered
  have informed := run.told.informed run.coherent.1 built stems (.inl rfl)
  have observes := run.observes_all stems.1 observed
  have complete : ∀ a ∈ atoms root, ∃ l ∈ (s.context.theories.heard i).entries, l.atom = a := fun a inRoot =>
    run.told.complete run.coherent.1 delivered stems.1 observes (LawfulConstraint.proper built.1) a inRoot
      (full a (built.2 a inRoot))
  obtain ⟨conflict, theory, ran, agrees⟩ := informed.solve_agrees full complete i
  exact ⟨m, conflict, theory, stems.1, ran, agrees⟩

end Any

section Given

variable {τ : Type} [Theory τ] {settings : Settings} {events : List (Event (τ ⊕ (AtMost ⊕ Reachability)))}
  {s : Session (τ ⊕ (AtMost ⊕ Reachability))} {e : Event (τ ⊕ (AtMost ⊕ Reachability))}

/-- Among theories of whatever type, the final turn of a bound or of a reachability agrees with its
self-check, where every atom has a value and all values were delivered. The theory observes its atoms, and
none of them is the atom that is always true. -/
theorem final_turn_agrees (run : PublicRun settings events s) (member : e ∈ events)
    {root : AtMost ⊕ Reachability} {i : Nat} (given : e.command = .addTheory (.inr root))
    (registered : e.result = .ok (.theory i)) (made : Sum.elim AtMost.IsMade Reachability.IsMade root)
    (known : ∀ a ∈ atoms root, a ≠ topAtom ∧ a < s.context.atoms.count ∧ ∃ o ∈ events, o.Observes i a)
    (full : ∀ a < s.context.atoms.count, (s.context.atoms.value a).isSome)
    (delivered : s.context.AllDelivered) : s.context.SolveAgrees i := by
  let _ : Constraint τ := Constraint.unspoken τ
  have : LawfulConstraint τ := .unspoken
  have : Accountable τ := .unspoken
  have : SelfChecking τ := .unspoken
  have built : BuiltBelow s.context.atoms.count root := Constraint.builtBelow_of_isMade made
    run.coherent.1.supports.atoms.room (fun a inRoot => (known a inRoot).1)
    fun a inRoot => (known a inRoot).2.1
  have inFamily : BuiltBelow s.context.atoms.count (.inr root : τ ⊕ (AtMost ⊕ Reachability)) := built
  exact run.solveAgrees_of_registers member given registered inFamily (fun a inRoot => (known a inRoot).2.2)
    full delivered

end Given

/-- A bound that is exceeded and a reachability that holds, beside a table. -/
theorem final_turn_agrees_beside_table :
    ∃ (events : List (Event (RuleTable ⊕ (AtMost ⊕ Reachability))))
      (s : Session (RuleTable ⊕ (AtMost ⊕ Reachability))),
      PublicRun {} events s ∧ events.map (·.command) = [.freshLiterals 3, .addTheory (.inl {}),
        .addTheory (.inr (.inl (.ofMembers [⟨1⟩, ⟨-2⟩] 1))),
        .addTheory (.inr (.inr (Reachability.addEdge (.ofNodes 2 0 1 3) ⟨0, 1, 1⟩))), .observe 1 1,
        .observe 1 2, .observe 2 3, .observe 2 1, .decideLiteral ⟨1⟩, .decideLiteral ⟨-2⟩,
        .decideLiteral ⟨3⟩, .propagate] ∧
      s.context.SolveAgrees 1 ∧ s.context.SolveAgrees 2 := by
  obtain ⟨events, s, run, commands, checked⟩ := of_run_any (σ := RuleTable ⊕ (AtMost ⊕ Reachability)) {}
    [.freshLiterals 3, .addTheory (.inl {}),
      .addTheory (.inr (.inl (.ofMembers [⟨1⟩, ⟨-2⟩] 1))),
      .addTheory (.inr (.inr (Reachability.addEdge (.ofNodes 2 0 1 3) ⟨0, 1, 1⟩))), .observe 1 1,
      .observe 1 2, .observe 2 3, .observe 2 1, .decideLiteral ⟨1⟩, .decideLiteral ⟨-2⟩,
      .decideLiteral ⟨3⟩, .propagate]
    (by simp [Command.IsPublic])
    (fun results s => decide (results = [.ok (.literals [⟨1⟩, ⟨2⟩, ⟨3⟩]), .ok (.theory 0),
        .ok (.theory 1), .ok (.theory 2), .ok .done, .ok .done, .ok .done, .ok .done, .ok .done, .ok .done,
        .ok .done, .ok (.conflict (.theory 1 [⟨-1⟩, ⟨2⟩]))]) &&
      decide (s.context.atoms.count = 4) && ((List.range 4).all fun a => (s.context.atoms.value a).isSome) &&
      s.context.theories.members.all fun m => decide (m.head = s.context.atoms.trail.length))
    (by decide +kernel)
  simp only [Bool.and_eq_true, decide_eq_true_eq, List.all_eq_true] at checked
  obtain ⟨⟨⟨answered, count⟩, full⟩, delivered⟩ := checked
  replace full : ∀ a < s.context.atoms.count, (s.context.atoms.value a).isSome := fun a known =>
    full a (List.mem_range.mpr (count ▸ known))
  have observes {i : Nat} {a : Atom} (member : _) : ∃ o ∈ events, o.Observes i a :=
    Event.exists_of_mem_zip commands answered member
  obtain ⟨bound, isBound, boundGiven, boundIndex⟩ : ∃ e ∈ events,
      e.command = .addTheory (.inr (.inl (.ofMembers [⟨1⟩, ⟨-2⟩] 1))) ∧ e.result = .ok (.theory 1) :=
    Event.exists_of_mem_zip commands answered (by simp)
  obtain ⟨reach, isReach, reachGiven, reachIndex⟩ : ∃ e ∈ events,
      e.command = .addTheory (.inr (.inr (Reachability.addEdge (.ofNodes 2 0 1 3) ⟨0, 1, 1⟩))) ∧
        e.result = .ok (.theory 2) :=
    Event.exists_of_mem_zip commands answered (by simp)
  have boundKnown : ∀ a ∈ [1, 2],
      a ≠ topAtom ∧ a < s.context.atoms.count ∧ ∃ o ∈ events, o.Observes 1 a := by
    rw [count]
    exact List.forall_mem_cons.mpr ⟨⟨by decide, by decide, observes (by simp)⟩,
      List.forall_mem_singleton.mpr ⟨by decide, by decide, observes (by simp)⟩⟩
  have reachKnown : ∀ a ∈ [3, 1],
      a ≠ topAtom ∧ a < s.context.atoms.count ∧ ∃ o ∈ events, o.Observes 2 a := by
    rw [count]
    exact List.forall_mem_cons.mpr ⟨⟨by decide, by decide, observes (by simp)⟩,
      List.forall_mem_singleton.mpr ⟨by decide, by decide, observes (by simp)⟩⟩
  exact ⟨events, s, run, commands,
    run.final_turn_agrees isBound boundGiven boundIndex ⟨_, _, rfl⟩ boundKnown full delivered,
    run.final_turn_agrees isReach reachGiven reachIndex ⟨2, 0, 1, 3, .latestFirst, [⟨0, 1, 1⟩], rfl⟩ reachKnown full
      delivered⟩

/-- A theory that observes the atom that is always true is not told of its value, and finds no conflict
where the self-check sees one. -/
theorem solve_disagrees_on_true_edge :
    ¬∀ (settings : Settings) (events : List (Event (RuleTable ⊕ (AtMost ⊕ Reachability))))
      (s : Session (RuleTable ⊕ (AtMost ⊕ Reachability))), PublicRun settings events s →
      ∀ e ∈ events, ∀ (root : AtMost ⊕ Reachability) (i : Nat), e.command = .addTheory (.inr root) →
      e.result = .ok (.theory i) → Sum.elim AtMost.IsMade Reachability.IsMade root →
      (∀ a ∈ atoms root, a < s.context.atoms.count ∧ ∃ o ∈ events, o.Observes i a) →
      (∀ a < s.context.atoms.count, (s.context.atoms.value a).isSome) →
      s.context.AllDelivered → s.context.SolveAgrees i := by
  intro claimed
  obtain ⟨events, s, run, commands, checked⟩ := of_run_any (σ := RuleTable ⊕ (AtMost ⊕ Reachability)) {}
    [.freshLiterals 1, .addTheory (.inr (.inr (Reachability.addEdge (.ofNodes 2 0 1 1) ⟨0, 1, 0⟩))),
      .observe 0 0, .observe 0 1, .decideLiteral ⟨-1⟩, .propagate]
    (by simp [Command.IsPublic])
    (fun results s => decide (results = [.ok (.literals [⟨1⟩]), .ok (.theory 0), .ok .done, .ok .done,
        .ok .done, .ok .fixpoint]) &&
      decide (s.context.atoms.count = 2) && ((List.range 2).all fun a => (s.context.atoms.value a).isSome) &&
      (s.context.theories.members.all fun m => decide (m.head = s.context.atoms.trail.length)) &&
      s.context.theories.members[0]?.any fun m => !Theory.checkSolved s.context.atoms m.theory &&
        ((Theory.solve m.theory).run 0 s.context.atoms).toOption.any fun outcome => outcome.1.1.isNone)
    (by decide +kernel)
  simp only [Bool.and_eq_true, decide_eq_true_eq, List.all_eq_true] at checked
  obtain ⟨⟨⟨⟨answered, count⟩, full⟩, delivered⟩, differ⟩ := checked
  have observes {a : Atom} (member : _) : ∃ o ∈ events, o.Observes 0 a :=
    Event.exists_of_mem_zip commands answered member
  obtain ⟨e, isMember, given, registered⟩ : ∃ e ∈ events,
      e.command = .addTheory (.inr (.inr (Reachability.addEdge (.ofNodes 2 0 1 1) ⟨0, 1, 0⟩))) ∧
        e.result = .ok (.theory 0) :=
    Event.exists_of_mem_zip commands answered (by simp)
  have known : ∀ a ∈ [1, 0], a < s.context.atoms.count ∧ ∃ o ∈ events, o.Observes 0 a := by
    rw [count]
    exact List.forall_mem_cons.mpr ⟨⟨by decide, observes (by simp)⟩,
      List.forall_mem_singleton.mpr ⟨by decide, observes (by simp)⟩⟩
  obtain ⟨m, conflict, theory, found, ran', agrees⟩ := claimed {} events s run e isMember _ 0 given registered
    ⟨2, 0, 1, 1, .latestFirst, [⟨0, 1, 0⟩], rfl⟩ known (fun a known => full a (List.mem_range.mpr (count ▸ known)))
    delivered
  rw [found] at differ
  simp only [Option.any_some, ran', Except.toOption, Bool.and_eq_true, Bool.not_eq_true',
    Option.isNone_iff_eq_none] at differ
  have holds := agrees.mp differ.2
  rw [differ.1] at holds
  cases holds

end PublicRun

end SatModulo
