import SatModulo.Proofs.Exchanges
import SatModulo.Proofs.Recovery
import SatModulo.Proofs.Searching

/-!
# The conduct of the core

Every operation is made of exchanges with theories, whatever the context that it is given
(`Procedure.Leads` with `Exchange`). Only where levels are removed and where an atom is decided must the
context be orderly.
-/
namespace SatModulo

/-- In a list whose elements of a kind come first, they are those up to the first of another kind. -/
theorem List.takeWhile_eq_filter {α : Type} {p : α → Bool} {xs : List α}
    (first : xs.Pairwise fun a b => p b = true → p a = true) :
    xs.takeWhile p = xs.filter p ∧ xs.dropWhile p = xs.filter (!p ·) := by
  induction xs with
  | nil => exact ⟨rfl, rfl⟩
  | cons x rest ih =>
    obtain ⟨others, later⟩ := List.pairwise_cons.mp first
    by_cases kind : p x = true
    · simp [kind, ih later]
    · have none' : ∀ b ∈ rest, ¬p b = true := fun b member isKind => kind (others b member isKind)
      simp only [List.takeWhile_cons_of_neg kind, List.dropWhile_cons_of_neg kind,
        List.filter_cons_of_neg kind]
      refine ⟨(List.filter_eq_nil_iff.mpr none').symm, ?_⟩
      refine (List.filter_eq_self.mpr fun b member => ?_).symm
      rcases List.mem_cons.mp member with rfl | old
      · simpa using kind
      · simpa using none' b old

variable {σ : Type}

/-- No literal is made true on behalf of a theory while clauses are looked at. -/
theorem ClauseStore.visit_amends {store : ClauseStore} {keys : List ClauseKey} {s s' : Atoms}
    {outcome : Propagated} (visited : store.visit keys s = (outcome, s')) :
    Relation.ReflTransGen Atoms.Amends s s' := by
  induction keys generalizing s with
  | nil =>
    cases visited
    exact .refl
  | cons key rest ih =>
    unfold visit at visited
    split at visited
    · cases visited
      exact .refl
    · split at visited
      · exact ih visited
      · cases visited
        exact .refl
      · rename_i l _
        cases made : s.assign l (.clause key) with
        | error e =>
          rw [made] at visited
          cases visited
          exact .refl
        | ok answer =>
          obtain ⟨status, between⟩ := answer
          rw [made] at visited
          by_cases unset : status = .unset
          · rw [unset] at made
            exact .head (.assign s between l (.clause key) (by simp) made) (ih visited)
          · rw [(Atoms.assign_eq_ok made).2.2 unset] at visited
            exact ih visited

theorem ClauseStore.propagateWithin_amends {store : ClauseStore} {fuel : Nat} {s s' : Atoms}
    {outcome : Propagated} (propagated : store.propagateWithin fuel s = (outcome, s')) :
    Relation.ReflTransGen Atoms.Amends s s' := by
  induction fuel generalizing s with
  | zero =>
    cases propagated
    exact .refl
  | succ fuel ih =>
    unfold propagateWithin at propagated
    split at propagated
    · cases propagated
      exact .refl
    · rename_i l _
      rcases visited : store.visit (store.occurrences l.negate) s with ⟨e | _, between⟩
      · rw [visited] at propagated
        cases propagated
        exact visit_amends visited
      · rw [visited] at propagated
        exact ((visit_amends visited).tail (.advance between)).trans (ih propagated)

namespace Member

variable [Theory σ] {s : Atoms} {i : Nat} {m m' : Member σ} {own : List Call}

theorem Consulted.none (s : Atoms) (i : Nat) (m : Member σ) : Consulted s i m m [] :=
  ⟨.nil _, rfl, rfl, by simp, .none⟩

/-- A member is called once, and keeps what is kept of it. -/
theorem Consulted.single {theory : σ} {call : Call} (answered : Theory.Answers i m.theory call theory)
    (unprepared : call ≠ .preprocess) (consultation : m.Consultation s i [call]) :
    Consulted s i m { m with theory } [call] :=
  ⟨.single answered, rfl, rfl, by simp [unprepared.symm], consultation⟩

theorem Caught.consulted {literals : List Literal} (caught : Caught literals i m m' own) :
    Consulted s i m m' own where
  trace := caught.trace
  capabilities := by rw [caught.kept]
  level := by rw [caught.kept]
  prepared := by
    rw [caught.kept, caught.own]
    simp
  consultation := caught.own ▸ .enqueue _

theorem consulted_preprocess {occurs : Literal → Bool} (success : m.preprocess occurs = .ok (m', own)) :
    Consulted s i m m' own ∧ m'.preprocessed = true := by
  unfold preprocess at success
  split at success
  · rename_i done
    cases success
    exact ⟨.none s i m, done⟩
  · rename_i new
    obtain ⟨literals, _, success⟩ := Except.bind_eq_ok success
    cases success
    refine ⟨⟨.cons (.preprocess _) (.noteAll occurs literals _), rfl, rfl, by simp, ?_⟩, rfl⟩
    exact .preprocess (Bool.eq_false_iff.mpr new) literals occurs

theorem consulted_clearSatisfied (success : m.clearSatisfied = .ok (m', own)) :
    Consulted s i m m' own := by
  unfold clearSatisfied at success
  split at success
  · rename_i capable
    obtain ⟨theory, cleared, success⟩ := Except.bind_eq_ok success
    cases success
    exact .single (.clearSatisfied _ _ cleared) nofun (.clearSatisfied capable)
  · cases success
    exact .none s i m

/-- A member is asked for the proposal of a decision, if it is the proposer. -/
structure Asked (proposer : Option (Nat × Proposal)) (i : Nat) (m m' : Member σ) (own : List Call) :
    Prop where
  trace : Theory.Trace i m.theory own m'.theory
  kept : m' = { m with theory := m'.theory }
  capable : ∀ p, proposer = some (i, p) → m.capabilities.decisions = true
  own : own = Registry.callsOf i (Proposal.asked proposer)

/-- A member that was prepared is asked, told of the trail, and has a level opened on it. -/
theorem Asked.lifted {proposer : Option (Nat × Proposal)} {literals : List Literal} {m₁ m₂ : Member σ}
    {first second third : List Call} (asked : Asked proposer i m m₁ first)
    (told : Caught literals i m₁ m₂ second) (raised : Raised i m₂ m' third)
    (prepared : m.preprocessed = true) : Lifted proposer i m m' (first ++ (second ++ third)) where
  trace := asked.trace.append (told.trace.append raised.trace)
  capabilities := by rw [raised.kept, told.kept, asked.kept]
  level := by rw [raised.kept, told.kept, asked.kept]
  prepared := by
    rw [raised.kept, told.kept, asked.kept]
    exact ⟨prepared, prepared⟩
  capable := asked.capable
  own := ⟨_, by rw [asked.own, told.own, raised.own]⟩

/-- A member hears which decisions are taken back. -/
structure Undecided (records : List DecisionRecord) (i : Nat) (m m' : Member σ) (own : List Call) :
    Prop where
  trace : Theory.Trace i m.theory own m'.theory
  kept : m' = { m with theory := m'.theory }
  own : own = Registry.callsOf i (DecisionRecord.undone records)

end Member

variable [Theory σ] {c mid c' : Context σ}

namespace Registry

variable {r r' : Registry σ}

/-- Each decision is taken back by a word to its theory alone. -/
theorem undecideAll_eq_ok {records : List DecisionRecord} (success : undecideAll records r = .ok r') :
    Changes (Member.Undecided records) r r' ∧ r'.decisions = r.decisions := by
  induction records generalizing r with
  | nil =>
    cases success
    exact ⟨.refl (fun i m => ⟨.nil _, rfl, rfl⟩) _, rfl⟩
  | cons d rest ih =>
    obtain ⟨⟨answer, between⟩, changed, success⟩ := Except.bind_eq_ok success
    obtain ⟨others, decisions⟩ := ih success
    have other : ∀ i (m : Member σ), i ≠ d.theory → Member.Undecided [d] i m m [] := by
      intro i m different
      exact ⟨.nil _, rfl, by simp [DecisionRecord.undone, callsOf, different.symm]⟩
    have first : Changes (Member.Undecided [d]) r between ∧ between.decisions = r.decisions := by
      cases answer with
      | none =>
        obtain ⟨absent, rfl⟩ := changeAt_eq_none changed
        refine ⟨⟨rfl, fun i m found => ⟨m, [], found, (List.append_nil _).symm, other i m ?_⟩,
          fun _ _ => rfl⟩, rfl⟩
        rintro rfl
        rw [absent] at found
        cases found
      | some answer =>
        obtain ⟨m, m', own, found, undecided, rfl⟩ := changeAt_eq_ok changed
        cases undecided
        refine ⟨changes_setOne found ⟨.single (.undecide _ _), rfl, ?_⟩ other, rfl⟩
        simp [DecisionRecord.undone, callsOf]
    refine ⟨(first.1.trans others).mono fun i m m'' own effected => ?_, decisions.trans first.2⟩
    obtain ⟨m', before, after, rfl, one, more⟩ := effected
    refine ⟨one.trace.append more.trace, by rw [more.kept, one.kept], ?_⟩
    rw [one.own, more.own, ← callsOf_append]
    rfl

end Registry

/-- A step at which one member at most is consulted. -/
theorem Exchange.of_changeAt {α : Type} {i : Nat}
    {f : Member σ → Except Fault (α × Member σ × List Call)} {answer : Option α} {theories : Registry σ}
    (asked : c.theories.changeAt i f = .ok (answer, theories))
    (each : ∀ m a m' own, f m = .ok (a, m', own) → Member.Consulted c.atoms i m m' own) :
    Exchange c { c with theories } := by
  cases answer with
  | none =>
    obtain ⟨_, rfl⟩ := Registry.changeAt_eq_none asked
    exact .aside rfl rfl
  | some a =>
    obtain ⟨m, m', own, found, answered, rfl⟩ := Registry.changeAt_eq_ok asked
    have consulted := each m a m' own answered
    exact .consult (Registry.changes_set found consulted (Member.Consulted.none _)) rfl rfl

/-- A step at which every member is consulted. -/
theorem Exchange.of_changeAll {f : Member σ → Except Fault (Member σ × List Call)}
    {theories : Registry σ} (changed : c.theories.changeAll f = .ok theories)
    (each : ∀ i m m' own, f m = .ok (m', own) → Member.Consulted c.atoms i m m' own) :
    Exchange c { c with theories } := by
  obtain ⟨changes, _, decisions, _⟩ := Registry.changeAll_eq_ok changed
  exact .consult (changes.mono each) decisions rfl

/-- Every theory has been prepared. -/
def Context.Prepared (c : Context σ) : Prop := ∀ m ∈ c.theories.members, m.preprocessed = true

/-- Consulting theories undoes no preparation. -/
theorem Context.Prepared.consulted {s : Atoms}
    (changes : Registry.Changes (Member.Consulted s) c.theories c'.theories) (h : c.Prepared) :
    c'.Prepared := by
  intro m' member
  obtain ⟨i, m, own, found, consulted⟩ := changes.of_mem member
  exact consulted.prepared.mpr (.inl (h m (List.mem_of_getElem? found)))

theorem Context.Orderly.exchanges (h : c.Orderly) (exchanges : Relation.ReflTransGen Exchange c c') :
    c'.Orderly := by
  induction exchanges with
  | refl => exact h
  | tail _ exchange ih => exact exchange.orderly ih

/-! ### Building -/

/-- What is built is built by exchanges. -/
theorem Build.exchange {taking : Intake σ} (build : Build taking c c') : Exchange c c' := by
  cases build with
  | fresh previous a atoms success => exact .apart rfl rfl rfl (.inr (.fresh _ _ previous a success))
  | give => exact .aside rfl rfl
  | giveUnit clause key clauses l atoms given base distinct known stored state made =>
    exact .apart rfl rfl rfl (.inr (.assign _ _ l _ (by simp) made))
  | register theory outcome theories given base registered =>
    exact .register theory outcome base registered rfl
  | observe i a base known m found new theory own inside late told =>
    -- The new member is told of the atom late, or of nothing.
    have consulted : Member.Consulted c.atoms i m
        { m with theory, observed := insertAtom a m.observed } (own.map .enqueue) :=
      ⟨.enqueueAll told, rfl, rfl, by simp, .enqueue own⟩
    exact .consult (Registry.changes_set found consulted (Member.Consulted.none _)) rfl rfl

theorem Builds.exchange : Builds (Exchange : Context σ → Context σ → Prop) where
  adjust _ _ _ _ _ := .apart rfl rfl rfl (.inl rfl)
  build := Build.exchange
  begun _ := .single (.aside rfl rfl)

namespace Procedure

theorem assign_exchanges (l : Literal) {reason : Reason} (own : ∀ i marker, reason ≠ .theory i marker) :
    (assign l reason : Procedure σ Status).Leads Exchange c c fun _ _ => True := by
  refine .get_bind (.ofExcept_bind .refl (fun _ _ => rfl) fun (status, atoms) made => ?_)
  refine .modify_bind (.pure (.single (.apart rfl rfl rfl ?_)) trivial)
  by_cases unset : status = .unset
  · rw [unset] at made
    exact .inr (.assign _ atoms l reason own made)
  · exact .inl ((Atoms.assign_eq_ok made).2.2 unset)

theorem addClause_exchanges (clause : Clause) :
    (addClause clause : Procedure σ ClauseOutcome).Leads Exchange c c fun _ _ => True := by
  unfold addClause
  refine .get_bind ?_
  dsimp only
  split
  · exact .throw_bind .refl rfl
  · refine .call (ensureAtoms_leads .exchange clause) .refl fun _ mid reached _ => ?_
    refine .ofFaulty_bind fun normal _ => ?_
    split
    · exact .pure reached trivial
    · exact .modify_bind (.pure (reached.tail (.aside rfl rfl)) trivial)
    · refine .get_bind (.get_bind (.ofExcept_bind reached (fun _ _ => rfl) fun (key, clauses) _ => ?_))
      refine .modify_bind (.modify_bind ?_)
      have aside : Exchange mid { mid with clauses, phase := mid.phase.begun } :=
        .aside rfl rfl
      have stored := reached.tail aside
      dsimp only
      split
      · rename_i l _
        exact .call (assign_exchanges l nofun) stored fun _ _ reached _ => .pure reached trivial
      · exact .modify_bind (.pure (stored.tail (.aside rfl rfl)) trivial)
      · exact .pure stored trivial

theorem addTheory_exchanges (theory : σ) :
    (addTheory theory).Leads Exchange c c fun _ _ => True := by
  unfold addTheory
  refine .get_bind ?_
  dsimp only
  split
  · exact .throw_bind .refl rfl
  · rename_i base
    replace base : c.level = 0 := Decidable.not_not.mp base
    rcases registered : c.theories.register theory with ⟨outcome, theories⟩
    have moved : Exchange c { c with theories } := .register theory outcome base registered rfl
    refine .modify_bind (.ofExcept_bind (.single moved) (fun _ _ => rfl) fun index _ => ?_)
    exact .modify_bind (.pure (.tail (.single moved) (.aside rfl rfl)) trivial)

/-! ### Propagation -/

theorem preprocess_exchanges : (preprocess : Procedure σ Unit).Leads Exchange c c fun _ after =>
    after.atoms = c.atoms ∧ after.Prepared := by
  refine .get_bind (.ofFaulty_bind fun theories prepared => ?_)
  refine .modify (.single ?_) ⟨rfl, fun m' member => ?_⟩
  · exact .of_changeAll prepared fun _ _ _ _ success => (Member.consulted_preprocess success).1
  · obtain ⟨i, m, own, _, success⟩ := (Registry.changeAll_eq_ok prepared).1.of_mem member
    exact (Member.consulted_preprocess (s := c.atoms) (i := i) success).2

theorem deliverAll_exchanges : (deliverAll : Procedure σ Unit).Leads Exchange c c fun _ _ => True := by
  refine .get_bind (.ofFaulty_bind fun theories told => ?_)
  obtain ⟨changes, _, decisions⟩ := Registry.changes_deliverAll told
  have consulted : Registry.Changes (Member.Consulted c.atoms) c.theories theories :=
    changes.mono fun _ _ _ _ => Member.Caught.consulted
  exact .modify (.single (.consult consulted decisions rfl)) trivial

theorem exchanges_of_amends {atoms : Atoms} (steps : Relation.ReflTransGen Atoms.Amends c.atoms atoms) :
    Relation.ReflTransGen Exchange c { c with atoms } :=
  steps.lift (fun atoms => { c with atoms }) fun _ _ step => .apart rfl rfl rfl (.inr step)

theorem propagateUnits_exchanges : (propagateUnits : Procedure σ Unit).Ensures c fun _ after =>
    Relation.ReflTransGen Exchange c after := by
  refine .get_bind ?_
  rcases propagated : c.clauses.propagate c.atoms with ⟨outcome, atoms⟩
  have reached := exchanges_of_amends (ClauseStore.propagateWithin_amends propagated)
  exact .modify_bind (.ofExcept (fun _ _ => reached) fun _ _ => reached)

theorem propagateClauses_exchanges :
    (propagateClauses : Procedure σ (Option ClauseKey)).Leads Exchange c c fun _ _ => True := by
  refine .get_bind ?_
  rcases propagated : c.clauses.propagate c.atoms with ⟨outcome, atoms⟩
  have reached := exchanges_of_amends (ClauseStore.propagateWithin_amends propagated)
  refine .modify_bind ?_
  split
  · exact .pure reached trivial
  · exact .pure reached trivial
  · exact .throw reached rfl

theorem acceptConflict_exchanges (i : Nat) (clause : Clause) :
    (acceptConflict i clause : Procedure σ Conflict).Leads Exchange c c fun _ _ => True := by
  refine .get_bind ?_
  dsimp only
  split
  · exact .modify_bind (.modify_bind (.pure (.single (.apart rfl rfl rfl (.inl rfl))) trivial))
  · exact .throw .refl rfl

theorem takeTurn_exchanges {turn : σ → Turn (Option Clause × σ)}
    {call : Nat → List Literal → Option Clause → Call} (kind : TurnKind turn call) (i : Nat) :
    (takeTurn i turn call).Leads Exchange c c fun _ _ => True := by
  refine .get_bind (.ofFaulty_bind fun (outcome, theories) taken => ?_)
  dsimp only
  split
  · exact .throw .refl rfl
  · rename_i conflict atoms
    have moved : Exchange c { c with atoms, theories } := .turn i turn call kind conflict taken
    refine .modify_bind (.modify_bind ?_)
    split
    · exact .pure (.single moved) trivial
    · exact .call (acceptConflict_exchanges i _) (.single moved) fun _ _ reached _ =>
        .pure reached trivial

/-- A check that leaves theories as they are is a consultation of each of them, up to the first that denies. -/
theorem checkEach_exchanges {check : Atoms → σ → Except Fault Bool} (call : Bool → Call)
    {error : Nat → TheoryError} (unprepared : ∀ answer, call answer ≠ .preprocess)
    (consultation : ∀ s i (m : Member σ) answer, m.Consultation s i [call answer])
    (answers : ∀ i s t answer, check s t = .ok answer → Theory.Answers i t (call answer) t)
    (indices : List Nat) : (checkEach check call error indices).Leads Exchange c c fun _ _ => True := by
  induction indices generalizing c with
  | nil => exact .pure .refl trivial
  | cons i rest ih =>
    refine .get_bind (.ofFaulty_bind fun (answer, theories) asked => ?_)
    have moved : Exchange c { c with theories } := by
      refine .of_changeAt asked fun m a m' own answered => ?_
      obtain ⟨given, checked, same⟩ := Except.bind_eq_ok answered
      cases same
      exact .single (answers i _ _ _ checked) (unprepared a) (consultation _ _ _ a)
    refine .modify_bind ?_
    split
    · exact .throw (.single moved) rfl
    · exact ih.from_start (.single moved)

theorem checkPropagated_exchanges :
    (checkPropagated : Procedure σ Unit).Leads Exchange c c fun _ _ => True :=
  .get_bind (checkEach_exchanges .checkPropagated nofun (fun _ _ _ => .checkPropagated)
    (fun _ s t answer => .checkPropagated t s answer) _)

theorem checkSolved_exchanges : (checkSolved : Procedure σ Unit).Leads Exchange c c fun _ _ => True := by
  refine .get_bind (checkEach_exchanges .checkSolved nofun (fun _ _ _ => .checkSolved)
    (fun i s t answer checked => ?_) _)
  cases checked
  exact .checkSolved t s

theorem hintsSatisfied_exchanges (i : Nat) :
    (hintsSatisfied i : Procedure σ Bool).Leads Exchange c c fun _ _ => True := by
  refine .get_bind (.ofFaulty_bind fun (answer, theories) asked => ?_)
  cases answer with
  | none => exact .fault
  | some answer =>
    refine .modify_bind (.pure (.single (.of_changeAt asked fun m a m' own answered => ?_)) trivial)
    split at answered
    · rename_i capable
      obtain ⟨given, hinted, same⟩ := Except.bind_eq_ok answered
      cases same
      exact .single (.isSatisfied _ _ hinted) nofun (.isSatisfied capable a)
    · cases answered
      exact .none _ i m

/-- A final turn is an exchange, and those that follow it are. -/
theorem solveEach_exchanges (start : Nat) (indices : List Nat) :
    (solveEach start indices : Procedure σ FinalCheck).Leads Exchange c c fun _ _ => True := by
  induction indices generalizing c with
  | nil => exact .pure .refl trivial
  | cons i rest ih =>
    refine .call (hintsSatisfied_exchanges i) .refl fun _ _ reached _ => ?_
    split
    · exact ih.from_start reached
    · refine .call (takeTurn_exchanges .solve i) reached fun _ _ reached' _ => ?_
      split
      · exact .pure reached' trivial
      · refine .get_bind ?_
        split
        · exact .pure reached' trivial
        · exact ih.from_start reached'

theorem finalCheck_exchanges :
    (finalCheck : Procedure σ FinalCheck).Leads Exchange c c fun _ _ => True := by
  refine .call deliverAll_exchanges .refl fun _ _ reached _ => ?_
  refine .get_bind (.call (solveEach_exchanges _ _) reached fun _ _ reached' _ => ?_)
  split
  · split
    · exact .call checkSolved_exchanges reached' fun _ _ reached _ => .pure reached trivial
    · exact .pure reached' trivial
  · exact .pure reached' trivial

/-- A turn of a theory is an exchange, and so is what follows it before the next turn. -/
theorem takeTurns_exchanges (indices : List Nat) (assigned : Bool) :
    (takeTurns indices assigned : Procedure σ (Except Conflict Bool)).Leads Exchange c c
      fun _ _ => True := by
  induction indices generalizing c assigned with
  | nil => exact .pure .refl trivial
  | cons i rest ih =>
    refine .get_bind (.call (takeTurn_exchanges .propagate i) .refl fun _ _ reached _ => ?_)
    split
    · exact .pure reached trivial
    · refine .get_bind ?_
      split
      · refine .call propagateClauses_exchanges reached fun _ _ reached' _ => ?_
        split
        · exact .pure reached' trivial
        · exact .call deliverAll_exchanges reached' fun _ _ reached _ => (ih true).from_start reached
      · exact (ih assigned).from_start reached

theorem roundsWithin_exchanges (fuel : Nat) :
    (roundsWithin fuel : Procedure σ (Option Conflict)).Leads Exchange c c fun _ _ => True := by
  induction fuel generalizing c with
  | zero => exact .pure .refl trivial
  | succ fuel ih =>
    refine .call propagateClauses_exchanges .refl fun _ _ reached _ => ?_
    split
    · exact .pure reached trivial
    · refine .call deliverAll_exchanges reached fun _ _ reached' _ => ?_
      refine .get_bind (.call (takeTurns_exchanges _ false) reached' fun _ _ reached'' _ => ?_)
      split
      · exact .pure reached'' trivial
      · exact ih.from_start reached''
      · exact .pure reached'' trivial

theorem propagate_exchanges :
    (propagate : Procedure σ (Option Conflict)).Leads Exchange c c fun _ _ => True := by
  refine .get_bind (.call (roundsWithin_exchanges _) .refl fun _ _ reached _ => ?_)
  split
  · exact .pure reached trivial
  · refine .get_bind ?_
    split
    · exact .call checkPropagated_exchanges reached fun _ _ reached _ => .pure reached trivial
    · exact .pure reached trivial

end Procedure

/-! ### Decisions -/

/-- A theory was asked for a proposal that can be decided, or none was. -/
structure Context.Proposes (c : Context σ) (proposer : Option (Nat × Proposal)) (c' : Context σ) :
    Prop where
  changes : Registry.Changes (Member.Asked proposer) c.theories c'.theories
  decisions : c'.theories.decisions = c.theories.decisions
  atoms : c'.atoms = c.atoms
  accepted : ∀ i p, proposer = some (i, p) →
    c.atoms.isOpen p.literal = true ∧ i < c.theories.members.length

theorem Context.Proposes.none (c : Context σ) : c.Proposes none c where
  changes := .refl (fun _ _ => ⟨.nil _, rfl, nofun, rfl⟩) _
  decisions := rfl
  atoms := rfl
  accepted := nofun

/-- A theory is asked for its proposal, and the proposal can be decided. -/
theorem Context.Proposes.ask {i : Nat} {p : Proposal} {m : Member σ} {theory : σ}
    (found : c.theories.members[i]? = some m) (capable : m.capabilities.decisions = true)
    (answered : Theory.decide c.atoms m.theory = (some p, theory))
    (isOpen : c.atoms.isOpen p.literal = true) :
    c.Proposes (some (i, p)) (c.withCall i { m with theory } (.decide (some p))) where
  changes := by
    refine Registry.changes_setOne found ⟨.single (.decide _ _ c.atoms _ answered), rfl,
      fun _ _ => capable, by simp [Proposal.asked, Registry.callsOf]⟩ fun j n other => ?_
    refine ⟨.nil _, rfl, fun q no => ?_, by simp [Proposal.asked, Registry.callsOf, other.symm]⟩
    cases no
    exact absurd rfl other
  decisions := rfl
  atoms := rfl
  accepted := by
    rintro j q same
    cases same
    exact ⟨isOpen, (List.getElem?_eq_some_iff.mp found).1⟩

namespace Procedure

/-- What the asking for proposals comes to: theories are consulted in vain, up to one whose proposal can
be decided. -/
def ProposalsAsked (c : Context σ) (result : Except Error (Option (Nat × Proposal)))
    (after : Context σ) : Prop :=
  ∃ outcome mid, result = .ok outcome ∧ Relation.ReflTransGen Exchange c mid ∧ mid.atoms = c.atoms ∧
    (c.Prepared → mid.Prepared) ∧
    match outcome with
    | none => after = mid
    | some proposal => mid.Proposes proposal after

theorem askForProposal_exchanges (indices : List Nat) :
    (askForProposal indices : Procedure σ (Option (Nat × Proposal))).Ensures c (ProposalsAsked c) := by
  induction indices generalizing c with
  | nil => exact .pure ⟨none, c, rfl, .refl, rfl, id, rfl⟩
  | cons i rest ih =>
    refine .get_bind ?_
    dsimp only
    split
    · exact .fault
    · rename_i capabilities stated
      split
      · rename_i capable
        refine .ofFaulty_bind fun (proposal, theories) asked => .modify_bind ?_
        cases proposal with
        | none =>
          obtain ⟨_, rfl⟩ := Registry.changeAt_eq_none asked
          exact ih
        | some proposal =>
          obtain ⟨m, m', own, found, answered, rfl⟩ := Registry.changeAt_eq_ok asked
          rcases wish : Theory.decide c.atoms m.theory with ⟨wanted, theory⟩
          simp only [wish] at answered
          cases answered
          have able : m.capabilities.decisions = true := by
            rw [Registry.capabilities, found] at stated
            cases stated
            exact capable
          -- What is proposed in vain is a consultation, and the theories to come are asked after it.
          have vain (closed : ∀ p, proposal = some p → c.atoms.isOpen p.literal = false) :
              (askForProposal rest : Procedure σ (Option (Nat × Proposal))).Ensures
                (c.withCall i { m with theory } (.decide proposal)) (ProposalsAsked c) := by
            have changes := Registry.changes_set found (Member.Consulted.single
              (.decide _ _ c.atoms _ wish) nofun (.decide able _ closed)) (Member.Consulted.none c.atoms)
            have step : Exchange c (c.withCall i { m with theory } (.decide proposal)) :=
              .consult changes rfl rfl
            refine ih.mono fun result after ⟨outcome, mid, same, reached, atoms, prepared, ends⟩ => ?_
            exact ⟨outcome, mid, same, .head step reached, atoms,
              fun before => prepared (before.consulted changes), ends⟩
          split
          · rename_i p proposed
            replace proposed : proposal = some p := proposed
            subst proposed
            split
            · rename_i isOpen
              exact .pure ⟨some (i, p), c, rfl, .refl, rfl, id, .ask found able wish isOpen⟩
            · rename_i closed
              refine vain fun q same => ?_
              cases same
              exact Bool.eq_false_iff.mpr closed
          · rename_i nothing
            replace nothing : proposal = none := nothing
            exact vain fun q same => by rw [nothing] at same; cases same
      · exact ih

/-- A decision on a literal without a value: theories are told of the trail, and a level is opened.
Together with the asking of the proposer it is one exchange. -/
theorem applyDecision_exchanges {proposer : Option (Nat × Proposal)} {l : Literal}
    {given : Option (Nat × Option Marker)} (proposes : mid.Proposes proposer c) (prepared : mid.Prepared)
    (known : l.atom < mid.atoms.count) (unset : mid.atoms.value l.atom = none)
    (literal : ∀ i p, proposer = some (i, p) → p.literal = l)
    (reason : given = proposer.map fun (i, p) => (i, p.reason)) :
    (applyDecision l given).Ensures c fun result after => result = .ok () ∧ Exchange mid after := by
  subst reason
  have atoms : c.atoms = mid.atoms := proposes.atoms
  refine (applyDecision_decided (by rwa [atoms]) (by rwa [atoms]) _).mono ?_
  rintro result _ ⟨same, told, opened, assigned, delivered, raised, made, rfl⟩
  refine ⟨same, ?_⟩
  have changes : Registry.Changes (Member.Lifted proposer) mid.theories opened := by
    refine (proposes.changes.trans ((Registry.changes_deliverAll delivered).1.trans
      (Registry.changes_openLevel raised).1)).mono_mem fun i m m' own found effected => ?_
    obtain ⟨_, _, _, rfl, asked, _, _, _, rfl, told, raised⟩ := effected
    exact asked.lifted told raised (prepared m (List.mem_of_getElem? found))
  have decisions : opened.decisions = mid.theories.decisions := by
    rw [(Registry.changes_openLevel raised).2.2, (Registry.changes_deliverAll delivered).2.2,
      proposes.decisions]
  have level : c.atoms.openLevel.level = mid.level + 1 := by
    rw [atoms]
    exact Trail.level_openLevel _
  refine .decide l proposer (fun i p same => ?_) ?_ ?_ (atoms ▸ made)
  · obtain ⟨isOpen, inside⟩ := proposes.accepted i p same
    obtain rfl := literal i p same
    exact ⟨rfl, isOpen, inside⟩
  · cases proposer <;> exact ⟨changes.length, changes.member, changes.absent⟩
  · cases proposer with
    | none => exact decisions
    | some proposal =>
      simp only [Option.map_some, Registry.recordDecision, decisions, level]

/-- A decision without a proposer. -/
theorem applyDecision_unproposed {l : Literal} (prepared : c.Prepared) (known : l.atom < c.atoms.count)
    (unset : c.atoms.value l.atom = none) :
    (applyDecision l none).Ensures c fun result after => result = .ok () ∧ Exchange c after :=
  applyDecision_exchanges (.none c) prepared known unset nofun rfl

theorem decideLiteral_exchanges (l : Literal) :
    (decideLiteral l : Procedure σ Unit).Leads Exchange c c fun _ _ => True := by
  refine .get_bind ?_
  dsimp only
  split
  · exact .throw_bind .refl rfl
  · rename_i proper
    split
    · exact .throw_bind .refl rfl
    · rename_i unset
      refine .call preprocess_exchanges .refl fun _ mid reached ⟨same, prepared⟩ => ?_
      refine (applyDecision_unproposed prepared ?_ ?_).mono ?_
      · rw [same]
        exact Nat.not_le.mp fun beyond => proper (.inr beyond)
      · rw [same]
        simpa using unset
      · rintro result after ⟨rfl, exchange⟩
        exact ⟨reached.tail exchange, trivial⟩

/-- Theories are prepared, asked for proposals and told of the trail before a level is opened for a decision. -/
theorem makeDecision_exchanges (h : c.Orderly) :
    (makeDecision : Procedure σ Decision).Leads Exchange c c fun _ _ => True := by
  refine .call preprocess_exchanges .refl fun _ start reached ⟨same, prepared⟩ => ?_
  refine .get_bind (.bind (askForProposal_exchanges _) (fun e after ⟨_, _, no, _⟩ => by cases no) ?_)
  rintro proposal asked ⟨_, mid, isOutcome, further, sameMid, stays, ends⟩
  cases isOutcome
  have toMid := reached.trans further
  split
  · rename_i i p
    obtain ⟨known, unset⟩ := Atoms.isOpen_eq_true (ends.accepted i p rfl).1
    have counted : mid.Proposes (some (i, p))
        { asked with counters.theoryDecisions := asked.counters.theoryDecisions + 1 } :=
      ⟨ends.changes, ends.decisions, ends.atoms, ends.accepted⟩
    have literal : ∀ j q, some (i, p) = some (j, q) → q.literal = p.literal := by
      rintro j q same
      cases same
      rfl
    refine .modify_bind (.bind
      (applyDecision_exchanges counted (stays prepared) known unset literal rfl)
      (fun e after failed => by cases failed.1) ?_)
    rintro _ after ⟨_, exchange⟩
    exact .pure ⟨toMid.tail exchange, trivial⟩
  · obtain rfl : asked = mid := ends
    have room : asked.atoms.count ≤ maxAtom + 1 := (h.exchanges toMid).room
    refine Leads.call (atomWithoutValue_leads Builds.exchange.adjust) toMid ?_
    rintro outcome drawn reached' ⟨⟨atoms, theories⟩, chosen⟩
    split
    · exact .pure reached' trivial
    · rename_i a
      obtain ⟨known, unset⟩ := Atoms.mem_unvalued.mp chosen
      refine .call (valueToDecide_leads Builds.exchange.adjust a) reached' ?_
      rintro value valued reached'' ⟨atoms', theories'⟩
      refine .ofFaulty_bind fun l isLiteral => ?_
      have onAtom : l.atom = a := by
        rw [Literal.ofAtom_eq_ok (by lia) isLiteral, Literal.atom_on]
      have same : valued.atoms = asked.atoms := atoms'.trans atoms
      have isPrepared : valued.Prepared := by
        rw [Context.Prepared, theories', theories]
        exact stays prepared
      refine Ensures.bind (applyDecision_unproposed isPrepared ?_ ?_)
        (fun e after failed => by cases failed.1) ?_
      · rw [same, onAtom]
        exact known
      · rw [same, onAtom]
        exact unset
      · rintro _ after ⟨_, exchange⟩
        exact Leads.pure (reached''.tail exchange) trivial

end Procedure

end SatModulo
