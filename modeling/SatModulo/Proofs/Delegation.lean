import SatModulo.Proofs.GivenClauses
import SatModulo.Proofs.Matching
import SatModulo.Proofs.Noting
import SatModulo.Proofs.Rounds
import SatModulo.Theories.RuleTable

/-!
# Decisions are delegated

Theories are asked for a proposal in the order of their turns, up to the first whose proposal is on a known atom
without a value, and that is decided. What the core keeps does not show who was asked in vain
(`Context.Delegates`).
-/
namespace SatModulo

variable {σ : Type}

attribute [ext] Registry Context

/-! ### Proposals -/

/-- The answers to the questions for a proposal among calls. -/
def proposalsIn (calls : List (Nat × Call)) : List (Nat × Option Proposal) :=
  calls.filterMap fun
    | (i, .decide proposal) => some (i, proposal)
    | _ => none

theorem proposalsIn_append (first second : List (Nat × Call)) :
    proposalsIn (first ++ second) = proposalsIn first ++ proposalsIn second := List.filterMap_append

theorem proposalsIn_eq_nil {calls : List (Nat × Call)}
    (others : ∀ call ∈ calls, ∀ proposal, call.2 ≠ .decide proposal) : proposalsIn calls = [] := by
  refine List.filterMap_eq_nil_iff.mpr fun call member => ?_
  have other := others call member
  rcases call with ⟨i, _ | _⟩ <;> first | rfl | exact absurd rfl (other _)

namespace Registry

variable [Theory σ] {r r' : Registry σ} {s : Atoms} {i j : Nat} {asked : List Nat}

def decides (r : Registry σ) (i : Nat) : Bool := ((r.capabilities i).map (·.decisions)).getD false

def deciders (r : Registry σ) : List Nat := r.schedule.order.filter r.decides

def proposal (r : Registry σ) (s : Atoms) (i : Nat) : Option Proposal :=
  r.members[i]?.bind fun m => (Theory.decide s m.theory).1

/-- What a theory proposes, if that is on a known atom without a value. -/
def openProposal (r : Registry σ) (s : Atoms) (i : Nat) : Option Proposal :=
  (r.proposal s i).filter fun p => p.literal.atom ∈ s.unvalued

def askAll (s : Atoms) (asked : List Nat) (r : Registry σ) : Registry σ :=
  { r with
    members := r.members.mapIdx fun i m =>
      if i ∈ asked then { m with theory := (Theory.decide s m.theory).2 } else m
    calls := r.calls ++ asked.map fun i => (i, Call.decide (r.proposal s i)) }

theorem askAll_nil : r.askAll s [] = r := by
  have members : r.members.mapIdx (fun _ m => m) = r.members := by
    refine List.ext_getElem? fun i => ?_
    rw [List.getElem?_mapIdx, Option.map_id']
  simp [askAll, members]

theorem getElem?_askAll : (r.askAll s asked).members[i]? = r.members[i]?.map fun m =>
    if i ∈ asked then { m with theory := (Theory.decide s m.theory).2 } else m := List.getElem?_mapIdx

theorem length_askAll : (r.askAll s asked).members.length = r.members.length := by
  simp [askAll]

theorem proposal_askAll (other : i ∉ asked) : (r.askAll s asked).proposal s i = r.proposal s i := by
  simp only [proposal, getElem?_askAll, if_neg other, Option.map_id']

theorem decides_askAll : (r.askAll s asked).decides = r.decides := by
  funext i
  simp only [decides, capabilities, getElem?_askAll, Option.map_map]
  congr 1
  cases r.members[i]? with
  | none => rfl
  | some m =>
    simp only [Option.map_some, Function.comp_apply]
    split <;> rfl

/-- Asking a theory and then others is asking them all. -/
theorem askAll_askAll (first : i ∉ asked) : (r.askAll s [i]).askAll s asked = r.askAll s (i :: asked) := by
  have members : ((r.askAll s [i]).askAll s asked).members = (r.askAll s (i :: asked)).members := by
    refine List.ext_getElem? fun j => ?_
    simp only [getElem?_askAll, Option.map_map, List.mem_cons]
    congr 1
    funext m
    by_cases same : j = i
    · subst same
      simp [first]
    · simp [same]
  have answers : asked.map (fun j => (j, Call.decide ((r.askAll s [i]).proposal s j))) =
      asked.map fun j => (j, Call.decide (r.proposal s j)) := by
    refine List.map_congr_left fun j member => ?_
    rw [proposal_askAll]
    rintro other
    exact first (List.mem_singleton.mp other ▸ member)
  have calls : ((r.askAll s [i]).askAll s asked).calls = (r.askAll s (i :: asked)).calls := by
    refine Array.ext' ?_
    simp only [askAll, List.map_cons, List.map_nil, Array.toList_appendList, List.append_assoc,
      List.singleton_append]
    exact congrArg _ (congrArg _ answers)
  exact Registry.ext members rfl rfl rfl calls

omit [Theory σ] in
theorem exists_of_decides (makes : r.decides i) :
    ∃ m, r.members[i]? = some m ∧ m.capabilities.decisions := by
  unfold decides capabilities at makes
  cases found : r.members[i]? with
  | none =>
    rw [found] at makes
    cases makes
  | some m =>
    rw [found] at makes
    exact ⟨m, rfl, makes⟩

/-- A theory that makes decisions is asked as one of those that are. -/
theorem changeAt_decide (makes : r.decides i) :
    (r.changeAt i fun m =>
      let (proposal, theory) := Theory.decide s m.theory
      .ok (proposal, { m with theory }, [.decide proposal])) =
    .ok (some (r.proposal s i), r.askAll s [i]) := by
  obtain ⟨m, found, _⟩ := exists_of_decides makes
  have proposal : r.proposal s i = (Theory.decide s m.theory).1 := by
    rw [Registry.proposal, found]
    rfl
  have members : (r.askAll s [i]).members =
      r.members.set i { m with theory := (Theory.decide s m.theory).2 } := by
    obtain ⟨inside, rfl⟩ := List.getElem?_eq_some_iff.mp found
    refine List.ext_getElem? fun j => ?_
    rw [getElem?_askAll, List.getElem?_set]
    by_cases same : i = j
    · subst same
      simp [inside]
    · simp [same, Ne.symm same]
  have calls : (r.askAll s [i]).calls = r.calls ++ [(i, Call.decide (Theory.decide s m.theory).1)] := by
    rw [← proposal]
    rfl
  refine (changeAt_of_ok found rfl).trans (congrArg Except.ok (Prod.ext (congrArg some proposal.symm) ?_))
  exact Registry.ext members.symm rfl rfl rfl calls.symm

theorem openProposal_askAll (other : i ∉ asked) : (r.askAll s asked).openProposal s i = r.openProposal s i := by
  rw [openProposal, proposal_askAll other, openProposal]

end Registry

/-- What can be decided is on a known atom without a value. -/
theorem Atoms.Coherent.isOpen_iff {s : Atoms} (h : s.Coherent) (l : Literal) :
    s.isOpen l = true ↔ l.atom ∈ s.unvalued := by
  rw [Atoms.mem_unvalued]
  refine ⟨Atoms.isOpen_eq_true, fun ⟨known, unset⟩ => ?_⟩
  have proper : l.atom ≠ topAtom := by
    intro top
    rw [top, Atoms.value_eq_none, h.top] at unset
    cases unset
  simp [Atoms.isOpen, proper, known, unset]

/-! ### Consultation -/

variable [Theory σ] {c mid after : Context σ}

namespace Context

def askAll (c : Context σ) (asked : List Nat) : Context σ :=
  { c with theories := c.theories.askAll c.atoms asked }

theorem askAll_askAll {i : Nat} {asked : List Nat} (first : i ∉ asked) :
    (c.askAll [i]).askAll asked = c.askAll (i :: asked) := by
  simp only [askAll, Registry.askAll_askAll first]

/-- Of theories that make decisions, those were asked that are before the first whose proposal is on a known atom
without a value, and that one; its proposal is taken up. -/
def Consulted (c : Context σ) (deciders : List Nat) (outcome : Option (Nat × Proposal)) (after : Context σ) :
    Prop :=
  ∃ rejected rest, deciders = rejected ++ rest ∧
    (∀ i ∈ rejected, c.theories.openProposal c.atoms i = none) ∧
    match rest with
    | [] => outcome = none ∧ after = c.askAll rejected
    | i :: _ => ∃ p, c.theories.openProposal c.atoms i = some p ∧ outcome = some (i, p) ∧
      after = c.askAll (rejected ++ [i])

/-- A theory that is asked in vain changes nothing for those after it. -/
theorem Consulted.cons {i : Nat} {deciders : List Nat} {outcome : Option (Nat × Proposal)}
    (others : (c.askAll [i]).Consulted deciders outcome after) (first : i ∉ deciders)
    (inVain : c.theories.openProposal c.atoms i = none) : c.Consulted (i :: deciders) outcome after := by
  obtain ⟨rejected, rest, rfl, passed, outcome⟩ := others
  rw [List.mem_append, not_or] at first
  have same : ∀ j, j ≠ i → (c.askAll [i]).theories.openProposal c.atoms j = c.theories.openProposal c.atoms j :=
    fun j other => Registry.openProposal_askAll fun member => other (List.mem_singleton.mp member)
  refine ⟨i :: rejected, rest, rfl, List.forall_mem_cons.mpr ⟨inVain, fun j member => ?_⟩, ?_⟩
  · rw [← same j fun equal => first.1 (equal ▸ member)]
    exact passed j member
  · cases rest with
    | nil => exact ⟨outcome.1, outcome.2.trans (askAll_askAll first.1)⟩
    | cons j rest =>
      obtain ⟨p, proposed, taken, rfl⟩ := outcome
      rw [List.mem_cons, not_or] at first
      refine ⟨p, ?_, taken, askAll_askAll ?_⟩
      · rw [← same j (Ne.symm first.2.1)]
        exact proposed
      · simp [first.1, first.2.1]

end Context

namespace Procedure

theorem askForProposal_ends (h : c.atoms.Coherent) {indices : List Nat} (distinct : indices.Nodup)
    (known : ∀ i ∈ indices, i < c.theories.members.length) :
    (askForProposal indices : Procedure σ (Option (Nat × Proposal))).Ends c (fun _ => False) fun result after =>
      ∃ outcome, result = .ok outcome ∧ c.Consulted (indices.filter c.theories.decides) outcome after := by
  induction indices generalizing c with
  | nil => exact .pure ⟨none, rfl, [], [], rfl, nofun, rfl, by rw [Context.askAll, Registry.askAll_nil]⟩
  | cons i rest ih =>
    rw [List.nodup_cons] at distinct
    rw [List.forall_mem_cons] at known
    obtain ⟨capabilities, found⟩ : ∃ capabilities, c.theories.capabilities i = some capabilities :=
      ⟨_, by rw [Registry.capabilities, List.getElem?_eq_getElem known.1]; rfl⟩
    have decides : c.theories.decides i = capabilities.decisions := by rw [Registry.decides, found]; rfl
    refine .get_bind ?_
    rw [found]
    dsimp only
    split
    · rename_i makes
      rw [← decides] at makes
      rw [Registry.changeAt_decide makes, List.filter_cons_of_pos makes]
      refine .ofFaulty_bind (fun _ failed => by cases failed) ?_
      rintro _ ⟨⟩
      refine .modify_bind ?_
      have passed (inVain : c.theories.openProposal c.atoms i = none) :
          (askForProposal rest).Ends (c.askAll [i]) (fun _ => False) fun result after =>
            ∃ outcome, result = .ok outcome ∧ c.Consulted (i :: rest.filter c.theories.decides) outcome after := by
        have known' : ∀ j ∈ rest, j < (c.askAll [i]).theories.members.length := by
          rw [Context.askAll, Registry.length_askAll]
          exact known.2
        have others : (askForProposal rest).Ends (c.askAll [i]) (fun _ => False) _ := ih h distinct.2 known'
        refine others.mono ?_
        rintro result after ⟨outcome, rfl, consulted⟩
        rw [Context.askAll, Registry.decides_askAll] at consulted
        exact ⟨outcome, rfl, consulted.cons (fun member => distinct.1 (List.mem_filter.mp member).1) inVain⟩
      rw [Option.join_some]
      cases proposed : c.theories.proposal c.atoms i with
      | some p =>
        dsimp only
        have offers : c.theories.openProposal c.atoms i =
            if c.atoms.isOpen p.literal then some p else none := by
          simp only [Registry.openProposal, proposed, Option.filter_some, h.isOpen_iff, decide_eq_true_eq]
        split
        · rename_i isOpen
          rw [if_pos isOpen] at offers
          exact .pure ⟨_, rfl, [], i :: rest.filter c.theories.decides, rfl, nofun, p, offers, rfl, rfl⟩
        · rename_i closed
          exact passed (by rw [offers, if_neg closed])
      | none => exact passed (by rw [Registry.openProposal, proposed, Option.filter_none])
    · rename_i makes
      rw [← decides] at makes
      rw [List.filter_cons_of_neg makes]
      exact ih h distinct.2 known.2

end Procedure

/-! ### Decisions -/

namespace Registry

variable {r prepared told opened : Registry σ} {t : Trail} {asked : List Nat} {s : Atoms}

def callsSince (r r' : Registry σ) : List (Nat × Call) := r'.calls.toList.drop r.calls.size

omit [Theory σ] in
theorem callsSince_eq {r' : Registry σ} {calls : List (Nat × Call)} (added : r'.calls = r.calls ++ calls) :
    r.callsSince r' = calls := by
  rw [callsSince, added, Array.toList_appendList, ← Array.length_toList, List.drop_left]

/-- Asking theories changes their states only, and enters the questions in their accounts. -/
theorem changes_askAll (known : ∀ i ∈ asked, i < r.members.length) :
    Changes (fun _ m m' own => m' = { m with theory := m'.theory } ∧ ∀ call ∈ own, ∃ p, call = .decide p) r
      (r.askAll s asked) where
  length := length_askAll
  member := by
    intro i m found
    refine ⟨_, callsOf i (asked.map fun i => (i, .decide (r.proposal s i))),
      by rw [getElem?_askAll, found, Option.map_some], ?_, ?_, fun call member => ?_⟩
    · rw [account, askAll, Array.toList_appendList, callsOf_append]
      rfl
    · split <;> rfl
    · obtain ⟨j, _, same⟩ := List.mem_map.mp (mem_callsOf.mp member)
      cases same
      exact ⟨_, rfl⟩
  absent := by
    intro i beyond
    rw [account, askAll, Array.toList_appendList, callsOf_append]
    refine (congrArg _ (List.eq_nil_iff_forall_not_mem.mpr fun call member => ?_)).trans (List.append_nil _)
    obtain ⟨j, among, same⟩ := List.mem_map.mp (mem_callsOf.mp member)
    cases same
    exact Nat.not_lt.mpr beyond (known _ among)

end Registry

/-- A level is opened on a member when it has been told of the whole trail, and otherwise it is kept as it was but
for its own state. -/
structure Member.EntersLevel (length : Nat) (m m' : Member σ) (own : List Call) : Prop where
  kept : m' =
    { m with
      theory := m'.theory
      preprocessed := m'.preprocessed
      level := m.level + 1
      head := length }
  opened : ∃ early, own = early ++ [.openLevel] ∧ .openLevel ∉ early

namespace Registry

variable {r prepared told opened : Registry σ} {t : Trail} {asked : List Nat} {s : Atoms}

/-- Theories are prepared, some are asked, all are told of the trail, and a level is opened on them. -/
theorem changes_decision {occurs : Literal → Bool} (prepares : r.preprocess occurs = .ok prepared)
    (known : ∀ i ∈ asked, i < prepared.members.length)
    (tells : (prepared.askAll s asked).deliverAll t = .ok told) (opens : told.openLevel = .ok opened) :
    Changes (fun _ => Member.EntersLevel t.length) r opened := by
  have changes := ((changes_preprocess prepares).1.trans (changes_askAll known)).trans
    (changes_deliverAll tells).1 |>.trans (changes_openLevel opens).1
  refine changes.mono fun i m m' own effect => ?_
  obtain ⟨m₃, before₃, last, rfl, effect, raised⟩ := effect
  obtain ⟨m₂, before₂, enqueues, rfl, effect, caught⟩ := effect
  obtain ⟨m₁, first, answers, rfl, quiet, same, answer⟩ := effect
  refine ⟨?_, first ++ answers ++ enqueues, by rw [raised.own], ?_⟩
  · rw [raised.kept, caught.kept, same, quiet.kept]
    rfl
  · have loud : ¬(Call.openLevel).IsSilent := fun silent => nomatch silent {}
    rw [caught.own]
    simp only [List.mem_append, List.mem_map, not_or, reduceCtorEq, and_false, exists_false, not_false_eq_true,
      and_true]
    refine ⟨fun member => loud (quiet.silent _ member), fun member => ?_⟩
    obtain ⟨p, no⟩ := answer _ member
    cases no

/-- Preparing theories asks for no proposals. -/
theorem preprocess_calls {occurs : Literal → Bool} (prepares : r.preprocess occurs = .ok prepared) :
    ∃ calls : List (Nat × Call), prepared.calls = r.calls ++ calls ∧ proposalsIn calls = [] := by
  obtain ⟨calls, added, origin⟩ := changeAll_calls prepares
  refine ⟨calls, added, proposalsIn_eq_nil fun call member proposal same => ?_⟩
  obtain ⟨m, m', own, prepares, inside⟩ := origin call member
  rcases (Member.preprocess_eq_ok prepares).2.2 _ inside with other | ⟨l, other⟩ <;>
  · rw [same] at other
    cases other

/-- Preparing theories changes nothing about who makes decisions. -/
theorem deciders_preprocess {occurs : Literal → Bool} (prepares : r.preprocess occurs = .ok prepared) :
    prepared.deciders = r.deciders := by
  obtain ⟨changes, schedule, _⟩ := changes_preprocess prepares
  have same : prepared.decides = r.decides := by
    funext i
    unfold decides capabilities
    cases found : r.members[i]? with
    | none =>
      have beyond := List.getElem?_eq_none_iff.mp found
      rw [List.getElem?_eq_none_iff.mpr (by rw [changes.length]; exact beyond)]
    | some m =>
      obtain ⟨m', own, found', _, quiet⟩ := changes.member i m found
      rw [found', quiet.kept]
      rfl
  rw [deciders, deciders, schedule, same]

/-- The account of preparing theories and asking some has the answers of those. -/
theorem askAll_calls {occurs : Literal → Bool} (prepares : r.preprocess occurs = .ok prepared) (s : Atoms)
    (asked : List Nat) :
    ∃ calls : List (Nat × Call), (prepared.askAll s asked).calls = r.calls ++ calls ∧
      proposalsIn calls = asked.map fun i => (i, prepared.proposal s i) := by
  obtain ⟨first, added, none'⟩ := preprocess_calls prepares
  refine ⟨first ++ asked.map fun i => (i, Call.decide (prepared.proposal s i)), ?_, ?_⟩
  · exact Array.ext' (by simp [askAll, added])
  · rw [proposalsIn_append, none', List.nil_append, proposalsIn, List.filterMap_map]
    exact congrFun List.filterMap_eq_map asked

/-- Nothing is proposed in a decision but what theories are asked for. -/
theorem proposalsIn_decision {occurs : Literal → Bool} (prepares : r.preprocess occurs = .ok prepared)
    (tells : (prepared.askAll s asked).deliverAll t = .ok told) (opens : told.openLevel = .ok opened) :
    ∃ calls : List (Nat × Call), opened.calls = r.calls ++ calls ∧
      proposalsIn calls = asked.map fun i => (i, prepared.proposal s i) := by
  obtain ⟨first, added, proposals⟩ := askAll_calls prepares s asked
  obtain ⟨second, added', enqueues⟩ := deliverAll_calls tells
  obtain ⟨third, added'', origin⟩ := changeAll_calls opens
  refine ⟨first ++ second ++ third, Array.ext' (by simp [added'', added', added]), ?_⟩
  have quiet : proposalsIn second = [] := by
    refine proposalsIn_eq_nil fun call member proposal same => ?_
    obtain ⟨l, other⟩ := enqueues call member
    rw [same] at other
    cases other
  have silent : proposalsIn third = [] := by
    refine proposalsIn_eq_nil fun call member proposal same => ?_
    obtain ⟨m, m', own, raised, inside⟩ := origin call member
    cases raised
    rw [same] at inside
    cases List.mem_singleton.mp inside
  rw [proposalsIn_append, proposalsIn_append, quiet, silent, List.append_nil, List.append_nil, proposals]

end Registry

/-- A decision is the first literal of a level of its own. -/
theorem Atoms.assign_openLevel {s s' : Atoms} {l : Literal}
    (made : s.openLevel.assign l .decision = .ok (.unset, s')) :
    s'.level = s.level + 1 ∧ s'.trail.literals = s.trail.literals ++ [l] ∧
      s'.trail.stack.entriesAt (s.level + 1) = [l] ∧ s'.reasonOf l.atom = some .decision := by
  have level : s.openLevel.level = s.level + 1 := LevelStack.level_openLevel _
  refine ⟨(Atoms.level_assign made).trans level, ?_, ?_, ?_⟩
  · rw [Atoms.literals_assign made]
    exact congrArg (· ++ [l]) s.trail.literals_openLevel
  · have last : s.openLevel.trail.stack.level = s.level + 1 := level
    have new : s.trail.stack.level < s.level + 1 := Nat.lt_succ_self _
    rw [Atoms.stack_assign made, LevelStack.entriesAt_push, if_pos last.symm]
    change s.trail.stack.openLevel.entriesAt (s.level + 1) ++ [l] = [l]
    rw [LevelStack.entriesAt_openLevel, LevelStack.entriesAt_of_lt _ new, List.nil_append]
  · obtain ⟨_, _, _, _, assigned⟩ := Atoms.assign_eq_unset made
    have own := assigned l.atom
    rw [if_pos rfl] at own
    exact Atoms.reasonOf_eq_some.mpr ⟨_, own, rfl⟩

namespace Context

/-- A literal is decided: a level is opened on the trail and on every theory, and the literal is the first on it.
The decision is recorded if it is on a proposal. -/
structure Opens (c after : Context σ) (l : Literal) (proposer : Option (Nat × Option Marker)) : Prop where
  made : c.atoms.openLevel.assign l .decision = .ok (.unset, after.atoms)
  level : after.level = c.level + 1
  trail : after.atoms.trail.literals = c.atoms.trail.literals ++ [l]
  first : after.atoms.trail.stack.entriesAt (c.level + 1) = [l]
  reason : after.atoms.reasonOf l.atom = some .decision
  count : after.theories.members.length = c.theories.members.length
  theories : ∀ (i : Nat) (m : Member σ), c.theories.members[i]? = some m →
    ∃ m' : Member σ, after.theories.members[i]? = some m' ∧
    m.EntersLevel c.atoms.trail.length m' (Registry.callsOf i (c.theories.callsSince after.theories))
  account : c.theories.calls.toList <+: after.theories.calls.toList
  rest : after =
    { c with
      atoms := after.atoms
      theories := { c.theories with
        members := after.theories.members
        calls := after.theories.calls
        decisions := match proposer with
          | none => c.theories.decisions
          | some (i, reason) => ⟨c.level + 1, i, l, reason⟩ :: c.theories.decisions }
      phase := .solving
      random := after.random
      counters := { c.counters with
        decisions := c.counters.decisions + 1
        theoryDecisions := c.counters.theoryDecisions + if proposer.isSome then 1 else 0 } }
  /-- Nothing is drawn when a proposal is taken up. -/
  random : proposer.isSome → after.random = c.random

/-- No literal is decided, and only the states of theories and of the random generator change. -/
structure Spares (c after : Context σ) : Prop where
  count : after.theories.members.length = c.theories.members.length
  theories : ∀ (i : Nat) (m : Member σ), c.theories.members[i]? = some m →
    ∃ m' : Member σ, after.theories.members[i]? = some m' ∧
    m' = { m with theory := m'.theory, preprocessed := m'.preprocessed }
  account : c.theories.calls.toList <+: after.theories.calls.toList
  rest : after =
    { c with
      theories := { c.theories with
        members := after.theories.members
        calls := after.theories.calls }
      random := after.random }

/-- What comes of a decision after theories were asked. -/
theorem opens_of_decided {prepared : Registry σ} (prepares : c.theories.preprocess c.clauses.occurs = .ok prepared)
    {asked : List Nat} (known : ∀ i ∈ asked, i < prepared.members.length) (random : Generator) {l : Literal}
    {proposer : Option (Nat × Option Marker)} (drawn : proposer.isSome → random = c.random)
    (decided : Procedure.Decided l proposer
      { c with
        theories := prepared.askAll c.atoms asked
        random
        counters.theoryDecisions := c.counters.theoryDecisions + if proposer.isSome then 1 else 0 } after) :
    c.Opens after l proposer ∧ proposalsIn (c.theories.callsSince after.theories) =
      asked.map fun i => (i, prepared.proposal c.atoms i) := by
  obtain ⟨told, opened, atoms, tells, opens, made, rfl⟩ := decided
  have changes := Registry.changes_decision prepares known tells opens
  obtain ⟨calls, added, proposals⟩ := Registry.proposalsIn_decision prepares tells opens
  obtain ⟨_, schedule, decisions, baseFacts⟩ := Registry.changeAll_eq_ok opens
  obtain ⟨_, schedule', decisions', baseFacts'⟩ := Registry.changeAll_eq_ok tells
  obtain ⟨_, schedule'', decisions'', baseFacts''⟩ := Registry.changeAll_eq_ok prepares
  replace schedule := (schedule.trans schedule').trans schedule''
  replace decisions := (decisions.trans decisions').trans decisions''
  replace baseFacts := (baseFacts.trans baseFacts').trans baseFacts''
  have since : c.theories.callsSince opened = calls := Registry.callsSince_eq added
  obtain ⟨level, trail, first, reason⟩ := Atoms.assign_openLevel made
  have members : ∀ (i : Nat) (m : Member σ), c.theories.members[i]? = some m →
      ∃ m' : Member σ, opened.members[i]? = some m' ∧
        m.EntersLevel c.atoms.trail.length m' (Registry.callsOf i (c.theories.callsSince opened)) := by
    intro i m found
    rw [since]
    exact changes.own added found
  have longer : c.theories.calls.toList <+: opened.calls.toList := ⟨calls, by rw [added, Array.toList_appendList]⟩
  have record : c.atoms.openLevel.level = c.level + 1 := LevelStack.level_openLevel _
  rw [← proposals, ← since]
  cases proposer with
  | none =>
    refine ⟨⟨made, level, trail, first, reason, changes.length, members, longer, ?_, drawn⟩, rfl⟩
    exact Context.ext rfl rfl rfl (Registry.ext rfl schedule decisions baseFacts rfl) rfl rfl rfl
  | some proposer =>
    refine ⟨⟨made, level, trail, first, reason, changes.length, members, longer, ?_, drawn⟩, rfl⟩
    refine Context.ext rfl rfl rfl (Registry.ext rfl schedule ?_ baseFacts rfl) rfl rfl rfl
    change _ :: opened.decisions = _
    rw [decisions, ← record]

/-- What comes of asking theories when nothing is decided. -/
theorem spares_of_asked {prepared : Registry σ} (prepares : c.theories.preprocess c.clauses.occurs = .ok prepared)
    {asked : List Nat} (known : ∀ i ∈ asked, i < prepared.members.length) (random : Generator) :
    let after : Context σ := { c with theories := prepared.askAll c.atoms asked, random }
    c.Spares after ∧ proposalsIn (c.theories.callsSince after.theories) =
      asked.map fun i => (i, prepared.proposal c.atoms i) := by
  intro after
  obtain ⟨changes, schedule, decisions⟩ := Registry.changes_preprocess prepares
  have baseFacts := (Registry.changeAll_eq_ok prepares).2.2.2
  have asks := changes.trans (Registry.changes_askAll (s := c.atoms) known)
  obtain ⟨calls, added, proposals⟩ := Registry.askAll_calls prepares c.atoms asked
  refine ⟨⟨asks.length, fun i m found => ?_, ⟨calls, by rw [added, Array.toList_appendList]⟩, ?_⟩, ?_⟩
  · obtain ⟨m', own, found', _, m₁, first, answers, rfl, quiet, same, _⟩ := asks.member i m found
    refine ⟨m', found', ?_⟩
    rw [same, quiet.kept]
  · exact Context.ext rfl rfl rfl (Registry.ext rfl schedule decisions baseFacts rfl) rfl rfl rfl
  · rw [Registry.callsSince_eq added, proposals]

/-- A theory ends in a fault when it is told of the trail. -/
def TellingFails (c : Context σ) (cause : Fault) : Prop :=
  ∃ mid m, Draws c mid ∧ mid.atoms = c.atoms ∧ m ∈ mid.theories.members ∧
    m.deliver mid.atoms.trail.literals = .error cause

theorem TellingFails.of_deliverAll {cause : Fault} (draws : Draws c mid) (same : mid.atoms = c.atoms)
    (failed : mid.theories.deliverAll mid.atoms.trail = .error cause) : c.TellingFails cause := by
  obtain ⟨m, member, failed⟩ := Registry.changeAll_eq_error failed
  rcases Except.bind_eq_error failed with failed | ⟨_, _, done⟩
  · exact ⟨mid, m, draws, same, member, failed⟩
  · cases done

end Context

namespace Procedure

theorem preprocess_ends (h : c.Coherent) (told : c.Told) :
    (preprocess : Procedure σ Unit).Ends c (fun _ => False) fun result after => result = .ok () ∧ ∃ prepared,
      c.theories.preprocess c.clauses.occurs = .ok prepared ∧ after = { c with theories := prepared } :=
  .get_bind (.ofFaulty_bind (fun cause failed => preprocess_ne_error h told cause failed)
    fun prepared prepares => .modify ⟨rfl, prepared, prepares, rfl⟩)

omit [Theory σ] in
/-- An atom without a value is found if there is one. The draw can only fail for want of a likelihood. -/
theorem atomWithoutValue_ends :
    (atomWithoutValue : Procedure σ (Option Atom)).Ends c
      (fun _ => ¬Generator.IsLikelihood c.settings.randomDecisionBias.value) fun result after =>
        (∃ random, after = { c with random }) ∧ ∃ outcome, result = .ok outcome ∧
          match outcome with
          | some a => a ∈ c.atoms.unvalued
          | none => c.atoms.unvalued = [] := by
  refine .get_bind (.bind (chance_ends _) ?_ ?_)
  · rintro e _ ⟨_, _, ⟨⟩, _⟩
  · rintro atRandom _ ⟨_, random, _, rfl⟩
    refine .get_bind ?_
    dsimp only
    split
    · refine .modify_bind (.pure ⟨⟨_, rfl⟩, _, rfl, ?_⟩)
      cases choice : (c.settings.host.sampler.choose c.atoms.unvalued random).1 with
      | none => exact c.settings.host.sampler.nil_of_choose _ _ choice
      | some a => exact c.settings.host.sampler.mem_of_choose _ _ a choice
    · refine .pure ⟨⟨random, rfl⟩, _, rfl, ?_⟩
      cases first : c.atoms.unvalued with
      | nil => rfl
      | cons a rest => exact .head _

omit [Theory σ] in
theorem valueToDecide_ends (a : Atom) :
    (valueToDecide a : Procedure σ Bool).Ends c
      (fun _ => ¬Generator.IsLikelihood c.settings.polarityBias.value) fun result after =>
        ∃ value random, result = .ok value ∧ after = { c with random } := by
  refine .get_bind ?_
  split
  · exact .pure ⟨_, c.random, rfl, rfl⟩
  · exact chance_ends _

/-- A literal without a value is decided, unless a theory fails when it is told of the trail. -/
theorem applyDecision_ends {l : Literal} (isOpen : l.atom ∈ c.atoms.unvalued)
    (proposer : Option (Nat × Option Marker)) :
    (applyDecision l proposer).Ends c (fun cause => c.theories.deliverAll c.atoms.trail = .error cause)
      fun result after => result = .ok () ∧ Decided l proposer c after := by
  obtain ⟨known, unset⟩ := Atoms.mem_unvalued.mp isOpen
  have ends : (applyDecision l proposer).Ends c
      (fun cause => c.theories.deliverAll c.atoms.trail = .error cause) fun _ _ => True := by
    refine .bind (m := fun _ mid => mid.atoms = c.atoms)
      (.get_bind (.ofFaulty_bind (fun _ => id) fun told _ => .modify rfl)) (fun _ _ _ => trivial) ?_
    intro _ mid same
    refine .get_bind (.ofFaulty_bind (fun cause failed => ?_) fun opened _ => .modify_bind (.modify_bind ?_))
    · obtain ⟨_, _, failed⟩ := Registry.changeAll_eq_error failed
      cases failed
    · refine .bind (m := fun _ _ => True) ?_ (fun _ _ _ => trivial) fun _ _ _ => .modify_bind (.modify trivial)
      refine ((assign_ends ?_ ?_).imp_broken fun _ => False.elim).mono fun _ _ _ => trivial
      · change l.atom < mid.atoms.count
        rw [same]
        exact known
      · change l.valueOn mid.atoms.value = none
        rw [same]
        exact Literal.valueOn_eq_none.mpr unset
  exact (ends.ensuring (applyDecision_decided known unset proposer)).mono fun _ _ held => held.2

end Procedure

namespace Context

/-- Of the theories that make decisions, in the order of their turns, those that would be asked in vain once they
are prepared, and the others from the first whose proposal is on a known atom without a value. -/
structure Asks (c : Context σ) (prepared : Registry σ) (rejected rest : List Nat) : Prop where
  prepares : c.theories.preprocess c.clauses.occurs = .ok prepared
  deciders : c.theories.deciders = rejected ++ rest
  inVain : ∀ i ∈ rejected, prepared.openProposal c.atoms i = none
  accepts : ∀ i ∈ rest.head?, prepared.openProposal c.atoms i ≠ none

/-- What making a decision comes to. The first proposal that can be decided is, and without one a literal is
decided only where some atom has no value. -/
structure Chooses (c : Context σ) (prepared : Registry σ) (rejected rest : List Nat)
    (result : Except Error Decision) (after : Context σ) : Prop where
  asked : proposalsIn (c.theories.callsSince after.theories) =
    (rejected ++ rest.take 1).map fun i => (i, prepared.proposal c.atoms i)
  outcome : match rest with
    | i :: _ => ∃ p, prepared.openProposal c.atoms i = some p ∧ result = .ok (.decided p.literal) ∧
      c.Opens after p.literal (some (i, p.reason))
    | [] =>
      if c.atoms.unvalued = [] then result = .ok .exhausted ∧ c.Spares after
      else ∃ l, l.atom ∈ c.atoms.unvalued ∧ result = .ok (.decided l) ∧ c.Opens after l none

/-- What deciding a given literal comes to. No theory is asked, and it is decided where its atom is a known one
without a value. -/
structure ChoosesGiven (c : Context σ) (l : Literal) (result : Except Error Unit) (after : Context σ) : Prop where
  asked : proposalsIn (c.theories.callsSince after.theories) = []
  outcome : if l.atom ∈ c.atoms.unvalued then result = .ok () ∧ c.Opens after l none
    else (∃ e, result = .error e) ∧ after = c

/-- Decisions of a context are delegated. They are made, but for theories that fail when they are told of the
trail, and nothing can fail when no decision is left to make. -/
structure Delegates (c : Context σ) : Prop where
  makes : ∃ prepared rejected rest, c.Asks prepared rejected rest ∧
    Procedure.makeDecision.Ends c (fun cause => (rest ≠ [] ∨ c.atoms.unvalued ≠ []) ∧ c.TellingFails cause)
      (c.Chooses prepared rejected rest)
  decides : ∀ l, (Procedure.decideLiteral l).Ends c c.TellingFails (c.ChoosesGiven l)

end Context

namespace Procedure

omit [Theory σ] in
/-- A sequence ends as what comes after its first part, where that is known. -/
theorem Ends.bind_of_ran {α β : Type} {p : Procedure σ α} {next : α → Procedure σ β} {a : α}
    {broken : Fault → Prop} {post : Except Error β → Context σ → Prop} (ran : c.run p = .ok (.ok a, mid))
    (rest : (next a).Ends mid broken post) : (p >>= next).Ends c broken post := by
  unfold Ends
  rw [run_bind_of_ran ran]
  exact rest

theorem decideLiteral_ends (h : c.Coherent) (told : c.Told) (l : Literal) :
    (decideLiteral l).Ends c c.TellingFails (c.ChoosesGiven l) := by
  have refuses {e : Error} (closed : l.atom ∉ c.atoms.unvalued) : c.ChoosesGiven l (.error e) c := by
    refine ⟨?_, by rw [if_neg closed]; exact ⟨⟨e, rfl⟩, rfl⟩⟩
    rw [Registry.callsSince_eq Array.appendList_nil.symm]
    rfl
  refine .get_bind ?_
  dsimp only
  split
  · rename_i unknown
    refine .throw_bind (refuses fun isOpen => ?_)
    have proper := (h.supports.atoms.isOpen_iff l).mpr isOpen
    simp only [Atoms.isOpen, Bool.and_eq_true, bne_iff_ne, decide_eq_true_eq] at proper
    exact unknown.elim proper.1.1 (Nat.not_le.mpr proper.1.2)
  · rename_i proper
    split
    · rename_i valued
      refine .throw_bind (refuses fun isOpen => ?_)
      rw [(Atoms.mem_unvalued.mp isOpen).2] at valued
      cases valued
    · rename_i unset
      have isOpen : l.atom ∈ c.atoms.unvalued :=
        Atoms.mem_unvalued.mpr ⟨Nat.not_le.mp fun beyond => proper (.inr beyond), by simpa using unset⟩
      refine .bind ((preprocess_ends h told).imp_broken fun _ => False.elim) ?_ ?_
      · rintro e after ⟨⟨⟩, _⟩
      · rintro ⟨⟩ _ ⟨_, prepared, prepares, rfl⟩
        have draws : Draws c { c with theories := prepared } := .single (.preprocess c prepared prepares)
        refine ((applyDecision_ends (c := { c with theories := prepared }) isOpen none).imp_broken ?_).mono ?_
        · exact fun cause failed => .of_deliverAll draws rfl failed
        · rintro result after ⟨rfl, decided⟩
          have unasked : ({ c with theories := prepared } : Context σ) =
              { c with theories := prepared.askAll c.atoms [] } := by
            rw [Registry.askAll_nil]
          rw [unasked] at decided
          have known : ∀ i ∈ ([] : List Nat), i < prepared.members.length := List.forall_mem_nil _
          obtain ⟨opens, proposals⟩ :=
            Context.opens_of_decided prepares known c.random (fun _ => rfl) decided
          exact ⟨proposals, by rw [if_pos isOpen]; exact ⟨rfl, opens⟩⟩

variable {prepared : Registry σ} {rejected rest : List Nat}

/-- Without a proposal that can be decided, an atom without a value is chosen if there is one. -/
theorem makeDecision_of_no_proposal (h : c.Coherent) (valid : c.settings.AreLikelihoods)
    (asks : c.Asks prepared rejected []) (known : ∀ i ∈ rejected, i < prepared.members.length)
    (ran : c.run preprocess = .ok (.ok (), { c with theories := prepared }))
    (draws : Draws c { c with theories := prepared.askAll c.atoms rejected })
    (consults : ({ c with theories := prepared } : Context σ).run (askForProposal prepared.schedule.order) =
      .ok (.ok none, { c with theories := prepared.askAll c.atoms rejected })) :
    makeDecision.Ends c (fun cause => c.atoms.unvalued ≠ [] ∧ c.TellingFails cause)
      (c.Chooses prepared rejected []) := by
  refine .bind_of_ran ran (.get_bind (.bind_of_ran consults ?_))
  refine .bind (atomWithoutValue_ends.imp_broken fun _ no => absurd valid.randomDecisionBias no) ?_ ?_
  · rintro e after ⟨_, _, ⟨⟩, _⟩
  · rintro _ _ ⟨⟨random, rfl⟩, outcome, ⟨⟩, chosen⟩
    split
    · replace chosen : c.atoms.unvalued = [] := chosen
      obtain ⟨spares, proposals⟩ := Context.spares_of_asked asks.prepares known random
      refine .pure ⟨by rw [List.take_nil, List.append_nil]; exact proposals, ?_⟩
      rw [if_pos chosen]
      exact ⟨rfl, spares⟩
    · rename_i a
      replace chosen : a ∈ c.atoms.unvalued := chosen
      have some' : c.atoms.unvalued ≠ [] := List.ne_nil_of_mem chosen
      refine .bind ((valueToDecide_ends a).imp_broken fun _ no => absurd valid.polarityBias no) ?_ ?_
      · rintro e after ⟨_, _, ⟨⟩, _⟩
      · rintro value _ ⟨_, random', ⟨⟩, rfl⟩
        have inRange : a ≤ maxAtom := Nat.lt_succ_iff.mp
          (Nat.lt_of_lt_of_le (Atoms.mem_unvalued.mp chosen).1 h.supports.atoms.room)
        rw [Literal.ofAtom_of_le inRange]
        refine .ofFaulty_bind nofun ?_
        rintro _ ⟨⟩
        have isOpen : (Literal.on a value).atom ∈ c.atoms.unvalued := by
          rwa [Literal.atom_on]
        let mid : Context σ := { c with theories := prepared.askAll c.atoms rejected, random := random' }
        have draws' : Draws c mid := draws.tail (.adjust _ random' c.counters _ rfl)
        refine .bind ((applyDecision_ends (c := mid) isOpen none).imp_broken fun cause failed => ?_) ?_ ?_
        · exact ⟨some', .of_deliverAll draws' rfl failed⟩
        · rintro e after ⟨⟨⟩, _⟩
        · rintro _ after ⟨_, decided⟩
          obtain ⟨opens, proposals⟩ :=
            Context.opens_of_decided asks.prepares known random' (fun no => by cases no) decided
          refine .pure ⟨by rw [List.take_nil, List.append_nil]; exact proposals, ?_⟩
          rw [if_neg some']
          exact ⟨_, isOpen, rfl, opens⟩

/-- A proposal that can be decided is. -/
theorem makeDecision_of_proposal {i : Nat} {p : Proposal} (asks : c.Asks prepared rejected (i :: rest))
    (known : ∀ j ∈ rejected ++ [i], j < prepared.members.length)
    (ran : c.run preprocess = .ok (.ok (), { c with theories := prepared }))
    (draws : Draws c { c with theories := prepared.askAll c.atoms (rejected ++ [i]) })
    (proposed : prepared.openProposal c.atoms i = some p)
    (consults : ({ c with theories := prepared } : Context σ).run (askForProposal prepared.schedule.order) =
      .ok (.ok (some (i, p)), { c with theories := prepared.askAll c.atoms (rejected ++ [i]) })) :
    makeDecision.Ends c c.TellingFails (c.Chooses prepared rejected (i :: rest)) := by
  refine .bind_of_ran ran (.get_bind (.bind_of_ran consults ?_))
  have isOpen : p.literal.atom ∈ c.atoms.unvalued :=
    of_decide_eq_true (Option.filter_eq_some_iff.mp proposed).2
  let mid : Context σ :=
    { c with
      theories := prepared.askAll c.atoms (rejected ++ [i])
      counters.theoryDecisions := c.counters.theoryDecisions + 1 }
  have draws' : Draws c mid := draws.tail (.adjust _ c.random mid.counters _ rfl)
  refine .modify_bind (.bind ((applyDecision_ends (c := mid) isOpen _).imp_broken fun cause failed => ?_) ?_ ?_)
  · exact .of_deliverAll draws' rfl failed
  · rintro e after ⟨⟨⟩, _⟩
  · rintro _ after ⟨_, decided⟩
    obtain ⟨opens, proposals⟩ :=
      Context.opens_of_decided asks.prepares known c.random (fun _ => rfl) decided
    exact .pure ⟨proposals, p, proposed, rfl, opens⟩

/-- What theories propose is asked of those that make decisions, and a decision is made accordingly. -/
theorem makeDecision_ends (h : c.Coherent) (told : c.Told) (valid : c.settings.AreLikelihoods) :
    ∃ prepared rejected rest, c.Asks prepared rejected rest ∧
      makeDecision.Ends c (fun cause => (rest ≠ [] ∨ c.atoms.unvalued ≠ []) ∧ c.TellingFails cause)
        (c.Chooses prepared rejected rest) := by
  obtain ⟨_, _, ran, rfl, prepared, prepares, rfl⟩ := (preprocess_ends h told).returns
  have prepare : Draws c { c with theories := prepared } := .single (.preprocess c prepared prepares)
  obtain ⟨_, asked, consults, outcome, rfl, rejected, rest, deciders, passed, consulted⟩ :=
    (askForProposal_ends (c := { c with theories := prepared }) h.supports.atoms
      prepared.schedule.nodup_order fun i => (prepare.coherent h).mem_order.mp).returns
  have draws : Draws c asked :=
    .trans prepare (askForProposal_leads _ _ _ consults).1
  have known : ∀ i ∈ rejected ++ rest, i < prepared.members.length := by
    intro i member
    rw [← deciders] at member
    obtain ⟨m, found, _⟩ := Registry.exists_of_decides (List.mem_filter.mp member).2
    exact (List.getElem?_eq_some_iff.mp found).1
  have same : c.theories.deciders = rejected ++ rest := (Registry.deciders_preprocess prepares).symm.trans deciders
  cases rest with
  | nil =>
    obtain ⟨rfl, rfl⟩ := consulted
    rw [List.append_nil] at known
    have asks : c.Asks prepared rejected [] := ⟨prepares, same, passed, nofun⟩
    refine ⟨prepared, rejected, [], asks, ?_⟩
    exact (makeDecision_of_no_proposal h valid asks known ran draws consults).imp_broken
      fun _ fails => ⟨.inr fails.1, fails.2⟩
  | cons i rest =>
    obtain ⟨p, proposed, rfl, rfl⟩ := consulted
    have asks : c.Asks prepared rejected (i :: rest) := by
      refine ⟨prepares, same, passed, ?_⟩
      rintro j ⟨⟩
      exact Option.ne_none_iff_exists'.mpr ⟨p, proposed⟩
    have known' : ∀ j ∈ rejected ++ [i], j < prepared.members.length := fun j member =>
      known j (((List.prefix_append_right_inj rejected).mpr (List.prefix_append [i] rest)).subset member)
    refine ⟨prepared, rejected, i :: rest, asks, ?_⟩
    exact (makeDecision_of_proposal asks known' ran draws proposed consults).imp_broken
      fun _ fails => ⟨.inl (List.cons_ne_nil _ _), fails⟩

end Procedure

/-- Wherever a run comes through, with whatever random generator, decisions are delegated where what is read as a
likelihood is one. -/
theorem PublicRun.delegates_decisions {settings : Settings} {events : List (Event σ)} {s : Session σ}
    (run : PublicRun settings events s) {taking : Intake σ} (reached : Moves taking s.context c)
    (valid : c.settings.AreLikelihoods) (random : Generator) : ({ c with random } : Context σ).Delegates := by
  let drawn : Context σ := { c with random }
  have redrawn : Moves taking s.context drawn := reached.tail (.draw (.adjust c random c.counters _ rfl))
  have h : drawn.Coherent := Moves.coherent redrawn run.coherent.1
  have told : drawn.Told := Moves.told redrawn run.coherent.1 run.told
  exact ⟨Procedure.makeDecision_ends h told valid, Procedure.decideLiteral_ends h told⟩

/-- Of five theories the second makes no decisions, and the proposals of the others are on an atom with a value, on
one that is not known, on the true one and on one that can be decided. -/
theorem delegates_to_last_theory :
    ∃ (events : List (Event RuleTable)) (s : Session RuleTable) (after : Context RuleTable),
      PublicRun {} events s ∧
      events.map (·.command) = [.freshLiterals 2,
        .addTheory { abilities := { decisions := true }, proposals := [⟨⟨1⟩, none⟩], stubborn := true },
        .addTheory { proposals := [⟨⟨2⟩, none⟩] },
        .addTheory { abilities := { decisions := true }, proposals := [⟨⟨7⟩, none⟩], stubborn := true },
        .addTheory { abilities := { decisions := true }, proposals := [⟨.falsum, none⟩], stubborn := true },
        .addTheory { abilities := { decisions := true }, proposals := [⟨⟨-2⟩, some 5⟩] },
        .setPriority 1 (-1), .addClause [⟨1⟩]] ∧
      s.context.Delegates ∧
      s.context.run Procedure.makeDecision = .ok (.ok (.decided ⟨-2⟩), after) ∧
      proposalsIn (s.context.theories.callsSince after.theories) =
        [(0, some ⟨⟨1⟩, none⟩), (2, some ⟨⟨7⟩, none⟩), (3, some ⟨.falsum, none⟩), (4, some ⟨⟨-2⟩, some 5⟩)] ∧
      after.theories.decisions = [⟨1, 4, ⟨-2⟩, some 5⟩] := by
  obtain ⟨events, s, run, commands, checked⟩ := PublicRun.of_run_any (σ := RuleTable) {}
    [.freshLiterals 2,
      .addTheory { abilities := { decisions := true }, proposals := [⟨⟨1⟩, none⟩], stubborn := true },
      .addTheory { proposals := [⟨⟨2⟩, none⟩] },
      .addTheory { abilities := { decisions := true }, proposals := [⟨⟨7⟩, none⟩], stubborn := true },
      .addTheory { abilities := { decisions := true }, proposals := [⟨.falsum, none⟩], stubborn := true },
      .addTheory { abilities := { decisions := true }, proposals := [⟨⟨-2⟩, some 5⟩] },
      .setPriority 1 (-1), .addClause [⟨1⟩]]
    (by simp [Command.IsPublic])
    (fun _ s => decide s.context.settings.AreLikelihoods &&
      (s.context.run Procedure.makeDecision).toOption.any fun (result, after) =>
        decide (result = .ok (.decided ⟨-2⟩)) &&
          decide (proposalsIn (s.context.theories.callsSince after.theories) =
            [(0, some ⟨⟨1⟩, none⟩), (2, some ⟨⟨7⟩, none⟩), (3, some ⟨.falsum, none⟩), (4, some ⟨⟨-2⟩, some 5⟩)]) &&
          decide (after.theories.decisions = [⟨1, 4, ⟨-2⟩, some 5⟩]))
    (by decide +kernel)
  rw [Bool.and_eq_true, decide_eq_true_eq] at checked
  obtain ⟨valid, decided⟩ := checked
  cases ran : s.context.run Procedure.makeDecision with
  | error cause =>
    rw [ran] at decided
    cases decided
  | ok outcome =>
    obtain ⟨result, after⟩ := outcome
    rw [ran] at decided
    simp only [Except.toOption, Option.any_some, Bool.and_eq_true, decide_eq_true_eq] at decided
    obtain ⟨⟨rfl, proposals⟩, decisions⟩ := decided
    exact ⟨events, s, after, run, commands,
      run.delegates_decisions (.refl : Moves {} s.context s.context) valid s.context.random, ran, proposals,
      decisions⟩

end SatModulo
