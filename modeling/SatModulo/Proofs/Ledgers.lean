import SatModulo.Proofs.Connectivity
import SatModulo.Proofs.Conformance
import SatModulo.Proofs.Muting

/-!
# Ledgers of reachabilities

What a reachability keeps of its proposals (`Ledger`): those that it noted as decided, and the last one while
it waits for its fate. The theory is not told that a proposal was decided. It concludes so when the literal is
the first that it hears of at a later level (`Ledger.settle`). A ledger mirrors the records that the core
makes of decisions (`Ledger.Mirrors`) when the noted proposals are among them in the same order, the pending
proposal is the decision that was made last, and no other decision is missing but those that are lost. What a
theory hears keeps this: it is told of the trail (`Mirrors.tell`), its next proposal is decided
(`Mirrors.accept`), and decisions are taken back (`Mirrors.retreat`). Only a proposal that is accepted while
another is pending loses a decision.
-/
namespace SatModulo

/-! ### Lists -/

/-- What is left when elements are erased that come first. -/
theorem List.Sublist.foldl_erase {α : Type} [DecidableEq α] {kept : List α} (xs : List α) {ys : List α}
    (sub : kept.Sublist (xs ++ ys)) : (xs.foldl List.erase kept).Sublist ys := by
  induction xs generalizing kept with
  | nil => exact sub
  | cons x rest ih =>
    have erased := sub.erase x
    rw [List.cons_append, List.erase_cons_head] at erased
    exact ih erased

theorem List.mem_foldl_erase {α : Type} [DecidableEq α] {a : α} (xs : List α) {kept : List α}
    (member : a ∈ kept) (other : a ∉ xs) : a ∈ xs.foldl List.erase kept := by
  induction xs generalizing kept with
  | nil => exact member
  | cons x rest ih =>
    rw [List.mem_cons, not_or] at other
    exact ih ((List.mem_erase_of_ne other.1).mpr member) other.2

/-! ### Ledgers -/

/-- What a reachability keeps of its proposals: those noted as decided, the latest first, the one whose fate
is open with the level that it was made at, and the level that the theory is at. -/
structure Ledger where
  noted : List Literal
  proposal : Option (Literal × Nat)
  level : Nat

def Reachability.ledger (t : Reachability) : Ledger := ⟨t.decisions.reverse, t.proposal, t.log.level⟩

namespace Ledger

/-- The first fact at a later level tells whether a proposal was decided. -/
def settle (g : Ledger) (l : Literal) : Ledger :=
  match g.proposal with
  | none => g
  | some (proposed, level) =>
    if level < g.level then
      if proposed = l then { g with proposal := none, noted := l :: g.noted } else { g with proposal := none }
    else g

/-- What a call makes of a ledger. -/
def hear (g : Ledger) : Call → Ledger
  | .openLevel => { g with level := g.level + 1 }
  | .backtrack level => { g with level := min level g.level, proposal := none }
  | .enqueue l => g.settle l
  | .undecide l => { g with noted := g.noted.erase l }
  | _ => g

/-- A ledger says the same as the records that the core keeps of the decisions on proposals, the latest first.
Of the trail, the given literals are still to be told. -/
structure Mirrors (g : Ledger) (records : List DecisionRecord) (observes : Atom → Bool)
    (pending : List Literal) (lost : DecisionRecord → Prop) : Prop where
  noted : g.noted.Sublist (records.map (·.literal))
  /-- A proposal whose fate is open was decided last, and the theory has yet to hear of it, if ever. -/
  proposed : ∀ l level, g.proposal = some (l, level) → ∃ d rest, records = d :: rest ∧ d.literal = l ∧
    d.level = level + 1 ∧ g.noted.Sublist (rest.map (·.literal)) ∧
    (observes l.atom → g.level = level + 1 ∧ pending.head? = some l)
  missed : ∀ d ∈ records, d.literal ∈ g.noted ∨ (∃ level, g.proposal = some (d.literal, level)) ∨
    ¬observes d.literal.atom ∨ lost d

variable {g : Ledger} {records : List DecisionRecord} {observes : Atom → Bool} {pending : List Literal}
  {lost : DecisionRecord → Prop} {target : Nat}

/-- Without a proposal of a lower level, facts settle nothing. -/
theorem foldl_settle_eq_self (early : ∀ l level, g.proposal = some (l, level) → g.level ≤ level)
    (facts : List Literal) : facts.foldl settle g = g := by
  have settled : ∀ l, g.settle l = g := by
    intro l
    unfold settle
    split
    · rfl
    · rename_i proposed level found
      exact if_neg (Nat.not_lt.mpr (early proposed level found))
  induction facts with
  | nil => rfl
  | cons l rest ih => rw [List.foldl_cons, settled, ih]

theorem foldl_hear_enqueue (facts : List Literal) :
    (facts.map Call.enqueue).foldl hear g = facts.foldl settle g := by
  rw [List.foldl_map]
  rfl

@[simp] theorem level_foldl_settle (facts : List Literal) : (facts.foldl settle g).level = g.level := by
  have settled : ∀ (g : Ledger) l, (g.settle l).level = g.level := by
    intro g l
    unfold settle
    split
    · rfl
    · split
      · split <;> rfl
      · rfl
  induction facts generalizing g with
  | nil => rfl
  | cons l rest ih => rw [List.foldl_cons, ih, settled]

/-- When decisions are taken back, each by one word, and their levels after them. -/
theorem foldl_hear_lowered (undone : List DecisionRecord) (target : Nat) :
    (undone.map (fun d => Call.undecide d.literal) ++ [Call.backtrack target]).foldl hear g =
      ⟨(undone.map (·.literal)).foldl List.erase g.noted, none, min target g.level⟩ := by
  induction undone generalizing g with
  | nil => rfl
  | cons d rest ih => exact ih

namespace Mirrors

theorem of_nil (noted : g.noted = []) (none' : g.proposal = none) : g.Mirrors [] observes pending lost where
  noted := by rw [noted, List.map_nil]
  proposed l level found := by
    rw [none'] at found
    cases found
  missed := List.forall_mem_nil _

/-- Where no decision stands, nothing is noted or proposed. -/
theorem nil_eq (h : g.Mirrors [] observes pending lost) : g.noted = [] ∧ g.proposal = none := by
  refine ⟨List.sublist_nil.mp h.noted, Option.eq_none_iff_forall_ne_some.mpr fun (l, level) found => ?_⟩
  obtain ⟨d, rest, no, _⟩ := h.proposed l level found
  cases no

/-- Where no decision stands, it does not matter what is told. -/
theorem tell_nil (h : g.Mirrors [] observes pending lost) (facts : List Literal) (observes' : Atom → Bool)
    (later : List Literal) : facts.foldl settle g = g ∧ g.Mirrors [] observes' later lost := by
  obtain ⟨noted, none'⟩ := h.nil_eq
  refine ⟨foldl_settle_eq_self (fun l level found => ?_) facts, .of_nil noted none'⟩
  rw [none'] at found
  cases found

theorem mono {lost' : DecisionRecord → Prop} (h : g.Mirrors records observes pending lost)
    (weaker : ∀ d, lost d → lost' d) : g.Mirrors records observes pending lost' :=
  ⟨h.noted, h.proposed, fun d member => (h.missed d member).imp_right fun rest =>
    rest.imp_right fun other => other.imp_right (weaker d)⟩

/-- What is added at the end of what is to be told does not matter yet. -/
theorem append (h : g.Mirrors records observes pending lost) (more : List Literal) :
    g.Mirrors records observes (pending ++ more) lost where
  noted := h.noted
  proposed l level found := by
    obtain ⟨d, rest, split, literal, at', sub, unheard⟩ := h.proposed l level found
    refine ⟨d, rest, split, literal, at', sub, fun observed => ⟨(unheard observed).1, ?_⟩⟩
    rw [List.head?_append, (unheard observed).2, Option.some_or]
  missed := h.missed

/-- When the theory is told of the trail it notes what was decided, if it observes that. Its level may be
another afterwards. -/
theorem tell (h : g.Mirrors records observes pending lost) (observed : ∀ l ∈ pending, observes l.atom)
    (low : ∀ d ∈ records, d.level ≤ g.level) (level : Nat) (later : List Literal) :
    ({ pending.foldl settle g with level } : Ledger).Mirrors records observes later lost := by
  cases pending with
  | nil =>
    refine ⟨h.noted, fun l at' found => ?_, h.missed⟩
    obtain ⟨d, rest, split, literal, made, sub, unheard⟩ := h.proposed l at' found
    exact ⟨d, rest, split, literal, made, sub, fun isObserved => by cases (unheard isObserved).2⟩
  | cons l rest =>
    cases found : g.proposal with
    | none =>
      have none' : ∀ p at', g.proposal ≠ some (p, at') := by simp [found]
      rw [foldl_settle_eq_self fun p at' proposal => absurd proposal (none' p at')]
      exact ⟨h.noted, fun p at' proposal => absurd proposal (none' p at'), h.missed⟩
    | some proposal =>
      obtain ⟨p, at'⟩ := proposal
      obtain ⟨d, others, rfl, rfl, made, sub, unheard⟩ := h.proposed p at' found
      have above : at' < g.level := by
        have below := low d (.head _)
        omega
      rw [List.foldl_cons]
      by_cases decided : d.literal = l
      · have settled : g.settle l = { g with proposal := none, noted := l :: g.noted } := by
          simp [settle, found, above, decided]
        rw [settled, foldl_settle_eq_self (by simp)]
        refine ⟨?_, by simp, fun e member => ?_⟩
        · rw [List.map_cons, decided]
          exact sub.cons_cons l
        · rcases h.missed e member with noted | ⟨level, pending⟩ | rest
          · exact .inl (.tail _ noted)
          · have same : d.literal = e.literal := congrArg Prod.fst (Option.some.inj (found.symm.trans pending))
            exact .inl (same ▸ decided ▸ .head _)
          · exact .inr (.inr rest)
      · have settled : g.settle l = { g with proposal := none } := by
          simp [settle, found, above, decided]
        have unobserved : ¬observes d.literal.atom := by
          intro isObserved
          have first := (unheard isObserved).2
          rw [List.head?_cons, Option.some.injEq] at first
          exact decided first.symm
        rw [settled, foldl_settle_eq_self (by simp)]
        refine ⟨h.noted, by simp, fun e member => ?_⟩
        rcases h.missed e member with noted | ⟨level, pending⟩ | rest
        · exact .inl noted
        · have same : d.literal = e.literal := congrArg Prod.fst (Option.some.inj (found.symm.trans pending))
          exact .inr (.inr (.inl (same ▸ unobserved)))
        · exact .inr (.inr rest)

/-- When a proposal is decided, an earlier one whose fate is open is lost, if the theory was to hear of it. -/
theorem accept (h : g.Mirrors records observes pending lost) {d : DecisionRecord}
    (made : d.level = g.level + 1) {later : List Literal}
    (first : observes d.literal.atom → later.head? = some d.literal) :
    (⟨g.noted, some (d.literal, g.level), g.level + 1⟩ : Ledger).Mirrors (d :: records) observes later
      fun e => lost e ∨ e ∈ records ∧ e.literal ∈ pending where
  noted := h.noted.cons _
  proposed l level found := by
    cases found
    exact ⟨d, records, rfl, rfl, made, h.noted, fun observed => ⟨rfl, first observed⟩⟩
  missed e member := by
    rcases List.mem_cons.mp member with rfl | old
    · exact .inr (.inl ⟨_, rfl⟩)
    · rcases h.missed e old with noted | ⟨level, found⟩ | unobserved | isLost
      · exact .inl noted
      · obtain ⟨_, _, _, _, _, _, unheard⟩ := h.proposed _ _ found
        by_cases observed : observes e.literal.atom
        · exact .inr (.inr (.inr (.inr ⟨old, List.mem_of_head? (unheard observed).2⟩)))
        · exact .inr (.inr (.inl observed))
      · exact .inr (.inr (.inl unobserved))
      · exact .inr (.inr (.inr (.inl isLost)))

/-- When decisions are taken back with their levels, those that stand are mirrored as they were. -/
theorem retreat (h : g.Mirrors records observes pending lost)
    (descending : records.Pairwise fun later earlier => earlier.level < later.level)
    (distinct : (records.map (·.literal)).Nodup) (low : target < g.level) (later : List Literal) :
    (⟨((records.filter fun d => target < d.level).map (·.literal)).foldl List.erase g.noted, none, target⟩ :
      Ledger).Mirrors (records.filter fun d => d.level ≤ target) observes later lost := by
  obtain ⟨above, below⟩ := List.takeWhile_eq_filter (p := fun d => decide (target < d.level))
    (descending.imp fun lower => by
      simp only [decide_eq_true_eq]
      omega)
  have split := List.takeWhile_append_dropWhile (p := fun d => decide (target < d.level)) (l := records)
  simp only [above, below, ← decide_not, Nat.not_lt] at split
  have sub := h.noted
  have apart := distinct
  rw [← split, List.map_append] at sub apart
  refine ⟨List.Sublist.foldl_erase _ sub, by simp, fun d member => ?_⟩
  obtain ⟨standing, kept⟩ := List.mem_filter.mp member
  rcases h.missed d standing with noted | ⟨level, found⟩ | rest
  · refine .inl (List.mem_foldl_erase _ noted fun undone => ?_)
    exact (List.nodup_append.mp apart).2.2 _ undone _ (List.mem_map_of_mem member) rfl
  · obtain ⟨e, others, same, literal, made, _, unheard⟩ := h.proposed _ _ found
    have isLast : e ∈ records := same ▸ .head _
    obtain rfl : e = d := List.inj_on_of_nodup_map distinct isLast standing literal
    rw [decide_eq_true_eq] at kept
    exact .inr (.inr (.inl fun observed => by have := (unheard observed).1; omega))
  · exact .inr (.inr rest)

/-- When nothing is left to be told, every decision that is observed is noted, or lost. -/
theorem noted_or_lost (h : g.Mirrors records observes [] lost) {d : DecisionRecord} (member : d ∈ records)
    (observed : observes d.literal.atom) : d.literal ∈ g.noted ∨ lost d := by
  rcases h.missed d member with noted | ⟨level, found⟩ | unobserved | isLost
  · exact .inl noted
  · obtain ⟨_, _, _, _, _, _, unheard⟩ := h.proposed _ _ found
    cases (unheard observed).2
  · exact absurd observed unobserved
  · exact .inr isLost

/-- When nothing is lost either, the decisions are what is noted. -/
theorem noted_eq (h : g.Mirrors records observes [] lost) (distinct : (records.map (·.literal)).Nodup)
    (observed : ∀ d ∈ records, observes d.literal.atom) (kept : ∀ d ∈ records, ¬lost d) :
    g.noted = records.map (·.literal) := by
  refine h.noted.eq_of_length_le (distinct.subperm fun l member => ?_).length_le
  obtain ⟨d, standing, rfl⟩ := List.mem_map.mp member
  exact (h.noted_or_lost standing (observed d standing)).resolve_right (kept d standing)

end Mirrors

end Ledger

/-! ### Reachabilities -/

namespace Reachability

variable {t t' : Reachability} {i : Nat} {call : Call}

/-- What is learnt of a proposal from a fact is entered in the ledger, and nowhere else but in a count. -/
theorem ledger_settleProposal (l : Literal) (t : Reachability) :
    (t.settleProposal l).ledger = t.ledger.settle l ∧ (t.settleProposal l).graph = t.graph := by
  obtain ⟨index, graph, source, target, reach, log, occurs, decisions, proposal, failed, counters⟩ := t
  rcases proposal with _ | ⟨proposed, level⟩
  · exact ⟨rfl, rfl⟩
  · by_cases above : level < log.level
    · by_cases decided : proposed = l <;> simp [settleProposal, Ledger.settle, ledger, above, decided]
    · simp [settleProposal, Ledger.settle, ledger, above]

/-- What a reachability hears it enters in its ledger, and its graph stays as it is. -/
theorem ledger_answers (answered : Theory.Answers i t call t') (unasked : ∀ proposal, call ≠ .decide proposal) :
    t'.ledger = t.ledger.hear call ∧ t'.graph = t.graph := by
  cases answered with
  | enqueue _ l success =>
    cases success
    obtain ⟨ledger', graph⟩ := ledger_settleProposal l t
    refine ⟨?_, graph⟩
    rw [Ledger.hear, ← ledger']
    simp [ledger, LevelLog.level]
  | backtrack level =>
    refine ⟨?_, rfl⟩
    simp [ledger, Ledger.hear, LevelLog.level, LevelStack.level_cutTo, Theory.backtrack]
  | openLevel =>
    refine ⟨?_, rfl⟩
    simp [ledger, Ledger.hear, LevelLog.level, Theory.openLevel]
  | undecide l =>
    refine ⟨?_, rfl⟩
    simp [ledger, Ledger.hear, Theory.undecide]
  | propagate _ s s' conflict ran => rw [examine_kept ran]; exact ⟨rfl, rfl⟩
  | solve _ s s' conflict ran => rw [examine_kept ran]; exact ⟨rfl, rfl⟩
  | decide => exact absurd rfl (unasked _)
  | buildReason _ l marker reason answered =>
    obtain ⟨_, _, same⟩ := Except.bind_eq_ok answered
    cases same
    exact ⟨rfl, rfl⟩
  | clearSatisfied _ success =>
    cases success
    exact ⟨rfl, rfl⟩
  | _ => exact ⟨rfl, rfl⟩

end Reachability

/-- Reachabilities are theories of a type that are never asked for proposals, and enter in their ledgers what
they hear. -/
def Theory.KeepsLedgers {ρ : Type} [Theory ρ] (f : Reachability → ρ) : Prop :=
  ∀ {i : Nat} {t : Reachability} {call : Call} {u : ρ}, Theory.Answers i (f t) call u →
    ∃ t', u = f t' ∧ t'.ledger = t.ledger.hear call ∧ t'.graph = t.graph

theorem Theory.keepsLedgers_mute {τ : Type} [Theory τ] :
    @Theory.KeepsLedgers (τ ⊕ Reachability) (Theory.mute inferInstance) Sum.inr := by
  intro i t call u answered
  rcases Theory.Answers.of_mute answered with ⟨⟨proposal, rfl⟩, rfl⟩ | ⟨unasked, answered⟩
  · exact ⟨t, rfl, rfl, rfl⟩
  · obtain ⟨t', rfl, own⟩ := Theory.Embedding.inr.answers answered
    obtain ⟨ledger, graph⟩ := Reachability.ledger_answers own unasked
    exact ⟨t', rfl, ledger, graph⟩

theorem Theory.KeepsLedgers.trace {ρ : Type} [Theory ρ] {f : Reachability → ρ} (keeps : KeepsLedgers f)
    {i : Nat} {t : Reachability} {calls : List Call} {u : ρ} (traced : Trace i (f t) calls u) :
    ∃ t', u = f t' ∧ t'.ledger = calls.foldl Ledger.hear t.ledger ∧ t'.graph = t.graph := by
  generalize start : f t = u₀ at traced
  induction traced generalizing t with
  | nil => exact ⟨t, start.symm, rfl, rfl⟩
  | cons answered _ ih =>
    subst start
    obtain ⟨between, rfl, first, same⟩ := keeps answered
    obtain ⟨t', rfl, others, same'⟩ := ih rfl
    exact ⟨t', rfl, by rw [others, first, List.foldl_cons], same'.trans same⟩

end SatModulo
