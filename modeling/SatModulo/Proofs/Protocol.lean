import SatModulo.Proofs.Hearing

/-!
# The protocol of theories

What the calls of a theory keep to (`Protocol`): the index comes first, and every call is in order after
those before it (`Call.InOrder`). For each kind of step, what a member hears at it: it is consulted
(`Member.Consulted`), has its turn, has a level opened on it (`Member.Lifted`) or is taken back to one
(`Member.Lowered`). A member that has kept to the protocol so far goes on keeping to it
(`Member.Conforms`).
-/
namespace SatModulo

/-- The last element of a list is the one at a split, or comes after it. -/
theorem List.split_concat {α : Type} {xs before after : List α} {x y : α}
    (split : xs ++ [x] = before ++ y :: after) :
    (before = xs ∧ y = x ∧ after = []) ∨ ∃ mid, after = mid ++ [x] ∧ xs = before ++ y :: mid := by
  rcases List.eq_nil_or_concat after with rfl | ⟨mid, z, rfl⟩
  · obtain ⟨rfl, last⟩ := List.append_inj' split rfl
    exact .inl ⟨rfl, (List.singleton_inj.mp last).symm, rfl⟩
  · rw [List.concat_eq_append, ← List.cons_append, ← List.append_assoc] at split
    obtain ⟨rfl, last⟩ := List.append_inj' split rfl
    exact .inr ⟨mid, by rw [List.singleton_inj.mp last, List.concat_eq_append], rfl⟩

namespace Call

/-- A call is in order after the calls before it, for a theory of the given capabilities. -/
def InOrder (capabilities : Capabilities) (before : List Call) : Call → Prop
  | .preprocess => .preprocess ∉ before
  | .openLevel => .preprocess ∈ before
  | .backtrack level => level < (hearAll {} before).level
  | .decide _ | .undecide _ => capabilities.decisions = true
  | .clearSatisfied => capabilities.clearSatisfied = true
  | .isSatisfied _ => capabilities.satisfactionHint = true
  | .flush .. => capabilities.deferredEnqueue = true
  | .propagate .. | .solve .. =>
    capabilities.deferredEnqueue = true →
      ∃ level assignments, before.getLast? = some (.flush level assignments)
  | _ => True

/-- A call that is in order at any time, and neither sets the index, prepares, announces a turn nor
changes the level. -/
structure IsPlain (capabilities : Capabilities) (call : Call) : Prop where
  inOrder : ∀ before, call.InOrder capabilities before
  named : ∀ j, call ≠ .setIndex j
  unprepared : call ≠ .preprocess
  turnless : ∀ level assignments, call ≠ .flush level assignments
  level : ∀ heard : LevelStack Literal, (call.hear heard).level = heard.level

theorem isPlain_enqueue (capabilities : Capabilities) (l : Literal) :
    (enqueue l).IsPlain capabilities :=
  ⟨fun _ => trivial, nofun, nofun, nofun, fun heard => heard.level_push l⟩

theorem level_hearAll_plain {capabilities : Capabilities} {calls : List Call}
    {heard : LevelStack Literal} (plain : ∀ call ∈ calls, call.IsPlain capabilities) :
    (hearAll heard calls).level = heard.level := by
  induction calls generalizing heard with
  | nil => rfl
  | cons call rest ih =>
    obtain ⟨first, others⟩ := List.forall_mem_cons.mp plain
    exact (ih others).trans (first.level heard)

end Call

/-- What the calls of a theory keep to, under an index and with the capabilities that it stated. -/
structure Protocol (capabilities : Capabilities) (i : Nat) (calls : List Call) : Prop where
  /-- The index is set once, before anything else. -/
  introduced : ∃ rest, calls = .setIndex i :: rest ∧ ∀ j, .setIndex j ∉ rest
  inOrder : ∀ before call after, calls = before ++ call :: after → call.InOrder capabilities before
  /-- A flush is followed by a turn. -/
  flushed : ∀ before level assignments after, calls = before ++ .flush level assignments :: after →
    ∃ turn rest, after = turn :: rest ∧ turn.IsTurn

namespace Protocol

variable {capabilities : Capabilities} {i : Nat} {calls more : List Call} {call : Call}

theorem initial (capabilities : Capabilities) (i : Nat) : Protocol capabilities i [.setIndex i] where
  introduced := ⟨[], rfl, by simp⟩
  inOrder before call after split := by
    change [] ++ [_] = _ at split
    obtain ⟨_, rfl, _⟩ | ⟨mid, _, no⟩ := List.split_concat split
    · exact trivial
    · simp at no
  flushed before level assignments after split := by
    change [] ++ [_] = _ at split
    obtain ⟨_, no, _⟩ | ⟨mid, _, no⟩ := List.split_concat split
    · cases no
    · simp at no

/-- The index stays the first and only one when calls are added that set none. -/
private theorem introduced_append (h : Protocol capabilities i calls)
    (named : ∀ call ∈ more, ∀ j, call ≠ .setIndex j) :
    ∃ rest, calls ++ more = .setIndex i :: rest ∧ ∀ j, .setIndex j ∉ rest := by
  obtain ⟨rest, rfl, others⟩ := h.introduced
  refine ⟨rest ++ more, rfl, fun j member => ?_⟩
  rcases List.mem_append.mp member with old | new
  · exact others j old
  · exact named _ new j rfl

/-- A call that is in order may follow, as long as it gives no index and announces no turn. -/
theorem push (h : Protocol capabilities i calls) (inOrder : call.InOrder capabilities calls)
    (named : ∀ j, call ≠ .setIndex j) (turnless : ∀ level assignments, call ≠ .flush level assignments) :
    Protocol capabilities i (calls ++ [call]) where
  introduced := h.introduced_append (by simpa using named)
  inOrder before other after split := by
    obtain ⟨rfl, rfl, _⟩ | ⟨mid, rfl, same⟩ := List.split_concat split
    · exact inOrder
    · exact h.inOrder before other mid same
  flushed before level assignments after split := by
    obtain ⟨_, same, _⟩ | ⟨mid, rfl, same⟩ := List.split_concat split
    · exact absurd same.symm (turnless level assignments)
    · obtain ⟨turn, rest, rfl, isTurn⟩ := h.flushed before level assignments mid same
      exact ⟨turn, rest ++ [call], rfl, isTurn⟩

theorem append_plain (h : Protocol capabilities i calls)
    (plain : ∀ call ∈ more, call.IsPlain capabilities) : Protocol capabilities i (calls ++ more) := by
  induction more generalizing calls with
  | nil => rwa [List.append_nil]
  | cons call rest ih =>
    obtain ⟨first, others⟩ := List.forall_mem_cons.mp plain
    rw [List.append_cons]
    exact ih (h.push (first.inOrder calls) first.named first.turnless) others

/-- A turn, which a flush announces to a theory that defers. -/
theorem turn (h : Protocol capabilities i calls) (level assignments : Nat) (isTurn : call.IsTurn) :
    Protocol capabilities i (calls ++
      ((if capabilities.deferredEnqueue then [.flush level assignments] else []) ++ [call])) := by
  have named : ∀ j, call ≠ .setIndex j := fun j same => by rw [same] at isTurn; exact isTurn
  have turnless : ∀ level assignments, call ≠ .flush level assignments := fun _ _ same => by
    rw [same] at isTurn
    exact isTurn
  by_cases deferred : capabilities.deferredEnqueue = true
  · rw [if_pos deferred, ← List.append_assoc]
    have announced : ∃ n k, (calls ++ [Call.flush level assignments]).getLast? = some (.flush n k) :=
      ⟨level, assignments, List.getLast?_concat⟩
    refine ⟨?_, fun before other after split => ?_, fun before level' assignments' after split => ?_⟩
    · rw [List.append_assoc]
      exact h.introduced_append (by simp [named])
    · obtain ⟨rfl, rfl, _⟩ | ⟨mid, rfl, same⟩ := List.split_concat split
      · cases other <;> first | exact isTurn.elim | exact fun _ => announced
      · obtain ⟨rfl, rfl, _⟩ | ⟨earlier, rfl, old⟩ := List.split_concat same
        · exact deferred
        · exact h.inOrder before other earlier old
    · obtain ⟨_, same, _⟩ | ⟨mid, rfl, same⟩ := List.split_concat split
      · exact absurd same.symm (turnless _ _)
      · obtain ⟨_, _, rfl⟩ | ⟨earlier, rfl, old⟩ := List.split_concat same
        · exact ⟨call, [], rfl, isTurn⟩
        · obtain ⟨turn, rest, rfl, follows⟩ := h.flushed before level' assignments' earlier old
          exact ⟨turn, _, rfl, follows⟩
  · rw [if_neg deferred, List.nil_append]
    refine h.push ?_ named turnless
    cases call <;> first | exact isTurn.elim | exact fun deferred' => absurd deferred' deferred

end Protocol

/-- The calls that tell the proposer of a decision of what it proposed. -/
def Proposal.asked (proposer : Option (Nat × Proposal)) : List (Nat × Call) :=
  proposer.toList.map fun (i, p) => (i, .decide (some p))

/-- The calls that take decisions back. -/
def DecisionRecord.undone (records : List DecisionRecord) : List (Nat × Call) :=
  records.map fun d => (d.theory, .undecide d.literal)

namespace Member

/-- What a member may hear when it is consulted on the atoms: it is told, prepared, asked for a proposal
that is not accepted, or asked why it made a literal of the trail true. -/
inductive Consultation (s : Atoms) (i : Nat) (m : Member σ) : List Call → Prop
  | none : Consultation s i m []
  | enqueue (literals : List Literal) : Consultation s i m (literals.map .enqueue)
  | preprocess (new : m.preprocessed = false) (literals : List Literal) (occurs : Literal → Bool) :
    Consultation s i m (.preprocess :: literals.map fun l => .noteOccurs l (occurs l))
  | clearSatisfied (capable : m.capabilities.clearSatisfied = true) :
    Consultation s i m [.clearSatisfied]
  | isSatisfied (capable : m.capabilities.satisfactionHint = true) (answer : Bool) :
    Consultation s i m [.isSatisfied answer]
  | checkPropagated (answer : Bool) : Consultation s i m [.checkPropagated answer]
  | checkSolved (answer : Bool) : Consultation s i m [.checkSolved answer]
  | decide (capable : m.capabilities.decisions = true) (proposal : Option Proposal)
    (closed : ∀ p, proposal = some p → s.isOpen p.literal = false) :
    Consultation s i m [.decide proposal]
  | buildReason (l : Literal) (marker : Marker) (onTrail : l ∈ s.trail.literals)
    (reasoned : s.reasonOf l.atom = some (.theory i marker)) (reason : Clause) :
    Consultation s i m [.buildReason l marker reason]

variable [Theory σ]

/-- A member is consulted. -/
structure Consulted (s : Atoms) (i : Nat) (m m' : Member σ) (own : List Call) : Prop where
  trace : Theory.Trace i m.theory own m'.theory
  capabilities : m'.capabilities = m.capabilities
  level : m'.level = m.level
  prepared : m'.preprocessed = true ↔ m.preprocessed = true ∨ .preprocess ∈ own
  consultation : m.Consultation s i own

/-- A level is opened on a member that was prepared. It is asked before, if it is the proposer of the
decision, and told of the trail. -/
structure Lifted (proposer : Option (Nat × Proposal)) (i : Nat) (m m' : Member σ) (own : List Call) :
    Prop where
  trace : Theory.Trace i m.theory own m'.theory
  capabilities : m'.capabilities = m.capabilities
  level : m'.level = m.level + 1
  prepared : m.preprocessed = true ∧ m'.preprocessed = true
  capable : ∀ p, proposer = some (i, p) → m.capabilities.decisions = true
  own : ∃ facts : List Literal, own =
    Registry.callsOf i (Proposal.asked proposer) ++ (facts.map .enqueue ++ [.openLevel])

/-- A member hears which of its decisions are taken back, in the order in which they are listed, and is
then taken back to a level itself. -/
structure Lowered (undone : List DecisionRecord) (target : Nat) (i : Nat) (m m' : Member σ)
    (own : List Call) : Prop where
  trace : Theory.Trace i m.theory own m'.theory
  capabilities : m'.capabilities = m.capabilities
  level : m'.level = target
  preprocessed : m'.preprocessed = m.preprocessed
  own : own = Registry.callsOf i (DecisionRecord.undone undone) ++ [.backtrack target]

/-- A member has kept to the protocol, and what is kept of it is what its calls tell. -/
structure Conforms (i : Nat) (m : Member σ) (own : List Call) : Prop where
  protocol : Protocol m.capabilities i own
  level : (Call.hearAll {} own).level = m.level
  prepared : m.preprocessed = true ↔ .preprocess ∈ own

variable {s s' : Atoms} {i : Nat} {m m' : Member σ} {own more : List Call}

omit [Theory σ] in
/-- What a member hears when it is consulted is plain, but for its preparation, which comes first. -/
theorem Consultation.isPlain (consultation : m.Consultation s i more) :
    (∀ call ∈ more, call.IsPlain m.capabilities) ∨ m.preprocessed = false ∧
      ∃ rest, more = .preprocess :: rest ∧ ∀ call ∈ rest, call.IsPlain m.capabilities := by
  cases consultation with
  | none => exact .inl (by simp)
  | enqueue literals => exact .inl (List.forall_mem_map.mpr fun l _ => Call.isPlain_enqueue _ l)
  | preprocess new literals occurs =>
    refine .inr ⟨new, _, rfl, List.forall_mem_map.mpr fun l _ => ?_⟩
    exact ⟨fun _ => trivial, nofun, nofun, nofun, fun _ => rfl⟩
  | clearSatisfied capable | isSatisfied capable answer | decide capable proposal closed =>
    exact .inl (List.forall_mem_singleton.mpr ⟨fun _ => capable, nofun, nofun, nofun, fun _ => rfl⟩)
  | checkPropagated answer | checkSolved answer | buildReason l marker onTrail reasoned reason =>
    exact .inl (List.forall_mem_singleton.mpr ⟨fun _ => trivial, nofun, nofun, nofun, fun _ => rfl⟩)

namespace Conforms

omit [Theory σ] in
theorem append_plain (h : m.Conforms i own) (plain : ∀ call ∈ more, call.IsPlain m.capabilities) :
    m.Conforms i (own ++ more) where
  protocol := h.protocol.append_plain plain
  level := by rw [Call.hearAll_append, Call.level_hearAll_plain plain, h.level]
  prepared := by
    have unprepared : .preprocess ∉ more := fun member => (plain _ member).unprepared rfl
    rw [h.prepared, List.mem_append, or_iff_left unprepared]

theorem consulted (h : m.Conforms i own) (consulted : Consulted s i m m' more) :
    m'.Conforms i (own ++ more) := by
  have prepared : m'.preprocessed = true ↔ .preprocess ∈ own ++ more := by
    rw [consulted.prepared, h.prepared, List.mem_append]
  obtain plain | ⟨new, rest, rfl, plain⟩ := consulted.consultation.isPlain
  · have told := h.append_plain plain
    exact ⟨consulted.capabilities ▸ told.protocol, consulted.level ▸ told.level, prepared⟩
  · have first : Call.InOrder m.capabilities own .preprocess := by
      simp [Call.InOrder, ← h.prepared, new]
    refine ⟨?_, ?_, prepared⟩
    · rw [consulted.capabilities, List.append_cons]
      exact (h.protocol.push first nofun nofun).append_plain plain
    · rw [consulted.level, ← h.level, Call.hearAll_append, ← List.singleton_append, Call.hearAll_append]
      exact Call.level_hearAll_plain plain

/-- A turn is in order after any calls. -/
theorem turned {turn : σ → Turn (Option Clause × σ)} {call : Nat → List Literal → Option Clause → Call}
    {conflict : Option Clause} (h : m.Conforms i own) (kind : TurnKind turn call)
    (took : Procedure.memberTurn i turn call s m = .ok ((conflict, s'), m', more)) :
    m'.Conforms i (own ++ more) := by
  have silent := (silent_memberTurn kind took).silent
  obtain ⟨_, _, _, kept, rfl, _⟩ := memberTurn_eq_ok took
  have isTurn : (call s.level (s'.trail.literals.drop s.trail.length) conflict).IsTurn := by
    cases kind <;> exact trivial
  refine ⟨?_, ?_, ?_⟩
  · rw [kept]
    exact h.protocol.turn s.level s.trail.length isTurn
  · rw [Call.hearAll_append, Call.hearAll_silent silent, h.level, kept]
  · rw [kept]
    refine h.prepared.trans ⟨List.mem_append_left _, fun member => ?_⟩
    rcases List.mem_append.mp member with old | new
    · exact old
    · -- A turn prepares nothing.
      exfalso
      split at new <;> cases kind <;> simp at new

/-- Before a level is opened, the proposer is asked and the member is told of the trail, in this order. -/
theorem lifted {proposer : Option (Nat × Proposal)} (h : m.Conforms i own)
    (lifted : Lifted proposer i m m' more) : m'.Conforms i (own ++ more) := by
  obtain ⟨facts, same⟩ := lifted.own
  have told : m.Conforms i
      (own ++ (Registry.callsOf i (Proposal.asked proposer) ++ facts.map .enqueue)) := by
    refine h.append_plain (List.forall_mem_append.mpr ⟨fun call member => ?_, ?_⟩)
    · obtain ⟨⟨j, p⟩, found, isCall⟩ := List.mem_map.mp (Registry.mem_callsOf.mp member)
      cases isCall
      have capable := lifted.capable p (Option.mem_toList.mp found)
      exact ⟨fun _ => capable, nofun, nofun, nofun, fun _ => rfl⟩
    · exact List.forall_mem_map.mpr fun l _ => Call.isPlain_enqueue _ l
  have isPrepared := told.prepared.mp lifted.prepared.1
  rw [same, ← List.append_assoc, ← List.append_assoc, List.append_assoc own]
  refine ⟨?_, ?_, ?_⟩
  · rw [lifted.capabilities]
    exact told.protocol.push isPrepared nofun nofun
  · rw [Call.hearAll_append, lifted.level, ← told.level]
    exact LevelStack.level_openLevel _
  · exact iff_of_true lifted.prepared.2 (List.mem_append_left _ isPrepared)

/-- The decisions that are taken back are announced before the level is lowered. -/
theorem lowered {undone : List DecisionRecord} {target : Nat} (h : m.Conforms i own)
    (low : target < m.level) (capable : ∀ d ∈ undone, d.theory = i → m.capabilities.decisions = true)
    (lowered : Lowered undone target i m m' more) : m'.Conforms i (own ++ more) := by
  have told : m.Conforms i (own ++ Registry.callsOf i (DecisionRecord.undone undone)) := by
    refine h.append_plain fun call member => ?_
    obtain ⟨d, found, same⟩ := List.mem_map.mp (Registry.mem_callsOf.mp member)
    cases same
    exact ⟨fun _ => capable d found rfl, nofun, nofun, nofun, fun _ => rfl⟩
  rw [lowered.own, ← List.append_assoc]
  refine ⟨?_, ?_, ?_⟩
  · rw [lowered.capabilities]
    exact told.protocol.push (by rwa [Call.InOrder, told.level]) nofun nofun
  · rw [Call.hearAll_append, lowered.level]
    change (LevelStack.cutTo _ target).level = _
    rw [LevelStack.level_cutTo, told.level]
    exact Nat.min_eq_left (Nat.le_of_lt low)
  · rw [lowered.preprocessed, told.prepared]
    simp

end Conforms

end Member

end SatModulo
