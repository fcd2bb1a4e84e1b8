import SatModulo.Proofs.Consulting
import SatModulo.Proofs.Delivery
import SatModulo.Proofs.Protocol

/-!
# Exchanges between the core and its theories

What a context does, as its theories see it: one step calls every theory at most for one thing
(`Exchange`). The levels of theories and the decisions that stand on proposals are those of the context
(`Context.Orderly`), and a theory that has kept to the protocol since it was registered goes on keeping
to it (`Context.Follows`).
-/
namespace SatModulo

variable {σ : Type}

/-- The atoms change, but not on behalf of a theory. -/
inductive Atoms.Amends : Atoms → Atoms → Prop
  | fresh (s s' : Atoms) (previous : Bool) (a : Atom) (success : s.fresh previous = .ok (a, s')) :
    Amends s s'
  | assign (s s' : Atoms) (l : Literal) (reason : Reason) (own : ∀ i marker, reason ≠ .theory i marker)
    (made : s.assign l reason = .ok (.unset, s')) : Amends s s'
  /-- The consequences of a literal by clauses have been drawn. -/
  | advance (s : Atoms) : Amends s { s with trail.head := s.trail.head + 1 }

/-- One step of a context, with what it has to do with theories. -/
inductive Exchange [Theory σ] (c c' : Context σ) : Prop
  /-- No theory is called. -/
  | apart (members : c'.theories.members = c.theories.members)
    (calls : c'.theories.calls = c.theories.calls)
    (decisions : c'.theories.decisions = c.theories.decisions)
    (atoms : c'.atoms = c.atoms ∨ c.atoms.Amends c'.atoms)
  /-- A theory is registered or refused. -/
  | register (theory : σ) (outcome : Except TheoryError Nat) (base : c.level = 0)
    (registered : c.theories.register theory = (outcome, c'.theories)) (atoms : c'.atoms = c.atoms)
  /-- Theories are consulted. -/
  | consult (changes : Registry.Changes (Member.Consulted c.atoms) c.theories c'.theories)
    (decisions : c'.theories.decisions = c.theories.decisions) (atoms : c'.atoms = c.atoms)
  /-- A theory has its turn. -/
  | turn (i : Nat) (turn : σ → Turn (Option Clause × σ))
    (call : Nat → List Literal → Option Clause → Call) (kind : TurnKind turn call)
    (conflict : Option Clause)
    (taken : c.theories.changeAt i (Procedure.memberTurn i turn call c.atoms) =
      .ok (some (conflict, c'.atoms), c'.theories))
  /-- A literal is decided on a level of its own. A proposal that can be decided is accepted, and stands
  from then on. -/
  | decide (l : Literal) (proposer : Option (Nat × Proposal))
    (accepted : ∀ i p, proposer = some (i, p) →
      p.literal = l ∧ c.atoms.isOpen l = true ∧ i < c.theories.members.length)
    (changes : Registry.Changes (Member.Lifted proposer) c.theories c'.theories)
    (decisions : c'.theories.decisions = match proposer with
      | none => c.theories.decisions
      | some (i, p) => ⟨c.level + 1, i, l, p.reason⟩ :: c.theories.decisions)
    (atoms : c.atoms.openLevel.assign l .decision = .ok (.unset, c'.atoms))
  /-- The levels above one are removed. The decisions on proposals at them stand no longer, and their
  theories are told of each. -/
  | retreat (target : Nat) (low : target < c.level)
    (changes : Registry.Changes
      (Member.Lowered (c.theories.decisions.filter fun d => target < d.level) target)
      c.theories c'.theories)
    (decisions : c'.theories.decisions = c.theories.decisions.filter fun d => d.level ≤ target)
    (atoms : c'.atoms = (c.atoms.forgetAbove target).2)

/-- The levels of a context are those of every theory. The decisions that stand on proposals were made at
levels that are open, the most recent at the highest, by theories that can make them. -/
structure Context.Orderly (c : Context σ) : Prop where
  room : c.atoms.count ≤ maxAtom + 1
  levels : ∀ m ∈ c.theories.members, m.level = c.level
  descending : c.theories.decisions.Pairwise fun later earlier => earlier.level < later.level
  standing : ∀ d ∈ c.theories.decisions, 0 < d.level ∧ d.level ≤ c.level ∧
    ∃ m, c.theories.members[d.theory]? = some m ∧ m.capabilities.decisions = true

/-- The theory of an index has kept to the protocol since it was registered with the given capabilities,
when its account was as at the start. -/
def Context.Follows (c : Context σ) (i : Nat) (start : List Call) (capabilities : Capabilities) : Prop :=
  ∃ m own, c.theories.members[i]? = some m ∧ m.capabilities = capabilities ∧
    c.theories.account i = start ++ own ∧ m.Conforms i own

theorem Atoms.Amends.level_eq {s s' : Atoms} (amends : s.Amends s') : s'.level = s.level := by
  cases amends with
  | fresh s' previous a success => exact congrArg Trail.level (Atoms.fresh_eq_ok success).2.2.1
  | assign s' l reason own made => exact Atoms.level_assign made
  | advance => rfl

theorem Atoms.Amends.count_le {s s' : Atoms} (amends : s.Amends s') (room : s.count ≤ maxAtom + 1) :
    s'.count ≤ maxAtom + 1 := by
  cases amends with
  | fresh s' previous a success =>
    obtain ⟨more, counted, _⟩ := Atoms.fresh_eq_ok success
    omega
  | assign s' l reason own made => rwa [Atoms.count_assign made]
  | advance => exact room

variable [Theory σ] {c c' : Context σ}

/-- A turn makes literals true at the level at which it is taken. -/
theorem Member.memberTurn_frame {i : Nat} {turn : σ → Turn (Option Clause × σ)}
    {call : Nat → List Literal → Option Clause → Call} {s s' : Atoms} {m m' : Member σ}
    {own : List Call} {conflict : Option Clause}
    (took : Procedure.memberTurn i turn call s m = .ok ((conflict, s'), m', own)) :
    s'.level = s.level ∧ s'.count = s.count := by
  obtain ⟨flushed, _, ran, _⟩ := memberTurn_eq_ok took
  have grows : Relation.ReflTransGen (ClauseStore.Grows {}) s s' :=
    ((turn flushed).allows_any.run ran).2.lift id fun _ _ step => .conclude i step
  exact ⟨(ClauseStore.growsAll_frame grows).2.1, ClauseStore.growsAll_count grows⟩

namespace Exchange

theorem aside (theories : c'.theories = c.theories) (atoms : c'.atoms = c.atoms) : Exchange c c' :=
  .apart (by rw [theories]) (by rw [theories]) (by rw [theories]) (.inl atoms)

/-- There are never more atoms than literals can be made of. -/
private theorem room (exchange : Exchange c c') (h : c.Orderly) : c'.atoms.count ≤ maxAtom + 1 := by
  have room := h.room
  cases exchange with
  | apart members calls decisions atoms =>
    rcases atoms with same | amends
    · rwa [same]
    · exact amends.count_le room
  | register theory outcome base registered atoms => rwa [atoms]
  | consult changes decisions atoms => rwa [atoms]
  | turn i turn call kind conflict taken =>
    obtain ⟨m, m', own, _, took, _⟩ := Registry.changeAt_eq_ok taken
    rwa [(Member.memberTurn_frame took).2]
  | decide l proposer accepted changes decisions atoms => rwa [Atoms.count_assign atoms]
  | retreat target low changes decisions atoms => rwa [atoms, Atoms.count_forgetAbove]

omit [Theory σ] in
private theorem able_of_changes {effect : Nat → Member σ → Member σ → List Call → Prop}
    (changes : Registry.Changes effect c.theories c'.theories)
    (capabilities : ∀ i m m' own, effect i m m' own → m'.capabilities = m.capabilities) {i : Nat}
    (able : ∃ m, c.theories.members[i]? = some m ∧ m.capabilities.decisions = true) :
    ∃ m, c'.theories.members[i]? = some m ∧ m.capabilities.decisions = true := by
  obtain ⟨m, found, capable⟩ := able
  obtain ⟨m', own, found', _, effected⟩ := changes.member i m found
  exact ⟨m', found', by rw [capabilities i m m' own effected]; exact capable⟩

omit [Theory σ] in
/-- Members change by effects that keep levels and capabilities, and decisions stand as they did. -/
private theorem orderly_of_changes {effect : Nat → Member σ → Member σ → List Call → Prop}
    (h : c.Orderly) (room : c'.atoms.count ≤ maxAtom + 1)
    (changes : Registry.Changes effect c.theories c'.theories)
    (keeps : ∀ i m m' own, effect i m m' own →
      m'.capabilities = m.capabilities ∧ m'.level = m.level)
    (decisions : c'.theories.decisions = c.theories.decisions) (level : c'.level = c.level) :
    c'.Orderly where
  room
  levels m' member := by
    obtain ⟨i, m, own, found, effected⟩ := changes.of_mem member
    rw [(keeps i m m' own effected).2, h.levels m (List.mem_of_getElem? found), level]
  descending := decisions ▸ h.descending
  standing d member := by
    rw [decisions] at member
    obtain ⟨positive, low, able⟩ := h.standing d member
    exact ⟨positive, level ▸ low,
      able_of_changes changes (fun i m m' own effected => (keeps i m m' own effected).1) able⟩

/-- At a turn one member is called, and the level stays. -/
private theorem changes_turn {i : Nat} {turn : σ → Turn (Option Clause × σ)}
    {call : Nat → List Literal → Option Clause → Call} {s s' : Atoms} {r r' : Registry σ}
    {conflict : Option Clause}
    (taken : r.changeAt i (Procedure.memberTurn i turn call s) = .ok (some (conflict, s'), r')) :
    Registry.Changes (fun j m m' own => (m' = m ∧ own = []) ∨
      j = i ∧ Procedure.memberTurn i turn call s m = .ok ((conflict, s'), m', own)) r r' ∧
      r'.decisions = r.decisions ∧ s'.level = s.level := by
  obtain ⟨m, m', own, found, took, rfl⟩ := Registry.changeAt_eq_ok taken
  exact ⟨Registry.changes_set found (.inr ⟨rfl, took⟩) fun _ _ => .inl ⟨rfl, rfl⟩, rfl,
    (Member.memberTurn_frame took).1⟩

/-- A theory that is registered is at the base level, as the context is. -/
private theorem orderly_register (h : c.Orderly) (room : c'.atoms.count ≤ maxAtom + 1) {theory : σ}
    {outcome : Except TheoryError Nat} (base : c.level = 0)
    (registered : c.theories.register theory = (outcome, c'.theories)) (level : c'.level = c.level) :
    c'.Orderly := by
  rcases Registry.register_eq registered with ⟨_, _, _, same, _⟩ | ⟨_, _, same⟩
  · refine ⟨room, ?_, ?_, ?_⟩ <;> rw [same]
    · exact level ▸ h.levels
    · exact h.descending
    · exact level ▸ h.standing
  · refine ⟨room, fun m member => ?_, ?_, fun d member => ?_⟩
    · rw [same] at member
      rcases List.mem_append.mp member with old | new
      · rw [level, h.levels m old]
      · rw [List.mem_singleton.mp new, level, base]
    · rw [same]
      exact h.descending
    · rw [same] at member ⊢
      obtain ⟨positive, low, m, found, capable⟩ := h.standing d member
      refine ⟨positive, level ▸ low, m, ?_, capable⟩
      rw [List.getElem?_append_left (List.getElem?_eq_some_iff.mp found).1]
      exact found

/-- A decision on a proposal stands at a level above those of the decisions before. -/
private theorem orderly_decide (h : c.Orderly) (room : c'.atoms.count ≤ maxAtom + 1) {l : Literal}
    {proposer : Option (Nat × Proposal)}
    (accepted : ∀ i p, proposer = some (i, p) → i < c.theories.members.length)
    (changes : Registry.Changes (Member.Lifted proposer) c.theories c'.theories)
    (decisions : c'.theories.decisions = match proposer with
      | none => c.theories.decisions
      | some (i, p) => ⟨c.level + 1, i, l, p.reason⟩ :: c.theories.decisions)
    (level : c'.level = c.level + 1) : c'.Orderly := by
  have able := @able_of_changes _ _ _ _ changes fun i m m' own lifted => lifted.capabilities
  have old : ∀ d ∈ c.theories.decisions, 0 < d.level ∧ d.level ≤ c'.level ∧
      ∃ m, c'.theories.members[d.theory]? = some m ∧ m.capabilities.decisions = true := by
    intro d member
    obtain ⟨positive, low, capable⟩ := h.standing d member
    exact ⟨positive, by omega, able capable⟩
  refine ⟨room, fun m' member => ?_, ?_, ?_⟩
  · obtain ⟨i, m, own, found, lifted⟩ := changes.of_mem member
    rw [lifted.level, h.levels m (List.mem_of_getElem? found), level]
  · rw [decisions]
    cases proposer with
    | none => exact h.descending
    | some proposal =>
      refine List.pairwise_cons.mpr ⟨fun d member => ?_, h.descending⟩
      exact Nat.lt_succ_of_le (h.standing d member).2.1
  · rw [decisions]
    rcases proposer with _ | ⟨i, p⟩
    · exact old
    · have found := List.getElem?_eq_getElem (accepted i p rfl)
      obtain ⟨m', own, _, _, lifted⟩ := changes.member i _ found
      refine List.forall_mem_cons.mpr ⟨⟨Nat.succ_pos _, Nat.le_of_eq level.symm, ?_⟩, old⟩
      exact able ⟨_, found, lifted.capable p rfl⟩

/-- After a return the decisions stand that were made at levels that are left. -/
private theorem orderly_retreat (h : c.Orderly) (room : c'.atoms.count ≤ maxAtom + 1) {target : Nat}
    (changes : Registry.Changes
      (Member.Lowered (c.theories.decisions.filter fun d => target < d.level) target) c.theories c'.theories)
    (decisions : c'.theories.decisions = c.theories.decisions.filter fun d => d.level ≤ target)
    (level : c'.level = target) : c'.Orderly := by
  refine ⟨room, fun m' member => ?_, ?_, fun d member => ?_⟩
  · obtain ⟨i, m, own, found, lowered⟩ := changes.of_mem member
    rw [lowered.level, level]
  · rw [decisions]
    exact h.descending.filter _
  · rw [decisions, List.mem_filter, decide_eq_true_eq] at member
    obtain ⟨positive, _, able⟩ := h.standing d member.1
    refine ⟨positive, level ▸ member.2, ?_⟩
    exact able_of_changes changes (fun _ _ _ _ lowered => lowered.capabilities) able

omit [Theory σ] in
private theorem level_eq_of_atoms (atoms : c'.atoms = c.atoms) : c'.level = c.level := by
  rw [Context.level, atoms]
  rfl

/-- Every exchange keeps the levels of theories at those of the context and the record of decisions in order. -/
theorem orderly (exchange : Exchange c c') (h : c.Orderly) : c'.Orderly := by
  have room := exchange.room h
  cases exchange with
  | apart members calls decisions atoms =>
    have level : c'.level = c.level := atoms.elim level_eq_of_atoms (·.level_eq)
    refine ⟨room, ?_, decisions ▸ h.descending, ?_⟩
    · rw [members, level]
      exact h.levels
    · rw [members, decisions, level]
      exact h.standing
  | register theory outcome base registered atoms =>
    exact orderly_register h room base registered (level_eq_of_atoms atoms)
  | consult changes decisions atoms =>
    refine orderly_of_changes h room changes (fun i m m' own consulted => ?_) decisions
      (level_eq_of_atoms atoms)
    exact ⟨consulted.capabilities, consulted.level⟩
  | turn i turn call kind conflict taken =>
    obtain ⟨changes, decisions, level⟩ := changes_turn taken
    refine orderly_of_changes h room changes (fun j m m' own effected => ?_) decisions level
    rcases effected with ⟨rfl, _⟩ | ⟨_, took⟩
    · exact ⟨rfl, rfl⟩
    · obtain ⟨_, _, _, kept, _⟩ := Member.memberTurn_eq_ok took
      rw [kept]
      exact ⟨rfl, rfl⟩
  | decide l proposer accepted changes decisions atoms =>
    refine orderly_decide h room (fun i p same => (accepted i p same).2.2) changes decisions ?_
    rw [Context.level, Atoms.level_assign atoms]
    exact Trail.level_openLevel _
  | retreat target low changes decisions atoms =>
    refine orderly_retreat h room changes decisions ?_
    rw [Context.level, atoms, Atoms.level, Atoms.trail_forgetAbove, Trail.level_cutTo]
    exact Nat.min_eq_left (Nat.le_of_lt low)

omit [Theory σ] in
private theorem follows_of_changes {effect : Nat → Member σ → Member σ → List Call → Prop} {i : Nat}
    {start : List Call} {capabilities : Capabilities} (follows : c.Follows i start capabilities)
    (changes : Registry.Changes effect c.theories c'.theories)
    (keeps : ∀ m m' own more, c.theories.members[i]? = some m → effect i m m' more → m.Conforms i own →
      m'.capabilities = m.capabilities ∧ m'.Conforms i (own ++ more)) :
    c'.Follows i start capabilities := by
  obtain ⟨m, own, found, rfl, account, conforms⟩ := follows
  obtain ⟨m', more, found', account', effected⟩ := changes.member i m found
  obtain ⟨capabilities, conforms'⟩ := keeps m m' own more found effected conforms
  exact ⟨m', own ++ more, found', capabilities, by rw [account', account, List.append_assoc], conforms'⟩

/-- A theory that has kept to the protocol goes on keeping to it. -/
theorem follows (exchange : Exchange c c') (h : c.Orderly) {i : Nat} {start : List Call}
    {capabilities : Capabilities} (follows : c.Follows i start capabilities) :
    c'.Follows i start capabilities := by
  cases exchange with
  | apart members calls decisions atoms =>
    obtain ⟨m, own, found, capable, account, conforms⟩ := follows
    refine ⟨m, own, members ▸ found, capable, ?_, conforms⟩
    rw [Registry.account, calls]
    exact account
  | register theory outcome base registered atoms =>
    obtain ⟨m, own, found, capable, account, conforms⟩ := follows
    have inside := (List.getElem?_eq_some_iff.mp found).1
    refine ⟨m, own, ?_, capable, ?_, conforms⟩
    · rcases Registry.register_eq registered with ⟨_, _, _, same, _⟩ | ⟨_, _, same⟩
      · rw [same]
        exact found
      · rw [same, List.getElem?_append_left inside]
        exact found
    · rcases Registry.account_register registered i with same | ⟨last, _⟩
      · rw [same, account]
      · exact absurd last (Nat.ne_of_lt inside)
  | consult changes decisions atoms =>
    exact follows_of_changes follows changes fun m m' own more _ consulted conforms =>
      ⟨consulted.capabilities, conforms.consulted consulted⟩
  | turn j turn call kind conflict taken =>
    refine follows_of_changes follows (changes_turn taken).1 fun m m' own more _ effected conforms => ?_
    rcases effected with ⟨rfl, rfl⟩ | ⟨rfl, took⟩
    · exact ⟨rfl, by rwa [List.append_nil]⟩
    · obtain ⟨_, _, _, kept, _⟩ := Member.memberTurn_eq_ok took
      exact ⟨by rw [kept], conforms.turned kind took⟩
  | decide l proposer accepted changes decisions atoms =>
    exact follows_of_changes follows changes fun m m' own more _ lifted conforms =>
      ⟨lifted.capabilities, conforms.lifted lifted⟩
  | retreat target low changes decisions atoms =>
    refine follows_of_changes follows changes fun m m' own more found lowered conforms =>
      ⟨lowered.capabilities, conforms.lowered ?_ (fun d member same => ?_) lowered⟩
    · rwa [h.levels m (List.mem_of_getElem? found)]
    · obtain ⟨_, _, n, found', capable⟩ := h.standing d (List.mem_filter.mp member).1
      rw [same, found] at found'
      cases found'
      exact capable

end Exchange

end SatModulo
