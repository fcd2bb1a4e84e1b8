import SatModulo.Proofs.Delivery

/-!
# Where theories stem from

A member of a registry is what its calls have made of the theory that was registered under its index
(`Registry.Stems`). Moves call theories, and what a member observes it goes on observing; new members
come only by registration (`Move.stems`, `Move.rooted`). At a move, a member is called, but not for its turn,
or has just that (`Move.acts`).
-/
namespace SatModulo

variable {σ : Type} [Theory σ]

/-- A member was called to what it is, and observes what it did. What it had heard up to a level, it
keeps. -/
structure Member.Called (top : Nat) (i : Nat) (m m' : Member σ) (own : List Call) : Prop where
  trace : Theory.Trace i m.theory own m'.theory
  observes : ∀ a, m.observes a → m'.observes a
  keeps : ∀ heard : LevelStack Literal, heard.level = m.level → ∀ level ≤ top,
    heard.KeepsTo level (Call.hearAll heard own)

theorem Member.Called.none (top i : Nat) (m : Member σ) : Called top i m m [] :=
  ⟨.nil _, fun _ => id, fun _ _ _ _ => .refl _ _⟩

variable {i top : Nat} {m m' : Member σ} {own : List Call}

theorem Member.Silent.called (silent : Silent i m m' own) : Called top i m m' own where
  trace := silent.trace
  observes a observed := by
    rw [silent.kept]
    exact observed
  keeps _ _ _ _ := Call.keepsTo_silent silent.silent

theorem Member.Caught.called {literals : List Literal} (caught : Caught literals i m m' own) :
    Called top i m m' own where
  trace := caught.trace
  observes a observed := by
    rw [caught.kept]
    exact observed
  keeps _ _ _ _ := by
    rw [caught.own]
    exact Call.keepsTo_enqueueAll _

theorem Member.Returned.called {target length : Nat} (returned : Returned target length i m m' own)
    (low : top ≤ target) : Called top i m m' own where
  trace := returned.trace
  observes a observed := by
    rw [returned.kept]
    exact observed
  keeps heard same level le := by
    rw [returned.heard heard same]
    exact .cutTo heard (Nat.le_trans le low)

theorem Member.Raised.called (raised : Raised i m m' own) : Called top i m m' own where
  trace := raised.trace
  observes a observed := by
    rw [raised.kept]
    exact observed
  keeps heard _ _ _ := by
    rw [raised.own]
    exact .openLevel heard

/-- The member of an index is what its calls have made of a theory. Before it was registered others may
have been refused under the index. -/
def Registry.Stems (r : Registry σ) (i : Nat) (theory : σ) (m : Member σ) : Prop :=
  r.members[i]? = some m ∧ ∃ refused own, r.account i = refused ++ own ∧
    (∀ call ∈ refused, ∃ j, call = .setIndex j) ∧ Theory.Trace i theory own m.theory

namespace Registry

variable {r r' : Registry σ} {theory : σ}

theorem Stems.changes (stems : r.Stems i theory m) (changes : Changes (Member.Called top) r r') :
    ∃ m', r'.Stems i theory m' ∧ ∀ a, m.observes a → m'.observes a := by
  obtain ⟨found, refused, own, account, silent, trace⟩ := stems
  obtain ⟨m', more, found', account', called⟩ := changes.member i m found
  refine ⟨m', ⟨found', refused, own ++ more, ?_, silent, trace.append called.trace⟩, called.observes⟩
  rw [account', account, List.append_assoc]

theorem Stems.register (stems : r.Stems i theory m) {other : σ} {outcome : Except TheoryError Nat}
    (registered : r.register other = (outcome, r')) : r'.Stems i theory m := by
  obtain ⟨found, refused, own, account, silent, trace⟩ := stems
  have inside := (List.getElem?_eq_some_iff.mp found).1
  refine ⟨?_, refused, own, ?_, silent, trace⟩
  · rcases register_eq registered with ⟨_, _, _, rfl, _⟩ | ⟨_, _, rfl⟩
    · exact found
    · rw [List.getElem?_append_left inside]
      exact found
  · rcases account_register registered i with same | ⟨last, _⟩
    · rw [same, account]
    · exact absurd last (Nat.ne_of_lt inside)

/-- A theory that is registered is the root of the member that it becomes. -/
theorem stems_register (unused : ∀ call ∈ r.account r.count, ∃ j, call = .setIndex j)
    (registered : r.register theory = (.ok i, r')) : ∃ m, r'.Stems i theory m := by
  rcases register_eq registered with ⟨_, _, failed, _⟩ | ⟨same, _, rfl⟩
  · cases failed
  · cases same
    refine ⟨_, List.getElem?_concat_length, r.account r.count, [.setIndex r.count], ?_, unused,
      .single (.setIndex theory r.count)⟩
    simp [account, callsOf]

end Registry

variable {c c' : Context σ} {taking : Intake σ}

/-- A move calls members, or registers a theory that was taken in, or refuses one. -/
theorem Move.called_or_registered (move : Move taking c c') :
    Registry.Changes (Member.Called c'.level) c.theories c'.theories ∨
      ∃ theory outcome, c.theories.register theory = (outcome, c'.theories) ∧
        ∀ i, outcome = .ok i → taking.theory theory := by
  have unchanged : ∀ top, Registry.Changes (Member.Called top) c.theories c.theories := fun top =>
    .refl (Member.Called.none top) _
  have returned : ∀ level, (c.atoms.forgetAbove level).2.level ≤ level := by
    intro level
    rw [Atoms.level, Atoms.trail_forgetAbove, Trail.level_cutTo]
    exact Nat.min_le_left _ _
  cases move with
  | draw move =>
    rcases move.silent_or_caught with silent | ⟨_, caught⟩
    · exact .inl (silent.mono fun i m m' own => Member.Silent.called)
    · exact .inl (caught.mono fun i m m' own => Member.Caught.called)
  | jump move =>
    cases move with
    | retreat level low retracted theories undecided taken =>
      exact .inl ((Registry.changes_retreat undecided taken).1.mono fun i m m' own called =>
        called.called (returned level))
    | learn key l lower level clauses retracted theories atoms distinct falsified current low below tight
        entailed stored undecided taken made =>
      refine .inl ((Registry.changes_retreat undecided taken).1.mono fun i m m' own called =>
        called.called ?_)
      exact Nat.le_trans (Nat.le_of_eq (Atoms.level_assign made)) (returned level)
  | decide allowed move =>
    cases move with
    | decide l proposer theories atoms delivered opened made =>
      have raised : Registry.Changes (Member.Called atoms.level) c.theories theories :=
        (Registry.changes_openLevel opened).1.mono fun i m m' own => Member.Raised.called
      cases proposer <;> exact .inl ⟨raised.length, raised.member, raised.absent⟩
  | build move =>
    cases move with
    | register theory outcome theories given base registered =>
      exact .inr ⟨theory, outcome, registered, given⟩
    | observe i a base known m found new theory own inside late told =>
      refine .inl (Registry.changes_set found ⟨.enqueueAll told, fun b observed => ?_, fun _ _ _ _ => ?_⟩
        (Member.Called.none _))
      · simp only [Member.observes, mem_insertAtom, decide_eq_true_eq] at observed ⊢
        exact .inr observed
      · exact Call.keepsTo_enqueueAll _
    | _ => exact .inl (unchanged _)
  | settle phase before after => exact .inl (unchanged _)
  | configure settings given => exact .inl (unchanged _)

theorem Move.stems (move : Move taking c c') {i : Nat} {theory : σ} {m : Member σ}
    (stems : c.theories.Stems i theory m) :
    ∃ m', c'.theories.Stems i theory m' ∧ ∀ a, m.observes a → m'.observes a := by
  rcases move.called_or_registered with changes | ⟨other, outcome, registered, _⟩
  · exact stems.changes changes
  · exact ⟨m, stems.register registered, fun _ => id⟩

theorem Moves.stems (moves : Moves taking c c') {i : Nat} {theory : σ} {m : Member σ}
    (stems : c.theories.Stems i theory m) :
    ∃ m', c'.theories.Stems i theory m' ∧ ∀ a, m.observes a → m'.observes a := by
  induction moves with
  | refl => exact ⟨m, stems, fun _ => id⟩
  | tail _ move ih =>
    obtain ⟨between, stems, first⟩ := ih
    obtain ⟨m', stems, second⟩ := move.stems stems
    exact ⟨m', stems, fun a observed => second a (first a observed)⟩

/-- Every member stems from a theory of a kind. -/
def Context.Rooted (kind : σ → Prop) (c : Context σ) : Prop :=
  ∀ i m, c.theories.members[i]? = some m → ∃ theory, kind theory ∧ c.theories.Stems i theory m

/-- A theory is never replaced: what stands under an index has come from what was registered there. -/
theorem Move.rooted {kind : σ → Prop} (move : Move taking c c') (told : c.Told)
    (kinds : ∀ theory, taking.theory theory → kind theory) (rooted : c.Rooted kind) :
    c'.Rooted kind := by
  intro i m' found'
  have old : ∀ m, c.theories.members[i]? = some m → ∃ theory, kind theory ∧
      c'.theories.Stems i theory m' := by
    intro m found
    obtain ⟨theory, isKind, stems⟩ := rooted i m found
    obtain ⟨n, stems, _⟩ := move.stems stems
    rw [stems.1] at found'
    cases found'
    exact ⟨theory, isKind, stems⟩
  rcases move.called_or_registered with changes | ⟨other, outcome, registered, given⟩
  · obtain ⟨m, _, found, _⟩ := changes.of_getElem? found'
    exact old m found
  · rcases Nat.lt_or_ge i c.theories.members.length with inside | beyond
    · exact old _ (List.getElem?_eq_getElem inside)
    · -- The member is new, so it is the one that was registered.
      have isLast : outcome = .ok i := by
        rcases Registry.register_eq registered with ⟨_, _, _, same, _⟩ | ⟨ok, _, same⟩
        · rw [same] at found'
          exact absurd (List.getElem?_eq_some_iff.mp found').1 (Nat.not_lt.mpr beyond)
        · rw [same] at found'
          have inside := (List.getElem?_eq_some_iff.mp found').1
          rw [List.length_append, List.length_singleton] at inside
          rw [ok, show c.theories.count = i from Nat.le_antisymm beyond (Nat.lt_succ_iff.mp inside)]
      rw [isLast] at registered
      obtain ⟨n, stems⟩ := Registry.stems_register
        (told.unused _ (Nat.le_refl _)) registered
      rw [stems.1] at found'
      cases found'
      exact ⟨other, kinds other (given i isLast), stems⟩

theorem Moves.rooted {kind : σ → Prop} (moves : Moves taking c c') (h : c.Coherent) (told : c.Told)
    (kinds : ∀ theory, taking.theory theory → kind theory) (rooted : c.Rooted kind) : c'.Rooted kind := by
  induction moves with
  | refl => exact rooted
  | tail moves move ih => exact move.rooted (Moves.told moves h told) kinds ih

/-! ### Turns -/

/-- What becomes of the theory of a member on the atoms: it is called but not for its turn, or has its turn. -/
inductive Member.Acts (s : Atoms) (i : Nat) (m : Member σ) (theory : σ) : Prop
  | idle (own : List Call) (trace : Theory.Trace i m.theory own theory) (idle : ∀ call ∈ own, ¬call.IsTurn)
  | turn (turn : σ → Turn (Option Clause × σ)) (call : Nat → List Literal → Option Clause → Call)
    (kind : TurnKind turn call) (flushed : σ) (origin : flushed = m.theory ∨ flushed = Theory.flush s m.theory)
    (conflict : Option Clause) (s' : Atoms) (ran : (turn flushed).run i s = .ok ((conflict, theory), s'))

theorem Member.Acts.none (s : Atoms) (i : Nat) (m : Member σ) : Acts s i m m.theory :=
  .idle [] (.nil _) (List.forall_mem_nil _)

/-- While consequences are drawn a theory is called but not for its turn, or has its turn. -/
theorem Draw.acts (draw : Draw c c') :
    Registry.Changes (fun i m m' _ => m.Acts c.atoms i m'.theory) c.theories c'.theories := by
  have none : ∀ i (m : Member σ), m.Acts c.atoms i m.theory := Member.Acts.none c.atoms
  cases draw with
  | adjust =>
    have same : Registry.Changes (fun i m m' _ => m.Acts c.atoms i m'.theory) c.theories c.theories :=
      .refl none _
    exact ⟨same.length, same.member, same.absent⟩
  | units => exact .refl none _
  | deliver theories told =>
    refine (Registry.changes_deliverAll told).1.mono fun i m m' own caught => .idle own caught.trace ?_
    rw [caught.own]
    exact List.forall_mem_map.mpr fun _ _ => id
  | turn i turn call kind conflict atoms theories taken =>
    obtain ⟨m, m', own, found, took, rfl⟩ := Registry.changeAt_eq_ok taken
    obtain ⟨flushed, origin, ran, -⟩ := Member.memberTurn_eq_ok took
    exact Registry.changes_set found (.turn turn call kind flushed origin conflict atoms ran) none
  | preprocess theories prepared =>
    exact (Registry.changes_preprocess prepared).1.mono fun i m m' own quiet => .idle own quiet.trace quiet.idle
  | clearSatisfied isNew theories cleared =>
    exact (Registry.changes_clearSatisfied cleared).1.mono fun i m m' own quiet =>
      .idle own quiet.trace quiet.idle
  | ask i m found call question theory answered =>
    refine Registry.changes_set found (.idle [call] (.single answered) ?_) none
    rw [List.forall_mem_singleton]
    cases call <;> first | exact question.elim | exact id
  | explain i m found l marker onTrail reasoned reason theory answered =>
    refine Registry.changes_set found (.idle [_] (.single (.buildReason _ _ _ _ _ answered)) ?_) none
    exact List.forall_mem_singleton.mpr id

/-- At a move, a member is called but not for its turn, or has its turn. -/
theorem Move.acts (move : Move taking c c') (found : c.theories.members[i]? = some m) :
    ∃ m', c'.theories.members[i]? = some m' ∧ m.Acts c.atoms i m'.theory := by
  have of_changes {effect : Nat → Member σ → Member σ → List Call → Prop}
      (changes : Registry.Changes effect c.theories c'.theories)
      (acts : ∀ i m m' own, effect i m m' own → m.Acts c.atoms i m'.theory) :
      ∃ m', c'.theories.members[i]? = some m' ∧ m.Acts c.atoms i m'.theory := by
    obtain ⟨m', own, found', _, effected⟩ := changes.member i m found
    exact ⟨m', found', acts i m m' own effected⟩
  cases move with
  | draw move => exact of_changes move.acts fun _ _ _ _ => id
  | jump move =>
    cases move with
    | retreat level low retracted theories undecided taken =>
      exact of_changes (Registry.changes_retreat undecided taken).1 fun _ _ _ own returned =>
        .idle own returned.trace returned.idle
    | learn key l lower level clauses retracted theories atoms distinct falsified current low below tight
        entailed stored undecided taken made =>
      exact of_changes (Registry.changes_retreat undecided taken).1 fun _ _ _ own returned =>
        .idle own returned.trace returned.idle
  | decide allowed move =>
    cases move with
    | decide l proposer theories atoms delivered opened made =>
      obtain ⟨m', own, found', _, raised⟩ := (Registry.changes_openLevel opened).1.member i m found
      refine ⟨m', ?_, .idle own raised.trace ?_⟩
      · cases proposer <;> exact found'
      · rw [raised.own]
        exact List.forall_mem_singleton.mpr id
  | build move =>
    cases move with
    | register theory outcome theories given base registered =>
      refine ⟨m, ?_, .none _ _ _⟩
      rcases Registry.register_eq registered with ⟨_, _, _, rfl, _⟩ | ⟨_, _, rfl⟩
      · exact found
      · rw [List.getElem?_append_left (List.getElem?_eq_some_iff.mp found).1]
        exact found
    | observe j a base known n foundN new theory own inside late told =>
      have idle : n.Acts c.atoms j theory :=
        .idle _ (.enqueueAll told) (List.forall_mem_map.mpr fun _ _ => id)
      exact of_changes (Registry.changes_set foundN idle (Member.Acts.none _)) fun _ _ _ _ => id
    | _ => exact ⟨m, found, .none _ _ _⟩
  | settle => exact ⟨m, found, .none _ _ _⟩
  | configure => exact ⟨m, found, .none _ _ _⟩

/-- A member after a move is what one became at it, or was registered. -/
theorem Move.acted_or_registered (move : Move taking c c') {m' : Member σ}
    (found' : c'.theories.members[i]? = some m') :
    (∃ m, c.theories.members[i]? = some m ∧ m.Acts c.atoms i m'.theory) ∨
      ∃ theory, taking.theory theory ∧ m'.theory = Theory.setIndex i theory := by
  rcases Nat.lt_or_ge i c.theories.members.length with inside | beyond
  · have found := List.getElem?_eq_getElem inside
    obtain ⟨n, foundN, acts⟩ := move.acts found
    obtain rfl : n = m' := Option.some.inj (foundN.symm.trans found')
    exact .inl ⟨_, found, acts⟩
  · have inside := (List.getElem?_eq_some_iff.mp found').1
    rcases move.called_or_registered with changes | ⟨theory, outcome, registered, given⟩
    · rw [changes.length] at inside
      exact absurd inside (Nat.not_lt.mpr beyond)
    · rcases Registry.register_eq registered with ⟨_, _, _, same, _⟩ | ⟨ok, _, same⟩
      · rw [same] at inside
        exact absurd inside (Nat.not_lt.mpr beyond)
      · rw [same, List.length_append, List.length_singleton] at inside
        obtain rfl : i = c.theories.members.length := by omega
        rw [same, List.getElem?_concat_length] at found'
        cases found'
        exact .inr ⟨theory, given _ ok, rfl⟩

/-! ### Calls -/

/-- What a member may be called for while consequences are drawn. It is told of what is pending, and asked
for nothing but turns, reasons and answers. -/
inductive Context.Calls (c : Context σ) (m : Member σ) : Call → Prop
  | enqueue (l : Literal) (pending : l ∈ m.pending c.atoms.trail.literals) : Calls c m (.enqueue l)
  | flush (level assignments : Nat) : Calls c m (.flush level assignments)
  | turn (call : Call) (isTurn : call.IsTurn) : Calls c m call
  | preprocess : Calls c m .preprocess
  | noteOccurs (l : Literal) (literals : List Literal) (observed : m.observedLiterals = .ok literals)
    (member : l ∈ literals) : Calls c m (.noteOccurs l (c.clauses.occurs l))
  | clearSatisfied : Calls c m .clearSatisfied
  | question (call : Call) (isQuestion : call.IsQuestion) : Calls c m call
  | buildReason (l : Literal) (marker : Marker) (reason : Clause) : Calls c m (.buildReason l marker reason)

theorem Member.calls_preprocess (success : m.preprocess c.clauses.occurs = .ok (m', own)) :
    ∀ call ∈ own, c.Calls m call := by
  unfold preprocess at success
  split at success
  · cases success
    exact List.forall_mem_nil _
  · obtain ⟨literals, observed, success⟩ := Except.bind_eq_ok success
    cases success
    refine List.forall_mem_cons.mpr ⟨.preprocess, List.forall_mem_map.mpr fun l member => ?_⟩
    exact .noteOccurs l literals observed member

theorem Draw.calls (draw : Draw c c') :
    Registry.Changes (fun _ m _ own => ∀ call ∈ own, c.Calls m call) c.theories c'.theories := by
  have none : ∀ (_ : Nat) (m : Member σ), ∀ call ∈ ([] : List Call), c.Calls m call := fun _ _ =>
    List.forall_mem_nil _
  cases draw with
  | adjust =>
    have same : Registry.Changes (fun _ m _ own => ∀ call ∈ own, c.Calls m call) c.theories c.theories :=
      .refl none _
    exact ⟨same.length, same.member, same.absent⟩
  | units => exact .refl none _
  | deliver theories told =>
    refine (Registry.changes_deliverAll told).1.mono fun i m m' own caught => ?_
    rw [caught.own]
    exact List.forall_mem_map.mpr fun l pending => .enqueue l pending
  | turn i turn call kind conflict atoms theories taken =>
    obtain ⟨m, m', own, found, took, rfl⟩ := Registry.changeAt_eq_ok taken
    obtain ⟨_, _, _, _, rfl, _⟩ := Member.memberTurn_eq_ok took
    refine Registry.changes_set found (List.forall_mem_append.mpr ⟨?_, ?_⟩) none
    · split
      · exact List.forall_mem_singleton.mpr (.flush _ _)
      · exact List.forall_mem_nil _
    · refine List.forall_mem_singleton.mpr (.turn _ ?_)
      cases kind <;> exact trivial
  | preprocess theories prepared =>
    exact (Registry.changeAll_eq_ok prepared).1.mono fun _ _ _ _ => Member.calls_preprocess
  | clearSatisfied isNew theories cleared =>
    unfold Registry.clearSatisfied at cleared
    split at cleared
    · cases cleared
      exact .refl none _
    · obtain ⟨between, changed, same⟩ := Except.bind_eq_ok cleared
      cases same
      have cleared : ∀ (m m' : Member σ) own, m.clearSatisfied = .ok (m', own) → ∀ call ∈ own, c.Calls m call := by
        intro m m' own called
        rcases (Member.clearSatisfied_eq_ok called).2.2 with rfl | rfl
        · exact none 0 m
        · exact List.forall_mem_singleton.mpr .clearSatisfied
      have changes := (Registry.changeAll_eq_ok changed).1.mono fun _ => cleared
      exact ⟨changes.length, changes.member, changes.absent⟩
  | ask i m found call question theory answered =>
    exact Registry.changes_set found (List.forall_mem_singleton.mpr (.question call question)) none
  | explain i m found l marker onTrail reasoned reason theory answered =>
    exact Registry.changes_set found (List.forall_mem_singleton.mpr (.buildReason l marker reason)) none

end SatModulo
