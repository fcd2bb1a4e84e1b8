import SatModulo.Proofs.Accounts
import SatModulo.Proofs.Outcome
import SatModulo.Search.TheoryTurn

/-!
# Procedures whatever the account

No procedure reads the account of calls. Two procedures match when they come to the same on contexts of their own,
but for what goes into the account (`Procedure.Matches`). The rules follow the parts of which procedures are made.
Turns, hints and checks match themselves on contexts that differ in the account only, and a theory that is asked,
or has a turn at which nothing happens, leaves such a context.
-/
namespace SatModulo

variable {σ α β : Type} {c c' : Context σ} {i : Nat}

/-- The context without the account of calls. -/
def Context.unaccounted (c : Context σ) : Context σ :=
  { c with theories := { c.theories with calls := #[] } }

theorem Context.exists_calls (same : c'.unaccounted = c.unaccounted) :
    ∃ calls, c' = { c with theories := { c.theories with calls } } := by
  refine ⟨c'.theories.calls, ?_⟩
  obtain ⟨_, _, _, ⟨_, _, _, _, _⟩, _, _, _⟩ := c
  obtain ⟨_, _, _, ⟨_, _, _, _, _⟩, _, _, _⟩ := c'
  cases same
  rfl

namespace Procedure

/-- A sequence goes on from where its first part ended. -/
theorem run_bind_of_ran {p : Procedure σ α} {next : α → Procedure σ β} {a : α} {after : Context σ}
    (ran : c.run p = .ok (.ok a, after)) : c.run (p >>= next) = after.run (next a) := by
  rw [Ensures.run_bind, ran]
  rfl

/-- Sequences come to the same where their parts do. -/
theorem run_bind_congr {p q : Procedure σ α} {next next' : α → Procedure σ β}
    (first : c.run p = c.run q)
    (rest : ∀ a after, c.run q = .ok (.ok a, after) → after.run (next a) = after.run (next' a)) :
    c.run (p >>= next) = c.run (q >>= next') := by
  rw [Ensures.run_bind, Ensures.run_bind, first]
  cases ran : c.run q with
  | error cause => rfl
  | ok outcome =>
    obtain ⟨e | a, after⟩ := outcome
    · rfl
    · exact rest a after ran

theorem run_get_bind_congr {next next' : Context σ → Procedure σ α}
    (rest : c.run (next c) = c.run (next' c)) : c.run (get >>= next) = c.run (get >>= next') :=
  rest

/-- Two procedures come to the same, each on a context of its own, but for the account of calls. -/
def Matches (p q : Procedure σ α) (c c' : Context σ) : Prop :=
  (c.run p).map (Prod.map id Context.unaccounted) = (c'.run q).map (Prod.map id Context.unaccounted)

namespace Matches

variable {p q : Procedure σ α} {next next' : α → Procedure σ β}

theorem pure {a : α} (same : c'.unaccounted = c.unaccounted) :
    Matches (Pure.pure a : Procedure σ α) (Pure.pure a) c c' :=
  congrArg (fun c => Except.ok (Except.ok a, c)) same.symm

theorem throw {e : Error} (same : c'.unaccounted = c.unaccounted) :
    Matches (MonadExcept.throw e : Procedure σ α) (MonadExcept.throw e) c c' :=
  congrArg (fun c => Except.ok (Except.error e, c)) same.symm

theorem fault {cause : Fault} :
    Matches (Procedure.ofFaulty (.error cause) : Procedure σ α) (Procedure.ofFaulty (.error cause)) c c' :=
  rfl

theorem bind (first : Matches p q c c')
    (rest : ∀ a after after', c.run p = .ok (.ok a, after) → after'.unaccounted = after.unaccounted →
      Matches (next a) (next' a) after after') : Matches (p >>= next) (q >>= next') c c' := by
  unfold Matches at first ⊢
  rw [Ensures.run_bind, Ensures.run_bind]
  cases ran : c.run p with
  | error cause =>
    cases ran' : c'.run q with
    | error cause' =>
      rw [ran, ran'] at first
      cases first
      rfl
    | ok outcome' =>
      rw [ran, ran'] at first
      cases first
  | ok outcome =>
    obtain ⟨result, after⟩ := outcome
    cases ran' : c'.run q with
    | error cause' =>
      rw [ran, ran'] at first
      cases first
    | ok outcome' =>
      obtain ⟨result', after'⟩ := outcome'
      rw [ran, ran'] at first
      obtain ⟨rfl, same⟩ := Prod.mk.inj (Except.ok.inj first)
      cases result with
      | error e => exact throw same.symm
      | ok a => exact rest a after after' ran same.symm

/-- Only one of the procedures goes a step. -/
theorem left_bind {q : Procedure σ β} {a : α} {after : Context σ} (ran : c.run p = .ok (.ok a, after))
    (rest : Matches (next a) q after c') : Matches (p >>= next) q c c' := by
  unfold Matches
  rw [run_bind_of_ran ran]
  exact rest

theorem of_run {q' : Procedure σ α} {after' : Context σ} (ran : c'.run q = after'.run q')
    (rest : Matches p q' c after') : Matches p q c c' := by
  unfold Matches
  rw [ran]
  exact rest

theorem get_bind {next next' : Context σ → Procedure σ β} (rest : Matches (next c) (next' c') c c') :
    Matches ((get : Procedure σ (Context σ)) >>= next) ((get : Procedure σ (Context σ)) >>= next') c c' :=
  rest

theorem modify_bind {u u' : Context σ → Context σ} {next next' : Unit → Procedure σ β}
    (rest : Matches (next ()) (next' ()) (u c) (u' c')) :
    Matches ((MonadState.modifyGet fun s => ((), u s) : Procedure σ Unit) >>= next)
      ((MonadState.modifyGet fun s => ((), u' s) : Procedure σ Unit) >>= next') c c' :=
  rest

/-- A member is changed, by changes that come to the same. -/
theorem changeAt_bind {f f' : Member σ → Except Fault (α × Member σ × List Call)}
    {next next' : Option α × Registry σ → Procedure σ β} (same : c'.unaccounted = c.unaccounted)
    (changes : ∀ m, c.theories.members[i]? = some m →
      (f m).map (Prod.map id Prod.fst) = (f' m).map (Prod.map id Prod.fst))
    (rest : ∀ a r calls, Matches (next (a, r)) (next' (a, { r with calls })) c c') :
    Matches (Procedure.ofFaulty (c.theories.changeAt i f) >>= next)
      (Procedure.ofFaulty (c'.theories.changeAt i f') >>= next') c c' := by
  obtain ⟨calls', rfl⟩ := Context.exists_calls same
  unfold Registry.changeAt
  dsimp only
  cases found : c.theories.members[i]? with
  | none => exact rest none c.theories calls'
  | some m =>
    have changed := changes m found
    dsimp only
    cases first : f m with
    | error cause =>
      cases second : f' m with
      | error cause' =>
        rw [first, second] at changed
        cases changed
        rfl
      | ok outcome' =>
        rw [first, second] at changed
        cases changed
    | ok outcome =>
      obtain ⟨a, n, own⟩ := outcome
      cases second : f' m with
      | error cause' =>
        rw [first, second] at changed
        cases changed
      | ok outcome' =>
        obtain ⟨a', n', own'⟩ := outcome'
        rw [first, second] at changed
        cases changed
        exact rest (some a) _ _

end Matches

variable [Theory σ]

/-- A turn does the same whatever the account. -/
theorem takeTurn_matches (same : c'.unaccounted = c.unaccounted) (turn : σ → Turn (Option Clause × σ))
    (call : Nat → List Literal → Option Clause → Call) :
    Matches (takeTurn i turn call) (takeTurn i turn call) c c' := by
  obtain ⟨calls, rfl⟩ := Context.exists_calls same
  refine .get_bind (.changeAt_bind same (fun _ _ => rfl) fun outcome r calls => ?_)
  cases outcome with
  | none => exact .throw same
  | some answer =>
    obtain ⟨conflict, atoms⟩ := answer
    refine .modify_bind (.modify_bind ?_)
    cases conflict with
    | none => exact .pure rfl
    | some clause =>
      refine .bind (.get_bind ?_) fun _ _ _ _ same => .pure same
      dsimp only
      split
      · exact .modify_bind (.modify_bind (.pure rfl))
      · exact .throw rfl

omit [Theory σ] in
/-- Theories answer the same whatever the account. -/
theorem checkEach_matches (same : c'.unaccounted = c.unaccounted) (check : Atoms → σ → Except Fault Bool)
    (call : Bool → Call) (error : Nat → TheoryError) (indices : List Nat) :
    Matches (checkEach check call error indices) (checkEach check call error indices) c c' := by
  induction indices generalizing c c' with
  | nil => exact .pure same
  | cons i rest ih =>
    obtain ⟨calls, rfl⟩ := Context.exists_calls same
    refine .get_bind (.changeAt_bind same (fun _ _ => rfl) fun answer r calls => .modify_bind ?_)
    dsimp only
    split
    · exact .throw rfl
    · exact ih rfl

omit [Theory σ] in
/-- Whether theories hint that they are satisfied is the same whatever the account, and for theories that give the
same hints. -/
theorem hintsSatisfied_matches {T T' : Theory σ} (same : c'.unaccounted = c.unaccounted)
    (hints : ∀ m, c.theories.members[i]? = some m → m.capabilities.satisfactionHint = true →
      T.isSatisfied m.theory = T'.isSatisfied m.theory) :
    Matches (@hintsSatisfied σ T i) (@hintsSatisfied σ T' i) c c' := by
  obtain ⟨calls, rfl⟩ := Context.exists_calls same
  refine .get_bind (.changeAt_bind same (fun m found => ?_) fun answer r calls => ?_)
  · split
    · rename_i gives
      rw [hints m found gives]
    · rfl
  · cases answer with
    | none => exact .fault
    | some answer => exact .modify_bind (.pure rfl)

omit [Theory σ] in
/-- A theory that gives hints is asked for one. -/
theorem run_hintsSatisfied {T : Theory σ} {m : Member σ} (found : c.theories.members[i]? = some m)
    (gives : m.capabilities.satisfactionHint = true) {answer : Bool}
    (answered : T.isSatisfied m.theory = .ok answer) :
    ∃ after, c.run (@hintsSatisfied σ T i) = .ok (.ok answer, after) ∧ after.unaccounted = c.unaccounted := by
  have asked : (if m.capabilities.satisfactionHint then do
      let answer ← T.isSatisfied m.theory
      return (answer, m, [Call.isSatisfied answer])
    else .ok (false, m, [])) = Except.ok (answer, m, [Call.isSatisfied answer]) := by
    rw [if_pos gives, answered]
    rfl
  let calls := c.theories.calls ++ [Call.isSatisfied answer].map (i, ·)
  refine ⟨{ c with theories := { c.theories with calls } }, ?_, rfl⟩
  change c.run (ofFaulty (c.theories.changeAt i _) >>= _) = _
  rw [Registry.changeAt_of_asked found asked]
  rfl

/-- A turn at which a member stays as it is and makes no literal true goes into the account only. -/
theorem run_takeTurn_of_silent {m : Member σ} {turn : σ → Turn (Option Clause × σ)} {calls : List Call}
    {call : Nat → List Literal → Option Clause → Call} (found : c.theories.members[i]? = some m)
    (silent : memberTurn i turn call c.atoms m = .ok ((none, c.atoms), m, calls)) :
    ∃ after, c.run (takeTurn i turn call) = .ok (.ok none, after) ∧ after.unaccounted = c.unaccounted := by
  refine ⟨{ c with theories := { c.theories with calls := c.theories.calls ++ calls.map (i, ·) } }, ?_, rfl⟩
  change c.run (ofFaulty (c.theories.changeAt i _) >>= _) = _
  rw [Registry.changeAt_of_asked found silent]
  rfl

end Procedure

end SatModulo
