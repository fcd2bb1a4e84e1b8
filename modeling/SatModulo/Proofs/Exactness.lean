import SatModulo.Proofs.Accusations
import SatModulo.Proofs.SelfChecks

/-!
# Self-checks are exact

What a theory draws at its turn and what it checks of itself are two readings of the same facts. Where it has
heard of all values of its atoms they agree in both directions: the check says that nothing is left to be
drawn just where a propagation would draw nothing (`Exact`). A theory that is registered about known atoms
stays able to do what it means to (`Move.attests`), so along a run the check is exact wherever all values are
delivered, and what a propagation leaves it agrees to (`Context.Attests.checks_of_propagate`).
-/
namespace SatModulo

open Constraint

/-- A propagation on the atoms finds no conflict, and makes nothing true. -/
def Theory.DrawsNothing {σ : Type} [Theory σ] (i : Nat) (s : Atoms) (t : σ) : Prop :=
  ∃ t', (Theory.propagate t).run i s = .ok ((none, t'), s)

/-- A turn that may only end so draws nothing. -/
theorem Theory.DrawsNothing.of_returns {σ : Type} [Theory σ] {i : Nat} {s : Atoms} {t : σ}
    (returns : (Theory.propagate t).Returns i s fun outcome s' => outcome.1 = none ∧ s' = s) :
    Theory.DrawsNothing i s t := by
  obtain ⟨⟨_, t'⟩, _, ran, rfl, rfl⟩ := returns
  exact ⟨t', ran⟩

/-- Reliable theories that say of themselves exactly whether a propagation would draw nothing. -/
class Exact (σ : Type) [Theory σ] [Constraint σ] [Reliable σ] : Prop where
  checkPropagated_iff {root t : σ} {heard : LevelStack Literal} {s : Atoms}
    (informed : Informed root heard t s) (sound : Reliable.Sound t)
    (complete : ∀ a ∈ atoms root, (s.value a).isSome → ∃ l ∈ heard.entries, l.atom = a) (i : Nat) :
    Theory.checkPropagated s t = .ok true ↔ Theory.DrawsNothing i s t

/-! ### Bounds -/

namespace AtMost

variable {root t : AtMost} {heard : LevelStack Literal} {s : Atoms}

/-- A member that is not among the true ones is false, if it has a value. -/
theorem valueOf_eq_false_of_not_true (informed : Informed root heard t s)
    (complete : ∀ a ∈ root.atoms, (s.value a).isSome → ∃ l ∈ heard.entries, l.atom = a) {l : Literal}
    (member : l ∈ t.members) (valued : (s.valueOf l).isSome) (other : l ∉ t.trueMembers t.log.entries) :
    s.valueOf l = some false := by
  obtain ⟨value, given⟩ := Option.isSome_iff_exists.mp valued
  cases value with
  | false => exact given
  | true =>
    -- A true member was heard of, and kept.
    refine absurd (mem_trueMembers.mpr ⟨?_, member⟩) other
    rw [informed.recalls.members] at member
    have valued : (s.value l.atom).isSome = true := by
      rw [Literal.valueOn_eq_true.mp given]
      rfl
    obtain ⟨fact, inHeard, same⟩ := complete l.atom (List.mem_map_of_mem member) valued
    have isTrue := informed.coherent.valueOf_of_mem (informed.onTrail fact inHeard)
    have polarity : fact.polarity = l.polarity := by
      have first := Literal.valueOn_eq_true.mp isTrue
      rw [same, Literal.valueOn_eq_true.mp given] at first
      exact (Option.some.inj first).symm
    obtain rfl := Literal.eq_of_atom_of_polarity same polarity
    have kept : root.keeps fact = true := by simp [keeps, member]
    rw [entries_of_informed informed, recalled, LevelStack.entries_filter]
    exact List.mem_filter.mpr ⟨inHeard, kept⟩

/-- Where nothing more follows, a propagation draws nothing. -/
theorem drawsNothing_of_isExhausted (informed : Informed root heard t s)
    (complete : ∀ a ∈ root.atoms, (s.value a).isSome → ∃ l ∈ heard.entries, l.atom = a)
    (exhausted : t.IsExhausted s) (i : Nat) : Theory.DrawsNothing i s t := by
  obtain ⟨few, rest⟩ := exhausted
  refine .of_returns ?_
  change Turn.Returns (if t.satisfiedAtBase then _ else _) i s _
  split
  · exact .done ⟨rfl, rfl⟩
  · rw [examine_eq, if_neg (Nat.not_lt.mpr few)]
    split
    · exact .done ⟨rfl, rfl⟩
    · rename_i enough
      have valued := rest.resolve_left enough
      have holds := holds_of_informed informed
      refine Turn.Returns.mono (falsify_of_false holds.coherent i _ fun l kept => ?_) fun _ _ ends =>
        ⟨congrArg Prod.fst ends.1, ends.2⟩
      rw [List.mem_filter, decide_eq_true_eq] at kept
      have isFalse := valueOf_eq_false_of_not_true informed complete kept.1 (valued l kept.1) kept.2
      exact (Atoms.negate_mem_of_false holds.coherent isFalse).resolve_right (holds.proper l kept.1)

end AtMost

instance : Exact AtMost where
  checkPropagated_iff {root t heard s} informed sound complete i := by
    have agrees := AtMost.isPropagated_iff (AtMost.holds_of_informed informed) sound
    change Except.ok (t.isPropagated s) = .ok true ↔ _
    rw [Except.ok.injEq, agrees]
    constructor
    · exact fun exhausted => AtMost.drawsNothing_of_isExhausted informed complete exhausted i
    · rintro ⟨t', ran⟩
      exact (AtMost.isExhausted_of_propagate informed ran).2

/-! ### Reachability -/

/-- What facts force is one literal. -/
theorem Reachability.Forces.literal_eq {root : Reachability} {facts : List Literal} {l m : Literal}
    {clause other : Clause} (h : root.IsBuilt) (forces : root.Forces facts l clause)
    (forces' : root.Forces facts m other) : l = m := by
  cases forces with
  | path found =>
    cases forces' with
    | path => rfl
    | cut none =>
      rw [truePath_eq_none h none] at found
      cases found
  | cut none =>
    cases forces' with
    | path found =>
      rw [truePath_eq_none h none] at found
      cases found
    | cut => rfl

/-- Where nothing is left to be drawn from the facts, a look at them draws nothing. -/
theorem Reachability.drawsNothing_of_nothingLeft {root t : Reachability} {heard : LevelStack Literal} {s : Atoms}
    (informed : Informed root heard t s) (nothing : root.NothingLeft t heard.entries) (i : Nat) :
    Theory.DrawsNothing i s t := by
  refine .of_returns ?_
  change (t.examine true).Returns i s _
  unfold examine
  dsimp only
  rw [informed.recalls.consequence, informed.recalls.entries]
  rcases consequence_cases informed.isBuilt.1 informed.isBuilt.2 informed.facts with none | follows
  · rw [none]
    exact .done ⟨rfl, rfl⟩
  · obtain ⟨l, clause, drawn, forces, _⟩ := follows
    obtain ⟨rest, rfl⟩ := forces.exists_cons
    obtain ⟨m, clause, forces', unknown, absent⟩ := nothing.resolve_left (by rw [drawn]; nofun)
    obtain rfl := forces'.literal_eq informed.isBuilt.1 forces
    rw [drawn]
    change Turn.Returns (if _ then _ else _) i s _
    rw [informed.recalls.reach, unknown, absent]
    exact .done ⟨rfl, rfl⟩

instance : Exact Reachability where
  checkPropagated_iff {root t heard s} informed sound complete i := by
    refine (Reachability.isPropagated_iff informed sound).trans ⟨fun nothing => ?_, ?_⟩
    · exact Reachability.drawsNothing_of_nothingLeft informed nothing i
    · rintro ⟨t', ran⟩
      exact (Reachability.nothingLeft_of_examine informed complete ran).1

/-! ### Families -/

section Either

variable {σ τ : Type} [Theory σ] [Theory τ]

theorem Theory.Embedding.drawsNothing_iff {f : σ → τ} (embeds : Embedding f) {i : Nat} {s : Atoms} {t : σ} :
    DrawsNothing i s (f t) ↔ DrawsNothing i s t := by
  unfold DrawsNothing
  rw [embeds.propagate]
  constructor
  · rintro ⟨u, ran⟩
    obtain ⟨t', _, own⟩ := Theory.Embedding.run_eq_ok ran
    exact ⟨t', own⟩
  · rintro ⟨t', own⟩
    exact ⟨f t', by rw [Turn.run_andThen, own]; rfl⟩

variable [Constraint σ] [Constraint τ] [Reliable σ] [Reliable τ] [Exact σ] [Exact τ]

instance : Exact (σ ⊕ τ) where
  checkPropagated_iff := by
    rintro (root | root) (t | t) heard s informed sound complete i
    · have own : Theory.checkPropagated s t = .ok true ↔ Theory.DrawsNothing i s t :=
        Exact.checkPropagated_iff informed.inl sound complete i
      exact own.trans Theory.Embedding.inl.drawsNothing_iff.symm
    · exact informed.recalls.elim
    · exact informed.recalls.elim
    · have own : Theory.checkPropagated s t = .ok true ↔ Theory.DrawsNothing i s t :=
        Exact.checkPropagated_iff informed.inr sound complete i
      exact own.trans Theory.Embedding.inr.drawsNothing_iff.symm

end Either

/-! ### Members -/

section Members

variable {τ σ : Type} [Theory τ] [Theory σ] [Constraint σ] [Reliable σ]

/-- What has become of a theory among others, which was built about known atoms: it is one of its type, and
was never unable to do what it meant to. -/
structure Context.Attests (c : Context (τ ⊕ σ)) (i : Nat) (root : σ) (m : Member (τ ⊕ σ)) (t : σ) : Prop where
  built : BuiltBelow c.atoms.count root
  stems : c.theories.Stems i (.inr root) m
  isTheory : m.theory = .inr t
  sound : Reliable.Sound t

variable [LawfulConstraint σ] {c c' : Context (τ ⊕ σ)} {taking : Intake (τ ⊕ σ)} {i : Nat} {root t : σ}
  {m : Member (τ ⊕ σ)}

namespace Context.Attests

omit [LawfulConstraint σ] in
/-- The member is what has become of the theory, also when it has taken note of what it put off. -/
theorem flushed_eq (attests : c.Attests i root m t) {flushed : τ ⊕ σ}
    (origin : flushed = m.theory ∨ flushed = Theory.flush c.atoms m.theory) :
    ∃ u, flushed = .inr u ∧ (u = t ∨ u = Theory.flush c.atoms t) := by
  rw [attests.isTheory] at origin
  rcases origin with rfl | rfl
  · exact ⟨t, rfl, .inl rfl⟩
  · exact ⟨_, rfl, .inr rfl⟩

/-- What has become of a theory is informed of the trail, also when it was flushed just before. -/
theorem informed (attests : c.Attests i root m t) (h : c.Coherent) (told : c.Told) {u : σ}
    (origin : u = t ∨ u = Theory.flush c.atoms t) :
    Informed root (c.theories.heard i) u c.atoms ∧ Reliable.Sound u := by
  let _ : Constraint τ := Constraint.unspoken τ
  have : LawfulConstraint τ := .unspoken
  have inFamily : BuiltBelow c.atoms.count (.inr root : τ ⊕ σ) := attests.built
  constructor
  · have isFlushed : .inr u = m.theory ∨ .inr u = Theory.flush c.atoms m.theory := by
      rw [attests.isTheory]
      rcases origin with rfl | rfl
      · exact .inl rfl
      · exact .inr rfl
    exact (told.informed h inFamily attests.stems isFlushed).inr
  · rcases origin with rfl | rfl
    · exact attests.sound
    · exact Reliable.answers (i := i) attests.sound (.flush t c.atoms) id

end Context.Attests

/-- A turn of the theory is one among others; it leaves a sound one. -/
theorem Context.Attests.sound_of_acts (attests : c.Attests i root m t) (h : c.Coherent) (told : c.Told)
    {theory : τ ⊕ σ} (acts : m.Acts c.atoms i theory) : ∃ t', theory = .inr t' ∧ Reliable.Sound t' := by
  cases acts with
  | idle own trace idle =>
    rw [attests.isTheory] at trace
    obtain ⟨t', same, own⟩ := Theory.Embedding.inr.trace trace
    exact ⟨t', same, own.sound idle attests.sound⟩
  | turn turn call kind flushed origin conflict s' ran =>
    obtain ⟨u, rfl, now⟩ := attests.flushed_eq origin
    obtain ⟨informed, sound⟩ := attests.informed h told now
    obtain ⟨turn', kind, same⟩ := Theory.Embedding.inr.turn kind
    rw [same] at ran
    obtain ⟨t', same', own⟩ := Theory.Embedding.run_eq_ok ran
    obtain ⟨_, _, ran', sound', _⟩ := Reliable.turns informed sound kind i
    rw [own] at ran'
    cases ran'
    exact ⟨t', same', sound'⟩

/-- Along moves a theory stays what it is, sound, and observes what it did. -/
theorem Move.attests (move : Move taking c c') (h : c.Coherent) (told : c.Told)
    (attests : c.Attests i root m t) :
    ∃ m' t', c'.Attests i root m' t' ∧ ∀ a, m.observes a → m'.observes a := by
  obtain ⟨m', stems, more⟩ := move.stems attests.stems
  obtain ⟨n, found, acts⟩ := move.acts attests.stems.1
  obtain rfl : n = m' := Option.some.inj (found.symm.trans stems.1)
  obtain ⟨t', same, sound⟩ := attests.sound_of_acts h told acts
  exact ⟨n, t', ⟨attests.built.mono move.count_le, stems, same, sound⟩, more⟩

theorem Moves.attests (moves : Moves taking c c') (h : c.Coherent) (told : c.Told)
    (attests : c.Attests i root m t) :
    ∃ m' t', c'.Attests i root m' t' ∧ ∀ a, m.observes a → m'.observes a := by
  induction moves with
  | refl => exact ⟨m, t, attests, fun _ => id⟩
  | tail moves move ih =>
    obtain ⟨_, _, between, first⟩ := ih
    obtain ⟨m', t', after, second⟩ := move.attests (Moves.coherent moves h) (Moves.told moves h told) between
    exact ⟨m', t', after, fun a observed => second a (first a observed)⟩

theorem Course.attests (course : Course taking c c') (h : c.Coherent) (told : c.Told)
    (attests : c.Attests i root m t) : ∃ m' t', c'.Attests i root m' t' := by
  rcases course with moves | ⟨mid, moves, refuted⟩
  · obtain ⟨m', t', after, _⟩ := Moves.attests moves h told attests
    exact ⟨m', t', after⟩
  · obtain ⟨m', t', after, _⟩ := Moves.attests moves h told attests
    obtain ⟨atoms, theories⟩ := refuted.frame
    exact ⟨m', t', ⟨atoms ▸ after.built, theories ▸ after.stems, after.isTheory, after.sound⟩⟩

/-! ### The self-check -/

/-- The self-check of a theory is exact on the context: a propagation ends, and the check agrees just where it
finds no conflict and makes nothing true. -/
def Context.ChecksExactly (c : Context (τ ⊕ σ)) (i : Nat) : Prop :=
  ∃ m conflict theory atoms answer, c.theories.members[i]? = some m ∧
    (Theory.propagate m.theory).run i c.atoms = .ok ((conflict, theory), atoms) ∧
    Theory.checkPropagated c.atoms m.theory = .ok answer ∧
    (answer = true ↔ conflict = none ∧ atoms = c.atoms)

namespace Context.Attests

/-- Where all values are delivered, the check is exact. -/
theorem checksExactly [Exact σ] (attests : c.Attests i root m t) (h : c.Coherent) (told : c.Told)
    (delivered : c.AllDelivered) (observes : ∀ a ∈ Constraint.atoms root, m.observes a) : c.ChecksExactly i := by
  obtain ⟨informed, sound⟩ := attests.informed h told (.inl rfl)
  have complete := told.complete h delivered attests.stems.1 observes (LawfulConstraint.proper attests.built.1)
  have exactly := Exact.checkPropagated_iff informed sound complete i
  obtain ⟨answer, checked⟩ := Reliable.checks informed sound
  obtain ⟨⟨conflict, t'⟩, atoms, ran, _⟩ := Reliable.turns informed sound .propagate i
  refine ⟨m, conflict, .inr t', atoms, answer, attests.stems.1, ?_, ?_, ?_⟩
  · rw [attests.isTheory, Theory.Embedding.inr.propagate, Turn.run_andThen, ran]
    rfl
  · rw [attests.isTheory, Theory.Embedding.inr.checkPropagated, checked]
  · rw [checked, Except.ok.injEq] at exactly
    rw [exactly]
    constructor
    · rintro ⟨t'', quiet⟩
      rw [ran] at quiet
      cases quiet
      exact ⟨rfl, rfl⟩
    · rintro ⟨rfl, rfl⟩
      exact ⟨t', ran⟩

/-- What a propagation that draws nothing leaves, the check agrees to. -/
theorem checks_of_propagate (attests : c.Attests i root m t) (h : c.Coherent) (told : c.Told)
    (delivered : c.AllDelivered) (observes : ∀ a ∈ Constraint.atoms root, m.observes a) {flushed theory : τ ⊕ σ}
    (origin : flushed = m.theory ∨ flushed = Theory.flush c.atoms m.theory)
    (ran : (Theory.propagate flushed).run i c.atoms = .ok ((none, theory), c.atoms)) :
    Theory.checkPropagated c.atoms theory = .ok true := by
  obtain ⟨u, rfl, now⟩ := attests.flushed_eq origin
  obtain ⟨informed, sound⟩ := attests.informed h told now
  rw [Theory.Embedding.inr.propagate] at ran
  obtain ⟨t', rfl, own⟩ := Theory.Embedding.run_eq_ok ran
  rw [Theory.Embedding.inr.checkPropagated]
  have complete := told.complete h delivered attests.stems.1 observes (LawfulConstraint.proper attests.built.1)
  exact Reliable.propagated informed sound complete own

/-- A search never fails as the theory denied that nothing is left to be drawn. -/
theorem not_blames (attests : c.Attests i root m t) (h : c.Coherent) (told : c.Told)
    (observes : ∀ a ∈ Constraint.atoms root, m.observes a) : ¬c.Blames (.theory (.checkPropagated i)) := by
  rintro (_ | _ | ⟨mid, reached, delivered, _, n, found, flushed, theory, origin, ran, denied⟩ | _ | _)
  obtain ⟨m', t', later, more⟩ := Moves.attests reached h told attests
  obtain rfl : m' = n := Option.some.inj (later.stems.1.symm.trans found)
  rw [later.checks_of_propagate (Moves.coherent reached h) (Moves.told reached h told) delivered
    (fun a member => more a (observes a member)) origin ran] at denied
  cases denied

/-- A theory that rests agrees that nothing is left to be drawn. -/
theorem checks_of_rests (attests : c.Attests i root m t) (h : c.Coherent) (told : c.Told)
    (observes : ∀ a ∈ Constraint.atoms root, m.observes a) (rests : c.Rests c' i) :
    ∃ m', c'.theories.members[i]? = some m' ∧ Theory.checkPropagated c'.atoms m'.theory = .ok true := by
  obtain ⟨mid, n, flushed, theory, m', draws, same, delivered, found, origin, ran, found', rfl⟩ := rests
  have reached : Moves {} c mid := Draws.moves draws
  obtain ⟨k, t', later, more⟩ := Moves.attests reached h told attests
  obtain rfl : k = n := Option.some.inj (later.stems.1.symm.trans found)
  refine ⟨m', found', ?_⟩
  rw [← same]
  exact later.checks_of_propagate (Moves.coherent reached h) (Moves.told reached h told) delivered
    (fun a member => more a (observes a member)) origin ran

end Context.Attests

omit [Constraint σ] [Reliable σ] [LawfulConstraint σ] in
/-- A part of a search does not fail as the theory denied that nothing is left to be drawn. -/
theorem Procedure.Excused.never_denied {α : Type} {p : Procedure (τ ⊕ σ) α} (excused : p.Excused c c)
    (innocent : ¬c.Blames (.theory (.checkPropagated i))) :
    p.Ensures c fun result _ => result ≠ .error (.theory (.checkPropagated i)) := by
  rintro result after ran rfl
  unfold Procedure.Excused Procedure.Ends at excused
  rw [ran] at excused
  exact innocent (excused _ rfl)

/-! ### Runs -/

/-- What a registered theory, about atoms that were known then, has become. -/
theorem PublicRun.attests {settings : Settings} {events : List (Event (τ ⊕ σ))} {s : Session (τ ⊕ σ)}
    {e : Event (τ ⊕ σ)} (run : PublicRun settings events s) (member : e ∈ events)
    (given : e.command = .addTheory (.inr root)) (registered : e.result = .ok (.theory i))
    (built : BuiltBelow e.before.context.atoms.count root) : ∃ m t, s.context.Attests i root m t := by
  induction run with
  | start => cases member
  | @step events s earlier command allowed result s' taken ih =>
    rcases List.mem_append.mp member with old | new
    · obtain ⟨m, t, attests⟩ := ih old
      exact (earlier.ran_step allowed taken).course.attests earlier.coherent.1 earlier.told attests
    · have whole := earlier.step command allowed result s' taken
      obtain ⟨m, stems⟩ := whole.stems_of_registers member given registered
      obtain ⟨theories, accepted, after⟩ := whole.after_of_registers member given registered
      obtain rfl := List.mem_singleton.mp new
      dsimp only at built accepted after
      rw [after] at stems ⊢
      refine ⟨m, Theory.setIndex i root, built, stems, ?_, ?_⟩
      · have found := stems.1
        rcases Registry.register_eq accepted with ⟨_, _, no, _⟩ | ⟨ok, _, same⟩
        · cases no
        · cases ok
          rw [same, Registry.count, List.getElem?_concat_length] at found
          cases found
          rfl
      · exact Reliable.answers (i := i) (Reliable.built built.1) (.setIndex root i) id

namespace PublicRun

variable {settings : Settings} {events : List (Event (τ ⊕ σ))} {s : Session (τ ⊕ σ)} {e : Event (τ ⊕ σ)}

/-- The self-check of a theory that was registered about known atoms and observes them is exact wherever all
values are delivered. No propagation and no search fails for it, and it agrees to every fixpoint. -/
theorem checks_of_registers [Exact σ] (run : PublicRun settings events s) (member : e ∈ events)
    (given : e.command = .addTheory (.inr root)) (registered : e.result = .ok (.theory i))
    (built : BuiltBelow e.before.context.atoms.count root)
    (observed : ∀ a ∈ atoms root, ∃ o ∈ events, o.Observes i a) :
    (s.context.AllDelivered → s.context.ChecksExactly i) ∧
    (∀ command result s', command = .propagate ∨ command = .solve → s.step command = .ok (result, s') →
      result ≠ .error (.theory (.checkPropagated i))) ∧
    ∀ s', s.step .propagate = .ok (.ok .fixpoint, s') → s'.context.AllDelivered ∧
      ∃ m, s'.context.theories.members[i]? = some m ∧
        Theory.checkPropagated s'.context.atoms m.theory = .ok true := by
  obtain ⟨m, t, attests⟩ := run.attests member given registered built
  have observes := run.observes_all attests.stems.1 observed
  have h := run.coherent.1
  refine ⟨fun delivered => attests.checksExactly h run.told delivered observes, ?_, ?_⟩
  · have innocent := attests.not_blames h run.told observes
    have spared {α : Type} {p : Procedure (τ ⊕ σ) α} {f : α → Answer} (excused : p.Excused s.context s.context) :
        (p >>= fun a => pure (f a)).Ensures s.context fun result _ =>
          result ≠ .error (.theory (.checkPropagated i)) := by
      refine Command.ensures_answer (Procedure.Ensures.mono (excused.never_denied innocent) ?_)
      rintro (cause | a) after never ⟨⟩
      exact never rfl
    rintro command result s' (rfl | rfl) taken
    · exact spared (Procedure.propagate_excused h .refl) _ _ (Session.step_eq_ok taken).1
    · exact spared (Procedure.solve_excused h run.opened run.told) _ _ (Session.step_eq_ok taken).1
  · intro s' taken
    have ends : (Procedure.propagate >>= fun outcome =>
        pure ((outcome.map Answer.conflict).getD .fixpoint) : Procedure (τ ⊕ σ) Answer).Ensures s.context
        fun result after => result = .ok .fixpoint → after.AllDelivered ∧
          ∀ i < s.context.theories.members.length, s.context.Rests after i := by
      refine Command.ensures_answer (Procedure.Ensures.mono (Procedure.propagate_leads h) ?_)
      rintro (cause | _ | conflict) after ⟨draws, outcome⟩ same
      · cases same
      · exact outcome.2
      · cases same
    obtain ⟨delivered, rest⟩ := ends _ _ (Session.step_eq_ok taken).1 rfl
    have inside := (List.getElem?_eq_some_iff.mp attests.stems.1).1
    exact ⟨delivered, attests.checks_of_rests h run.told observes (rest i inside)⟩

end PublicRun

end Members

/-! ### Bounds and reachability -/

namespace PublicRun

section Given

variable {τ : Type} [Theory τ] {settings : Settings} {events : List (Event (τ ⊕ (AtMost ⊕ Reachability)))}
  {s : Session (τ ⊕ (AtMost ⊕ Reachability))} {e : Event (τ ⊕ (AtMost ⊕ Reachability))}

/-- Among theories of whatever type, a bound or a reachability that was registered about known atoms other than
the one that is always true, and observes them, checks itself exactly wherever all values are delivered: it
agrees that nothing is left to be drawn just where a propagation would find no conflict and make nothing true.
So no propagation and no search fails for its check, and it agrees to every fixpoint. Its atoms are to be known
already where it is registered: about one that is added only afterwards nothing is said. -/
theorem checks_exactly (run : PublicRun settings events s) (member : e ∈ events)
    {root : AtMost ⊕ Reachability} {i : Nat} (given : e.command = .addTheory (.inr root))
    (registered : e.result = .ok (.theory i)) (made : Sum.elim AtMost.IsMade Reachability.IsMade root)
    (known : ∀ a ∈ atoms root, a ≠ topAtom ∧ a < e.before.context.atoms.count ∧
      ∃ o ∈ events, o.Observes i a) :
    (s.context.AllDelivered → s.context.ChecksExactly i) ∧
    (∀ command result s', command = .propagate ∨ command = .solve → s.step command = .ok (result, s') →
      result ≠ .error (.theory (.checkPropagated i))) ∧
    ∀ s', s.step .propagate = .ok (.ok .fixpoint, s') → s'.context.AllDelivered ∧
      ∃ m, s'.context.theories.members[i]? = some m ∧
        Theory.checkPropagated s'.context.atoms m.theory = .ok true := by
  obtain ⟨h, _⟩ := run.ran e member
  have built : BuiltBelow e.before.context.atoms.count root := Constraint.builtBelow_of_isMade made
    h.supports.atoms.room (fun a inRoot => (known a inRoot).1) fun a inRoot => (known a inRoot).2.1
  exact run.checks_of_registers member given registered built fun a inRoot => (known a inRoot).2.2

end Given

/-- After a conflict the self-checks of a bound, which is exceeded, and of a reachability, which has not had its
turn, deny that nothing is left to be drawn. -/
theorem checks_exactly_at_conflict :
    ∃ (events : List (Event (RuleTable ⊕ (AtMost ⊕ Reachability))))
      (s : Session (RuleTable ⊕ (AtMost ⊕ Reachability))),
      PublicRun {} events s ∧ events.map (·.command) = [.changeSetting (.checkTheories true), .freshLiterals 4,
        .addClause [⟨3⟩, ⟨4⟩], .addTheory (.inl {}), .addTheory (.inr (.inl (.ofMembers [⟨1⟩, ⟨-2⟩] 1))),
        .addTheory (.inr (.inr (Reachability.addEdge (.ofNodes 2 0 1 3) ⟨0, 1, 1⟩))), .observe 1 1,
        .observe 1 2, .observe 2 3, .observe 2 1, .decideLiteral ⟨1⟩, .decideLiteral ⟨-2⟩, .propagate] ∧
      s.context.ChecksExactly 1 ∧ s.context.ChecksExactly 2 ∧
      ∀ i ∈ [1, 2], ∃ m, s.context.theories.members[i]? = some m ∧
        Theory.checkPropagated s.context.atoms m.theory = .ok false := by
  obtain ⟨earlier, e, later, s, run, first, clause, others, checked⟩ :=
    of_events_any (σ := RuleTable ⊕ (AtMost ⊕ Reachability)) {}
    [.changeSetting (.checkTheories true), .freshLiterals 4] (.addClause [⟨3⟩, ⟨4⟩])
    [.addTheory (.inl {}), .addTheory (.inr (.inl (.ofMembers [⟨1⟩, ⟨-2⟩] 1))),
      .addTheory (.inr (.inr (Reachability.addEdge (.ofNodes 2 0 1 3) ⟨0, 1, 1⟩))), .observe 1 1,
      .observe 1 2, .observe 2 3, .observe 2 1, .decideLiteral ⟨1⟩, .decideLiteral ⟨-2⟩, .propagate]
    (by simp [Command.IsPublic])
    (fun _ _ later s => decide (later.map (·.result) = [.ok (.theory 0), .ok (.theory 1), .ok (.theory 2),
        .ok .done, .ok .done, .ok .done, .ok .done, .ok .done, .ok .done,
        .ok (.conflict (.theory 1 [⟨-1⟩, ⟨2⟩]))]) &&
      (later.all fun f => decide (4 < f.before.context.atoms.count)) &&
      (s.context.theories.members.all fun m => decide (m.head = s.context.atoms.trail.length)) &&
      [1, 2].all fun i => s.context.theories.members[i]?.any fun m =>
        decide (Theory.checkPropagated s.context.atoms m.theory = .ok false))
    (by decide +kernel)
  simp only [Bool.and_eq_true, decide_eq_true_eq, List.all_eq_true, Option.any_eq_true] at checked
  obtain ⟨⟨⟨answered, known⟩, delivered⟩, denied⟩ := checked
  have commands := congrArg₂ (· ++ ·) first (congrArg₂ List.cons clause others)
  rw [← List.map_cons, ← List.map_append] at commands
  have among : ∀ f ∈ later, f ∈ earlier ++ e :: later := fun f member =>
    List.mem_append_right _ (.tail _ member)
  have observes {i : Nat} {a : Atom} (observed : ∃ o ∈ later, o.Observes i a) :
      ∃ o ∈ earlier ++ e :: later, o.Observes i a := by
    obtain ⟨o, inside, observes⟩ := observed
    exact ⟨o, among o inside, observes⟩
  obtain ⟨bound, isBound, boundGiven, boundIndex⟩ : ∃ f ∈ later,
      f.command = .addTheory (.inr (.inl (.ofMembers [⟨1⟩, ⟨-2⟩] 1))) ∧ f.result = .ok (.theory 1) :=
    Event.exists_of_mem_zip others answered (by simp)
  obtain ⟨reach, isReach, reachGiven, reachIndex⟩ : ∃ f ∈ later,
      f.command = .addTheory (.inr (.inr (Reachability.addEdge (.ofNodes 2 0 1 3) ⟨0, 1, 1⟩))) ∧
        f.result = .ok (.theory 2) :=
    Event.exists_of_mem_zip others answered (by simp)
  have boundKnown : ∀ a ∈ [1, 2], a ≠ topAtom ∧ a < bound.before.context.atoms.count ∧
      ∃ o ∈ earlier ++ e :: later, o.Observes 1 a := by
    have enough := known bound isBound
    exact List.forall_mem_cons.mpr ⟨⟨by decide, Nat.lt_trans (by decide) enough,
        observes (Event.exists_of_mem_zip others answered (by simp))⟩,
      List.forall_mem_singleton.mpr ⟨by decide, Nat.lt_trans (by decide) enough,
        observes (Event.exists_of_mem_zip others answered (by simp))⟩⟩
  have reachKnown : ∀ a ∈ [3, 1], a ≠ topAtom ∧ a < reach.before.context.atoms.count ∧
      ∃ o ∈ earlier ++ e :: later, o.Observes 2 a := by
    have enough := known reach isReach
    exact List.forall_mem_cons.mpr ⟨⟨by decide, Nat.lt_trans (by decide) enough,
        observes (Event.exists_of_mem_zip others answered (by simp))⟩,
      List.forall_mem_singleton.mpr ⟨by decide, Nat.lt_trans (by decide) enough,
        observes (Event.exists_of_mem_zip others answered (by simp))⟩⟩
  exact ⟨_, s, run, commands,
    (run.checks_exactly (among bound isBound) boundGiven boundIndex ⟨_, _, rfl⟩ boundKnown).1 delivered,
    (run.checks_exactly (among reach isReach) reachGiven reachIndex ⟨2, 0, 1, 3, .latestFirst, [⟨0, 1, 1⟩], rfl⟩
      reachKnown).1 delivered, denied⟩

end PublicRun

end SatModulo
