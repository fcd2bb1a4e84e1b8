import SatModulo.Proofs.Origins
import SatModulo.Proofs.Runs
import SatModulo.Theories.AtMost
import SatModulo.Theories.Reachability
import SatModulo.Theory.Either
import Mathlib.Data.List.Perm.Subperm

/-!
# What theories were told mirrors the trail

The calls that a theory has received, replayed into a stack of levels, give the part of the trail that was
handed over to it and that it observes (`Member.Mirrors`): level by level, each literal once, and above the
base level in the order of the trail. Literals are handed over by moves that leave the atoms alone, so a
theory is told of a literal only while it is true (`Move.tells`). Both hold after every command of a run
and whatever theories do (`PublicRun.mirrors_trail`).
-/
namespace SatModulo

variable {σ : Type}

/-- What a member has been told of a level of the trail: the literals that it observes, as far as the
trail was handed over. -/
def Member.share (m : Member σ) (t : Trail) (level : Nat) : List Literal :=
  (t.stack.entriesAt level).filter fun l => decide (l ∈ t.literals.take m.head) && m.observes l.atom

theorem Member.mem_share {m : Member σ} {t : Trail} {level : Nat} {l : Literal} :
    l ∈ m.share t level ↔
      l ∈ t.stack.entriesAt level ∧ l ∈ t.literals.take m.head ∧ m.observes l.atom := by
  rw [share, List.mem_filter, Bool.and_eq_true, decide_eq_true_eq]

/-- What a member has heard is its share of every level of the trail. -/
structure Member.Mirrors (s : Atoms) (heard : LevelStack Literal) (m : Member σ) : Prop where
  /-- As many levels are open on the theory as are recorded of it and as the trail has. -/
  height : heard.level = m.level
  level : m.level = s.level
  head : m.head ≤ s.trail.length
  facts : ∀ level, (heard.entriesAt level).Perm (m.share s.trail level)
  once : heard.entries.Nodup
  order : ∀ level, 0 < level → heard.entriesAt level = m.share s.trail level
  /-- What has not been handed over is of the current level. -/
  pending : ∀ l ∈ s.trail.literals.drop m.head, s.levelOf l.atom = some s.level

/-- A member that has heard of the trail by level has heard of its share of each level. -/
theorem Member.Delivered.mirrors {s : Atoms} {heard : LevelStack Literal} {m : Member σ}
    (delivered : m.Delivered s.trail.stack heard) (h : s.Coherent) : m.Mirrors s heard where
  height := delivered.heardLevel.trans delivered.level.symm
  level := delivered.level
  head := delivered.head
  facts level := by
    refine (List.perm_ext_iff_of_nodup ?_ ?_).mpr fun l => ?_
    · exact delivered.distinct.sublist (LevelStack.entriesAt_sublist heard level)
    · exact (h.nodup.sublist (LevelStack.entriesAt_sublist s.trail.stack level)).filter _
    · rw [delivered.entries, Member.mem_share]
      rfl
  once := delivered.distinct
  order level above := by
    have distinct := h.nodup.sublist (LevelStack.entriesAt_sublist s.trail.stack level)
    have ordered := (delivered.order level above).filter fun l =>
      decide (l ∈ s.trail.literals.take m.head) && m.observes l.atom
    have own : (heard.entriesAt level).filter (fun l =>
        decide (l ∈ s.trail.literals.take m.head) && m.observes l.atom) = heard.entriesAt level := by
      refine List.filter_eq_self.mpr fun l member => ?_
      rw [Bool.and_eq_true, decide_eq_true_eq]
      exact ((delivered.entries level l).mp member).2
    rw [own] at ordered
    refine ordered.eq_of_length_le (List.subperm_of_subset (distinct.filter _) fun l member => ?_).length_le
    exact (delivered.entries level l).mpr (Member.mem_share.mp member)
  pending l late := h.levelOf_of_mem (delivered.top l late)

/-! ### Telling -/

/-- Between two states of a registry a theory was told of a literal. -/
def Registry.Tells (r r' : Registry σ) (i : Nat) (l : Literal) : Prop :=
  ∃ own, r'.account i = r.account i ++ own ∧ .enqueue l ∈ own

variable [Theory σ] {c c' : Context σ} {taking : Intake σ}

/-- A move by which accounts grow, and at which theories are told only of literals that are true before
and after. -/
def TruthfulMove (taking : Intake σ) (c c' : Context σ) : Prop :=
  Move taking c c' ∧ ∀ i, ∃ own, c'.theories.account i = c.theories.account i ++ own ∧
    ∀ l, .enqueue l ∈ own → c.valueOf l = some true ∧ c'.valueOf l = some true

omit [Theory σ] in
/-- What a theory is told, its own member is told. -/
theorem Registry.Changes.of_tells {r r' : Registry σ}
    {effect : Nat → Member σ → Member σ → List Call → Prop} (changes : Changes effect r r') {i : Nat}
    {l : Literal} (tells : r.Tells r' i l) :
    ∃ m m' own, m ∈ r.members ∧ effect i m m' own ∧ .enqueue l ∈ own := by
  obtain ⟨own, account, member⟩ := tells
  cases found : r.members[i]? with
  | none =>
    rw [changes.absent i (List.getElem?_eq_none_iff.mp found), List.self_eq_append_right] at account
    rw [account] at member
    cases member
  | some m =>
    obtain ⟨m', own', _, account', effected⟩ := changes.member i m found
    rw [account', List.append_cancel_left_eq] at account
    exact ⟨m, m', own', List.mem_of_getElem? found, effected, account ▸ member⟩

omit [Theory σ] in
theorem Registry.not_tells_of_eq {r r' : Registry σ} (same : r'.calls = r.calls) (i : Nat) (l : Literal) :
    ¬r.Tells r' i l := by
  rintro ⟨own, account, member⟩
  rw [Registry.account, Registry.account, same, List.self_eq_append_right] at account
  rw [account] at member
  cases member

theorem Draw.tells (draw : Draw c c') {i : Nat} {l : Literal} (tells : c.theories.Tells c'.theories i l) :
    l ∈ c.atoms.trail.literals ∧ c'.atoms = c.atoms := by
  rcases draw.silent_or_caught with silent | ⟨same, caught⟩
  · obtain ⟨m, m', own, _, called, told⟩ := silent.of_tells tells
    exact absurd (called.silent _ told) (Call.not_isSilent_enqueue l)
  · obtain ⟨m, m', own, _, called, told⟩ := caught.of_tells tells
    rw [called.own, List.mem_map] at told
    obtain ⟨k, pending, same'⟩ := told
    cases same'
    exact ⟨List.mem_of_mem_drop (List.mem_filter.mp pending).1, same⟩

/-- A theory is told of what is on the trail, by a move that leaves the atoms as they are. -/
theorem Move.tells (move : Move taking c c') {i : Nat} {l : Literal} (tells : c.theories.Tells c'.theories i l) :
    l ∈ c.atoms.trail.literals ∧ c'.atoms = c.atoms := by
  cases move with
  | draw move => exact move.tells tells
  | jump move =>
    have untold : ∀ {level : Nat} {t : Trail} {retracted : Registry σ},
        c.theories.retractAbove level = .ok retracted → retracted.backtrack level t = .ok c'.theories →
          False := by
      intro level t retracted undecided taken
      obtain ⟨m, m', own, _, returned, told⟩ :=
        (Registry.changes_retreat undecided taken).1.of_tells tells
      exact returned.untold l told
    cases move with
    | retreat level low retracted theories undecided taken => exact (untold undecided taken).elim
    | learn key k lower level clauses retracted theories atoms distinct falsified current low below tight
        entailed stored undecided taken made => exact (untold undecided taken).elim
  | decide allowed move =>
    cases move with
    | decide k proposer theories atoms delivered opened made =>
      have raised : c.theories.Tells theories i l := by cases proposer <;> exact tells
      obtain ⟨m, m', own, _, called, told⟩ := (Registry.changes_openLevel opened).1.of_tells raised
      rw [called.own] at told
      simp at told
  | build move =>
    cases move with
    | register theory outcome theories given base registered =>
      obtain ⟨own, account, told⟩ := tells
      rcases Registry.account_register registered i with same | ⟨_, same⟩
      · rw [same, List.self_eq_append_right] at account
        rw [account] at told
        cases told
      · rw [same, List.append_cancel_left_eq] at account
        rw [← account] at told
        simp at told
    | observe j a base known m found new theory own inside late told' =>
      let effect := fun (_ : Nat) (_ _ : Member σ) (own' : List Call) =>
        own' = [] ∨ own' = own.map Call.enqueue
      have told' : effect j m { m with theory, observed := insertAtom a m.observed } (own.map .enqueue) :=
        .inr rfl
      have changes := Registry.changes_set found told' fun _ _ => .inl rfl
      obtain ⟨_, _, _, _, rfl | rfl, told⟩ := changes.of_tells tells
      · cases told
      · obtain ⟨k, member, same⟩ := List.mem_map.mp told
        cases same
        rw [late, Option.mem_toList] at member
        exact ⟨List.mem_of_mem_take (List.mem_of_find?_eq_some member), rfl⟩
    | _ => exact absurd tells (Registry.not_tells_of_eq rfl i l)
  | settle phase before after => exact absurd tells (Registry.not_tells_of_eq rfl i l)
  | configure settings given => exact absurd tells (Registry.not_tells_of_eq rfl i l)

theorem Move.account_append (move : Move taking c c') (i : Nat) :
    ∃ own, c'.theories.account i = c.theories.account i ++ own := by
  rcases move.called_or_registered with changes | ⟨theory, outcome, registered, _⟩
  · cases found : c.theories.members[i]? with
    | none => exact ⟨[], by rw [changes.absent i (List.getElem?_eq_none_iff.mp found), List.append_nil]⟩
    | some m =>
      obtain ⟨_, own, _, account, _⟩ := changes.member i m found
      exact ⟨own, account⟩
  · rcases Registry.account_register registered i with same | ⟨_, same⟩
    · exact ⟨[], by rw [same, List.append_nil]⟩
    · exact ⟨_, same⟩

theorem Move.truthful (move : Move taking c c') (h : c.Coherent) : TruthfulMove taking c c' := by
  refine ⟨move, fun i => ?_⟩
  obtain ⟨own, account⟩ := move.account_append i
  refine ⟨own, account, fun l told => ?_⟩
  obtain ⟨member, same⟩ := move.tells ⟨own, account, told⟩
  have isTrue := h.supports.atoms.valueOf_of_mem member
  exact ⟨isTrue, by rwa [Context.valueOf, same]⟩

theorem Moves.truthful (moves : Moves taking c c') (h : c.Coherent) :
    Relation.ReflTransGen (TruthfulMove taking) c c' := by
  induction moves with
  | refl => exact .refl
  | tail moves move ih => exact ih.tail (move.truthful (Moves.coherent moves h))

/-- After every command of a run, whatever theories do, what each has heard is its share of the trail, and
every command took its course by moves at which theories were told only of true literals. -/
theorem PublicRun.mirrors_trail {settings : Settings} {events : List (Event σ)} {s : Session σ}
    (run : PublicRun settings events s) :
    (∀ (i : Nat) (m : Member σ), s.context.theories.members[i]? = some m →
      m.Mirrors s.context.atoms (s.context.theories.heard i)) ∧
    ∀ e ∈ events, ∃ mid : Context σ, Relation.ReflTransGen (TruthfulMove .any) e.before.context mid ∧
      mid.atoms = e.after.context.atoms ∧ mid.theories = e.after.context.theories := by
  refine ⟨fun i m found => (run.told.delivered i m found).mirrors run.coherent.1.supports.atoms, ?_⟩
  intro e member
  obtain ⟨h, _, ran⟩ := run.ran e member
  rcases ran.moves with moves | ⟨_, mid, moves, refuted⟩
  · exact ⟨_, Moves.truthful ((Intake.le_any _).moves moves) h, rfl, rfl⟩
  · obtain ⟨atoms, theories⟩ := refuted.frame
    exact ⟨mid, Moves.truthful ((Intake.le_any _).moves moves) h, atoms.symm, theories.symm⟩

/-- A theory is told late of a fact at the base level, and in turn of what follows on a level of its
own. -/
theorem mirrors_after_late_observation :
    ∃ (events : List (Event (AtMost ⊕ Reachability))) (s : Session (AtMost ⊕ Reachability))
      (m : Member (AtMost ⊕ Reachability)), PublicRun {} events s ∧
      events.map (·.command) = [.freshLiterals 4, .addClause [⟨1⟩], .addClause [⟨-3⟩, ⟨4⟩],
        .addTheory (.inl (.ofMembers [⟨1⟩, ⟨2⟩, ⟨3⟩, ⟨4⟩] 3)), .observe 0 4, .observe 0 3, .propagate,
        .observe 0 1, .decideLiteral ⟨3⟩, .propagate] ∧
      s.context.theories.members[0]? = some m ∧ m.Mirrors s.context.atoms (s.context.theories.heard 0) ∧
      (s.context.theories.heard 0).levels = [[⟨1⟩], [⟨3⟩, ⟨4⟩]] := by
  obtain ⟨_, s, ran, checked⟩ := Session.of_run_any
    (Session.ofSettings {} : Session (AtMost ⊕ Reachability))
    [.freshLiterals 4, .addClause [⟨1⟩], .addClause [⟨-3⟩, ⟨4⟩],
      .addTheory (.inl (.ofMembers [⟨1⟩, ⟨2⟩, ⟨3⟩, ⟨4⟩] 3)), .observe 0 4, .observe 0 3, .propagate,
      .observe 0 1, .decideLiteral ⟨3⟩, .propagate]
    (fun (_, s) => decide (0 < s.context.theories.members.length) &&
      decide ((s.context.theories.heard 0).levels = [[⟨1⟩], [⟨3⟩, ⟨4⟩]]))
    (by decide +kernel)
  rw [Bool.and_eq_true, decide_eq_true_eq, decide_eq_true_eq] at checked
  obtain ⟨events, run, commands, _⟩ := PublicRun.of_run (by simp [Command.IsPublic]) ran
  have found := List.getElem?_eq_getElem checked.1
  exact ⟨events, s, _, run, commands, found, run.mirrors_trail.1 0 _ found, checked.2⟩

end SatModulo
