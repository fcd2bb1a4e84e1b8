import SatModulo.Proofs.Origins
import SatModulo.Theory.Either

/-!
# Theories as constraints

What a theory says of valuations, and how its states stand to that. A state of a theory recalls the
facts it was told which it makes use of; its consequences are justified by what it recalls, and stay so
for as long as it recalls that; and when it agrees with a full valuation, the valuation satisfies it
(`LawfulConstraint`). A theory of either of two lawful types is lawful.
-/
namespace SatModulo

namespace LevelStack

variable {α : Type} {s : LevelStack α} {p : α → Bool}

/-- The entries of a kind, at the levels they were at. -/
def filter (p : α → Bool) (s : LevelStack α) : LevelStack α :=
  ⟨s.below.map (·.filter p), s.top.filter p⟩

@[simp] theorem entries_filter : (s.filter p).entries = s.entries.filter p := by
  simp [filter, entries, List.filter_flatten]

@[simp] theorem level_filter : (s.filter p).level = s.level := by
  simp [filter, level]

theorem filter_push (a : α) :
    (s.push a).filter p = if p a then (s.filter p).push a else s.filter p := by
  split
  · rename_i isOf
    simp [filter, push, isOf]
  · rename_i isOther
    simp [filter, push, isOther]

theorem filter_openLevel : s.openLevel.filter p = (s.filter p).openLevel := by
  simp [filter, openLevel]

theorem filter_cutTo (target : Nat) : (s.cutTo target).filter p = (s.filter p).cutTo target := by
  apply eq_of_levels
  have levels : ∀ t : LevelStack α, (t.filter p).levels = t.levels.map (·.filter p) := by
    simp [filter, LevelStack.levels]
  rw [levels, levels_cutTo, levels_cutTo, levels, List.map_take]

/-- What is kept of all entries is kept of those of a kind. -/
theorem KeepsTo.filter {t : LevelStack α} {level : Nat} (keeps : KeepsTo level s t) (p : α → Bool) :
    KeepsTo level (s.filter p) (t.filter p) := by
  rw [KeepsTo, ← filter_cutTo, ← filter_cutTo, entries_filter, entries_filter]
  exact List.IsPrefix.filter p keeps

end LevelStack

/-- Facts on distinct atoms that have literals. -/
structure AreFacts (facts : List Literal) : Prop where
  distinct : (facts.map Literal.atom).Nodup
  proper : ∀ l ∈ facts, l.atom ≠ topAtom
  inRange : ∀ l ∈ facts, l.atom ≤ maxAtom

theorem AreFacts.sublist {facts fewer : List Literal} (h : AreFacts facts)
    (sub : fewer.Sublist facts) : AreFacts fewer where
  distinct := h.distinct.sublist (sub.map _)
  proper := fun l member => h.proper l (sub.subset member)
  inRange := fun l member => h.inRange l (sub.subset member)

theorem AreFacts.nodup {facts : List Literal} (h : AreFacts facts) : facts.Nodup :=
  List.Nodup.of_map _ h.distinct

/-- A type of theories with what each says of valuations. -/
class Constraint (σ : Type) where
  /-- Whether a theory is as it was built, and the atoms it is about have literals. -/
  IsBuilt : σ → Prop
  /-- The atoms that a theory is about. -/
  atoms : σ → List Atom
  /-- Whether a valuation satisfies a theory. -/
  Models : (Atom → Bool) → σ → Prop
  /-- The facts that a theory makes use of. -/
  keeps : σ → Literal → Bool
  /-- A theory that was built has become another, which has heard of the given facts. -/
  Recalls : σ → LevelStack Literal → σ → Prop
  /-- A theory can tell from facts why it made a literal true. -/
  Justifies : σ → List Literal → Literal → Prop

/-- The facts of a theory among those that it heard of. -/
def Constraint.recalled {σ : Type} [Constraint σ] (theory : σ) (heard : LevelStack Literal) :
    LevelStack Literal := heard.filter (keeps theory)

open Constraint

/-- Theories that do what the core relies on. Here `root` is a theory as it was built, and `t` what has
become of it. -/
class LawfulConstraint (σ : Type) [Theory σ] [Constraint σ] : Prop where
  proper {root : σ} (isBuilt : IsBuilt root) : ∀ a ∈ atoms root, a ≠ topAtom
  /-- Only the values of its atoms matter to a theory. -/
  agree {root : σ} {v w : Atom → Bool} (same : ∀ a ∈ atoms root, v a = w a) (models : Models v root) :
    Models w root
  built {root : σ} (isBuilt : IsBuilt root) : Recalls root {} root
  /-- Whatever a theory is called for, it recalls what it heard. -/
  answers {root t t' : σ} {heard : LevelStack Literal} {i : Nat} {call : Call}
    (recalls : Recalls root heard t) (answered : Theory.Answers i t call t') :
    Recalls root (call.hear heard) t'
  /-- At its turn a theory makes true only what it can justify, marked with the number of facts that it
  recalls, and every conflict holds in all valuations that satisfy it. -/
  turns {root t : σ} {heard : LevelStack Literal} (isBuilt : IsBuilt root)
    (recalls : Recalls root heard t) (facts : AreFacts heard.entries)
    {turn : σ → Turn (Option Clause × σ)} {call : Nat → List Literal → Option Clause → Call}
    (kind : TurnKind turn call) :
    (turn t).Allows
      (fun l marker => marker = (recalled root heard).entries.length ∧
        Justifies root (recalled root heard).entries l)
      fun outcome => ∀ clause, outcome.1 = some clause → ∀ v, Models v root → Clause.Holds v clause
  /-- What was justified by the facts up to a marker has a reason that holds. -/
  reasons {root t t' : σ} {heard : LevelStack Literal} (isBuilt : IsBuilt root)
    (recalls : Recalls root heard t) (facts : AreFacts heard.entries) {l : Literal} {marker : Marker}
    {clause : Clause} (answered : Theory.buildReason l marker t = .ok (clause, t'))
    (justified : Justifies root ((recalled root heard).entries.take marker) l)
    {v : Atom → Bool} (models : Models v root) : clause.Holds v
  /-- What is justified follows from the facts by a clause that holds. -/
  explained {root : σ} (isBuilt : IsBuilt root) {facts : List Literal} (areFacts : AreFacts facts)
    {l : Literal} (justified : Justifies root facts l) :
    ∃ clause : Clause, (∀ v, Models v root → clause.Holds v) ∧ l ∈ clause ∧
      ∀ m ∈ clause, m ≠ l → m.negate ∈ facts
  /-- A theory that has heard of all its atoms and has nothing to say is satisfied. -/
  settled {root t : σ} {heard : LevelStack Literal} (isBuilt : IsBuilt root)
    (recalls : Recalls root heard t) (facts : AreFacts heard.entries)
    (complete : ∀ a ∈ atoms root, ∃ l ∈ heard.entries, l.atom = a) {i : Nat} {s : Atoms}
    (agrees : Theory.isSatisfied t = .ok true ∨
      ∃ t', (Theory.solve t).run i s = .ok ((none, t'), s)) {v : Atom → Bool}
    (holds : ∀ l ∈ heard.entries, l.Holds v) : Models v root

section Recalling

variable {σ : Type} [Theory σ] [Constraint σ] [LawfulConstraint σ]

theorem Theory.Trace.recalls {i : Nat} {root t t' : σ} {calls : List Call} {heard : LevelStack Literal}
    (trace : Trace i t calls t') (recalls : Recalls root heard t) :
    Recalls root (Call.hearAll heard calls) t' := by
  induction trace generalizing heard with
  | nil t => exact recalls
  | cons answered _ ih => exact ih (LawfulConstraint.answers recalls answered)

/-- A member recalls what it heard. -/
theorem Registry.Stems.recalls {r : Registry σ} {i : Nat} {root : σ} {m : Member σ}
    (stems : r.Stems i root m) (isBuilt : IsBuilt root) : Recalls root (r.heard i) m.theory := by
  obtain ⟨_, refused, own, account, silent, trace⟩ := stems
  have nothing : Call.hearAll {} refused = {} := by
    refine Call.hearAll_silent fun call member => ?_
    obtain ⟨j, rfl⟩ := silent call member
    exact fun _ => rfl
  rw [Registry.heard, account, Call.hearAll_append, nothing]
  exact trace.recalls (LawfulConstraint.built isBuilt)

/-- A member that takes note of what it put off recalls the same. -/
theorem Registry.Stems.recalls_flushed {r : Registry σ} {i : Nat} {root flushed : σ} {m : Member σ}
    {s : Atoms} (stems : r.Stems i root m) (isBuilt : IsBuilt root)
    (origin : flushed = m.theory ∨ flushed = Theory.flush s m.theory) :
    Recalls root (r.heard i) flushed := by
  rcases origin with rfl | rfl
  · exact stems.recalls isBuilt
  · exact LawfulConstraint.answers (i := i) (stems.recalls isBuilt) (.flush m.theory s)

end Recalling

/-! ### Other theories -/

/-- Nothing is said of the theories of a type: none of them counts as built. -/
@[reducible]
def Constraint.unspoken (τ : Type) : Constraint τ where
  IsBuilt _ := False
  atoms _ := []
  Models _ _ := False
  keeps _ _ := false
  Recalls _ _ _ := False
  Justifies _ _ _ := False

section Unspoken

variable {τ : Type} [Theory τ]

/-- Where nothing is said, nothing is broken. -/
theorem LawfulConstraint.unspoken : @LawfulConstraint τ _ (Constraint.unspoken τ) := by
  let _ : Constraint τ := Constraint.unspoken τ
  exact {
    proper := False.elim
    agree := fun _ => False.elim
    built := False.elim
    answers := fun recalls _ => recalls.elim
    turns := False.elim
    reasons := False.elim
    explained := False.elim
    settled := False.elim }

end Unspoken

/-! ### Families -/

theorem Except.map_eq_ok {ε α β : Type} {x : Except ε α} {f : α → β} {b : β}
    (success : x.map f = .ok b) : ∃ a, x = .ok a ∧ f a = b := by
  cases x with
  | error e => cases success
  | ok a =>
    cases success
    exact ⟨a, rfl, rfl⟩

/-- The theories of one type act as theories of another. -/
structure Theory.Embedding {σ τ : Type} [Theory σ] [Theory τ] (f : σ → τ) : Prop where
  setIndex (j : Nat) (t : σ) : Theory.setIndex j (f t) = f (Theory.setIndex j t)
  preprocess (t : σ) : Theory.preprocess (f t) = f (Theory.preprocess t)
  noteOccurs (l : Literal) (occurs : Bool) (t : σ) :
    Theory.noteOccurs l occurs (f t) = f (Theory.noteOccurs l occurs t)
  openLevel (t : σ) : Theory.openLevel (f t) = f (Theory.openLevel t)
  backtrack (level : Nat) (t : σ) : Theory.backtrack level (f t) = f (Theory.backtrack level t)
  enqueue (l : Literal) (t : σ) : Theory.enqueue l (f t) = (Theory.enqueue l t).map f
  clearSatisfied (t : σ) : Theory.clearSatisfied (f t) = (Theory.clearSatisfied t).map f
  undecide (l : Literal) (t : σ) : Theory.undecide l (f t) = f (Theory.undecide l t)
  flush (s : Atoms) (t : σ) : Theory.flush s (f t) = f (Theory.flush s t)
  propagate (t : σ) : Theory.propagate (f t) =
    (Theory.propagate t).andThen fun (conflict, u) => .done (conflict, f u)
  solve (t : σ) : Theory.solve (f t) =
    (Theory.solve t).andThen fun (conflict, u) => .done (conflict, f u)
  isSatisfied (t : σ) : Theory.isSatisfied (f t) = Theory.isSatisfied t
  decide (s : Atoms) (t : σ) : Theory.decide s (f t) = (Theory.decide s t).map id f
  buildReason (l : Literal) (marker : Marker) (t : σ) :
    Theory.buildReason l marker (f t) = (Theory.buildReason l marker t).map (Prod.map id f)
  checkPropagated (s : Atoms) (t : σ) : Theory.checkPropagated s (f t) = Theory.checkPropagated s t
  checkSolved (s : Atoms) (t : σ) : Theory.checkSolved s (f t) = Theory.checkSolved s t

namespace Theory.Embedding

variable {σ τ : Type} [Theory σ] [Theory τ] {f : σ → τ}

theorem turn (embeds : Embedding f) {turn' : τ → Turn (Option Clause × τ)}
    {call : Nat → List Literal → Option Clause → Call} (kind : TurnKind turn' call) :
    ∃ turn : σ → Turn (Option Clause × σ), TurnKind turn call ∧
      ∀ t, turn' (f t) = (turn t).andThen fun (conflict, u) => .done (conflict, f u) := by
  cases kind with
  | propagate => exact ⟨_, .propagate, embeds.propagate⟩
  | solve => exact ⟨_, .solve, embeds.solve⟩

omit [Theory σ] [Theory τ] in
theorem run_eq_ok {turn : Turn (Option Clause × σ)} {u : τ} {i : Nat} {s s' : Atoms}
    {conflict : Option Clause}
    (ran : (turn.andThen fun (conflict, u) => .done (conflict, f u)).run i s =
      .ok ((conflict, u), s')) :
    ∃ t', u = f t' ∧ turn.run i s = .ok ((conflict, t'), s') := by
  rw [Turn.run_andThen] at ran
  obtain ⟨⟨⟨conflict', t'⟩, between⟩, own, same⟩ := Except.bind_eq_ok ran
  cases same
  exact ⟨t', rfl, own⟩

/-- A call is answered by the theory itself. -/
theorem answers (embeds : Embedding f) {i : Nat} {t : σ} {u : τ} {call : Call}
    (answered : Answers i (f t) call u) : ∃ t', u = f t' ∧ Answers i t call t' := by
  cases answered with
  | setIndex j => exact ⟨_, embeds.setIndex j t, .setIndex t j⟩
  | preprocess => exact ⟨_, embeds.preprocess t, .preprocess t⟩
  | noteOccurs l occurs => exact ⟨_, embeds.noteOccurs l occurs t, .noteOccurs t l occurs⟩
  | openLevel => exact ⟨_, embeds.openLevel t, .openLevel t⟩
  | backtrack level => exact ⟨_, embeds.backtrack level t, .backtrack t level⟩
  | enqueue _ l success =>
    rw [embeds.enqueue] at success
    obtain ⟨t', told, rfl⟩ := Except.map_eq_ok success
    exact ⟨t', rfl, .enqueue t t' l told⟩
  | clearSatisfied _ success =>
    rw [embeds.clearSatisfied] at success
    obtain ⟨t', cleared, rfl⟩ := Except.map_eq_ok success
    exact ⟨t', rfl, .clearSatisfied t t' cleared⟩
  | undecide l => exact ⟨_, embeds.undecide l t, .undecide t l⟩
  | flush s => exact ⟨_, embeds.flush s t, .flush t s⟩
  | propagate _ s s' conflict ran =>
    rw [embeds.propagate] at ran
    obtain ⟨t', rfl, own⟩ := run_eq_ok ran
    exact ⟨t', rfl, .propagate t t' s s' conflict own⟩
  | solve _ s s' conflict ran =>
    rw [embeds.solve] at ran
    obtain ⟨t', rfl, own⟩ := run_eq_ok ran
    exact ⟨t', rfl, .solve t t' s s' conflict own⟩
  | isSatisfied answer answered =>
    rw [embeds.isSatisfied] at answered
    exact ⟨t, rfl, .isSatisfied t answer answered⟩
  | decide _ s proposal answered =>
    rw [embeds.decide] at answered
    cases answered
    exact ⟨_, rfl, .decide t _ s _ rfl⟩
  | buildReason _ l marker reason answered =>
    rw [embeds.buildReason] at answered
    obtain ⟨⟨reason', t'⟩, built, same⟩ := Except.map_eq_ok answered
    cases same
    exact ⟨t', rfl, .buildReason t t' l marker _ built⟩
  | checkPropagated s answer answered =>
    rw [embeds.checkPropagated] at answered
    exact ⟨t, rfl, .checkPropagated t s answer answered⟩
  | checkSolved s =>
    rw [embeds.checkSolved]
    exact ⟨t, rfl, .checkSolved t s⟩

/-- What calls make of a theory they make of it in its family. -/
theorem trace (embeds : Embedding f) {i : Nat} {t : σ} {u : τ} {calls : List Call}
    (traced : Trace i (f t) calls u) : ∃ t', u = f t' ∧ Trace i t calls t' := by
  generalize start : f t = u₀ at traced
  induction traced generalizing t with
  | nil => exact ⟨t, start.symm, .nil t⟩
  | cons answered _ ih =>
    subst start
    obtain ⟨between, rfl, first⟩ := embeds.answers answered
    obtain ⟨t', same, others⟩ := ih rfl
    exact ⟨t', same, .cons first others⟩

end Theory.Embedding

section Either

variable {σ τ : Type}

instance [Constraint σ] [Constraint τ] : Constraint (σ ⊕ τ) where
  IsBuilt := Sum.elim IsBuilt IsBuilt
  atoms := Sum.elim atoms atoms
  Models v := Sum.elim (Models v) (Models v)
  keeps := Sum.elim keeps keeps
  Recalls
    | .inl root, heard, .inl t => Recalls root heard t
    | .inr root, heard, .inr t => Recalls root heard t
    | _, _, _ => False
  Justifies root facts l := Sum.elim (Justifies · facts l) (Justifies · facts l) root

variable [Theory σ] [Theory τ]

theorem Theory.Embedding.inl : Embedding (Sum.inl : σ → σ ⊕ τ) := by
  constructor <;> intros <;> rfl

theorem Theory.Embedding.inr : Embedding (Sum.inr : τ → σ ⊕ τ) := by
  constructor <;> intros <;> rfl

variable [Constraint σ] [Constraint τ] [LawfulConstraint σ] [LawfulConstraint τ]

instance : LawfulConstraint (σ ⊕ τ) where
  proper := by
    rintro (root | root) isBuilt
    · have own := LawfulConstraint.proper (show IsBuilt root from isBuilt)
      exact own
    · have own := LawfulConstraint.proper (show IsBuilt root from isBuilt)
      exact own
  agree := by
    rintro (root | root) v w same models
    · have own : Models w root := LawfulConstraint.agree same models
      exact own
    · have own : Models w root := LawfulConstraint.agree same models
      exact own
  built := by
    rintro (root | root) isBuilt
    · have own : Recalls root {} root := LawfulConstraint.built isBuilt
      exact own
    · have own : Recalls root {} root := LawfulConstraint.built isBuilt
      exact own
  answers := by
    rintro (root | root) (t | t) u heard i call recalls answered
    · obtain ⟨t', rfl, answers⟩ := Theory.Embedding.inl.answers answered
      have own : Recalls root (call.hear heard) t' := LawfulConstraint.answers recalls answers
      exact own
    · exact recalls.elim
    · exact recalls.elim
    · obtain ⟨t', rfl, answers⟩ := Theory.Embedding.inr.answers answered
      have own : Recalls root (call.hear heard) t' := LawfulConstraint.answers recalls answers
      exact own
  turns := by
    rintro (root | root) (t | t) heard isBuilt recalls facts turn call kind
    · obtain ⟨turn', kind, same⟩ := Theory.Embedding.inl.turn kind
      have own := LawfulConstraint.turns (show IsBuilt root from isBuilt) recalls facts kind
      rw [same]
      exact own.andThen fun _ ends => ends
    · exact recalls.elim
    · exact recalls.elim
    · obtain ⟨turn', kind, same⟩ := Theory.Embedding.inr.turn kind
      have own := LawfulConstraint.turns (show IsBuilt root from isBuilt) recalls facts kind
      rw [same]
      exact own.andThen fun _ ends => ends
  reasons := by
    rintro (root | root) (t | t) u heard isBuilt recalls facts l marker clause answered justified v models
    · obtain ⟨⟨_, t'⟩, built, same⟩ := Except.map_eq_ok answered
      cases same
      have own := LawfulConstraint.reasons (show IsBuilt root from isBuilt) recalls facts built justified
        (show Models v root from models)
      exact own
    · exact recalls.elim
    · exact recalls.elim
    · obtain ⟨⟨_, t'⟩, built, same⟩ := Except.map_eq_ok answered
      cases same
      have own := LawfulConstraint.reasons (show IsBuilt root from isBuilt) recalls facts built justified
        (show Models v root from models)
      exact own
  explained := by
    rintro (root | root) isBuilt facts areFacts l justified
    · have own := LawfulConstraint.explained (show IsBuilt root from isBuilt) areFacts justified
      exact own
    · have own := LawfulConstraint.explained (show IsBuilt root from isBuilt) areFacts justified
      exact own
  settled := by
    rintro (root | root) (t | t) heard isBuilt recalls facts complete i s agrees v holds
    · have own := LawfulConstraint.settled (show IsBuilt root from isBuilt) recalls facts complete
        (i := i) (s := s) (v := v)
      refine own (agrees.imp_right fun ⟨u, ran⟩ => ?_) holds
      obtain ⟨t', _, answered⟩ := Theory.Embedding.run_eq_ok ran
      exact ⟨t', answered⟩
    · exact recalls.elim
    · exact recalls.elim
    · have own := LawfulConstraint.settled (show IsBuilt root from isBuilt) recalls facts complete
        (i := i) (s := s) (v := v)
      refine own (agrees.imp_right fun ⟨u, ran⟩ => ?_) holds
      obtain ⟨t', _, answered⟩ := Theory.Embedding.run_eq_ok ran
      exact ⟨t', answered⟩

end Either

end SatModulo
