import SatModulo.Proofs.Verdicts
import SatModulo.Theories.RuleTable

/-!
# Draws against likelihoods

A truth value can be drawn against a likelihood only. No operation fails for want of one unless the
settings that are drawn against are none, and all operations leave the settings as they are
(`Procedure.Steady`); only a theory could fail so, and one that takes no chances does not
(`Theory.TakesNoChances`).
-/
namespace SatModulo

section Avoiding

variable {ε α β : Type} {e : ε}

theorem Except.bind_ne {x : Except ε α} {next : α → Except ε β} (first : x ≠ .error e)
    (rest : ∀ a, next a ≠ .error e) : x >>= next ≠ .error e := by
  cases x with
  | error cause => exact fun same => first (by cases same; rfl)
  | ok a => exact rest a

theorem Except.map_ne {x : Except ε α} (first : x ≠ .error e) (f : α → β) : x.map f ≠ .error e := by
  cases x with
  | error cause => exact fun same => first (by cases same; rfl)
  | ok a => nofun

theorem Except.mapM_ne {f : α → Except ε β} (each : ∀ a, f a ≠ .error e) (xs : List α) :
    xs.mapM f ≠ .error e := by
  induction xs with
  | nil => nofun
  | cons a rest ih =>
    rw [List.mapM_cons]
    exact bind_ne (each a) fun b => bind_ne ih fun bs => nofun

theorem Except.foldlM_ne {f : β → α → Except ε β} (each : ∀ b a, f b a ≠ .error e) (b : β) (xs : List α) :
    xs.foldlM f b ≠ .error e := by
  induction xs generalizing b with
  | nil => nofun
  | cons a rest ih =>
    rw [List.foldlM_cons]
    exact bind_ne (each b a) fun b => ih b

end Avoiding

theorem entryAt_ne {α : Type} (xs : List α) (position : Nat) : entryAt xs position ≠ .error .notAProbability := by
  unfold entryAt
  split <;> nofun

theorem Resolvent.isMarked_ne (s : Atoms) (r : Resolvent) (a : Atom) : r.isMarked s a ≠ .error .notAProbability := by
  unfold isMarked
  split <;> nofun

/-! ### Theories -/

namespace Turn

variable {α β : Type}

/-- A turn does not fail for the given cause, whatever the atoms are. -/
def Avoids (cause : Fault) : Turn α → Prop
  | .done _ => True
  | .fault other => other ≠ cause
  | .look resume => ∀ s, (resume s).Avoids cause
  | .assign _ _ resume => ∀ status, (resume status).Avoids cause

variable {cause : Fault}

theorem Avoids.andThen {turn : Turn α} {next : α → Turn β} (first : turn.Avoids cause)
    (rest : ∀ a, (next a).Avoids cause) : (turn >>= next).Avoids cause := by
  induction turn with
  | done a => exact rest a
  | fault other => exact first
  | look resume ih => exact fun s => ih s (first s)
  | assign l marker resume ih => exact fun status => ih status (first status)

theorem avoids_ofExcept {x : Except Fault α} (first : x ≠ .error cause) : (ofExcept x).Avoids cause := by
  cases x with
  | error other => exact fun same => first (by rw [same])
  | ok a => trivial

theorem Avoids.run_ne {turn : Turn α} (avoids : turn.Avoids cause) (i : Nat) (s : Atoms) :
    turn.run i s ≠ .error cause := by
  induction turn generalizing s with
  | done a => nofun
  | fault other => exact fun same => avoids (Except.error.inj same)
  | look resume ih => exact ih s (avoids s) s
  | assign l marker resume ih =>
    rw [run]
    split <;> exact ih _ (avoids _) _

end Turn

/-- Theories that draw no truth values by chance, so that nothing they do fails for want of a likelihood. -/
class Theory.TakesNoChances (σ : Type) [Theory σ] : Prop where
  enqueue (l : Literal) (t : σ) : Theory.enqueue l t ≠ .error .notAProbability
  clearSatisfied (t : σ) : Theory.clearSatisfied t ≠ .error .notAProbability
  propagate (t : σ) : (Theory.propagate t).Avoids .notAProbability
  solve (t : σ) : (Theory.solve t).Avoids .notAProbability
  isSatisfied (t : σ) : Theory.isSatisfied t ≠ .error .notAProbability
  buildReason (l : Literal) (marker : Marker) (t : σ) : Theory.buildReason l marker t ≠ .error .notAProbability
  checkPropagated (s : Atoms) (t : σ) : Theory.checkPropagated s t ≠ .error .notAProbability

namespace Literal

theorem negate?_ne (l : Literal) : l.negate? ≠ .error .notAProbability := by
  unfold negate?
  split <;> nofun

theorem negateAll?_ne (literals : List Literal) : negateAll? literals ≠ .error .notAProbability :=
  Except.mapM_ne negate?_ne literals

theorem ofAtom_ne (a : Atom) (polarity : Bool) : ofAtom a polarity ≠ .error .notAProbability := by
  unfold ofAtom
  split
  · nofun
  · exact negate?_ne _

end Literal

theorem Clause.normaliseFrom_ne (kept clause : Clause) :
    normaliseFrom kept clause ≠ .error .notAProbability := by
  induction clause generalizing kept with
  | nil => nofun
  | cons l rest ih =>
    refine Except.bind_ne (Literal.negate?_ne l) fun opposite => ?_
    split
    · nofun
    · split <;> exact ih _

namespace AtMost

theorem cannotExceed_ne (t : AtMost) : t.cannotExceed ≠ .error .notAProbability :=
  Except.bind_ne (Except.bind_ne (Literal.negateAll?_ne _) fun _ => nofun) fun _ => nofun

theorem reason_ne (t : AtMost) (l : Literal) (length : Marker) : t.reason l length ≠ .error .notAProbability :=
  Except.bind_ne (Literal.negateAll?_ne _) fun _ => nofun

theorem falsify_avoids (rest : List Literal) (t : AtMost) : (t.falsify rest).Avoids .notAProbability := by
  induction rest generalizing t with
  | nil => trivial
  | cons member rest ih =>
    refine (Turn.avoids_ofExcept (Literal.negate?_ne member)).andThen fun l status => ?_
    cases status with
    | error e => trivial
    | ok status =>
      cases status with
      | unset => exact ih _
      | same => exact ih t
      | different => exact (Turn.avoids_ofExcept (t.reason_ne _ _)).andThen fun _ => trivial

theorem examine_avoids (t : AtMost) : t.examine.Avoids .notAProbability := by
  rw [examine_eq]
  split
  · exact (Turn.avoids_ofExcept (Literal.negateAll?_ne _)).andThen fun _ => trivial
  · split
    · trivial
    · exact falsify_avoids _ t

instance : Theory.TakesNoChances AtMost where
  enqueue l t := by
    simp only [Theory.enqueue]
    split
    · nofun
    · refine Except.bind_ne (Literal.negate?_ne l) fun _ => ?_
      split <;> nofun
  clearSatisfied t := by
    simp only [Theory.clearSatisfied]
    split
    · refine Except.bind_ne t.cannotExceed_ne fun _ => ?_
      split <;> nofun
    · nofun
  propagate t := by
    simp only [Theory.propagate]
    split
    · trivial
    · exact t.examine_avoids
  solve t := t.examine_avoids
  isSatisfied t := by
    simp only [Theory.isSatisfied]
    split
    · nofun
    · exact t.cannotExceed_ne
  buildReason l marker t := Except.bind_ne (t.reason_ne l marker) fun _ => nofun
  checkPropagated _ _ := nofun

end AtMost

namespace Reachability

theorem pathClause_ne (t : Reachability) (path : List Edge) : t.pathClause path ≠ .error .notAProbability :=
  Except.bind_ne (Except.mapM_ne (fun _ => Literal.ofAtom_ne _ _) path) fun _ => nofun

theorem cutClause_ne (t : Reachability) (facts : List Literal) : t.cutClause facts ≠ .error .notAProbability :=
  Except.bind_ne (Literal.ofAtom_ne _ _) fun _ => nofun

theorem examine_avoids (skip : Bool) (t : Reachability) : (t.examine skip).Avoids .notAProbability := by
  have drawn : t.consequence t.log.entries ≠ .error .notAProbability := by
    unfold consequence
    dsimp only
    split
    · split
      · nofun
      · exact Except.map_ne (t.pathClause_ne _) _
    · split
      · nofun
      · split
        · nofun
        · exact Except.map_ne (t.cutClause_ne _) _
  refine (Turn.avoids_ofExcept drawn).andThen fun outcome => ?_
  rcases outcome with _ | _ | ⟨l, rest⟩
  · trivial
  · exact nofun
  · dsimp only
    split
    · trivial
    · split
      · trivial
      · rintro (_ | _ | _ | _) <;> trivial

instance : Theory.TakesNoChances Reachability where
  enqueue _ _ := nofun
  clearSatisfied _ := nofun
  propagate := examine_avoids true
  solve := examine_avoids false
  isSatisfied _ := nofun
  buildReason l marker t := by
    refine Except.bind_ne ?_ fun _ => nofun
    unfold reason
    dsimp only
    split
    · split
      · exact t.pathClause_ne _
      · nofun
    · exact t.cutClause_ne _
  checkPropagated s t := by
    simp only [Theory.checkPropagated, isPropagated]
    split
    · nofun
    · split
      · nofun
      · nofun
      · split
        · nofun
        · split
          · nofun
          · exact Except.bind_ne (Literal.ofAtom_ne _ _) fun _ => nofun

end Reachability

namespace RuleTable

theorem follow_avoids (t : RuleTable) (rules : List TheoryRule) : (t.follow rules).Avoids .notAProbability := by
  induction rules with
  | nil => trivial
  | cons r rest ih =>
    unfold follow
    split
    · split
      · trivial
      · refine Turn.Avoids.andThen (fun _ => trivial) fun s => ?_
        split
        · trivial
        · exact fun _ => ih
    · exact ih

instance : Theory.TakesNoChances RuleTable where
  enqueue _ _ := nofun
  clearSatisfied _ := nofun
  propagate t := (t.follow_avoids _).andThen fun _ => trivial
  solve t := (t.follow_avoids _).andThen fun _ => trivial
  isSatisfied _ := nofun
  buildReason l marker t := by
    refine Except.bind_ne ?_ fun _ => nofun
    unfold reason
    split
    · nofun
    · split
      · exact Except.bind_ne (Literal.negateAll?_ne _) fun _ => nofun
      · nofun
  checkPropagated _ _ := nofun

end RuleTable

instance : Theory.TakesNoChances Recorder where
  enqueue _ _ := nofun
  clearSatisfied _ := nofun
  propagate _ := trivial
  solve _ := trivial
  isSatisfied _ := nofun
  buildReason _ _ _ := nofun
  checkPropagated _ _ := nofun

section Either

variable {σ τ : Type} [Theory σ] [Theory τ]

instance [Theory.TakesNoChances σ] [Theory.TakesNoChances τ] : Theory.TakesNoChances (σ ⊕ τ) where
  enqueue l
    | .inl t => Except.map_ne (Theory.TakesNoChances.enqueue l t) _
    | .inr t => Except.map_ne (Theory.TakesNoChances.enqueue l t) _
  clearSatisfied
    | .inl t => Except.map_ne (Theory.TakesNoChances.clearSatisfied t) _
    | .inr t => Except.map_ne (Theory.TakesNoChances.clearSatisfied t) _
  propagate
    | .inl t => (Theory.TakesNoChances.propagate t).andThen fun _ => trivial
    | .inr t => (Theory.TakesNoChances.propagate t).andThen fun _ => trivial
  solve
    | .inl t => (Theory.TakesNoChances.solve t).andThen fun _ => trivial
    | .inr t => (Theory.TakesNoChances.solve t).andThen fun _ => trivial
  isSatisfied
    | .inl t => Theory.TakesNoChances.isSatisfied t
    | .inr t => Theory.TakesNoChances.isSatisfied t
  buildReason l marker
    | .inl t => Except.map_ne (Theory.TakesNoChances.buildReason l marker t) _
    | .inr t => Except.map_ne (Theory.TakesNoChances.buildReason l marker t) _
  checkPropagated s
    | .inl t => Theory.TakesNoChances.checkPropagated s t
    | .inr t => Theory.TakesNoChances.checkPropagated s t

end Either

/-! ### Registries -/

namespace Registry

variable {σ : Type} {cause : Fault} {r : Registry σ}

def IsScheduled (r : Registry σ) : Prop := r.schedule.standings.length = r.members.length

namespace IsScheduled

variable {r' : Registry σ}

theorem changeAll {f : Member σ → Except Fault (Member σ × List Call)} (h : r.IsScheduled)
    (success : r.changeAll f = .ok r') : r'.IsScheduled := by
  obtain ⟨changes, schedule, _⟩ := changeAll_eq_ok success
  rw [IsScheduled, schedule, changes.length]
  exact h

theorem changeAt {α : Type} {i : Nat} {f : Member σ → Except Fault (α × Member σ × List Call)}
    {outcome : Option α} (h : r.IsScheduled) (success : r.changeAt i f = .ok (outcome, r')) : r'.IsScheduled := by
  rw [IsScheduled, length_changeAt success]
  cases outcome with
  | none => rw [(changeAt_eq_none success).2]; exact h
  | some a =>
    obtain ⟨m, m', own, _, _, rfl⟩ := changeAt_eq_ok success
    exact h

theorem bumpBy (h : r.IsScheduled) (conventions : Conventions) (i : Nat) :
    ({ r with schedule := r.schedule.bumpBy conventions i } : Registry σ).IsScheduled :=
  (Schedule.length_bumpBy conventions _ i).trans h

theorem modify {s : Schedule Activity} {i : Nat} {f : Standing Activity → Standing Activity} (h : r.IsScheduled)
    (success : r.schedule.modify i f = .ok s) : ({ r with schedule := s } : Registry σ).IsScheduled :=
  (Schedule.length_modify success).trans h

theorem observe {i : Nat} {a : Atom} {first : Bool} (h : r.IsScheduled)
    (success : r.observe i a = .ok (first, r')) : r'.IsScheduled := by
  unfold Registry.observe at success
  split at success
  · cases success
  · split at success <;> cases success
    · exact h
    · exact h.trans List.length_set.symm

variable [Theory σ]

theorem undecideAll {decisions : List DecisionRecord} (h : r.IsScheduled)
    (success : Registry.undecideAll decisions r = .ok r') : r'.IsScheduled := by
  induction decisions generalizing r with
  | nil => cases success; exact h
  | cons d rest ih =>
    obtain ⟨⟨_, mid⟩, undecided, success⟩ := Except.bind_eq_ok success
    exact ih (h.changeAt undecided) success

theorem clearSatisfied {t : Trail} {cleared : Bool} (h : r.IsScheduled)
    (success : r.clearSatisfied t = .ok (cleared, r')) : r'.IsScheduled := by
  unfold Registry.clearSatisfied at success
  split at success
  · cases success
    exact h
  · obtain ⟨mid, changed, success⟩ := Except.bind_eq_ok success
    cases success
    exact changeAll (r := { r with baseFacts := t.length }) h changed

theorem register {theory : σ} {outcome : Except TheoryError Nat} (h : r.IsScheduled)
    (registered : r.register theory = (outcome, r')) : r'.IsScheduled := by
  obtain ⟨e, calls, _, rfl, _⟩ | ⟨_, _, rfl⟩ := register_eq registered
  · exact h
  · simp [IsScheduled, Schedule.register, h.symm]

end IsScheduled

theorem changeAt_ne {α : Type} {f : Member σ → Except Fault (α × Member σ × List Call)}
    (each : ∀ m, f m ≠ .error cause) (i : Nat) : r.changeAt i f ≠ .error cause := by
  unfold changeAt
  split
  · nofun
  · exact Except.bind_ne (each _) fun _ => nofun

theorem changeFrom_ne {f : Member σ → Except Fault (Member σ × List Call)} (each : ∀ m, f m ≠ .error cause)
    (i : Nat) (members : List (Member σ)) : changeFrom f i members ≠ .error cause := by
  induction members generalizing i with
  | nil => nofun
  | cons m rest ih => exact Except.bind_ne (each m) fun _ => Except.bind_ne (ih _) fun _ => nofun

theorem changeAll_ne {f : Member σ → Except Fault (Member σ × List Call)} (each : ∀ m, f m ≠ .error cause) :
    r.changeAll f ≠ .error cause :=
  Except.bind_ne (changeFrom_ne each 0 r.members) fun _ => nofun

variable [Theory σ]

theorem undecideAll_ne (decisions : List DecisionRecord) (r : Registry σ) :
    undecideAll decisions r ≠ .error cause := by
  induction decisions generalizing r with
  | nil => nofun
  | cons d rest ih =>
    refine Except.bind_ne (changeAt_ne (fun m => ?_) d.theory) fun _ => ih _
    nofun

theorem preprocess_ne (occurs : Literal → Bool) : r.preprocess occurs ≠ .error .notAProbability := by
  refine changeAll_ne fun m => ?_
  unfold Member.preprocess
  split
  · nofun
  · refine Except.bind_ne (Except.bind_ne (Except.mapM_ne (fun a => ?_) _) fun _ => nofun) fun _ => nofun
    exact Except.bind_ne (Literal.ofAtom_ne a true) fun _ =>
      Except.bind_ne (Literal.ofAtom_ne a false) fun _ => nofun

variable [Theory.TakesNoChances σ]

theorem deliverAll_ne (trail : Trail) : r.deliverAll trail ≠ .error .notAProbability := by
  refine changeAll_ne fun m => Except.bind_ne (Except.bind_ne ?_ fun _ => nofun) fun _ => nofun
  exact Except.foldlM_ne (fun t l => Theory.TakesNoChances.enqueue l t) _ _

theorem clearSatisfied_ne (trail : Trail) : r.clearSatisfied trail ≠ .error .notAProbability := by
  unfold clearSatisfied
  split
  · nofun
  · refine Except.bind_ne (changeAll_ne fun m => ?_) fun _ => nofun
    unfold Member.clearSatisfied
    split
    · exact Except.bind_ne (Theory.TakesNoChances.clearSatisfied _) fun _ => nofun
    · nofun

end Registry

/-! ### Operations -/

/-- The settings are the given ones, and the schedule has a standing for each theory. -/
def Context.Keeps {σ : Type} (settings : Settings) (c : Context σ) : Prop :=
  c.settings = settings ∧ c.theories.IsScheduled

namespace Procedure

variable {σ α β ε : Type} {settings : Settings}

/-- Where the settings are the given ones and the schedule has a standing for each theory, a procedure leaves that as
it is, and fails for want of a likelihood only if the settings are none. -/
def Steady (settings : Settings) (p : Procedure σ α) : Prop :=
  ∀ c : Context σ, c.Keeps settings →
    p.Ends c (fun cause => cause = .notAProbability → ¬settings.AreLikelihoods)
      fun _ after => after.Keeps settings

namespace Steady

variable {p : Procedure σ α} {next : α → Procedure σ β}

theorem bind (first : p.Steady settings) (rest : ∀ a, (next a).Steady settings) :
    (p >>= next).Steady settings :=
  fun c same => .bind (first c same) (fun _ _ kept => kept) fun a after kept => rest a after kept

theorem pure {a : α} : (Pure.pure a : Procedure σ α).Steady settings := fun _ same => .pure same

theorem throw {e : Error} : (MonadExcept.throw e : Procedure σ α).Steady settings := fun _ same => .throw same

theorem throw_bind {e : Error} : ((MonadExcept.throw e : Procedure σ α) >>= next).Steady settings :=
  fun _ same => .throw_bind same

theorem get_bind {next : Context σ → Procedure σ β}
    (rest : ∀ c : Context σ, c.Keeps settings → (next c).Steady settings) :
    ((get : Procedure σ (Context σ)) >>= next).Steady settings :=
  fun c same => .get_bind (rest c same c same)

theorem modify {f : Context σ → Context σ} (keeps : ∀ c, c.Keeps settings → (f c).Keeps settings) :
    (modify f : Procedure σ Unit).Steady settings :=
  fun c same => .modify (keeps c same)

theorem ofDraw {x : Except Fault α} (succeeds : settings.AreLikelihoods → x ≠ .error .notAProbability) :
    (Procedure.ofFaulty x : Procedure σ α).Steady settings := by
  intro c same
  cases x with
  | error cause => exact fun isIt valid => succeeds valid (by rw [isIt])
  | ok a => exact same

theorem ofFaulty {x : Except Fault α} (avoids : x ≠ .error .notAProbability) :
    (Procedure.ofFaulty x : Procedure σ α).Steady settings :=
  ofDraw fun _ => avoids

theorem ofFaulty_bind {x : Except Fault α} (avoids : x ≠ .error .notAProbability)
    (rest : ∀ a, x = .ok a → (next a).Steady settings) : (Procedure.ofFaulty x >>= next).Steady settings := by
  intro c same
  cases x with
  | error cause => exact fun isIt => absurd (by rw [isIt]) avoids
  | ok a => exact rest a rfl c same

theorem ofExcept_bind {wrap : ε → Error} {x : Except ε α} (rest : ∀ a, x = .ok a → (next a).Steady settings) :
    (Procedure.ofExcept wrap x >>= next).Steady settings := by
  cases x with
  | error e => exact throw_bind
  | ok a => exact rest a rfl

theorem ofExcept {wrap : ε → Error} {x : Except ε α} :
    (Procedure.ofExcept wrap x : Procedure σ α).Steady settings :=
  fun _ same => .ofExcept (fun _ _ => same) fun _ _ => same

/-- An error that is caught is no reason to fail. -/
theorem tryCatch {handler : Error → Procedure σ α} (first : p.Steady settings)
    (handled : ∀ e, (handler e).Steady settings) : (MonadExcept.tryCatch p handler).Steady settings := by
  intro c same
  have ends := first c same
  unfold Ends at ends ⊢
  rw [Ensures.run_tryCatch]
  cases ran : c.run p with
  | error cause =>
    rw [ran] at ends
    exact ends
  | ok outcome =>
    obtain ⟨_ | a, after⟩ := outcome
    · rw [ran] at ends
      exact handled _ after ends
    · rw [ran] at ends
      exact ends

end Steady

theorem setAtoms_steady (atoms : Atoms) : (setAtoms atoms : Procedure σ Unit).Steady settings :=
  .modify fun _ => id

theorem setTheories_steady {theories : Registry σ} (scheduled : theories.IsScheduled) :
    (setTheories theories).Steady settings :=
  .modify fun _ kept => ⟨kept.1, scheduled⟩

theorem setPhase_steady (phase : Phase) : (setPhase phase : Procedure σ Unit).Steady settings :=
  .modify fun _ => id

theorem begin_steady : (begin : Procedure σ Unit).Steady settings := .modify fun _ => id

theorem count_steady (f : Counters → Counters) : (count f : Procedure σ Unit).Steady settings :=
  .modify fun _ => id

theorem assign_steady (l : Literal) (reason : Reason) : (assign l reason : Procedure σ Status).Steady settings :=
  .get_bind fun _ _ => .bind .ofExcept fun _ => .bind (setAtoms_steady _) fun _ => .pure

/-- A draw against a likelihood succeeds. -/
theorem chance_steady {p : Float} (likelihood : settings.AreLikelihoods → Generator.IsLikelihood p) :
    (chance p : Procedure σ Bool).Steady settings :=
  .get_bind fun c _ =>
    have draws (valid : settings.AreLikelihoods) := c.settings.host.sampler.exists_chance p c.random (likelihood valid)
    .bind (.ofDraw fun valid => Except.ne_error (draws valid) _) fun _ => .bind (.modify fun _ => id) fun _ => .pure

theorem propagateUnits_steady : (propagateUnits : Procedure σ Unit).Steady settings :=
  .get_bind fun _ _ => .bind (setAtoms_steady _) fun _ => .ofExcept

theorem propagateClauses_steady : (propagateClauses : Procedure σ (Option ClauseKey)).Steady settings := by
  refine .get_bind fun c _ => .bind (setAtoms_steady _) fun _ => ?_
  split
  · exact .pure
  · exact .pure
  · exact .throw

theorem conflictLevel_steady (clause : Clause) : (conflictLevel clause : Procedure σ Nat).Steady settings :=
  .get_bind fun _ _ => .bind .ofExcept fun _ => .pure

theorem freshAtom_steady : (freshAtom : Procedure σ Atom).Steady settings := by
  refine .get_bind fun c same => .bind (chance_steady ?_) fun _ => .get_bind fun _ _ => ?_
  · rw [same.1]
    exact (·.polarityBias)
  · exact .bind .ofExcept fun _ => .bind (setAtoms_steady _) fun _ => .bind begin_steady fun _ => .pure

theorem freshLiterals_steady (n : Nat) : (freshLiterals n : Procedure σ (List Literal)).Steady settings := by
  induction n with
  | zero => exact .pure
  | succ n ih =>
    exact .bind (.tryCatch freshAtom_steady fun _ => .pure) fun _ => .bind ih fun _ => .pure

theorem freshAtoms_steady (n : Nat) : (freshAtoms n : Procedure σ Unit).Steady settings := by
  induction n with
  | zero => exact .pure
  | succ n ih => exact .bind freshAtom_steady fun _ => ih

theorem ensureAtom_steady (a : Atom) : (ensureAtom a : Procedure σ Unit).Steady settings :=
  .get_bind fun _ _ => freshAtoms_steady _

theorem ensureAtoms_steady (clause : Clause) : (ensureAtoms clause : Procedure σ Unit).Steady settings := by
  induction clause with
  | nil => exact .pure
  | cons l rest ih => exact .bind (ensureAtom_steady l.atom) fun _ => ih

theorem addClause_steady (clause : Clause) :
    (addClause clause : Procedure σ ClauseOutcome).Steady settings := by
  unfold addClause
  refine .get_bind fun c _ => ?_
  dsimp only
  split
  · exact .throw_bind
  · refine .bind (ensureAtoms_steady clause) fun _ =>
      .bind (.ofFaulty (Clause.normaliseFrom_ne [] clause)) fun normal => ?_
    split
    · exact .pure
    · exact .bind (setPhase_steady _) fun _ => .pure
    · refine .get_bind fun _ _ => .get_bind fun _ _ => .bind .ofExcept fun _ => .bind (.modify fun _ => id) fun _ =>
        .bind begin_steady fun _ => ?_
      split
      · exact .bind (assign_steady _ _) fun _ => .pure
      · exact .bind (setPhase_steady _) fun _ => .pure
      · exact .pure

theorem atomWithoutValue_steady : (atomWithoutValue : Procedure σ (Option Atom)).Steady settings := by
  refine .get_bind fun c same => .bind (chance_steady ?_) fun _ => .get_bind fun _ _ => ?_
  · rw [same.1]
    exact (·.randomDecisionBias)
  · dsimp only
    split
    · exact .bind (.modify fun _ => id) fun _ => .pure
    · exact .pure

theorem valueToDecide_steady (a : Atom) : (valueToDecide a : Procedure σ Bool).Steady settings := by
  refine .get_bind fun c same => ?_
  split
  · exact .pure
  · refine chance_steady ?_
    rw [same.1]
    exact (·.polarityBias)

/-! #### With theories that take no chances -/

section Theories

variable [Theory σ]

theorem preprocess_steady : (preprocess : Procedure σ Unit).Steady settings :=
  .get_bind fun _ kept => .ofFaulty_bind (Registry.preprocess_ne _) fun _ prepared =>
    setTheories_steady (kept.2.changeAll prepared)

theorem addTheory_steady (theory : σ) : (addTheory theory).Steady settings := by
  unfold addTheory
  refine .get_bind fun c kept => ?_
  dsimp only
  split
  · exact .throw_bind
  · exact .bind (setTheories_steady (kept.2.register rfl)) fun _ => .bind .ofExcept fun _ =>
      .bind begin_steady fun _ => .pure

theorem backjump_steady (level : Nat) : (backjump level : Procedure σ Unit).Steady settings := by
  refine .get_bind fun c kept => ?_
  dsimp only
  split
  · refine .ofFaulty_bind (Registry.undecideAll_ne _ _) fun retracted undecided => .ofFaulty_bind ?_ fun _ taken =>
      .bind (setAtoms_steady _) fun _ => setTheories_steady (.changeAll (.undecideAll ?_ undecided) taken)
    · exact Registry.changeAll_ne fun _ => nofun
    · exact kept.2
  · exact .pure

theorem clearDecisions_steady : (clearDecisions : Procedure σ Unit).Steady settings := by
  refine .bind (backjump_steady 0) fun _ => .get_bind fun _ _ => ?_
  split
  · exact setPhase_steady _
  · exact .pure

theorem askForProposal_steady (indices : List Nat) :
    (askForProposal indices : Procedure σ (Option (Nat × Proposal))).Steady settings := by
  induction indices with
  | nil => exact .pure
  | cons i rest ih =>
    refine .get_bind fun c kept => ?_
    dsimp only
    split
    · exact .ofFaulty nofun
    · split
      · refine .ofFaulty_bind (Registry.changeAt_ne (fun m => ?_) i) fun _ asked =>
          .bind (setTheories_steady (kept.2.changeAt asked)) fun _ => ?_
        · nofun
        split
        · split
          · exact .pure
          · exact ih
        · exact ih
      · exact ih

omit [Theory σ] in
theorem acceptConflict_steady (i : Nat) (clause : Clause) :
    (acceptConflict i clause : Procedure σ Conflict).Steady settings := by
  refine .get_bind fun c kept => ?_
  dsimp only
  split
  · exact .bind (count_steady _) fun _ => .bind (setTheories_steady (kept.2.bumpBy _ i)) fun _ => .pure
  · exact .throw

omit [Theory σ] in
/-- A check draws nothing. -/
theorem checkEach_steady {check : Atoms → σ → Except Fault Bool} {call : Bool → Call}
    {error : Nat → TheoryError} (avoids : ∀ s t, check s t ≠ .error .notAProbability) (indices : List Nat) :
    (checkEach check call error indices : Procedure σ Unit).Steady settings := by
  induction indices with
  | nil => exact .pure
  | cons i rest ih =>
    refine .get_bind fun c kept => .ofFaulty_bind (Registry.changeAt_ne (fun m => ?_) i) fun _ asked =>
      .bind (setTheories_steady (kept.2.changeAt asked)) fun _ => ?_
    · exact Except.bind_ne (avoids _ _) fun _ => nofun
    · split
      · exact .throw
      · exact ih

theorem checkSolved_steady : (checkSolved : Procedure σ Unit).Steady settings := by
  refine .get_bind fun _ _ => checkEach_steady (fun _ _ => ?_) _
  nofun

variable [Theory.TakesNoChances σ]

theorem checkPropagated_steady : (checkPropagated : Procedure σ Unit).Steady settings :=
  .get_bind fun _ _ => checkEach_steady Theory.TakesNoChances.checkPropagated _

theorem deliverAll_steady : (deliverAll : Procedure σ Unit).Steady settings :=
  .get_bind fun _ kept => .ofFaulty_bind (Registry.deliverAll_ne _) fun _ told =>
    setTheories_steady (kept.2.changeAll told)

theorem observe_steady (i : Nat) (a : Atom) : (observe i a : Procedure σ Unit).Steady settings := by
  unfold observe
  refine .get_bind fun c kept => ?_
  dsimp only
  split
  · exact .throw_bind
  · split
    · exact .throw_bind
    · refine .ofExcept_bind fun _ observed => ?_
      have scheduled := kept.2.observe observed
      refine .bind (setTheories_steady scheduled) fun _ => ?_
      split
      · refine .ofFaulty_bind (Registry.changeAt_ne (fun m => ?_) i) fun _ told =>
          setTheories_steady (scheduled.changeAt told)
        split
        · nofun
        · split
          · nofun
          · exact Except.bind_ne (Theory.TakesNoChances.enqueue _ _) fun _ => nofun
      · exact .pure

theorem applyDecision_steady (l : Literal) (proposer : Option (Nat × Option Marker)) :
    (applyDecision l proposer : Procedure σ Unit).Steady settings := by
  refine .bind deliverAll_steady fun _ => .get_bind fun c kept => .ofFaulty_bind ?_ fun _ opened =>
    .bind (setAtoms_steady _) fun _ => .bind (setTheories_steady ?_) fun _ =>
      .bind (assign_steady l .decision) fun _ => .bind (count_steady _) fun _ => setPhase_steady _
  · exact Registry.changeAll_ne fun _ => nofun
  · have scheduled := kept.2.changeAll opened
    split <;> exact scheduled

theorem decideLiteral_steady (l : Literal) : (decideLiteral l : Procedure σ Unit).Steady settings := by
  unfold decideLiteral
  refine .get_bind fun c _ => ?_
  dsimp only
  split
  · exact .throw_bind
  · split
    · exact .throw_bind
    · exact .bind preprocess_steady fun _ => applyDecision_steady l none

omit [Theory.TakesNoChances σ] in
theorem takeTurn_steady {turn : σ → Turn (Option Clause × σ)}
    {call : Nat → List Literal → Option Clause → Call} (avoids : ∀ t, (turn t).Avoids .notAProbability)
    (i : Nat) : (takeTurn i turn call).Steady settings := by
  refine .get_bind fun c kept =>
    .ofFaulty_bind (Registry.changeAt_ne (fun m => ?_) i) fun ⟨outcome, theories⟩ taken => ?_
  · exact Except.bind_ne ((avoids _).run_ne i _) fun _ => nofun
  · cases outcome with
    | none => exact .throw
    | some outcome =>
      refine .bind (setAtoms_steady _) fun _ => .bind (setTheories_steady (kept.2.changeAt taken)) fun _ => ?_
      split
      · exact .pure
      · exact .bind (acceptConflict_steady i _) fun _ => .pure

theorem propagateTheory_steady (i : Nat) :
    (propagateTheory i : Procedure σ (Option Conflict)).Steady settings :=
  takeTurn_steady Theory.TakesNoChances.propagate i

theorem takeTurns_steady (indices : List Nat) (assigned : Bool) :
    (takeTurns indices assigned : Procedure σ (Except Conflict Bool)).Steady settings := by
  induction indices generalizing assigned with
  | nil => exact .pure
  | cons i rest ih =>
    refine .get_bind fun _ _ => .bind (propagateTheory_steady i) fun conflict => ?_
    split
    · exact .pure
    · refine .get_bind fun _ _ => ?_
      split
      · refine .bind propagateClauses_steady fun key => ?_
        split
        · exact .pure
        · exact .bind deliverAll_steady fun _ => ih true
      · exact ih assigned

theorem roundsWithin_steady (fuel : Nat) :
    (roundsWithin fuel : Procedure σ (Option Conflict)).Steady settings := by
  induction fuel with
  | zero => exact .pure
  | succ fuel ih =>
    refine .bind propagateClauses_steady fun key => ?_
    split
    · exact .pure
    · refine .bind deliverAll_steady fun _ => .get_bind fun _ _ => .bind (takeTurns_steady _ _) fun outcome => ?_
      split
      · exact .pure
      · exact ih
      · exact .pure

theorem propagate_steady : (propagate : Procedure σ (Option Conflict)).Steady settings := by
  refine .get_bind fun c _ => .bind (roundsWithin_steady _) fun outcome => ?_
  split
  · exact .pure
  · refine .get_bind fun _ _ => ?_
    split
    · exact .bind checkPropagated_steady fun _ => .pure
    · exact .pure

theorem hintsSatisfied_steady (i : Nat) : (hintsSatisfied i : Procedure σ Bool).Steady settings := by
  refine .get_bind fun c kept => .ofFaulty_bind (Registry.changeAt_ne (fun m => ?_) i) fun _ asked => ?_
  · split
    · exact Except.bind_ne (Theory.TakesNoChances.isSatisfied _) fun _ => nofun
    · nofun
  · dsimp only
    split
    · exact .ofFaulty nofun
    · exact .bind (setTheories_steady (kept.2.changeAt asked)) fun _ => .pure

theorem solveEach_steady (start : Nat) (indices : List Nat) :
    (solveEach start indices : Procedure σ FinalCheck).Steady settings := by
  induction indices with
  | nil => exact .pure
  | cons i rest ih =>
    refine .bind (hintsSatisfied_steady i) fun hint => ?_
    split
    · exact ih
    · refine .bind (takeTurn_steady Theory.TakesNoChances.solve i) fun conflict => ?_
      split
      · exact .pure
      · refine .get_bind fun _ _ => ?_
        split
        · exact .pure
        · exact ih

theorem finalCheck_steady : (finalCheck : Procedure σ FinalCheck).Steady settings := by
  refine .bind deliverAll_steady fun _ => .get_bind fun _ _ => .bind (solveEach_steady _ _) fun outcome => ?_
  split
  · split
    · exact .bind checkSolved_steady fun _ => .pure
    · exact .pure
  · exact .pure

theorem reasonFor_steady (l : Literal) : (reasonFor l : Procedure σ Clause).Steady settings := by
  refine .get_bind fun c kept => ?_
  dsimp only
  split
  · exact .ofExcept
  · rename_i i marker _
    refine .ofFaulty_bind (Registry.changeAt_ne (fun m => ?_) i) fun (reason, _) asked => ?_
    · exact Except.bind_ne (Theory.TakesNoChances.buildReason l marker _) fun _ => nofun
    · split
      · exact .throw
      · refine .bind (setTheories_steady ((kept.2.changeAt asked).bumpBy _ i)) fun _ => ?_
        refine .bind (count_steady _) fun _ => ?_
        split
        · exact .pure
        · exact .throw
  · exact .throw
  · exact .throw

theorem resolve_steady (trail : List Literal) (position : Nat) (r : Resolvent) :
    (resolve trail position r : Procedure σ (Literal × List Literal)).Steady settings := by
  induction position generalizing r with
  | zero => exact .throw
  | succ position ih =>
    refine .bind (.ofFaulty (entryAt_ne _ _)) fun l => .get_bind fun _ _ => ?_
    refine .bind (.ofFaulty (Resolvent.isMarked_ne _ _ _)) fun met => ?_
    split
    · split
      · exact .pure
      · exact .bind (reasonFor_steady l) fun _ => .get_bind fun _ _ => .bind .ofExcept fun _ => ih _
    · exact ih r

theorem analyse_steady (conflict : Clause) : (analyse conflict : Procedure σ Learnt).Steady settings := by
  refine .get_bind fun c _ => .bind .ofExcept fun r => ?_
  dsimp only
  split
  · exact .throw_bind
  · refine .bind (resolve_steady _ _ _) fun _ => .get_bind fun _ _ => .bind .ofExcept fun _ =>
      .get_bind fun _ _ => .bind .ofExcept fun _ => .bind (.modify fun _ => id) fun _ => ?_
    split <;> exact .pure

theorem recoverClause_steady (clause : Clause) :
    (recoverClause clause : Procedure σ Recovery).Steady settings := by
  refine .bind (conflictLevel_steady clause) fun level => ?_
  dsimp only
  split
  · exact .bind (setPhase_steady _) fun _ => .pure
  · refine .bind (backjump_steady level) fun _ => .bind (analyse_steady clause) fun learnt => ?_
    cases learnt
    all_goals
      refine .bind .pure fun _ => .bind (backjump_steady _) fun _ => .bind (assign_steady _ _) fun status => ?_
      split
      · exact .pure
      · exact .throw

theorem recover_steady (conflict : Conflict) : (recover conflict : Procedure σ Recovery).Steady settings := by
  refine .bind (count_steady _) fun _ => ?_
  cases conflict with
  | clause key => exact .get_bind fun _ _ => .bind .ofExcept recoverClause_steady
  | theory i clause => exact recoverClause_steady clause

theorem recoverFrom_steady (conflict : Conflict) :
    (iterate.recoverFrom conflict : Procedure σ (Option Report)).Steady settings := by
  refine .bind (recover_steady conflict) fun recovery => ?_
  cases recovery <;> exact .pure

theorem makeDecision_steady : (makeDecision : Procedure σ Decision).Steady settings := by
  refine .bind preprocess_steady fun _ => .get_bind fun _ _ => .bind (askForProposal_steady _) fun proposal => ?_
  split
  · exact .bind (count_steady _) fun _ => .bind (applyDecision_steady _ _) fun _ => .pure
  · refine .bind atomWithoutValue_steady fun a => ?_
    split
    · exact .pure
    · exact .bind (valueToDecide_steady _) fun _ => .bind (.ofFaulty (Literal.ofAtom_ne _ _)) fun _ =>
        .bind (applyDecision_steady _ _) fun _ => .pure

/-- An iteration of the search keeps settings and standings, and only draws against a setting can fail for want of a
likelihood. -/
theorem iterate_steady : (iterate : Procedure σ (Option Report)).Steady settings := by
  refine .bind (count_steady _) fun _ => .get_bind fun _ _ => ?_
  split
  · exact .pure
  refine .bind propagate_steady fun outcome => ?_
  split
  · exact recoverFrom_steady _
  · refine .get_bind fun _ kept => .ofFaulty_bind (Registry.clearSatisfied_ne _) fun _ cleared =>
      .bind (setTheories_steady (kept.2.clearSatisfied cleared)) fun _ => .bind makeDecision_steady fun decision => ?_
    split
    · exact .pure
    · refine .bind finalCheck_steady fun checked => ?_
      split
      · exact .bind (setPhase_steady _) fun _ => .pure
      · exact .pure
      · exact recoverFrom_steady _

theorem iterateWithin_steady (fuel : Nat) : (iterateWithin fuel : Procedure σ Report).Steady settings := by
  induction fuel with
  | zero => exact .pure
  | succ fuel ih =>
    refine .bind iterate_steady fun outcome => ?_
    split
    · exact .pure
    · exact ih

theorem solve_steady : (solve : Procedure σ Report).Steady settings := by
  refine .get_bind fun c _ => ?_
  split
  · exact .pure
  · exact .bind preprocess_steady fun _ => .bind (setPhase_steady _) fun _ => .get_bind fun _ _ =>
      iterateWithin_steady _

end Theories

end Procedure

variable {σ : Type} [Theory σ] [Theory.TakesNoChances σ] {settings : Settings}

/-- All commands but changes of settings leave the settings as they are, and fail for want of a likelihood
only if they are none. -/
theorem Command.steady (command : Command σ) (kept : Option Conflict)
    (other : ∀ change, command ≠ .changeSetting change) : (command.procedure kept).Steady settings := by
  have answers {α : Type} {p : Procedure σ α} {f : α → Answer} (steady : p.Steady settings) :
      (p >>= fun a => pure (f a)).Steady settings :=
    .bind steady fun _ => .pure
  cases command with
  | freshAtom => exact answers Procedure.freshAtom_steady
  | freshLiterals count => exact answers (Procedure.freshLiterals_steady count)
  | ensureAtom a => exact answers (Procedure.ensureAtom_steady a)
  | addClause clause => exact answers (Procedure.addClause_steady clause)
  | addTheory theory => exact answers (Procedure.addTheory_steady theory)
  | observe i a => exact answers (Procedure.observe_steady i a)
  | setPriority i priority =>
    exact answers (.get_bind fun _ kept => .ofExcept_bind fun _ changed =>
      Procedure.setTheories_steady (kept.2.modify changed))
  | setActivity i activity =>
    exact answers (.get_bind fun _ kept => .ofExcept_bind fun _ changed =>
      Procedure.setTheories_steady (kept.2.modify changed))
  | changeSetting change => exact absurd rfl (other change)
  | preprocess => exact answers Procedure.preprocess_steady
  | decideLiteral l => exact answers (Procedure.decideLiteral_steady l)
  | makeDecision => exact answers Procedure.makeDecision_steady
  | propagateUnits => exact answers Procedure.propagateUnits_steady
  | propagate => exact answers Procedure.propagate_steady
  | propagateTheory i => exact answers (Procedure.propagateTheory_steady i)
  | finalCheck => exact answers Procedure.finalCheck_steady
  | recover =>
    cases kept with
    | none => exact .pure
    | some conflict => exact answers (Procedure.recover_steady conflict)
  | recoverFrom conflict => exact answers (Procedure.recover_steady conflict)
  | analyse clause => exact answers (Procedure.analyse_steady clause)
  | backjump level => exact answers (Procedure.backjump_steady level)
  | clearDecisions => exact answers Procedure.clearDecisions_steady
  | checkPropagated => exact answers Procedure.checkPropagated_steady
  | checkSolved => exact answers Procedure.checkSolved_steady
  | solve => exact answers Procedure.solve_steady

end SatModulo
