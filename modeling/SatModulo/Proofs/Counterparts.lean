import SatModulo.Proofs.Accounts
import SatModulo.Proofs.Renumbering
import SatModulo.Proofs.Scaling

/-!
# Registries of renumbered theories

Two registries that hold the same theories under other indices (`Registry.Renumbered`). What is done to all
members in the order of indices, or to one of them, is done to their counterparts too
(`Registry.Renumbered.changeAll`, `Registry.Renumbered.changeAt`).
-/
namespace SatModulo

variable {σ : Type}

def DecisionRecord.renumber (π : Equiv.Perm Nat) (d : DecisionRecord) : DecisionRecord :=
  { d with theory := π d.theory }

namespace Member

variable [Theory σ]

def reindex (j : Nat) (m : Member σ) : Member σ := { m with theory := Theory.setIndex j m.theory }

variable [Theory.Nameless σ] {j : Nat} {m : Member σ}

theorem deliver_reindex (literals : List Literal) :
    (m.reindex j).deliver literals =
      (m.deliver literals).map (Prod.map id (Prod.map (reindex j) id)) := by
  have told : ∀ (facts : List Literal) (t : σ), facts.foldlM (fun s l => Theory.enqueue l s) (Theory.setIndex j t) =
      (facts.foldlM (fun s l => Theory.enqueue l s) t).map (Theory.setIndex j) := by
    intro facts
    induction facts with
    | nil => exact fun _ => rfl
    | cons l rest ih =>
      intro t
      rw [List.foldlM_cons, List.foldlM_cons, (Theory.Nameless.isNameless t).enqueue]
      cases Theory.enqueue l t with
      | error cause => rfl
      | ok t' => exact ih t'
  unfold deliver
  change (((m.pending literals).foldlM (fun s l => Theory.enqueue l s) (Theory.setIndex j m.theory)).bind _) = _
  rw [told]
  dsimp only
  change _ = (((m.pending literals).foldlM (fun s l => Theory.enqueue l s) m.theory).bind _).map _
  cases (m.pending literals).foldlM (fun s l => Theory.enqueue l s) m.theory <;> rfl

theorem preprocess_reindex (occurs : Literal → Bool) :
    (m.reindex j).preprocess occurs = (m.preprocess occurs).map (Prod.map (reindex j) id) := by
  have noted : ∀ (literals : List Literal) (t : σ),
      literals.foldl (fun s l => Theory.noteOccurs l (occurs l) s) (Theory.setIndex j t) =
        Theory.setIndex j (literals.foldl (fun s l => Theory.noteOccurs l (occurs l) s) t) := by
    intro literals
    induction literals with
    | nil => exact fun _ => rfl
    | cons l rest ih =>
      intro t
      rw [List.foldl_cons, List.foldl_cons, (Theory.Nameless.isNameless t).noteOccurs, ih]
  unfold preprocess
  change (if m.preprocessed = true then _ else _) = _
  split
  · rfl
  · change m.observedLiterals.bind _ = (m.observedLiterals.bind _).map _
    cases m.observedLiterals with
    | error cause => rfl
    | ok literals =>
      simp only [Except.bind, reindex, (Theory.Nameless.isNameless m.theory).preprocess, noted]
      rfl

theorem openLevel_reindex : (m.reindex j).openLevel = Prod.map (reindex j) id m.openLevel := by
  simp only [openLevel, reindex, (Theory.Nameless.isNameless m.theory).openLevel]
  rfl

theorem backtrack_reindex (level length : Nat) :
    (m.reindex j).backtrack level length = Prod.map (reindex j) id (m.backtrack level length) := by
  simp only [backtrack, reindex, (Theory.Nameless.isNameless m.theory).backtrack]
  split <;> rfl

theorem clearSatisfied_reindex :
    (m.reindex j).clearSatisfied = m.clearSatisfied.map (Prod.map (reindex j) id) := by
  simp only [clearSatisfied, reindex, (Theory.Nameless.isNameless m.theory).clearSatisfied]
  split
  · cases Theory.clearSatisfied m.theory <;> rfl
  · rfl

end Member

namespace Registry

variable [Theory σ]

/-- Two registries that hold the same theories under other indices. -/
structure Renumbered (π : Equiv.Perm Nat) (r r' : Registry σ) : Prop where
  member (i : Nat) : r'.members[π i]? = r.members[i]?.map (Member.reindex (π i))
  schedule : r.schedule.Renumbered π r'.schedule
  decisions : r'.decisions = r.decisions.map (DecisionRecord.renumber π)
  baseFacts : r'.baseFacts = r.baseFacts

namespace Renumbered

variable {π : Equiv.Perm Nat} {r r' r₁ : Registry σ}

theorem lt_length_iff (renumbered : r.Renumbered π r') (i : Nat) :
    π i < r'.members.length ↔ i < r.members.length := by
  rw [← not_iff_not, Nat.not_lt, Nat.not_lt, ← List.getElem?_eq_none_iff, ← List.getElem?_eq_none_iff,
    renumbered.member, Option.map_eq_none_iff]

/-- Every member is the counterpart of one. -/
theorem exists_counterpart (renumbered : r.Renumbered π r') {k : Nat} {m' : Member σ}
    (found : r'.members[k]? = some m') : ∃ i m, k = π i ∧ r.members[i]? = some m ∧ m' = m.reindex k := by
  have same := renumbered.member (π.symm k)
  rw [Equiv.apply_symm_apply, found] at same
  obtain ⟨m, inside, reindexed⟩ := Option.map_eq_some_iff.mp same.symm
  exact ⟨_, m, (π.apply_symm_apply k).symm, inside, reindexed.symm⟩

/-- One member becomes another, and its counterpart the counterpart of that. -/
theorem set (renumbered : r.Renumbered π r') (i : Nat) (m : Member σ) (calls calls' : Array (Nat × Call)) :
    Renumbered π { r with members := r.members.set i m, calls }
      { r' with members := r'.members.set (π i) (m.reindex (π i)), calls := calls' } where
  member j := by
    simp only [List.getElem?_set, π.injective.eq_iff, renumbered.lt_length_iff]
    split
    · rename_i same
      subst same
      split <;> rfl
    · exact renumbered.member j
  schedule := renumbered.schedule
  decisions := renumbered.decisions
  baseFacts := renumbered.baseFacts

/-- What is done to all members is done to their counterparts. -/
theorem changeAll (renumbered : r.Renumbered π r') {f : Member σ → Except Fault (Member σ × List Call)}
    (commutes : ∀ j m, f (m.reindex j) = (f m).map (Prod.map (Member.reindex j) id))
    (changed : r.changeAll f = .ok r₁) : ∃ r₁', r'.changeAll f = .ok r₁' ∧ r₁.Renumbered π r₁' := by
  obtain ⟨changes, schedule, decisions, baseFacts⟩ := changeAll_eq_ok changed
  cases changed' : r'.changeAll f with
  | error cause =>
    obtain ⟨m', member, failed⟩ := changeAll_eq_error changed'
    obtain ⟨k, found⟩ := List.mem_iff_getElem?.mp member
    obtain ⟨i, m, rfl, inside, rfl⟩ := renumbered.exists_counterpart found
    obtain ⟨m₁, own, _, _, done⟩ := changes.member i m inside
    rw [commutes, done] at failed
    cases failed
  | ok r₁' =>
    obtain ⟨changes', schedule', decisions', baseFacts'⟩ := changeAll_eq_ok changed'
    refine ⟨r₁', rfl, fun i => ?_, ?_, ?_, ?_⟩
    · have same := renumbered.member i
      cases inside : r.members[i]? with
      | none =>
        rw [inside, Option.map_none, List.getElem?_eq_none_iff, ← changes'.length] at same
        rw [List.getElem?_eq_none_iff, ← changes.length] at inside
        rw [List.getElem?_eq_none_iff.mpr same, List.getElem?_eq_none_iff.mpr inside, Option.map_none]
      | some m =>
        rw [inside] at same
        obtain ⟨m₁, own, found, _, done⟩ := changes.member i m inside
        obtain ⟨m₁', own', found', _, done'⟩ := changes'.member (π i) _ same
        rw [commutes, done] at done'
        cases done'
        rw [found, found', Option.map_some]
    · rw [schedule, schedule']
      exact renumbered.schedule
    · rw [decisions, decisions']
      exact renumbered.decisions
    · rw [baseFacts, baseFacts']
      exact renumbered.baseFacts

/-- What is done to one member is done to its counterpart. -/
theorem changeAt {α : Type} (renumbered : r.Renumbered π r') {i : Nat} {g : α → α}
    {f h : Member σ → Except Fault (α × Member σ × List Call)}
    (commutes : ∀ m, h (m.reindex (π i)) = (f m).map (Prod.map g (Prod.map (Member.reindex (π i)) id)))
    {outcome : Option α} (changed : r.changeAt i f = .ok (outcome, r₁)) :
    ∃ r₁', r'.changeAt (π i) h = .ok (outcome.map g, r₁') ∧ r₁.Renumbered π r₁' := by
  cases outcome with
  | none =>
    obtain ⟨absent, rfl⟩ := changeAt_eq_none changed
    refine ⟨r', ?_, renumbered⟩
    unfold Registry.changeAt
    rw [renumbered.member, absent]
    rfl
  | some a =>
    obtain ⟨m, m₁, own, found, done, rfl⟩ := changeAt_eq_ok changed
    refine ⟨_, ?_, renumbered.set i m₁ _ (r'.calls ++ own.map (π i, ·))⟩
    unfold Registry.changeAt
    rw [renumbered.member, found, Option.map_some]
    change (h (m.reindex (π i))).bind _ = _
    rw [commutes, done]
    rfl

theorem changeAt_same {α : Type} (renumbered : r.Renumbered π r') {i : Nat}
    {f h : Member σ → Except Fault (α × Member σ × List Call)}
    (commutes : ∀ m, h (m.reindex (π i)) = (f m).map (Prod.map id (Prod.map (Member.reindex (π i)) id)))
    {outcome : Option α} (changed : r.changeAt i f = .ok (outcome, r₁)) :
    ∃ r₁', r'.changeAt (π i) h = .ok (outcome, r₁') ∧ r₁.Renumbered π r₁' := by
  simpa only [Option.map_id, id] using renumbered.changeAt commutes changed

/-- The schedule may change where the registries agree on it. -/
theorem withSchedule (renumbered : r.Renumbered π r') {schedule schedule' : Schedule Activity}
    (scheduled : schedule.Renumbered π schedule') :
    Renumbered π { r with schedule } { r' with schedule := schedule' } :=
  ⟨renumbered.member, scheduled, renumbered.decisions, renumbered.baseFacts⟩

theorem recordDecision (renumbered : r.Renumbered π r') (d : DecisionRecord) :
    (r.recordDecision d).Renumbered π (r'.recordDecision (d.renumber π)) where
  member := renumbered.member
  schedule := renumbered.schedule
  decisions := congrArg (d.renumber π :: ·) renumbered.decisions
  baseFacts := renumbered.baseFacts

theorem capabilities_eq (renumbered : r.Renumbered π r') (i : Nat) : r'.capabilities (π i) = r.capabilities i := by
  rw [capabilities, renumbered.member, Option.map_map]
  rfl

variable [Theory.Nameless σ]

theorem deliverAll (renumbered : r.Renumbered π r') {t : Trail} (delivered : r.deliverAll t = .ok r₁) :
    ∃ r₁', r'.deliverAll t = .ok r₁' ∧ r₁.Renumbered π r₁' := by
  refine renumbered.changeAll (fun j m => ?_) delivered
  rw [Member.deliver_reindex]
  cases m.deliver t.literals <;> rfl

theorem openLevel (renumbered : r.Renumbered π r') (opened : r.openLevel = .ok r₁) :
    ∃ r₁', r'.openLevel = .ok r₁' ∧ r₁.Renumbered π r₁' :=
  renumbered.changeAll (fun _ _ => congrArg Except.ok Member.openLevel_reindex) opened

theorem backtrack (renumbered : r.Renumbered π r') {level : Nat} {t : Trail}
    (backtracked : r.backtrack level t = .ok r₁) :
    ∃ r₁', r'.backtrack level t = .ok r₁' ∧ r₁.Renumbered π r₁' :=
  renumbered.changeAll (fun _ _ => congrArg Except.ok (Member.backtrack_reindex _ _)) backtracked

theorem preprocess (renumbered : r.Renumbered π r') {occurs : Literal → Bool}
    (prepared : r.preprocess occurs = .ok r₁) :
    ∃ r₁', r'.preprocess occurs = .ok r₁' ∧ r₁.Renumbered π r₁' :=
  renumbered.changeAll (fun _ _ => Member.preprocess_reindex occurs) prepared

/-- New facts at the base level are told under other indices alike. -/
theorem clearSatisfied (renumbered : r.Renumbered π r') {t : Trail} {isNew : Bool}
    (cleared : r.clearSatisfied t = .ok (isNew, r₁)) :
    ∃ r₁', r'.clearSatisfied t = .ok (isNew, r₁') ∧ r₁.Renumbered π r₁' := by
  unfold Registry.clearSatisfied at cleared ⊢
  rw [renumbered.baseFacts]
  split at cleared <;> rename_i old
  · cases cleared
    rw [if_pos old]
    exact ⟨r', rfl, renumbered⟩
  · obtain ⟨_, changed, same⟩ := Except.bind_eq_ok cleared
    cases same
    have noted : Renumbered π { r with baseFacts := t.length } { r' with baseFacts := t.length } :=
      ⟨renumbered.member, renumbered.schedule, renumbered.decisions, rfl⟩
    obtain ⟨r₁', changed', after⟩ := noted.changeAll (fun _ _ => Member.clearSatisfied_reindex) changed
    rw [if_neg old, changed']
    exact ⟨r₁', rfl, after⟩

theorem undecideAll (renumbered : r.Renumbered π r') {decisions : List DecisionRecord}
    (undecided : r.undecideAll decisions = .ok r₁) :
    ∃ r₁', r'.undecideAll (decisions.map (DecisionRecord.renumber π)) = .ok r₁' ∧ r₁.Renumbered π r₁' := by
  induction decisions generalizing r r' with
  | nil =>
    cases undecided
    exact ⟨r', rfl, renumbered⟩
  | cons d rest ih =>
    obtain ⟨⟨outcome, between⟩, changed, others⟩ := Except.bind_eq_ok undecided
    obtain ⟨between', changed', first⟩ := renumbered.changeAt_same
      (h := fun m => .ok ((), { m with theory := Theory.undecide d.literal m.theory }, [.undecide d.literal]))
      (fun m => by
        dsimp only [Member.reindex]
        rw [(Theory.Nameless.isNameless m.theory).undecide]
        rfl) changed
    obtain ⟨r₁', others', last⟩ := ih first others
    refine ⟨r₁', ?_, last⟩
    rw [List.map_cons, Registry.undecideAll]
    exact (congrArg (Except.bind · _) changed').trans others'

theorem retractAbove (renumbered : r.Renumbered π r') {level : Nat}
    (retracted : r.retractAbove level = .ok r₁) :
    ∃ r₁', r'.retractAbove level = .ok r₁' ∧ r₁.Renumbered π r₁' := by
  have others : Renumbered π { r with decisions := r.decisions.dropWhile fun d => level < d.level }
      { r' with decisions := r'.decisions.dropWhile fun d => level < d.level } := by
    refine ⟨renumbered.member, renumbered.schedule, ?_, renumbered.baseFacts⟩
    rw [renumbered.decisions, List.dropWhile_map]
    rfl
  obtain ⟨r₁', undecided, after⟩ := others.undecideAll retracted
  refine ⟨r₁', ?_, after⟩
  unfold Registry.retractAbove
  rw [← undecided, renumbered.decisions, List.takeWhile_map]
  rfl

end Renumbered

end Registry

end SatModulo
