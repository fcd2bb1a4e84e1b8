import SatModulo.Proofs.Assignments
import Mathlib.Data.List.Nodup

/-!
# The meaning of clauses

A total valuation makes a literal true when it gives the atom the polarity, and a clause when it makes
one of its literals true. The state of a clause under the values of atoms is read off its literals
(`stateOn_eq_falsified`, `stateOn_eq_unit`), and its normal form has the same literals
(`normalise_eq_ok`).
-/
namespace SatModulo

def Literal.Holds (v : Atom → Bool) (l : Literal) : Prop := v l.atom = l.polarity

instance (v : Atom → Bool) (l : Literal) : Decidable (l.Holds v) :=
  inferInstanceAs (Decidable (v l.atom = l.polarity))

def Clause.Holds (v : Atom → Bool) (c : Clause) : Prop := ∃ l ∈ c, l.Holds v

instance (v : Atom → Bool) (c : Clause) : Decidable (c.Holds v) :=
  inferInstanceAs (Decidable (∃ l ∈ c, l.Holds v))

theorem Literal.holds_negate {v : Atom → Bool} {l : Literal} (proper : l.atom ≠ topAtom) :
    l.negate.Holds v ↔ ¬l.Holds v := by
  rw [Holds, Holds, atom_negate, polarity_negate proper]
  cases v l.atom <;> cases l.polarity <;> simp

namespace Clause

variable {value : Atom → Option Bool} {c : Clause} {l : Literal}

theorem stateOn_eq_falsified : c.stateOn value = .falsified ↔ ∀ l ∈ c, l.valueOn value = some false := by
  induction c with
  | nil => simp [stateOn]
  | cons m rest ih =>
    rw [stateOn, List.forall_mem_cons, ← ih, ← Literal.statusOn_eq_different]
    cases m.statusOn value with
    | same => simp
    | different => simp
    | unset => cases stateOn value rest <;> simp

/-- The literal that a clause forces occurs in it, without a value, and all others are false. -/
theorem stateOn_eq_unit (forces : c.stateOn value = .unit l) :
    l ∈ c ∧ l.valueOn value = none ∧ ∀ m ∈ c, m ≠ l → m.valueOn value = some false := by
  induction c with
  | nil => cases forces
  | cons m rest ih =>
    rw [stateOn] at forces
    cases status : m.statusOn value with
    | same => rw [status] at forces; cases forces
    | different =>
      rw [status] at forces
      obtain ⟨member, unset, others⟩ := ih forces
      refine ⟨.tail _ member, unset, List.forall_mem_cons.mpr ⟨fun _ => ?_, others⟩⟩
      exact Literal.statusOn_eq_different.mp status
    | unset =>
      simp only [status] at forces
      split at forces
      · rename_i falsified
        cases forces
        refine ⟨.head _, Literal.statusOn_eq_unset.mp status, List.forall_mem_cons.mpr ⟨?_, ?_⟩⟩
        · exact fun other => absurd rfl other
        · exact fun n member _ => stateOn_eq_falsified.mp falsified n member
      · cases forces

/-- A literal without a value is forced where all others are false, as clauses do not repeat literals. -/
theorem stateOn_of_unit (distinct : c.Nodup) (member : l ∈ c) (unset : l.valueOn value = none)
    (others : ∀ m ∈ c, m ≠ l → m.valueOn value = some false) : c.stateOn value = .unit l := by
  induction c with
  | nil => cases member
  | cons m rest ih =>
    rw [List.nodup_cons] at distinct
    rw [stateOn]
    rcases List.mem_cons.mp member with rfl | later
    · have restFalse : stateOn value rest = .falsified := by
        refine stateOn_eq_falsified.mpr fun n inRest => others n (.tail _ inRest) ?_
        rintro rfl
        exact distinct.1 inRest
      rw [Literal.statusOn_eq_unset.mpr unset, restFalse]
    · have different : m ≠ l := by
        rintro rfl
        exact distinct.1 later
      rw [Literal.statusOn_eq_different.mpr (others m (.head _) different)]
      exact ih distinct.2 later fun n inRest => others n (.tail _ inRest)

/-- A clause with a true literal forces nothing, wherever the literal stands. -/
theorem stateOn_of_true (member : l ∈ c) (value' : l.valueOn value = some true) :
    c.stateOn value = .unforced := by
  cases state : c.stateOn value with
  | unforced => rfl
  | falsified =>
    rw [stateOn_eq_falsified.mp state l member] at value'
    cases value'
  | unit m =>
    obtain ⟨_, unset, others⟩ := stateOn_eq_unit state
    by_cases same : l = m
    · rw [same, unset] at value'
      cases value'
    · rw [others l member same] at value'
      cases value'

/-- Two literals without a value leave a clause unforced. -/
theorem stateOn_of_two_unset {m : Literal} (memberL : l ∈ c) (memberM : m ∈ c) (different : l ≠ m)
    (unsetL : l.valueOn value = none) (unsetM : m.valueOn value = none) :
    c.stateOn value = .unforced := by
  cases state : c.stateOn value with
  | unforced => rfl
  | falsified =>
    rw [stateOn_eq_falsified.mp state l memberL] at unsetL
    cases unsetL
  | unit n =>
    obtain ⟨_, _, others⟩ := stateOn_eq_unit state
    by_cases same : l = n
    · rw [others m memberM (by rw [← same]; exact Ne.symm different)] at unsetM
      cases unsetM
    · rw [others l memberL same] at unsetL
      cases unsetL

/-- A clause that is not decided has a true literal, or two without a value. -/
theorem of_stateOn_unforced (distinct : c.Nodup) (state : c.stateOn value = .unforced) :
    (∃ l ∈ c, l.valueOn value = some true) ∨
      ∃ l ∈ c, ∃ m ∈ c, l ≠ m ∧ l.valueOn value = none ∧ m.valueOn value = none := by
  by_contra neither
  rw [not_or] at neither
  obtain ⟨noneTrue, atMostOne⟩ := neither
  push Not at noneTrue atMostOne
  by_cases allFalse : ∀ l ∈ c, l.valueOn value = some false
  · rw [stateOn_eq_falsified.mpr allFalse] at state
    cases state
  · push Not at allFalse
    obtain ⟨l, member, notFalse⟩ := allFalse
    have unset : l.valueOn value = none := by
      cases given : l.valueOn value with
      | none => rfl
      | some b => cases b <;> simp_all
    have unit := stateOn_of_unit distinct member unset fun m inC other => by
      cases given : m.valueOn value with
      | none => exact absurd given (atMostOne l member m inC (Ne.symm other) unset)
      | some b =>
        cases b with
        | false => rfl
        | true => exact absurd given (noneTrue m inC)
    rw [unit] at state
    cases state

theorem mem_addNew {m : Literal} : l ∈ c.addNew m ↔ l ∈ c ∨ l = m := by
  unfold addNew
  split
  · rename_i member
    exact ⟨.inl, fun either => either.elim id (fun same => same ▸ member)⟩
  · rw [List.mem_append, List.mem_singleton]

theorem mem_addAllNew {literals : List Literal} : l ∈ c.addAllNew literals ↔ l ∈ c ∨ l ∈ literals := by
  unfold addAllNew
  induction literals generalizing c with
  | nil => simp
  | cons m rest ih =>
    rw [List.foldl_cons, ih, mem_addNew, List.mem_cons]
    exact or_assoc

theorem nodup_addAllNew {literals : List Literal} (distinct : c.Nodup) : (c.addAllNew literals).Nodup := by
  unfold addAllNew
  induction literals generalizing c with
  | nil => exact distinct
  | cons m rest ih =>
    refine ih ?_
    unfold addNew
    split
    · exact distinct
    · rename_i absent
      exact List.nodup_append.mpr ⟨distinct, by simp, by rintro a inC b new rfl; simp_all⟩

/-! ### Normal forms -/

/-- The next literal is the opposite of one that was kept, or was kept before, or is kept now. -/
theorem normaliseFrom_cons_eq_ok {kept rest : Clause} {m : Literal} {result : Option Clause}
    (success : normaliseFrom kept (m :: rest) = .ok result) :
    m.negate ∈ kept ∧ result = none ∨ m.negate ∉ kept ∧
      (m ∈ kept ∧ normaliseFrom kept rest = .ok result ∨
        m ∉ kept ∧ normaliseFrom (kept ++ [m]) rest = .ok result) := by
  rw [normaliseFrom] at success
  cases opposite : m.negate? with
  | error cause => rw [opposite] at success; cases success
  | ok opposed =>
    obtain rfl : opposed = m.negate := by
      unfold Literal.negate? at opposite
      split at opposite <;> cases opposite
      rfl
    rw [opposite] at success
    simp only [bind, Except.bind] at success
    split at success
    · rename_i clash
      cases success
      exact .inl ⟨clash, rfl⟩
    · rename_i noClash
      split at success
      · rename_i repeated
        exact .inr ⟨noClash, .inl ⟨repeated, success⟩⟩
      · rename_i new
        exact .inr ⟨noClash, .inr ⟨new, success⟩⟩

/-- A normal form has the literals of the clause on distinct atoms; only where a literal clashes with an earlier one
is there none. -/
theorem normaliseFrom_eq_ok {kept : Clause} {result : Option Clause}
    (success : normaliseFrom kept c = .ok result) (distinct : (kept.map Literal.atom).Nodup) :
    match result with
    | some d => (d.map Literal.atom).Nodup ∧ ∀ l, l ∈ d ↔ l ∈ kept ∨ l ∈ c
    | none => ∃ l, (l ∈ kept ∨ l ∈ c) ∧ l.negate ∈ c := by
  induction c generalizing kept with
  | nil =>
    cases success
    exact ⟨distinct, by simp⟩
  | cons m rest ih =>
    rcases normaliseFrom_cons_eq_ok success with ⟨clash, rfl⟩ | ⟨noClash, ⟨repeated, success⟩ | ⟨new, success⟩⟩
    · refine ⟨m.negate, .inl clash, ?_⟩
      rw [Literal.negate_negate]
      exact .head _
    · have rest := ih success distinct
      cases result with
      | some d =>
        refine ⟨rest.1, fun l => ?_⟩
        rw [rest.2 l, List.mem_cons, or_left_comm, or_iff_right_of_imp (a := l = m)]
        rintro rfl
        exact .inl repeated
      | none =>
        obtain ⟨l, inEither, opposite⟩ := rest
        exact ⟨l, inEither.imp_right (.tail _), .tail _ opposite⟩
    · have apart : ((kept ++ [m]).map Literal.atom).Nodup := by
        rw [List.map_append, List.nodup_append]
        refine ⟨distinct, by simp, ?_⟩
        intro a inKept b last same
        obtain ⟨l, member, rfl⟩ := List.mem_map.mp inKept
        obtain rfl : b = m.atom := by simpa using last
        rcases Literal.eq_or_eq_negate same with rfl | rfl
        · exact new member
        · exact noClash member
      have rest := ih success apart
      cases result with
      | some d =>
        refine ⟨rest.1, fun l => ?_⟩
        rw [rest.2 l, List.mem_append, List.mem_singleton, List.mem_cons, or_assoc]
      | none =>
        obtain ⟨l, inEither, opposite⟩ := rest
        rw [List.mem_append, List.mem_singleton, or_assoc] at inEither
        exact ⟨l, inEither.imp_right List.mem_cons.mpr, .tail _ opposite⟩

/-- The normal form of a clause has the same literals, no two on one atom; a tautology has both
literals of an atom. -/
theorem normalise_eq_ok {result : Option Clause} (success : c.normalise = .ok result) :
    match result with
    | some d => (d.map Literal.atom).Nodup ∧ ∀ l, l ∈ d ↔ l ∈ c
    | none => ∃ l ∈ c, l.negate ∈ c := by
  have fromEmpty := normaliseFrom_eq_ok success List.nodup_nil
  cases result with
  | some d => simpa using fromEmpty
  | none => simpa using fromEmpty

end Clause

end SatModulo
