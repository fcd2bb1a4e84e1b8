import SatModulo.Proofs.Assignments
import SatModulo.Theory.Either
import Mathlib.Logic.Relation

/-!
# What turns may do

A turn makes literals true one by one, each by its own `Atoms.assign`. What may be asked for and what a
turn may end with is said of the tree of its steps (`Turn.Allows`), so it holds of every way in which
the turn can go (`Turn.Allows.run`).
-/
namespace SatModulo

/-- A literal is made true as the consequence of a theory. -/
def Atoms.Concludes (theory : Nat) (asks : Literal → Marker → Prop) (s s' : Atoms) : Prop :=
  ∃ l marker, asks l marker ∧ s.assign l (.theory theory marker) = .ok (.unset, s')

namespace Turn

variable {α β : Type} {asks : Literal → Marker → Prop} {ends : α → Prop} {s s' : Atoms} {i : Nat}

/-- A turn asks for such literals only, with such markers, and ends in such a way only. -/
def Allows (asks : Literal → Marker → Prop) (ends : α → Prop) : Turn α → Prop
  | .done a => ends a
  | .fault _ => True
  | .look resume => ∀ s, (resume s).Allows asks ends
  | .assign l marker resume => asks l marker ∧ ∀ status, (resume status).Allows asks ends

theorem allows_any (t : Turn α) : t.Allows (fun _ _ => True) fun _ => True := by
  induction t with
  | done a => exact trivial
  | fault cause => exact trivial
  | look resume ih => exact ih
  | assign l marker resume ih => exact ⟨trivial, ih⟩

theorem allows_ofExcept (x : Except Fault α) : (ofExcept x).Allows asks fun a => x = .ok a := by
  cases x with
  | error cause => exact trivial
  | ok a => exact rfl

theorem Allows.mono {t : Turn α} {weaker : α → Prop} (allows : t.Allows asks ends)
    (implied : ∀ a, ends a → weaker a) : t.Allows asks weaker := by
  induction t with
  | done a => exact implied a allows
  | fault cause => exact trivial
  | look resume ih => exact fun s => ih s (allows s)
  | assign l marker resume ih => exact ⟨allows.1, fun status => ih status (allows.2 status)⟩

/-- What a turn has made true is what it was allowed to ask for, with the markers it gave. -/
theorem Allows.run {t : Turn α} {a : α} (allows : t.Allows asks ends)
    (ran : t.run i s = .ok (a, s')) :
    ends a ∧ Relation.ReflTransGen (Atoms.Concludes i asks) s s' := by
  induction t generalizing s with
  | done b =>
    cases ran
    exact ⟨allows, .refl⟩
  | fault cause => cases ran
  | look resume ih => exact ih s (allows s) ran
  | assign l marker resume ih =>
    obtain ⟨asked, others⟩ := allows
    simp only [Turn.run] at ran
    split at ran
    · rename_i status between made
      obtain ⟨ended, chain⟩ := ih _ (others _) ran
      refine ⟨ended, ?_⟩
      by_cases unset : status = .unset
      · rw [unset] at made
        exact .head ⟨l, marker, asked, made⟩ chain
      · rwa [(Atoms.assign_eq_ok made).2.2 unset] at chain
    · exact ih _ (others _) ran

theorem Allows.andThen {t : Turn α} {next : α → Turn β} {final : β → Prop}
    (allows : t.Allows asks ends) (rest : ∀ a, ends a → (next a).Allows asks final) :
    (t.andThen next).Allows asks final := by
  induction t with
  | done a => exact rest a allows
  | fault cause => exact trivial
  | look resume ih => exact fun s => ih s (allows s)
  | assign l marker resume ih => exact ⟨allows.1, fun status => ih status (allows.2 status)⟩

theorem run_andThen (t : Turn α) (next : α → Turn β) (s : Atoms) :
    (t.andThen next).run i s = (t.run i s).bind fun (a, s) => (next a).run i s := by
  induction t generalizing s with
  | done a => rfl
  | fault cause => rfl
  | look resume ih => exact ih s s
  | assign l marker resume ih =>
    simp only [andThen, Turn.run]
    split
    · exact ih _ _
    · exact ih _ _

/-- A turn on the given atoms does not end in a fault, and ends as stated. -/
def Returns (t : Turn α) (i : Nat) (s : Atoms) (ends : α → Atoms → Prop) : Prop :=
  ∃ a s', t.run i s = .ok (a, s') ∧ ends a s'

namespace Returns

variable {final final' : α → Atoms → Prop}

theorem done {a : α} (holds : final a s) : (Turn.done a).Returns i s final := ⟨a, s, rfl, holds⟩

theorem mono {t : Turn α} (returns : t.Returns i s final) (weaker : ∀ a s', final a s' → final' a s') :
    t.Returns i s final' := by
  obtain ⟨a, s', ran, holds⟩ := returns
  exact ⟨a, s', ran, weaker a s' holds⟩

/-- A literal of a known atom becomes true, or has a value already. -/
theorem assign {l : Literal} {marker : Marker} {resume : Except AtomError Status → Turn α}
    (known : l.atom < s.count)
    (unset : ∀ s', s.assign l (.theory i marker) = .ok (.unset, s') →
      (resume (.ok .unset)).Returns i s' final)
    (same : s.valueOf l = some true → (resume (.ok .same)).Returns i s final)
    (different : s.valueOf l = some false → (resume (.ok .different)).Returns i s final) :
    (Turn.assign l marker resume).Returns i s final := by
  have made : ∃ outcome, s.assign l (.theory i marker) = .ok outcome := by
    unfold Atoms.assign
    rw [if_pos known]
    split <;> exact ⟨_, rfl⟩
  obtain ⟨⟨status, s'⟩, made⟩ := made
  have ran : (Turn.assign l marker resume).run i s = (resume (.ok status)).run i s' := by
    rw [Turn.run, made]
  unfold Returns
  rw [ran]
  obtain ⟨_, isStatus, kept⟩ := Atoms.assign_eq_ok made
  cases status with
  | unset => exact unset s' made
  | same =>
    rw [kept nofun]
    exact same (Literal.statusOn_eq_same.mp isStatus)
  | different =>
    rw [kept nofun]
    exact different (Literal.statusOn_eq_different.mp isStatus)

/-- The literal of an atom that is not known cannot be made true. -/
theorem assign_unknown {l : Literal} {marker : Marker} {resume : Except AtomError Status → Turn α}
    (unknown : ¬l.atom < s.count) (rest : (resume (.error .unknown)).Returns i s final) :
    (Turn.assign l marker resume).Returns i s final := by
  have refused : s.assign l (.theory i marker) = .error .unknown := if_neg unknown
  unfold Returns
  rw [Turn.run, refused]
  exact rest

theorem andThen {t : Turn α} {next : α → Turn β} {final' : β → Atoms → Prop}
    (returns : t.Returns i s final) (rest : ∀ a s', final a s' → (next a).Returns i s' final') :
    (t.andThen next).Returns i s final' := by
  obtain ⟨a, s', ran, holds⟩ := returns
  unfold Returns
  rw [run_andThen, ran]
  exact rest a s' holds

/-- A turn that ends ends as stated, whatever else is said of the ends of such a turn. -/
theorem both {t : Turn α} (returns : t.Returns i s final)
    (other : ∀ a s', t.run i s = .ok (a, s') → final' a s') :
    t.Returns i s fun a s' => final a s' ∧ final' a s' := by
  obtain ⟨a, s', ran, holds⟩ := returns
  exact ⟨a, s', ran, holds, other a s' ran⟩

end Returns

/-- If a turn on the given atoms ends, it ends as stated. -/
def Yields (t : Turn α) (i : Nat) (s : Atoms) (ends : α → Atoms → Prop) : Prop :=
  ∀ a s', t.run i s = .ok (a, s') → ends a s'

namespace Yields

variable {final : α → Atoms → Prop}

theorem done {a : α} (holds : final a s) : (Turn.done a).Yields i s final := by
  rintro _ _ ⟨⟩
  exact holds

theorem ofExcept_bind {x : Except Fault β} {next : β → Turn α}
    (rest : ∀ b, x = .ok b → (next b).Yields i s final) : (ofExcept x >>= next).Yields i s final := by
  cases x with
  | error cause => nofun
  | ok b => exact rest b rfl

/-- A literal becomes true, has a value already, or its atom is not known. -/
theorem assign {l : Literal} {marker : Marker} {resume : Except AtomError Status → Turn α}
    (unset : ∀ s', s.assign l (.theory i marker) = .ok (.unset, s') →
      (resume (.ok .unset)).Yields i s' final)
    (same : (resume (.ok .same)).Yields i s final)
    (different : s.valueOf l = some false → (resume (.ok .different)).Yields i s final)
    (unknown : ∀ e, (resume (.error e)).Yields i s final) : (Turn.assign l marker resume).Yields i s final := by
  intro a s'' ran
  rw [Turn.run] at ran
  split at ran
  · rename_i status s' made
    obtain ⟨_, isStatus, kept⟩ := Atoms.assign_eq_ok made
    cases status with
    | unset => exact unset s' made a s'' ran
    | same => exact same a s'' (kept nofun ▸ ran)
    | different => exact different (Literal.statusOn_eq_different.mp isStatus) a s'' (kept nofun ▸ ran)
  · exact unknown _ a s'' ran

end Yields

end Turn

end SatModulo
