import SatModulo.Proofs.Doubles
import SatModulo.Proofs.TotalOrder

/-!
# Schedules of renumbered theories

Theories that are registered in another order have other indices, and the same standings under them. Bumping
theories keeps that so (`Schedule.Renumbered.bump`). The largest activity is looked for in the order of indices,
and is the same in any order where it is above zero (`Schedule.Renumbered.peak_eq`): it is wherever activities
are scaled down, as the maximum of a schedule is not below zero. Where no two theories have the same priority,
they get their turns in the same order (`Schedule.Renumbered.order_eq`).
-/
namespace SatModulo

namespace Activity

variable {a b : Activity} {all all' : List Activity}

/-- A largest one of some activities, other than what is no number. -/
structure IsLargest (all : List Activity) (a : Activity) : Prop where
  mem : a ∈ all
  isNumber : a.value.isNaN = false
  not_lt : ∀ b ∈ all, b.value.isNaN = false → ¬a.value < b.value

/-- What a search for the largest activity has found: that, or that there are no numbers. -/
def Leads (all : List Activity) (a : Activity) : Prop :=
  (∀ b ∈ all, b.value.isNaN = true) ∧ a.value.isNaN = true ∨ IsLargest all a

theorem leads_singleton (a : Activity) : Leads [a] a := by
  cases number : a.value.isNaN with
  | true => exact .inl ⟨List.forall_mem_singleton.mpr number, number⟩
  | false =>
    refine .inr ⟨.head _, number, List.forall_mem_singleton.mpr fun _ => not_lt_self⟩

/-- Where some activity is above zero, so is the largest, and there is only one. -/
theorem Leads.value_eq (leads : Leads all a) (leads' : Leads all' b) (same : ∀ c, c ∈ all ↔ c ∈ all')
    {c : Activity} (member : c ∈ all) (above : 0.0 < c.value) :
    a.value.isNaN = false ∧ a.value = b.value := by
  have isNumber := (isNaN_of_lt above).2
  have found : ∀ {all : List Activity} {a : Activity}, Leads all a → c ∈ all →
      IsLargest all a ∧ 0.0 < a.value := by
    rintro all a (⟨none', _⟩ | largest) member
    · rw [none' c member] at isNumber
      cases isNumber
    · exact ⟨largest, lt_of_lt_of_not_lt above (largest.not_lt c member isNumber) largest.isNumber⟩
  obtain ⟨largest, positive⟩ := found leads member
  obtain ⟨largest', positive'⟩ := found leads' ((same c).mp member)
  refine ⟨largest.isNumber, eq_of_not_lt positive positive' ?_ ?_⟩
  · exact largest.not_lt b ((same b).mpr largest'.mem) largest'.isNumber
  · exact largest'.not_lt a ((same a).mp largest.mem) largest.isNumber

variable [Conventions]

/-- Whatever the conventions, a number is taken before what is none, and no number before one above it. -/
theorem larger_spec (a b : Activity) :
    a.larger b = a ∧ (a.value.isNaN = true → b.value.isNaN = true) ∧ ¬a.value < b.value ∨
      a.larger b = b ∧ (b.value.isNaN = true → a.value.isNaN = true) ∧ ¬b.value < a.value := by
  unfold larger
  split
  · rename_i left
    rcases left with more | ⟨isNaN, isNumber⟩
    · exact .inl ⟨rfl, fun isNaN => absurd isNaN (Bool.eq_false_iff.mp (isNaN_of_lt more).2), not_lt_of_lt more⟩
    · refine .inl ⟨rfl, fun _ => isNaN, fun less => ?_⟩
      exact absurd isNaN (Bool.eq_false_iff.mp (isNaN_of_lt less).2)
  · rename_i notLeft
    split
    · rename_i right
      rcases right with more | ⟨isNaN, isNumber⟩
      · exact .inr ⟨rfl, fun isNaN => absurd isNaN (Bool.eq_false_iff.mp (isNaN_of_lt more).2), not_lt_of_lt more⟩
      · exact .inr ⟨rfl, fun _ => isNaN, fun less => notLeft (.inl less)⟩
    · rename_i notRight
      rw [not_or, not_and_not_right] at notLeft notRight
      split
      · exact .inr ⟨rfl, notLeft.2, notLeft.1⟩
      · exact .inl ⟨rfl, notRight.2, notRight.1⟩

/-- The search goes on to one activity more. -/
theorem Leads.larger (leads : Leads all a) (b : Activity) : Leads (all ++ [b]) (Reckoning.larger a b) := by
  have last : b ∈ all ++ [b] := List.mem_append_right _ (.head _)
  change Leads _ (a.larger b)
  rcases leads with ⟨none', isNaN⟩ | ⟨member, isNumber, most⟩
  · cases number : b.value.isNaN with
    | true =>
      refine .inl ⟨List.forall_mem_append.mpr ⟨none', List.forall_mem_singleton.mpr number⟩, ?_⟩
      rcases larger_spec a b with ⟨same, _⟩ | ⟨same, _⟩ <;> rwa [same]
    | false =>
      rcases larger_spec a b with ⟨_, gives, _⟩ | ⟨same, _⟩
      · rw [gives isNaN] at number
        cases number
      · rw [same]
        refine .inr ⟨last, number, List.forall_mem_append.mpr ⟨fun c inside isNumber => ?_, ?_⟩⟩
        · rw [none' c inside] at isNumber
          cases isNumber
        · exact List.forall_mem_singleton.mpr fun _ => not_lt_self
  · rcases larger_spec a b with ⟨same, _, notLess⟩ | ⟨same, gives, notLess⟩
    · rw [same]
      refine .inr ⟨List.mem_append_left _ member, isNumber, List.forall_mem_append.mpr ⟨most, ?_⟩⟩
      exact List.forall_mem_singleton.mpr fun _ => notLess
    · rw [same]
      have number := Bool.eq_false_iff.mpr (mt gives (Bool.eq_false_iff.mp isNumber))
      refine .inr ⟨last, number, List.forall_mem_append.mpr ⟨fun c inside numberC less => ?_, ?_⟩⟩
      · exact most c inside numberC (lt_of_not_lt_of_lt notLess less isNumber)
      · exact List.forall_mem_singleton.mpr fun _ => not_lt_self

theorem Leads.foldl {α : Type} {f : α → Activity} (leads : Leads all a) (rest : List α) :
    Leads (all ++ rest.map f) (rest.foldl (fun m x => Reckoning.larger m (f x)) a) := by
  induction rest generalizing all a with
  | nil => simpa using leads
  | cons x rest ih => simpa using ih (leads.larger (f x))

theorem isNaN_one : (Reckoning.one : Activity).value.isNaN = false := by
  change (1.0 : Float).isNaN = false
  decide

theorem lift_congr {op : Operation} {b' : Activity} (isNumber : b.value.isNaN = false)
    (same : b.value = b'.value) (isNumber' : a.value.isNaN = false) : lift op a b = lift op a b' := by
  unfold lift
  rw [← same, if_neg (Bool.eq_false_iff.mp isNumber), if_neg (Bool.eq_false_iff.mp isNumber'),
    if_neg (Bool.eq_false_iff.mp isNumber)]

/-- A sum above zero has a summand above zero. -/
theorem pos_of_add (above : 0.0 < (a + b).value) : 0.0 < a.value ∨ 0.0 < b.value := by
  change 0.0 < (lift .sum a b).value at above
  unfold lift at above
  split at above
  · split at above
    · exact .inl above
    · exact .inr above
  · split at above
    · exact .inl above
    · exact SatModulo.pos_of_add above

end Activity

namespace Schedule

def Ranked (s : Schedule Activity) : Prop := (s.standings.map (·.priority)).Nodup

instance (s : Schedule Activity) : Decidable s.Ranked := inferInstanceAs (Decidable (List.Nodup _))

theorem Ranked.of_priorities {s s' : Schedule Activity} (ranked : s.Ranked)
    (same : s'.standings.map (·.priority) = s.standings.map (·.priority)) : s'.Ranked := by
  rwa [Ranked, same]

/-- Two schedules with the same standings under other indices, where no two theories have the same priority. -/
structure Renumbered (π : Equiv.Perm Nat) (s s' : Schedule Activity) : Prop where
  standing (i : Nat) : s'.standings[π i]? = s.standings[i]?
  weight : s'.weight = s.weight
  decay : s'.decay = s.decay
  maximum : s'.maximum = s.maximum
  /-- The maximum is not below zero. -/
  bounded : ¬s.maximum.value < 0.0
  ranked : s.Ranked

variable {s s' : Schedule Activity}

def activities (s : Schedule Activity) : List Activity := s.standings.map (·.activity) ++ [s.weight]

theorem peak_leads [Conventions] (s : Schedule Activity) : Activity.Leads s.activities s.peak := by
  unfold activities peak
  cases s.standings with
  | nil => exact Activity.leads_singleton _
  | cons first rest => exact ((Activity.leads_singleton first.activity).foldl rest).larger s.weight

namespace Renumbered

variable {π : Equiv.Perm Nat}

theorem mem_standings (renumbered : s.Renumbered π s') (standing : Standing Activity) :
    standing ∈ s.standings ↔ standing ∈ s'.standings := by
  rw [List.mem_iff_getElem?, List.mem_iff_getElem?]
  refine ⟨fun ⟨i, found⟩ => ⟨π i, (renumbered.standing i).trans found⟩, fun ⟨i, found⟩ => ⟨π.symm i, ?_⟩⟩
  rw [← renumbered.standing, Equiv.apply_symm_apply, found]

theorem mem_activities (renumbered : s.Renumbered π s') (a : Activity) :
    a ∈ s.activities ↔ a ∈ s'.activities := by
  simp only [activities, List.mem_append, List.mem_map, renumbered.mem_standings, renumbered.weight]

theorem activity_eq (renumbered : s.Renumbered π s') (i : Nat) : s'.activity (π i) = s.activity i :=
  congrArg _ (renumbered.standing i)

theorem priority_eq (renumbered : s.Renumbered π s') (i : Nat) : s'.priority (π i) = s.priority i :=
  congrArg _ (renumbered.standing i)

variable [Conventions]

/-- Activities are scaled down by the same factor in whatever order the theories are. -/
theorem factor_eq (renumbered : s.Renumbered π s') {a : Activity} (member : a ∈ s.activities)
    (exceeds : Reckoning.exceeds (a + s.weight) s.maximum = true) :
    (Reckoning.one / s.peak : Activity) = Reckoning.one / s'.peak := by
  have isMore : s.maximum.value < (a + s.weight).value := of_decide_eq_true exceeds
  have above : 0.0 < (a + s.weight).value :=
    lt_of_not_lt_of_lt renumbered.bounded isMore rfl
  have weight : s.weight ∈ s.activities := List.mem_append_right _ (.head _)
  obtain ⟨isNumber, same⟩ := (Activity.pos_of_add above).elim
    (s.peak_leads.value_eq s'.peak_leads renumbered.mem_activities member)
    (s.peak_leads.value_eq s'.peak_leads renumbered.mem_activities weight)
  exact Activity.lift_congr isNumber same Activity.isNaN_one

/-- A theory gets the weight, and the weight grows. -/
theorem reward (renumbered : s.Renumbered π s') (i : Nat) :
    Renumbered π
      { s with
        standings := s.standings.modify i fun r => { r with activity := r.activity + s.weight }
        weight := s.weight * (Reckoning.one / (Reckoning.one - s.decay)) }
      { s' with
        standings := s'.standings.modify (π i) fun r => { r with activity := r.activity + s'.weight }
        weight := s'.weight * (Reckoning.one / (Reckoning.one - s'.decay)) } where
  standing j := by
    simp only [List.getElem?_modify, renumbered.standing, renumbered.weight, π.injective.eq_iff]
  weight := by simp only [renumbered.weight, renumbered.decay]
  decay := renumbered.decay
  maximum := renumbered.maximum
  bounded := renumbered.bounded
  ranked := renumbered.ranked.of_priorities (List.ext_getElem? fun j => by
    simp [List.getElem?_modify, Function.comp_def, apply_ite])

theorem rescale (renumbered : s.Renumbered π s') {a : Activity} (member : a ∈ s.activities)
    (exceeds : Reckoning.exceeds (a + s.weight) s.maximum = true) : s.rescale.Renumbered π s'.rescale where
  standing j := by
    simp only [Schedule.rescale, List.getElem?_map, renumbered.standing, renumbered.factor_eq member exceeds]
  weight := by
    simp only [Schedule.rescale, renumbered.weight, renumbered.factor_eq member exceeds]
  decay := renumbered.decay
  maximum := renumbered.maximum
  bounded := renumbered.bounded
  ranked := renumbered.ranked.of_priorities (by simp [Schedule.rescale, Function.comp_def])

/-- Bumping a theory bumps it under its other index. -/
theorem bump (renumbered : s.Renumbered π s') (i : Nat) : (s.bump i).Renumbered π (s'.bump (π i)) := by
  unfold Schedule.bump
  rw [renumbered.activity_eq]
  cases found : s.activity i with
  | none => exact renumbered
  | some a =>
    obtain ⟨standing, inside, rfl⟩ := Option.map_eq_some_iff.mp found
    have member : standing.activity ∈ s.activities :=
      List.mem_append_left _ (List.mem_map_of_mem (List.mem_of_getElem? inside))
    refine reward ?_ i
    rw [renumbered.weight, renumbered.maximum]
    split
    · exact renumbered.rescale member ‹_›
    · exact renumbered

omit [Conventions] in
theorem bumpBy (renumbered : s.Renumbered π s') (conventions : Conventions) (i : Nat) :
    (s.bumpBy conventions i).Renumbered π (s'.bumpBy conventions (π i)) := renumbered.bump i

end Renumbered

/-! ### Turns -/

def rank (s : Schedule Activity) (i : Nat) : Int := (s.priority i).getD 0

theorem Before.rank_le {i j : Nat} (before : s.Before Activity.bits i j) : s.rank i ≤ s.rank j := by
  obtain ⟨a, b, foundA, foundB, ordered⟩ := before
  unfold rank priority
  rw [foundA, foundB]
  rcases ordered with lower | ⟨same, _⟩
  · exact Int.le_of_lt lower
  · exact Int.le_of_eq same

/-- Theories of lower priority have their turns first. -/
theorem pairwise_order (s : Schedule Activity) : s.order.Pairwise (s.rank · ≤ s.rank ·) :=
  (pairwise_before_order Activity.ranksBits s).imp Before.rank_le

/-- Theories of the same rank are the same. -/
theorem Ranked.eq_of_rank {i j : Nat} (ranked : s.Ranked) (inside : i < s.standings.length)
    (inside' : j < s.standings.length) (same : s.rank i = s.rank j) : i = j := by
  unfold rank priority at same
  rw [List.getElem?_eq_getElem inside, List.getElem?_eq_getElem inside'] at same
  refine (List.getElem?_inj (by simpa using inside) ranked).mp ?_
  rw [List.getElem?_map, List.getElem?_map, List.getElem?_eq_getElem inside, List.getElem?_eq_getElem inside']
  exact congrArg some same

namespace Renumbered

variable {π : Equiv.Perm Nat}

theorem lt_length_iff (renumbered : s.Renumbered π s') (i : Nat) :
    π i < s'.standings.length ↔ i < s.standings.length := by
  rw [← not_iff_not, Nat.not_lt, Nat.not_lt, ← List.getElem?_eq_none_iff, ← List.getElem?_eq_none_iff,
    renumbered.standing]

theorem rank_eq (renumbered : s.Renumbered π s') (i : Nat) : s'.rank (π i) = s.rank i :=
  congrArg (·.getD 0) (renumbered.priority_eq i)

/-- Theories of distinct priorities have their turns in the same order. -/
theorem order_eq (renumbered : s.Renumbered π s') : s'.order = s.order.map π := by
  have inside : ∀ k ∈ s'.order, ∃ i < s.standings.length, π i = k := by
    intro k member
    rw [mem_order, ← π.apply_symm_apply k, renumbered.lt_length_iff] at member
    exact ⟨_, member, π.apply_symm_apply k⟩
  have antisymm : ∀ a b, a ∈ s'.order → b ∈ s.order.map π → s'.rank a ≤ s'.rank b → s'.rank b ≤ s'.rank a →
      a = b := by
    intro a b memberA memberB le ge
    obtain ⟨i, insideI, rfl⟩ := inside a memberA
    obtain ⟨j, memberJ, rfl⟩ := List.mem_map.mp memberB
    rw [renumbered.rank_eq, renumbered.rank_eq] at le ge
    rw [renumbered.ranked.eq_of_rank insideI (mem_order.mp memberJ) (Int.le_antisymm le ge)]
  refine List.Perm.eq_of_pairwise antisymm s'.pairwise_order ?_ ?_
  · refine List.pairwise_map.mpr (s.pairwise_order.imp fun le => ?_)
    rwa [renumbered.rank_eq, renumbered.rank_eq]
  · refine (List.perm_ext_iff_of_nodup s'.nodup_order (s.nodup_order.map π.injective)).mpr fun k => ?_
    refine ⟨fun member => ?_, fun member => ?_⟩
    · obtain ⟨i, insideI, rfl⟩ := inside k member
      exact List.mem_map_of_mem (mem_order.mpr insideI)
    · obtain ⟨i, memberI, rfl⟩ := List.mem_map.mp member
      exact mem_order.mpr ((renumbered.lt_length_iff i).mpr (mem_order.mp memberI))

end Renumbered

end Schedule

end SatModulo
