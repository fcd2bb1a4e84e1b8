import SatModulo.Activity
import SatModulo.Error
import SatModulo.Setting

/-!
# Schedules

The order in which theories get their turn: by priority, then the more active first, then by index. A theory is
bumped when it takes part in a conflict, and later bumps weigh more; when an activity would pass the maximum,
all activities and the weight are scaled down together, which keeps their order. In every order each theory has
one turn (`order_perm`). The order and the growth of activities are those of `SPEC_FULL.md`, lines 36 and 89 to
90.
-/
namespace SatModulo

structure Standing (α : Type) where
  priority : Int
  activity : α
  deriving Repr

/-- The standings by index, the weight of the next bump, and how activities grow. -/
structure Schedule (α : Type) where
  standings : List (Standing α) := []
  weight : α
  decay : α
  maximum : α
  deriving Repr

namespace Schedule

/-- The empty schedule of some settings. They are read once, so a later change has no effect. -/
def ofSettings (s : ScheduleSettings) : Schedule Activity where
  weight := ⟨s.bump.value, false⟩
  decay := ⟨s.decay.value, false⟩
  maximum := ⟨s.maximum.value, false⟩

variable {α : Type}

def priority (s : Schedule α) (i : Nat) : Option Int := s.standings[i]?.map (·.priority)

def activity (s : Schedule α) (i : Nat) : Option α := s.standings[i]?.map (·.activity)

def modify (s : Schedule α) (i : Nat) (f : Standing α → Standing α) :
    Except TheoryError (Schedule α) :=
  if i < s.standings.length then .ok { s with standings := s.standings.modify i f }
  else .error (.unknownTheory i)

def setPriority (s : Schedule α) (i : Nat) (priority : Int) : Except TheoryError (Schedule α) :=
  s.modify i ({ · with priority })

def setActivity (s : Schedule α) (i : Nat) (activity : α) : Except TheoryError (Schedule α) :=
  s.modify i ({ · with activity })

section Ranking

variable [Measure α]

/-- Adds a theory of priority and activity zero, and gives its index. -/
def register (s : Schedule α) : Nat × Schedule α :=
  (s.standings.length, { s with standings := s.standings ++ [⟨0, Measure.zero⟩] })

/-- How two standings are ordered: the lower priority first, then the higher activity. -/
def compareStandings (a b : Standing α) : Ordering :=
  (compare a.priority b.priority).then (Measure.rank b.activity a.activity)

/-- Whether the theory of the first index has its turn before that of the second. -/
def precedes (s : Schedule α) (i j : Nat) : Bool :=
  match s.standings[i]?, s.standings[j]? with
  | some a, some b => (compareStandings a b).then (compare i j) == .lt
  | _, _ => decide (i < j)

/-- Puts an index before the first one that it precedes. -/
def insert (s : Schedule α) (i : Nat) : List Nat → List Nat
  | [] => [i]
  | j :: rest => if s.precedes i j then i :: j :: rest else j :: s.insert i rest

/-- The indices in the order of their turns. -/
def order (s : Schedule α) : List Nat :=
  (List.range s.standings.length).foldr s.insert []

theorem insert_perm (s : Schedule α) (i : Nat) (indices : List Nat) :
    (s.insert i indices).Perm (i :: indices) := by
  induction indices with
  | nil => exact .refl _
  | cons j rest ih =>
    unfold insert
    split
    · exact .refl _
    · exact (ih.cons j).trans (.swap i j rest)

/-- Every theory has one turn. -/
theorem order_perm (s : Schedule α) : s.order.Perm (List.range s.standings.length) := by
  unfold order
  induction List.range s.standings.length with
  | nil => exact .refl _
  | cons i rest ih => exact (s.insert_perm i _).trans (ih.cons i)

theorem nodup_order (s : Schedule α) : s.order.Nodup := s.order_perm.nodup_iff.mpr List.nodup_range

end Ranking

section Growth

variable [Reckoning α]

/-- The largest of the activities, or the weight if that is larger. -/
def peak (s : Schedule α) : α :=
  match s.standings with
  | [] => s.weight
  | first :: rest =>
    Reckoning.larger (rest.foldl (fun m r => Reckoning.larger m r.activity) first.activity) s.weight

/-- Scales the activities and the weight down, so that the largest becomes one. -/
def rescale (s : Schedule α) : Schedule α :=
  let factor := Reckoning.one / s.peak
  { s with
    standings := s.standings.map fun r => { r with activity := r.activity * factor }
    weight := s.weight * factor }

/-- Adds the weight to the activity of a theory and lets the weight grow. An unknown theory changes
nothing. -/
def bump (s : Schedule α) (i : Nat) : Schedule α :=
  match s.activity i with
  | none => s
  | some activity =>
    let s := if Reckoning.exceeds (activity + s.weight) s.maximum then s.rescale else s
    { s with
      standings := s.standings.modify i fun r => { r with activity := r.activity + s.weight }
      weight := s.weight * (Reckoning.one / (Reckoning.one - s.decay)) }

end Growth

/-- Bumps a theory by the conventions of a machine. -/
def bumpBy (conventions : Conventions) (s : Schedule Activity) (i : Nat) : Schedule Activity := s.bump i

end Schedule

end SatModulo
