import SatModulo.Schedule
import SatModulo.Theory.Basic

/-!
# Registries of theories

The theories of a context with what the core keeps of each: how far the trail has been handed over, which atoms
are observed, how many levels were opened. The registry also keeps the decisions that were made on proposals,
and an account of every call of a theory, in order across theories. Delivery, levels and the record of decisions
are those of `SPEC_FULL.md`, lines 75 to 76, 81 and 87.
-/
namespace SatModulo

/-- A theory with what the core keeps of it. -/
structure Member (σ : Type) where
  theory : σ
  capabilities : Capabilities
  /-- The number of levels that were opened on the theory and not taken back. -/
  level : Nat := 0
  /-- How much of the trail has been handed over. -/
  head : Nat := 0
  preprocessed : Bool := false
  /-- The observed atoms, in ascending order. -/
  observed : List Atom := []
  deriving Repr

/-- A decision that was made on a proposal. -/
structure DecisionRecord where
  level : Nat
  theory : Nat
  literal : Literal
  reason : Option Marker
  deriving DecidableEq, Repr

/-- The theories by index, and what is kept of them together. -/
structure Registry (σ : Type) where
  members : List (Member σ) := []
  schedule : Schedule Activity
  /-- The decisions on proposals that stand, most recent first. -/
  decisions : List DecisionRecord := []
  /-- The number of facts at the base level when theories last heard of them. -/
  baseFacts : Nat := 0
  /-- Every call of a theory, oldest first. -/
  calls : Array (Nat × Call) := #[]
  deriving Repr

/-- Puts an atom into an ascending list that it is not in. -/
def insertAtom (a : Atom) : List Atom → List Atom
  | [] => [a]
  | b :: rest => if a < b then a :: b :: rest else b :: insertAtom a rest

namespace Member

variable {σ : Type}

def observes (m : Member σ) (a : Atom) : Bool := a ∈ m.observed

/-- The observed literals past the head of the trail: what the theory has still to be told. -/
def pending (literals : List Literal) (m : Member σ) : List Literal :=
  (literals.drop m.head).filter fun l => m.observes l.atom

/-- The literals of the observed atoms, the positive one of each first. -/
def observedLiterals (m : Member σ) : Except Fault (List Literal) := do
  let pairs ← m.observed.mapM fun a => do
    let positive ← Literal.ofAtom a true
    let negative ← Literal.ofAtom a false
    return [positive, negative]
  return pairs.flatten

variable [Theory σ]

/-- Hands over what is pending, and counts it. -/
def deliver (literals : List Literal) (m : Member σ) : Except Fault (Nat × Member σ × List Call) := do
  let facts := m.pending literals
  let theory ← facts.foldlM (fun s l => Theory.enqueue l s) m.theory
  return (facts.length, { m with theory, head := literals.length }, facts.map .enqueue)

/-- Prepares a theory, once, and tells which of the literals it observes occur in clauses. -/
def preprocess (occurs : Literal → Bool) (m : Member σ) : Except Fault (Member σ × List Call) := do
  if m.preprocessed then return (m, [])
  else
    let literals ← m.observedLiterals
    let theory := literals.foldl (fun s l => Theory.noteOccurs l (occurs l) s)
      (Theory.preprocess m.theory)
    return ({ m with theory, preprocessed := true },
      .preprocess :: literals.map fun l => .noteOccurs l (occurs l))

def openLevel (m : Member σ) : Member σ × List Call :=
  ({ m with theory := Theory.openLevel m.theory, level := m.level + 1 }, [.openLevel])

/-- Takes back what was handed over past the end of the trail, and the levels above a level. -/
def backtrack (level : Nat) (length : Nat) (m : Member σ) : Member σ × List Call :=
  let m := { m with head := min m.head length }
  if level < m.level then
    ({ m with theory := Theory.backtrack level m.theory, level }, [.backtrack level])
  else (m, [])

/-- Lets a theory that can make use of it know of facts at the base level. -/
def clearSatisfied (m : Member σ) : Except Fault (Member σ × List Call) :=
  if m.capabilities.clearSatisfied then do
    let theory ← Theory.clearSatisfied m.theory
    return ({ m with theory }, [.clearSatisfied])
  else .ok (m, [])

end Member

namespace Registry

variable {σ : Type}

def ofSettings (s : ScheduleSettings) : Registry σ := { schedule := .ofSettings s }

def count (r : Registry σ) : Nat := r.members.length

/-- Changes members in turn, where the first has the given index, and gives the calls it took. -/
def changeFrom (f : Member σ → Except Fault (Member σ × List Call)) :
    Nat → List (Member σ) → Except Fault (List (Member σ) × List (Nat × Call))
  | _, [] => .ok ([], [])
  | i, m :: rest => do
    let (m, calls) ← f m
    let (rest, later) ← changeFrom f (i + 1) rest
    return (m :: rest, calls.map (i, ·) ++ later)

/-- Changes every member, in the order of indices. -/
def changeAll (f : Member σ → Except Fault (Member σ × List Call)) (r : Registry σ) :
    Except Fault (Registry σ) := do
  let (members, calls) ← changeFrom f 0 r.members
  return { r with members, calls := r.calls ++ calls }

/-- Changes one member and gives what the change gives; an unknown index changes nothing. -/
def changeAt {α : Type} (i : Nat) (f : Member σ → Except Fault (α × Member σ × List Call))
    (r : Registry σ) : Except Fault (Option α × Registry σ) :=
  match r.members[i]? with
  | none => .ok (none, r)
  | some m => do
    let (a, m, calls) ← f m
    return (some a, { r with members := r.members.set i m, calls := r.calls ++ calls.map (i, ·) })

def capabilities (r : Registry σ) (i : Nat) : Option Capabilities :=
  r.members[i]?.map (·.capabilities)

def undelivered (r : Registry σ) (t : Trail) : Bool := r.members.any fun m => m.head < t.length

/-- The number of facts that handing over the trail would tell. -/
def pendingFacts (t : Trail) (r : Registry σ) : Nat :=
  (r.members.flatMap fun m => m.pending t.literals).length

/-- Marks an atom as observed, and tells whether it was not before. -/
def observe (i : Nat) (a : Atom) (r : Registry σ) : Except TheoryError (Bool × Registry σ) :=
  match r.members[i]? with
  | none => .error (.unknownTheory i)
  | some m =>
    if m.observes a then .ok (false, r)
    else .ok (true, { r with members := r.members.set i { m with observed := insertAtom a m.observed } })

def recordDecision (d : DecisionRecord) (r : Registry σ) : Registry σ :=
  { r with decisions := d :: r.decisions }

variable [Theory σ]

/-- Registers a theory under the next index. It must have no index yet, and must keep the one it is
given; a theory that forgets it is refused after it was told. -/
def register (theory : σ) (r : Registry σ) : Except TheoryError Nat × Registry σ :=
  let index := r.count
  match Theory.index? theory with
  | some given => (.error (.indexAlreadySet given), r)
  | none =>
    let theory := Theory.setIndex index theory
    let r := { r with calls := r.calls.push (index, .setIndex index) }
    if Theory.index? theory = some index then
      let member : Member σ := { theory, capabilities := Theory.capabilities theory }
      (.ok index, { r with members := r.members ++ [member], schedule := r.schedule.register.2 })
    else (.error (.indexNotKept index), r)

def deliver (i : Nat) (t : Trail) (r : Registry σ) : Except Fault (Nat × Registry σ) := do
  let (count, r) ← r.changeAt i (·.deliver t.literals)
  return (count.getD 0, r)

def deliverAll (t : Trail) (r : Registry σ) : Except Fault (Registry σ) :=
  r.changeAll fun m => do
    let (_, m, calls) ← m.deliver t.literals
    return (m, calls)

def openLevel (r : Registry σ) : Except Fault (Registry σ) := r.changeAll fun m => .ok m.openLevel

/-- Takes back the given decisions, each with word to the theory that proposed it. -/
def undecideAll : List DecisionRecord → Registry σ → Except Fault (Registry σ)
  | [], r => .ok r
  | d :: rest, r => do
    let (_, r) ← r.changeAt d.theory fun m =>
      .ok ((), { m with theory := Theory.undecide d.literal m.theory }, [.undecide d.literal])
    undecideAll rest r

/-- Takes back the decisions on proposals above a level, most recent first. -/
def retractAbove (level : Nat) (r : Registry σ) : Except Fault (Registry σ) :=
  undecideAll (r.decisions.takeWhile fun d => level < d.level)
    { r with decisions := r.decisions.dropWhile fun d => level < d.level }

def backtrack (level : Nat) (t : Trail) (r : Registry σ) : Except Fault (Registry σ) :=
  r.changeAll fun m => .ok (m.backtrack level t.length)

/-- Lets theories know of new facts at the base level, and tells whether there were any. -/
def clearSatisfied (t : Trail) (r : Registry σ) : Except Fault (Bool × Registry σ) :=
  if t.level ≠ 0 ∨ t.length ≤ r.baseFacts then .ok (false, r)
  else do
    let r ← changeAll (·.clearSatisfied) { r with baseFacts := t.length }
    return (true, r)

def preprocess (occurs : Literal → Bool) (r : Registry σ) : Except Fault (Registry σ) :=
  r.changeAll (·.preprocess occurs)

end Registry

end SatModulo
